import Pcow.Allocation
import Pcow.History
import Pcow.Close
import Pcow.Stop
import Pcow.Blocks
import Pcow.Walk
import Pcow.Crash
import Pcow.Monitor
import Pcow.Corrupt
import Pcow.Pages
import Pcow.Exit
import Pcow.Refine
import Pcow.Disk
import Pcow.Race
import Pcow.Slots
import Pcow.Inserts
import Pcow.Bounds
import Pcow.Table
import Pcow.Limit
import Pcow.Writers
import Pcow.Recent
import Pcow.Locks
import Pcow.Ram
import Pcow.Freed
import Pcow.Bitmap
import Pcow.Books
import Pcow.Flush
import Pcow.Format
import Pcow.Link
import Pcow.Arith
import Pcow.Entries
import Pcow.Ready
import Pcow.Tenants
import Pcow.Builds
import Pcow.Owners
import Pcow.Tool
import Pcow.Backend
import Pcow.Recover
import Pcow.Release
