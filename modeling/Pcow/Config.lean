import Mathlib.Data.Nat.Notation

/-!
# Build configuration and constants

The constants of `config.h` and `meta.h`, and the two build switches the
modelled functions depend on. The shipped configuration defines both.
-/

namespace Pcow

/-- The build switches. -/
structure Config where
  /-- `FINEGRAINED_COW`: copy on write in units of `COW_UNIT`. -/
  finegrainedCow : Bool
  /-- `PRE_ALLOC`: a thread allocates blocks ahead of their use. -/
  preAlloc : Bool
deriving DecidableEq

/-- The configuration of `config.h`. -/
def Config.shipped : Config := ⟨true, true⟩

/-- `ENTRY_SIZE`: an entry of a meta block is an `unsigned long` where copies are
fine-grained and an `unsigned int` where they are not. -/
def Config.entrySize (cfg : Config) : ℕ := if cfg.finegrainedCow then 8 else 4

/-- `CL_SIZE`: the length of a cache line. -/
abbrev clSize : ℕ := 64

/-- `ADDR_MASK`: the bits of an entry that name the virtual block. -/
abbrev addrMask : ℕ := 0x00000000ffffffff

/-- `MAX_PRE_NUM`: the slots of the ring of blocks allocated ahead. -/
abbrev maxPreNum : ℕ := 5

/-- `COW_UNIT`: the unit of a partial copy, and the size of a page. -/
abbrev cowUnit : ℕ := 4096

/-- `RECENT_RANK_THRESHOLD`: an entry whose rank in its bucket is below it is
copied as a whole. -/
abbrev recentRankThreshold : ℕ := 2

/-- `BUCKET_NUM`: the buckets of the table of incomplete blocks. -/
abbrev bucketNum : ℕ := 128

/-- `MAX_THREAD_NUM`: the number of recent lists and of copy locks. -/
abbrev maxThreadNum : ℕ := 128

/-- `MAX_CONCURRENT`: the size at which a recent list drops its oldest entry. -/
abbrev maxConcurrent : ℕ := 128

/-- `REG_LEN`: the longest range `fmmap` accepts. -/
abbrev regLen : ℕ := 512 * 1024 * 1024 * 1024

/-- The ways in which a call does not return to its caller. -/
inductive Fault
  /-- `new_block` exits: the layer already holds `max_block_num` blocks. -/
  | outOfRange
  /-- `read_meta` exits: the counter is larger than `max_per_seg`. -/
  | badCounter
  /-- `fallocate` failed, and the caller exits. -/
  | noSpace
  /-- An `assert` failed, or `abort` was called. -/
  | assertFailed
  /-- A mapped page past the end of its file was touched. -/
  | sigbus
  /-- An address that is not mapped was touched by the program itself. -/
  | sigsegv
  /-- A signed integer overflowed, which C leaves undefined. -/
  | overflow
  /-- An integer was divided by zero. -/
  | sigfpe
  /-- A loop that does not end. -/
  | endless
deriving DecidableEq

end Pcow
