import Pcow.Cow
import Pcow.Manager

/-!
# Sessions

`pcow.c`: `fmmap` maps an image into a range of memory, `uf_monitor` serves the
faults on pages that no layer has, `cow_handler` those on pages that are write
protected, and `fmunmap` ends the session.

The range is a page table (`Session.pages`) over the files of the system; virtual
addresses are offsets from its start. A page that is not mapped is in the area
that `userfaultfd` watches. `Session.load` and `Session.store` are one access of the
guest to one byte: the fault it runs into, if any, is served and the access is
made again. An access that is still not possible then would fault for ever, and
does not happen.

The handlers return, besides the session afterwards, the operations they issued on
the image file.
-/

namespace Pcow

/-- The state of a session. -/
structure Session where
  /-- The files of the system. -/
  fs : Fs
  /-- `cur_s`: the super block of the last layer. -/
  s : Super
  /-- `global_length`: the length handed to `fmmap`. -/
  globalLength : ℕ
  /-- The mappings of the range. -/
  pages : PageTable Path
  /-- The tables of `cow.c`. -/
  cow : CowTables
  /-- The blocks allocated ahead. -/
  ring : Ring

namespace Session

/-- The contents of the image file. -/
def file (ses : Session) : ByteFile := (ses.fs ses.s.fd).getD .empty

/-- Issue operations on the image file. -/
def issue (ses : Session) (ops : List FileOp) : Session :=
  { ses with fs := Function.update ses.fs ses.s.fd (some (FileOp.run ops ses.file)) }

/-- Map a part of the range anew. -/
def remap (ses : Session) (o : MapOp Path) : Session := { ses with pages := ses.pages.apply o }

/-- The byte of the range at `v`, where a page is mapped. -/
def byteAt (ses : Session) (v : ℕ) : Option UInt8 :=
  (ses.pages (v / pageSize)).map fun e =>
    ((ses.fs e.file).getD .empty).byte (e.off + v % pageSize)

/-- The bytes of the range from `voff` on, as a copy of mapped pages reads them. -/
def source (ses : Session) (voff : ℕ) : ℕ → UInt8 := fun i => (ses.byteAt (voff + i)).getD 0

/-! ### Missing pages -/

/-- One page-fault message of `uf_monitor`, for the page of `v`. -/
def ufMonitor (cfg : Config) (ses : Session) (n n' v : ℕ) : Except Fault (Session × List FileOp) :=
  let blockSize := u64 ses.s.blockSize
  let faultOff := v / pageSize * pageSize / blockSize * blockSize
  if faultOff ≤ u64 (ses.s.fmmapLength - ses.s.blockSize) then
    (newBlock cfg ses.file ses.s ses.ring n n' faultOff).map fun (s, ring, nb, ops) =>
      (({ ses.issue ops with s, ring }).remap
        (.mmap faultOff blockSize ses.s.fd nb.blockOff true), ops)
  else .ok (ses, [])

/-! ### Write-protected pages -/

/-- `meta_n`, as `insert_ht` computes it: the quotient is multiplied by the block
size once more, and the product is cut to an `int`. -/
def metaN (s : Super) : ℤ :=
  i32 (u64 ((u64 (s.activeMetaOff - s.myOff - s.blockSize) / u64 (s.maxPerSeg + 1) : ℕ) *
    s.blockSize) : ℕ)

/-- The increment of the field `fg_counter` of a meta block. -/
def fgCounterOps (f : ByteFile) (m : Meta) : List FileOp :=
  [storeInt (m.pmTop + 4) (i32 (f.loadInt (m.pmTop + 4) + 1))]

/-- The entry of a block just allocated; `m` is the meta block it is taken to be
in. -/
def newEntry (cfg : Config) (s : Super) (m : Meta) (nb : NewBlock) (faultVoffAligned : ℕ) :
    CowEntry where
  faultVoffAligned := faultVoffAligned
  m := m
  metaEntry := u64 (m.pmTop + clSize + cfg.entrySize * (s.activeMeta.counter - 1))
  blockOff := nb.blockOff
  moved := []
  copiedCounter := 0

/-- The second half of `insert_ht`: the entry of the block just allocated is linked
into the table. -/
def linkEntry (cfg : Config) (ses : Session) (nb : NewBlock) (faultVoffAligned : ℕ) :
    Except Fault (Session × CowEntry × List FileOp) :=
  (readMeta ses.file ses.s (metaN ses.s)).map fun m =>
    ({ ses.issue (fgCounterOps ses.file m) with
      cow := ses.cow.link (bucketNumber (u64 ses.s.blockSize) faultVoffAligned)
        (newEntry cfg ses.s m nb faultVoffAligned) },
      newEntry cfg ses.s m nb faultVoffAligned, fgCounterOps ses.file m)

/-- `insert_ht`: allocate a block and link an entry for it. -/
def insertHt (cfg : Config) (ses : Session) (n n' faultVoffAligned : ℕ) :
    Except Fault (Session × CowEntry × List FileOp) :=
  match newBlock cfg ses.file ses.s ses.ring n n' faultVoffAligned with
  | .error e => .error e
  | .ok (s, ring, nb, ops) =>
    (linkEntry cfg { ses.issue ops with s, ring } nb faultVoffAligned).map fun x =>
      (x.1, x.2.1, ops ++ x.2.2)

/-- `insert_list`: `none` if the unit was copied in the meantime, otherwise what is
to be copied and the entry of its block. -/
def insertList (cfg : Config) (ses : Session) (n n' voff : ℕ) :
    Except Fault (Session × Option (CowLEntry × CowEntry) × List FileOp) :=
  if ses.cow.InList voff then .ok (ses, none, [])
  else
    let blockSize := u64 ses.s.blockSize
    let key := voff / blockSize * blockSize
    let bucket := bucketNumber blockSize voff
    match searchHt key 0 (ses.cow.buckets bucket) with
    | some (ce, full, rest) =>
      let le : CowLEntry := if full then ⟨key, ses.s.blockSize⟩ else ⟨voff, cowUnit⟩
      .ok ({ ses with cow := (ses.cow.setBucket bucket rest).pushList voff le }, some (le, ce), [])
    | none =>
      (insertHt cfg ses n n' key).map fun (ses₁, ce, ops) =>
        let le : CowLEntry := ⟨voff, cowUnit⟩
        ({ ses₁ with cow := ses₁.cow.pushList voff le }, some (le, ce), ops)

/-- The flush loops of `cow_handler`, over a destination of `len` bytes: the bound
is divided by eight, and the step is eight as well. -/
def flushLoop (dst len : ℕ) : List FileOp :=
  (List.range ((len / 8 + 7) / 8)).map fun i => .flush (dst + 8 * i)

/-- The bit of the copy bitmap of a unit. -/
def cowBit (cowNum : ℕ) : ℕ := ((1 <<< (cowNum % 64)) <<< 32) % 2 ^ 64

/-- Store a new value into the entry of a block. -/
def entryStore (cfg : Config) (f : ByteFile) (metaEntry : ℕ) (h : ℕ → ℕ) : List FileOp :=
  [.store metaEntry cfg.entrySize (h (f.load metaEntry cfg.entrySize)), .flush metaEntry, .fence]

/-- The partial branch of `cow_handler`: copy one unit. The copy size is `COW_UNIT`
here, so that a single bit is set. -/
def copyUnit (cfg : Config) (ses : Session) (le : CowLEntry) (ce : CowEntry) (aligned : ℕ) :
    Except Fault (Session × List FileOp) :=
  let d := le.voff - aligned
  -- the mapping `map_addr` has a hole where a unit was moved out of it
  if d ∈ ce.moved then .error .sigsegv
  else
    let len := le.copySize.toNat
    let dst := ce.blockOff + d
    let ops₁ := FileOp.memcpy dst len (ses.source le.voff) ++ flushLoop dst len ++ [.fence]
    let ses₁ := (ses.issue ops₁).remap (.mremap le.voff len ses.s.fd dst)
    let ops₂ := entryStore cfg ses₁.file ce.metaEntry (· ||| cowBit (d / cowUnit))
    .ok ({ ses₁.issue ops₂ with
      cow := ses₁.cow.modify (bucketNumber (u64 ses.s.blockSize) aligned) aligned fun e =>
        { e with
          moved := d :: e.moved
          copiedCounter := e.copiedCounter + (d / cowUnit : ℕ) } }, ops₁ ++ ops₂)

/-- The other branch of `cow_handler`: copy the whole block, all of which is mapped. -/
def copyBlock (cfg : Config) (ses : Session) (ce : CowEntry) (aligned : ℕ) :
    Session × List FileOp :=
  let blockSize := u64 ses.s.blockSize
  let ops₁ := FileOp.memcpy ce.blockOff blockSize (ses.source aligned) ++
    flushLoop ce.blockOff blockSize ++ [.fence]
  let ses₁ := (ses.issue ops₁).remap (.mremap aligned blockSize ses.s.fd ce.blockOff)
  let ops₂ := entryStore cfg ses₁.file ce.metaEntry (· &&& addrMask)
  (ses₁.issue ops₂, ops₁ ++ ops₂)

/-- The first page of the block at `aligned` that is missing, by its number in the block. -/
def firstMissing (ses : Session) (aligned : ℕ) : Option ℕ :=
  (List.range (u64 ses.s.blockSize / pageSize)).find? fun i =>
    (ses.pages (aligned / pageSize + i)).isNone

/-- The `memcpy` of a block to `dst`, where page `i` of the block is the first one missing. The load
from it is a fault of its own: `uf_monitor` maps a block of the image over the whole range of the
copy, and the copy goes on with what is mapped then. -/
def copyMissing (cfg : Config) (ses : Session) (n n' dst aligned i : ℕ) :
    Except Fault (Session × List FileOp) :=
  let d := i * pageSize
  let ops₁ := FileOp.memcpy dst d (ses.source aligned)
  match ufMonitor cfg (ses.issue ops₁) n n' (aligned + d) with
  | .error e => .error e
  | .ok (ses₂, ops₂) =>
    -- a fault that is not served is there again at once
    if ses₂.firstMissing aligned ≠ none then .error .endless
    else
      let ops₃ := FileOp.memcpy (dst + d) (u64 ses.s.blockSize - d) (ses₂.source (aligned + d))
      .ok (ses₂.issue ops₃, ops₁ ++ ops₂ ++ ops₃)

/-- What `copyBlock` does once the block is copied. -/
def finishBlock (cfg : Config) (ses : Session) (ce : CowEntry) (aligned : ℕ) :
    Session × List FileOp :=
  let blockSize := u64 ses.s.blockSize
  let ops₁ := flushLoop ce.blockOff blockSize ++ [.fence]
  let ses₁ := (ses.issue ops₁).remap (.mremap aligned blockSize ses.s.fd ce.blockOff)
  let ops₂ := entryStore cfg ses₁.file ce.metaEntry (· &&& addrMask)
  (ses₁.issue ops₂, ops₁ ++ ops₂)

/-- The other branch of `cow_handler`, whether all of the block is mapped or not. -/
def copyWhole (cfg : Config) (ses : Session) (n n' : ℕ) (ce : CowEntry) (aligned : ℕ) :
    Except Fault (Session × List FileOp) :=
  match ses.firstMissing aligned with
  | none => .ok (copyBlock cfg ses ce aligned)
  | some i => (copyMissing cfg ses n n' ce.blockOff aligned i).map fun x =>
      ((finishBlock cfg x.1 ce aligned).1, x.2 ++ (finishBlock cfg x.1 ce aligned).2)

/-- `cow_handler` with `FINEGRAINED_COW` undefined, past the range check. -/
def copyPlain (cfg : Config) (ses : Session) (n n' aligned : ℕ) :
    Except Fault (Session × List FileOp) :=
  match newBlock cfg ses.file ses.s ses.ring n n' aligned with
  | .error e => .error e
  | .ok (s, ring, nb, ops₁) =>
    let blockSize := u64 s.blockSize
    let ses₁ := { ses.issue ops₁ with s, ring }
    match ses₁.firstMissing aligned with
    | none =>
      let ops₂ := FileOp.memcpy nb.blockOff blockSize (ses₁.source aligned)
      .ok ((ses₁.issue ops₂).remap (.mremap aligned blockSize s.fd nb.blockOff), ops₁ ++ ops₂)
    | some i => (copyMissing cfg ses₁ n n' nb.blockOff aligned i).map fun x =>
        (x.1.remap (.mremap aligned blockSize s.fd nb.blockOff), ops₁ ++ x.2)

/-- `cow_handler`, for a write to the protected page of `voff`. -/
def cowHandler (cfg : Config) (ses : Session) (n n' voff : ℕ) :
    Except Fault (Session × List FileOp) :=
  if voff > u64 (ses.globalLength - ses.s.blockSize) then .ok (ses, [])
  else
    let blockSize := u64 ses.s.blockSize
    let aligned := voff / blockSize * blockSize
    if cfg.finegrainedCow then
      let unit := voff / cowUnit * cowUnit
      if ses.cow.InList unit then .ok (ses, [])
      else
        match insertList cfg ses n n' unit with
        | .error e => .error e
        | .ok (ses₁, none, ops₁) => .ok (ses₁, ops₁)
        | .ok (ses₁, some (le, ce), ops₁) =>
          if le.copySize ≠ ses₁.s.blockSize then
            (copyUnit cfg ses₁ le ce aligned).map fun x => (x.1, ops₁ ++ x.2)
          else (copyWhole cfg ses₁ n n' ce aligned).map fun x => (x.1, ops₁ ++ x.2)
    else copyPlain cfg ses n n' aligned

/-! ### Accesses of the guest -/

/-- The fault an access to `v` runs into, served. -/
def fault (cfg : Config) (ses : Session) (n n' v : ℕ) (write : Bool) :
    Except Fault (Session × List FileOp) :=
  match ses.pages (v / pageSize) with
  | none => ufMonitor cfg ses n n' v
  | some e => if write && !e.writable then cowHandler cfg ses n n' v else .ok (ses, [])

/-- A load of the guest; `none` if it does not come to an end. -/
def load (cfg : Config) (ses : Session) (n n' v : ℕ) : Except Fault (Session × Option UInt8) :=
  match fault cfg ses n n' v false with
  | .error e => .error e
  | .ok (ses', _) =>
    match ses'.pages (v / pageSize) with
    | none => .ok (ses', none)
    | some e =>
      let f := (ses'.fs e.file).getD .empty
      if ¬f.Backed (e.off + v % pageSize) then .error .sigbus
      else .ok (ses', some (f.byte (e.off + v % pageSize)))

/-- A store of the guest; `false` if it does not come to an end. -/
def store (cfg : Config) (ses : Session) (n n' v : ℕ) (b : UInt8) :
    Except Fault (Session × Bool) :=
  match fault cfg ses n n' v true with
  | .error e => .error e
  | .ok (ses', _) =>
    match ses'.pages (v / pageSize) with
    | none => .ok (ses', false)
    | some e =>
      let f := (ses'.fs e.file).getD .empty
      if ¬e.writable then .ok (ses', false)
      else if ¬f.Backed (e.off + v % pageSize) then .error .sigbus
      else
        let f' := f.store (e.off + v % pageSize) 1 b.toNat
        .ok ({ ses' with fs := Function.update ses'.fs e.file (some f') }, true)

/-- The allocator thread makes an iteration. -/
def tick (cfg : Config) (ses : Session) : Except Fault Session :=
  if cfg.preAlloc then
    (allocate ses.s ses.ring).map fun (s, ring, ops) => { ses.issue ops with s, ring }
  else .ok ses

/-! ### Opening and closing -/

/-- The mapping loops over several layers. -/
def readonlyMaps (cfg : Config) (f : ByteFile) : List Super → Except Fault (List (MapOp Path))
  | [] => .ok []
  | s :: l => match doReadonlyFmmap cfg f s with
    | .error e => .error e
    | .ok m => (readonlyMaps cfg f l).map (m ++ ·)

/-- The loop of `do_base_fmmap`: `s` is the layer it maps next and `tmp` the one it has
read last, which are the same at the start. The layer the walk ends with is mapped after
the loop. Every round frees the struct of the layer it has mapped, and the first two rounds
read one that is freed: here it has kept its contents (`baseLoopOn` has the frees). -/
def baseLoop (cfg : Config) (f : ByteFile) : ℕ → Super → Super →
    Except Fault (List (MapOp Path))
  | 0, _, _ => .error .endless
  | n + 1, s, tmp => match doReadonlyFmmap cfg f s with
    | .error e => .error e
    | .ok m => match readNextSuper cfg f tmp with
      | .error e => .error e
      | .ok none => (doReadonlyFmmap cfg f tmp).map (m ++ ·)
      | .ok (some t) => (baseLoop cfg f n tmp t).map (m ++ ·)

/-- `do_base_fmmap`. A base that names a base of its own is read again from the
same file, to the bound `n` on the depth. -/
def doBaseFmmap (cfg : Config) (f : ByteFile) : ℕ → Super → Except Fault (List (MapOp Path))
  | 0, _ => .error .endless
  | n + 1, s =>
    let deeper : Except Fault (List (MapOp Path)) :=
      if baseImageName f s.myOff = [] then .ok []
      else match readFirstSuper cfg f s.fd 0 with
        | .error e => .error e
        | .ok none => .ok []
        | .ok (some b) => doBaseFmmap cfg f n b
    match deeper with
    | .error e => .error e
    | .ok m => (baseLoop cfg f (f.size + 1) s s).map (m ++ ·)

/-- The mappings of the base image, if the image names one. The base is opened
with `O_CREAT`. -/
def baseMaps (cfg : Config) (fs : Fs) (name : Path) : Except Fault (Fs × List (MapOp Path)) :=
  if name = [] then .ok (fs, [])
  else
    let f := (fs name).getD .empty
    match readFirstSuper cfg f name 0 with
    | .error e => .error e
    | .ok none => .ok (Function.update fs name (some f), [])
    | .ok (some s) => (doBaseFmmap cfg f (f.size + 1) s).map fun m =>
        (Function.update fs name (some f), m)

/-- `fmmap`: `none` if the image is not formatted, or the length or the offset is
refused. What maps the base image is `bases`. -/
def fmmapWith (bases : Fs → Path → Except Fault (Fs × List (MapOp Path))) (cfg : Config)
    (fs : Fs) (fd : Path) (length offset : ℕ) : Except Fault (Option Session) :=
  let f := (fs fd).getD .empty
  match readFirstSuper cfg f fd 0 with
  | .error e => .error e
  | .ok none => .ok none
  | .ok (some s₀) =>
    let len := if length = 0 then u64 (u64 s₀.blockSize * s₀.maxBlockNum) else length
    if len > regLen then .ok none
    else if offset > len then .ok none
    -- registering the range is asserted to succeed, and needs whole pages
    else if len = 0 ∨ ¬pageSize ∣ len then .error .assertFailed
    else
      match bases fs (baseImageName f s₀.myOff) with
      | .error e => .error e
      | .ok (fs, m₁) => match superChain cfg f (f.size + 1) s₀ with
        | .error e => .error e
        | .ok l => match readonlyMaps cfg f l.dropLast with
          | .error e => .error e
          | .ok m₂ =>
            let s := l.getLastD s₀
            (doWritableFmmap cfg f s).map fun m₃ => some
              { fs
                s := { s with fmmapLength := len, allocOff := s.nextOff }
                globalLength := length
                pages := PageTable.run (m₁ ++ m₂ ++ m₃) fun _ => none
                cow := initFgcow
                ring := .init }

/-- `fmmap`, where the structs that `do_base_fmmap` has freed are still in place when it
reads them again. -/
def fmmap (cfg : Config) (fs : Fs) (fd : Path) (length offset : ℕ) :
    Except Fault (Option Session) :=
  fmmapWith (baseMaps cfg) cfg fs fd length offset

/-- One round of the loop of `final_cow`. -/
def finalCopy (cfg : Config) (ses : Session) (ce : CowEntry) : Session :=
  let blockSize := u64 ses.s.blockSize
  let ses₁ := ses.issue (FileOp.memcpy ce.blockOff blockSize (ses.source ce.faultVoffAligned))
  ses₁.issue (entryStore cfg ses₁.file ce.metaEntry (· ||| addrMask))

/-- `final_cow`: the buckets in order, each from the head of its chain. -/
def finalCow (cfg : Config) (ses : Session) : Session :=
  ((List.range bucketNum).flatMap ses.cow.buckets).foldl (finalCopy cfg) ses

/-- `fmunmap`, called with `cur_s->addr`: what it leaves of the session are the files. -/
def fmunmap (cfg : Config) (ses : Session) : Fs :=
  if cfg.finegrainedCow then (finalCow cfg ses).fs else ses.fs

end Session

end Pcow
