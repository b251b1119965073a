import Pcow.Config
import Pcow.Lib.Persist

/-!
# Super blocks and meta blocks

The functions of `meta.c` that read and write the layer structure of an image
file, with `PRE_ALLOC` undefined where the two bodies differ (the other bodies
are in `Pcow.PreAlloc`).

A pointer into a mapping of the file is modelled by the file offset it maps:
`pm_super` by the offset `myOff` of the super block, `pm_top` by `Meta.pmTop`, and
`pm_btm` by the cache line after it. The `int` fields read from the file are
integers, with the sign they have in C; every offset computation is reduced to
64 bits where the source stores it.

A function that writes returns the list of operations it issues on the file, in
the order of the source, so that the same definition serves for what the call
does, for what a stop in the middle of it leaves and for what has reached the
medium.
-/

namespace Pcow

/-- A file descriptor, named by the path it was opened under. -/
abbrev Path := List UInt8

/-- `struct Meta`: a meta block with the cached counter. -/
structure Meta where
  /-- The file offset of the meta block. -/
  pmTop : ℕ
  /-- The counter as cached in memory. -/
  counter : ℤ
deriving DecidableEq, Inhabited

/-- `struct Super`: a super block with the values cached in memory. -/
structure Super where
  /-- The file the layer is in. -/
  fd : Path
  /-- The size of a block. -/
  blockSize : ℤ
  /-- The largest number of data blocks of a layer. -/
  maxBlockNum : ℤ
  /-- The number of the active meta block, from 0. -/
  activeMetaNum : ℤ
  /-- The number of entries of a meta block. -/
  maxPerSeg : ℤ
  /-- The file offset of this super block. -/
  myOff : ℕ
  /-- The file offset of the active meta block. -/
  activeMetaOff : ℕ
  /-- The active meta block. -/
  activeMeta : Meta
  /-- The length of the range mapped by `fmmap`. -/
  fmmapLength : ℕ
  /-- The next offset the allocator thread allocates at. -/
  allocOff : ℕ
deriving DecidableEq, Inhabited

/-- `struct New_block`: a block handed out by the allocator. Its two mappings
`map_addr` and `map_addr2` both map the file block at `blockOff`. -/
structure NewBlock where
  /-- The file offset of the block. -/
  blockOff : ℕ
deriving DecidableEq, Inhabited

/-- The four bytes of `MAGIC`, `"NBJL"`, as they load from the file. -/
abbrev magic : ℕ := 0x4c4a424e

/-- Whether the magic bytes stand in the super block at `off`. -/
def HasMagic (f : ByteFile) (off : ℕ) : Prop := f.load (off + 12) 4 = magic

instance (f : ByteFile) (off : ℕ) : Decidable (HasMagic f off) :=
    inferInstanceAs (Decidable (_ = _))

/-- Store an `int`. -/
def storeInt (a : ℕ) (z : ℤ) : FileOp := .store a 4 (u32 z)

/-- Whether `fallocate` accepts the range: file offsets are signed 64-bit
numbers. -/
def FallocateOk (off : ℕ) (len : ℤ) : Prop := 0 < len ∧ off + len < 2 ^ 63

instance (off : ℕ) (len : ℤ) : Decidable (FallocateOk off len) :=
  inferInstanceAs (Decidable (_ ∧ _))

/-- Whether `mmap` accepts the offset. -/
def MmapOk (off : ℕ) : Prop := 4096 ∣ off ∧ off < 2 ^ 63

instance (off : ℕ) : Decidable (MmapOk off) := inferInstanceAs (Decidable (_ ∧ _))

/-! ### Reading -/

/-- The offset at which `read_meta` looks for the `n`-th meta block; `-1` stands
for the active one. -/
def Super.metaOff (s : Super) (n : ℤ) : ℕ :=
  if n = -1 then s.activeMetaOff
  else u64 (s.myOff + s.blockSize + n * (s.maxPerSeg + 1) * s.blockSize)

/-- `read_meta`. -/
def readMeta (f : ByteFile) (s : Super) (n : ℤ) : Except Fault Meta :=
  if ¬f.Backed (s.metaOff n) then .error .sigbus
  else if f.loadInt (s.metaOff n) > s.maxPerSeg then .error .badCounter
  else .ok ⟨s.metaOff n, f.loadInt (s.metaOff n)⟩

/-- The offset of the active meta block, as `read_first_super` and
`read_next_super` derive it from the number of the block. -/
def activeMetaOffOf (myOff : ℕ) (blockSize activeMetaNum maxPerSeg : ℤ) : ℕ :=
  u64 (myOff + blockSize * (1 + activeMetaNum * (1 + maxPerSeg)))

/-- `max_per_seg`, as it is derived from the block size. -/
def maxPerSegOf (cfg : Config) (blockSize : ℤ) : ℤ := (blockSize - clSize).tdiv cfg.entrySize

/-- `read_first_super(fd, read_off, 0)`: the super block at `readOff`, `none`
where there is no formatted image. -/
def readFirstSuper (cfg : Config) (f : ByteFile) (fd : Path) (readOff : ℕ) :
    Except Fault (Option Super) :=
  if f.size < clSize then .ok none
  else if ¬f.Backed readOff then .error .sigbus
  else if ¬HasMagic f readOff then .ok none
  else
    let blockSize := f.loadInt readOff
    let maxPerSeg := maxPerSegOf cfg blockSize
    let activeMetaNum := f.loadInt (readOff + 8)
    let s : Super :=
      { fd, blockSize, maxPerSeg, activeMetaNum
        maxBlockNum := f.loadInt (readOff + 4)
        myOff := readOff
        activeMetaOff := activeMetaOffOf readOff blockSize activeMetaNum maxPerSeg
        activeMeta := default, fmmapLength := 0, allocOff := 0 }
    (readMeta f s (-1)).map fun m => some { s with activeMeta := m }

/-- The offset right after the last block of a layer, where `read_next_super`
looks for the next super block, `new_super` puts it and `rollback_snapshot` cuts
the file. -/
def Super.endOff (f : ByteFile) (s : Super) : ℕ :=
  u64 (s.activeMetaOff + s.blockSize * (1 + f.loadInt s.activeMeta.pmTop))

/-- `read_next_super`: the layer after `s`, `none` if `s` is the last. The block
size and the capacity are taken from the super block of `s`. -/
def readNextSuper (cfg : Config) (f : ByteFile) (s : Super) : Except Fault (Option Super) :=
  let readOff := s.endOff f
  if f.size ≤ readOff then .ok none
  else if ¬HasMagic f readOff then .ok none
  else
    let blockSize := f.loadInt s.myOff
    let maxPerSeg := maxPerSegOf cfg s.blockSize
    let activeMetaNum := f.loadInt (readOff + 8)
    let next : Super :=
      { fd := s.fd, blockSize, maxPerSeg, activeMetaNum
        maxBlockNum := f.loadInt (s.myOff + 4)
        myOff := readOff
        activeMetaOff := activeMetaOffOf readOff blockSize activeMetaNum maxPerSeg
        activeMeta := default, fmmapLength := 0, allocOff := 0 }
    (readMeta f next (-1)).map fun m => some { next with activeMeta := m }

/-- A call of a function that returns has the value of the function. -/
theorem map_eq_ok {α β : Type} {x : Except Fault α} {F : α → β} {b : β} (h : x.map F = .ok b) :
    ∃ a, x = .ok a ∧ F a = b := by
  rcases x with e | a
  · cases h
  · cases h
    exact ⟨a, rfl, rfl⟩

/-- What is read knows the file it is read from. -/
theorem readFirstSuper_fd {cfg : Config} {f : ByteFile} {fd : Path} {off : ℕ} {s : Super}
    (hr : readFirstSuper cfg f fd off = .ok (some s)) : s.fd = fd := by
  rw [readFirstSuper] at hr
  split_ifs at hr
  · cases hr
  · obtain ⟨m, -, hs⟩ := map_eq_ok hr
    cases hs
    rfl
  · cases hr

theorem readNextSuper_fd {cfg : Config} {f : ByteFile} {s t : Super}
    (hr : readNextSuper cfg f s = .ok (some t)) : t.fd = s.fd := by
  rw [readNextSuper] at hr
  simp only at hr
  split_ifs at hr
  · cases hr
  · obtain ⟨m, -, hs⟩ := map_eq_ok hr
    cases hs
    rfl
  · cases hr

/-- The layers a `while ((tmp_s = read_next_super(s)))` loop visits, `s` first;
`endless` if there are more than `n`. -/
def superChain (cfg : Config) (f : ByteFile) : ℕ → Super → Except Fault (List Super)
  | 0, _ => .error .endless
  | n + 1, s =>
    match readNextSuper cfg f s with
    | .error e => .error e
    | .ok none => .ok [s]
    | .ok (some t) => (superChain cfg f n t).map (s :: ·)

/-- `read_last_super`. A walk that visits more layers than the file has bytes
visits some offset twice, and does not end. -/
def readLastSuper (cfg : Config) (f : ByteFile) (fd : Path) : Except Fault (Option Super) :=
  match readFirstSuper cfg f fd 0 with
  | .error e => .error e
  | .ok none => .ok none
  | .ok (some s) => (superChain cfg f (f.size + 1) s).map List.getLast?

/-! ### A new layer -/

/-- The stores of `new_super` for a layer at `allocOff`. -/
def newSuperOps (cfg : Config) (allocOff : ℕ) (blockSize maxBlockNum : ℤ) : List FileOp :=
  let top := u64 (allocOff + blockSize)
  [.fallocate allocOff (i32 (blockSize * 2)).toNat,
    storeInt allocOff blockSize,
    storeInt (allocOff + 4) maxBlockNum,
    storeInt (allocOff + 8) 0,
    .store (allocOff + 12) 1 0x4e,
    .store (allocOff + 13) 1 0x42,
    .store (allocOff + 14) 1 0x4a,
    .store (allocOff + 15) 1 0x4c,
    .flush allocOff, .fence,
    storeInt top 0] ++
  (if cfg.finegrainedCow then [storeInt (top + 4) 0] else []) ++
  [.flush top, .fence]

/-- `new_super`: append an empty layer after the last one. -/
def newSuper (cfg : Config) (f : ByteFile) (fd : Path) (blockSize maxBlockNum : ℤ) :
    Except Fault (List FileOp × Option Super) :=
  match readLastSuper cfg f fd with
  | .error e => .error e
  | .ok last =>
    let allocOff := match last with
      | some s => s.endOff f
      | none => 0
    -- the length is an int product, and the result of fallocate is asserted
    if ¬FallocateOk allocOff (i32 (blockSize * 2)) then .error .assertFailed
    -- `new_super` stores through the two addresses without a look at them
    else if ¬MmapOk allocOff ∨ ¬MmapOk (u64 (allocOff + blockSize)) then .error .sigsegv
    else
      let ops := newSuperOps cfg allocOff blockSize maxBlockNum
      (readFirstSuper cfg (FileOp.run ops f) fd allocOff).map fun s => (ops, s)

/-! ### A new block -/

/-- The entry `new_block` appends for a fault at `faultOff`. -/
def entryOf (s : Super) (faultOff : ℕ) : ℕ := u32 (faultOff / u64 s.blockSize : ℕ)

/-- The file offset of slot `pm_btm[counter]` of a meta block. -/
def slotOff (cfg : Config) (m : Meta) : ℕ := u64 (m.pmTop + clSize + cfg.entrySize * m.counter)

/-- The stores that put an entry into its slot; `flushed` says whether this body
of `new_block` flushes the slot in this configuration. -/
def entryOps (cfg : Config) (m : Meta) (v : ℕ) (flushed : Bool) : List FileOp :=
  [.store (slotOff cfg m) cfg.entrySize v] ++
  (if cfg.finegrainedCow then [.store (slotOff cfg m) cfg.entrySize (v &&& addrMask)] else []) ++
  (if flushed then [.flush (slotOff cfg m), .fence] else [])

/-- The stores that count the entry just written. -/
def counterOps (f : ByteFile) (m : Meta) : List FileOp :=
  [storeInt m.pmTop (i32 (f.loadInt m.pmTop + 1)), .flush m.pmTop, .fence]

/-- Append the entry `v` to a meta block: the slot first, then the counter. Both
branches of both bodies of `new_block` do this. -/
def appendOps (cfg : Config) (f : ByteFile) (m : Meta) (v : ℕ) (flushed : Bool) : List FileOp :=
  entryOps cfg m v flushed ++ counterOps (FileOp.run (entryOps cfg m v flushed) f) m

/-- The stores that make a block the meta block of a new segment. -/
def newMetaOps (cfg : Config) (off : ℕ) : List FileOp :=
  [storeInt off 0] ++ if cfg.finegrainedCow then [storeInt (off + 4) 0] else []

/-- The last step of `new_block`'s roll-over: the super block's in-memory values
once `m` is the active meta block. -/
def Super.rollOver (s : Super) (m : Meta) : Super :=
  { s with
    activeMeta := m
    activeMetaNum := i32 (s.activeMetaNum + 1)
    activeMetaOff := u64 (s.myOff + s.blockSize +
      i32 (s.activeMetaNum + 1) * (s.maxPerSeg + 1) * s.blockSize) }

/-- The stores of the same step. -/
def rollOverOps (s : Super) : List FileOp :=
  [storeInt (s.myOff + 8) (i32 (s.activeMetaNum + 1)), .flush s.myOff, .fence]

/-- The number `new_block` compares with the capacity, an `int`. -/
def Super.toAllocNum (s : Super) : ℤ :=
  s.activeMetaNum * s.maxPerSeg + s.activeMeta.counter + 1

/-- The offset of the first block after the last one of the active segment. -/
def Super.nextOff (s : Super) : ℕ :=
  u64 (s.activeMetaOff + s.blockSize + s.activeMeta.counter * s.blockSize)

/-- `new_block`, with `PRE_ALLOC` undefined: the layer's new values, the block
handed out and the stores. -/
def newBlockPlain (cfg : Config) (f : ByteFile) (s : Super) (faultOff : ℕ) :
    Except Fault (Super × NewBlock × List FileOp) :=
  if 2 ^ 31 ≤ s.toAllocNum then .error .overflow
  else if s.toAllocNum > s.maxBlockNum then .error .outOfRange
  else if s.activeMeta.counter < s.maxPerSeg then
    let allocOff := s.nextOff
    if ¬FallocateOk allocOff s.blockSize then .error .noSpace
    else
      let ops₁ := [.fallocate allocOff (u64 s.blockSize)]
      let ops₂ := appendOps cfg (FileOp.run ops₁ f) s.activeMeta (entryOf s faultOff) true
      .ok ({ s with activeMeta := { s.activeMeta with counter := s.activeMeta.counter + 1 } },
        ⟨allocOff⟩, ops₁ ++ ops₂)
  else if s.activeMeta.counter ≠ s.maxPerSeg then .error .assertFailed
  else
    -- `new_meta`, at the end of the full segment
    let metaOff := s.nextOff
    if ¬FallocateOk metaOff s.blockSize then .error .assertFailed
    else
      let m : Meta := ⟨metaOff, 0⟩
      -- the data block crosses over the meta block just allocated
      let allocOff := u64 (metaOff + s.blockSize)
      if ¬FallocateOk allocOff s.blockSize then .error .noSpace
      else
        let ops₁ := [.fallocate metaOff (u64 s.blockSize)] ++ newMetaOps cfg metaOff ++
          [.fallocate allocOff (u64 s.blockSize)]
        let ops₂ := appendOps cfg (FileOp.run ops₁ f) m (entryOf s faultOff) true
        .ok (s.rollOver { m with counter := m.counter + 1 }, ⟨allocOff⟩,
          ops₁ ++ ops₂ ++ rollOverOps s)

end Pcow
