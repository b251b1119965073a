import Pcow.Mapping
import Pcow.Lib.Stepping

/-!
# Files of any content

The loops over the super blocks, on a file that need not be an image. The functions of `Pcow.Meta`
leave out how the mappings that they make can fail, which they do not where the layers are in
order; here they are in: `read_meta` reads through an address that `mmap` may have refused
(`readMetaChecked`), `read_next_super` asserts that its mapping was made, and reads a counter that
may have been cut off (`readNextSuperChecked`). Where the checked functions return, those of
`Pcow.Meta` return the same.

Four functions loop with `read_next_super`. `read_last_super` does nothing else; `fmmap` maps each
layer once it has found the next one; `list_snapshots` reads all meta blocks of a layer and the name
of its base before it goes on; `rollback_snapshot` cuts the file at the layer of the number it is
given, and goes on too. Such a loop ends well if there is no image, if it exits through the check of
a counter or an assertion, or if it visits super blocks at increasing offsets and stops (`LoopOk`).
`walkOk_iff` says for each of the four which files these are, in terms of the fields of the super
blocks and meta blocks that the file chains to.

A mapping that `fmmap` makes outside of its range may replace whatever the process has there; what
comes of that is left out here.
-/

namespace Pcow

open Stepping

variable {cfg : Config} {f : ByteFile} {fd : Path} {s t : Super}

/-! ### The walk, with the mappings it makes -/

/-- `read_meta`, with the mapping it makes. -/
def readMetaChecked (f : ByteFile) (s : Super) (n : ℤ) : Except Fault Meta :=
  -- the length is converted to `size_t`, and is too large or zero where it is not positive
  if s.blockSize ≤ 0 ∨ ¬MmapOk (s.metaOff n) then .error .sigsegv
  else readMeta f s n

/-- The values of a super block at `off` before its meta block is read. -/
def headSuper (f : ByteFile) (fd : Path) (off : ℕ) (blockSize maxBlockNum maxPerSeg : ℤ) :
    Super where
  fd := fd
  blockSize := blockSize
  maxBlockNum := maxBlockNum
  activeMetaNum := f.loadInt (off + 8)
  maxPerSeg := maxPerSeg
  myOff := off
  activeMetaOff := activeMetaOffOf off blockSize (f.loadInt (off + 8)) maxPerSeg
  activeMeta := default
  fmmapLength := 0
  allocOff := 0

/-- The last step of both functions, which reads the active meta block. -/
def readHead (f : ByteFile) (s : Super) : Except Fault (Option Super) :=
  (readMetaChecked f s (-1)).map fun m => some { s with activeMeta := m }

/-- `read_first_super(fd, 0, 0)`, with the mappings it makes. -/
def readFirstSuperChecked (cfg : Config) (f : ByteFile) (fd : Path) : Except Fault (Option Super) :=
  if f.size < clSize then .ok none
  else if ¬HasMagic f 0 then .ok none
  else readHead f
    (headSuper f fd 0 (f.loadInt 0) (f.loadInt 4) (maxPerSegOf cfg (f.loadInt 0)))

/-- `read_next_super`, with the mappings it makes. -/
def readNextSuperChecked (cfg : Config) (f : ByteFile) (s : Super) : Except Fault (Option Super) :=
  -- the meta block was mapped when the super block was read, and may be cut off since
  if ¬f.Backed s.activeMeta.pmTop then .error .sigbus
  else if f.size ≤ s.endOff f then .ok none
  else if ¬MmapOk (s.endOff f) then .error .assertFailed
  else if ¬HasMagic f (s.endOff f) then .ok none
  else readHead f (headSuper f s.fd (s.endOff f) (f.loadInt s.myOff) (f.loadInt (s.myOff + 4))
    (maxPerSegOf cfg s.blockSize))

/-! ### What the loops do besides -/

/-- A loop over `n` indices from `i` on, which stops at the first fault. -/
def runAll (body : ℕ → Except Fault Unit) : ℕ → ℕ → Except Fault Unit
  | _, 0 => .ok ()
  | i, n + 1 =>
    match body i with
    | .error e => .error e
    | .ok () => runAll body (i + 1) n

/-- A loop of an `unsigned long` from 0 to `last`, which has no end if there is no number after
`last`. -/
def forUpTo (body : ℕ → Except Fault Unit) (last : ℕ) : Except Fault Unit :=
  match runAll body 0 (last + 1) with
  | .error e => .error e
  | .ok () => if last + 1 = 2 ^ 64 then .error .endless else .ok ()

/-- The reads of the inner loop of `do_readonly_fmmap`, through the mapping of the meta block, which
has as many whole pages as a block takes. Behind it nothing is known to be mapped. -/
def readSlots (cfg : Config) (f : ByteFile) (s : Super) (m : Meta) : Except Fault Unit :=
  runAll (fun j =>
    if (s.blockSize.toNat + 4095) / 4096 * 4096 ≤ clSize + cfg.entrySize * j then .error .sigsegv
    else if ¬f.Backed (m.pmTop + clSize + cfg.entrySize * j) then .error .sigbus
    else .ok ()) 0 (u64 m.counter)

/-- What `fmmap` reads of a layer. -/
def mapBody (cfg : Config) (f : ByteFile) (s : Super) : Except Fault Unit :=
  forUpTo (fun i => match readMetaChecked f s (i32 i) with
    | .error e => .error e
    | .ok m => readSlots cfg f s m) (u64 s.activeMetaNum)

/-- The name in the super block at `off` ends in its page. -/
def NameEnds (f : ByteFile) (off : ℕ) : Prop := ∃ i < 4096 - 16, f.byte (off + 16 + i) = 0

instance (f : ByteFile) (off : ℕ) : Decidable (NameEnds f off) :=
  inferInstanceAs (Decidable (∃ i < 4096 - 16, f.byte (off + 16 + i) = 0))

/-- What `list_snapshots` reads of a layer. -/
def listBody (f : ByteFile) (s : Super) : Except Fault Unit :=
  match forUpTo (fun i => (readMetaChecked f s (i32 i)).map fun _ => ()) (u64 s.activeMetaNum) with
  | .error e => .error e
  | .ok () => if NameEnds f s.myOff then .ok () else .error .sigsegv

/-- A round of the loop of `fmmap`. -/
def mapStep (cfg : Config) (f : ByteFile) (s : Super) : Except Fault (Option Super) :=
  match readNextSuperChecked cfg f s with
  | .error e => .error e
  | .ok none => .ok none
  | .ok (some t) => (mapBody cfg f s).map fun _ => some t

/-- A round of the loop of `list_snapshots`. -/
def listStep (cfg : Config) (f : ByteFile) (s : Super) : Except Fault (Option Super) :=
  match listBody f s with
  | .error e => .error e
  | .ok () => readNextSuperChecked cfg f s

/-- `ftruncate`, which refuses a length that is no `off_t`. -/
def ftruncate (f : ByteFile) (n : ℕ) : ByteFile := if n < 2 ^ 63 then f.truncate n else f

/-- A round of the loop of `rollback_snapshot`; its state is the file, the number of layers so far
and the super block. -/
def rollbackStep (cfg : Config) (snapshotNo : ℤ) (x : ByteFile × ℕ × Super) :
    Except Fault (Option (ByteFile × ℕ × Super)) :=
  let f := if ((x.2.1 + 1 : ℕ) : ℤ) = snapshotNo then ftruncate x.1 (x.2.2.endOff x.1) else x.1
  (readNextSuperChecked cfg f x.2.2).map fun r => r.map fun t => (f, x.2.1 + 1, t)

/-! ### Loops that end well -/

/-- The process exits through the check of a counter or an assertion. -/
def Exits (e : Fault) : Prop := e = .badCounter ∨ e = .assertFailed

/-- **A loop over the super blocks ends well.** -/
def LoopOk {σ : Type} (cfg : Config) (f : ByteFile) (fd : Path) (step : σ → Except Fault (Option σ))
    (start : Super → σ) (off : σ → ℕ) : Prop :=
  match readFirstSuperChecked cfg f fd with
  | .error e => Exits e
  | .ok none => True
  | .ok (some s) => EndsWell step Exits off (start s)

/-- The loop of `read_last_super`. -/
def WalkOk (cfg : Config) (f : ByteFile) (fd : Path) : Prop :=
  LoopOk cfg f fd (readNextSuperChecked cfg f) id Super.myOff

/-- The loop of `fmmap`. -/
def MapWalkOk (cfg : Config) (f : ByteFile) (fd : Path) : Prop :=
  LoopOk cfg f fd (mapStep cfg f) id Super.myOff

/-- The loop of `list_snapshots`. -/
def ListWalkOk (cfg : Config) (f : ByteFile) (fd : Path) : Prop :=
  LoopOk cfg f fd (listStep cfg f) id Super.myOff

/-- The loop of `rollback_snapshot`. -/
def RollbackWalkOk (cfg : Config) (f : ByteFile) (fd : Path) (snapshotNo : ℤ) : Prop :=
  LoopOk cfg f fd (rollbackStep cfg snapshotNo) (fun s => (f, 0, s)) fun x => x.2.2.myOff

/-! ### The functions without the mappings -/

theorem readMeta_of_checked {n : ℤ} {m : Meta} (h : readMetaChecked f s n = .ok m) :
    readMeta f s n = .ok m := by
  rw [readMetaChecked] at h
  split_ifs at h
  exact h

theorem readHead_ok {r : Option Super} (h : readHead f s = .ok r) :
    ((readMeta f s (-1)).map fun m => some { s with activeMeta := m }) = .ok r := by
  rw [readHead] at h
  obtain ⟨m, hm, rfl⟩ := map_eq_ok h
  rw [readMeta_of_checked hm]
  rfl

/-- Where the checked function returns, the one of `Pcow.Meta` returns the same. -/
theorem readFirstSuper_of_checked {r : Option Super} (h : readFirstSuperChecked cfg f fd = .ok r) :
    readFirstSuper cfg f fd 0 = .ok r := by
  rw [readFirstSuperChecked] at h
  rw [readFirstSuper]
  by_cases hsz : f.size < clSize
  · rw [if_pos hsz] at h ⊢
    exact h
  rw [if_neg hsz] at h ⊢
  have hback : f.Backed 0 := ByteFile.backed_of_lt (lt_of_lt_of_le (by decide) (not_lt.mp hsz))
  rw [if_neg (not_not.mpr hback)]
  by_cases hmagic : HasMagic f 0
  · rw [if_neg (not_not.mpr hmagic)] at h ⊢
    exact readHead_ok h
  · rw [if_pos hmagic] at h ⊢
    exact h

theorem readNextSuper_of_checked {r : Option Super} (h : readNextSuperChecked cfg f s = .ok r) :
    readNextSuper cfg f s = .ok r := by
  rw [readNextSuperChecked] at h
  rw [readNextSuper]
  split_ifs at h with hback hsz hmap hmagic
  · rwa [if_pos hsz]
  · rw [if_neg hsz, if_neg (not_not.mpr hmagic)]
    exact readHead_ok h
  · rwa [if_neg hsz, if_pos hmagic]

/-- **A walk that stops is that of `superChain`.** -/
theorem superChain_of_visit {n : ℕ} {l : List Super}
    (h : visit (readNextSuperChecked cfg f) n s = (l, some (.ok ()))) :
    superChain cfg f n s = .ok l := by
  induction n generalizing s l with
  | zero => cases h
  | succ n ih =>
    rw [visit] at h
    rw [superChain]
    rcases hnext : readNextSuperChecked cfg f s with e | _ | t
    · rw [hnext] at h
      cases h
    · rw [hnext] at h
      cases h
      rw [readNextSuper_of_checked hnext]
    · rw [hnext] at h
      rw [readNextSuper_of_checked hnext]
      simp only [Prod.mk.injEq] at h ⊢
      have hvisit : visit (readNextSuperChecked cfg f) n t =
          ((visit (readNextSuperChecked cfg f) n t).1, some (.ok ())) := Prod.ext rfl h.2
      rw [ih hvisit, ← h.1]
      rfl

/-- A layer that `fmmap` gets through is mapped. -/
theorem exists_doReadonlyFmmap (h : mapBody cfg f s = .ok ()) :
    ∃ l, doReadonlyFmmap cfg f s = .ok l := by
  rw [mapBody, forUpTo] at h
  generalize hcalls : (fun voff o => [MapOp.mmap voff (u64 s.blockSize) s.fd o true,
    .mprotect voff (u64 s.blockSize) false]) = calls
  rw [doReadonlyFmmap, hcalls, layerMaps]
  generalize u64 s.activeMetaNum + 1 = n at h
  generalize hbody : (fun i : ℕ => (match readMetaChecked f s (i32 i) with
    | .error e => .error e
    | .ok m => readSlots cfg f s m : Except Fault Unit)) = body at h
  have hrun : runAll body 0 n = .ok () := by
    rcases hr : runAll body 0 n with e | u
    · rw [hr] at h
      cases h
    · rfl
  clear h
  generalize 0 = i at hrun
  induction n generalizing i with
  | zero => exact ⟨[], rfl⟩
  | succ n ih =>
    rw [runAll, ← hbody] at hrun
    rw [collect, segmentMaps]
    rcases hm : readMetaChecked f s (i32 i) with e | m
    · simp only [hm] at hrun
      cases hrun
    simp only [hm] at hrun
    rw [readMeta_of_checked hm]
    rcases hslots : readSlots cfg f s m with e | u
    · rw [hslots] at hrun
      cases hrun
    · rw [hslots] at hrun
      rw [hbody] at hrun
      obtain ⟨l, hl⟩ := ih (i + 1) hrun
      simp only [Except.map, hl]
      exact ⟨_, rfl⟩

/-! ### The loops inside of a round -/

section Loops

variable {body : ℕ → Except Fault Unit} {Ok Exit : ℕ → Prop} {i n last : ℕ}

theorem runAll_ok (h : ∀ k < n, body (i + k) = .ok ()) : runAll body i n = .ok () := by
  induction n generalizing i with
  | zero => rfl
  | succ n ih =>
    rw [runAll, show body i = .ok () from h 0 (Nat.succ_pos n)]
    refine ih fun k hk => ?_
    rw [Nat.add_assoc, Nat.add_comm 1 k]
    exact h (k + 1) (Nat.succ_lt_succ hk)

/-- The first fault is that of the loop. -/
theorem runAll_error {e : Fault} {k : ℕ} (hk : k < n) (he : body (i + k) = .error e)
    (h : ∀ j < k, body (i + j) = .ok ()) : runAll body i n = .error e := by
  induction n generalizing i k with
  | zero => exact absurd hk (Nat.not_lt_zero k)
  | succ n ih =>
    rw [runAll]
    rcases k with _ | k
    · rw [show body i = .error e from he]
    · rw [show body i = .ok () from h 0 (Nat.succ_pos k)]
      refine ih (Nat.lt_of_succ_lt_succ hk) ?_ fun j hj => ?_
      · rw [Nat.add_assoc, Nat.add_comm 1 k]
        exact he
      · rw [Nat.add_assoc, Nat.add_comm 1 j]
        exact h (j + 1) (Nat.succ_lt_succ hj)

/-- The first of the rounds that does not return. -/
theorem exists_first (h : ¬∀ k < n, Ok k) : ∃ k < n, ¬Ok k ∧ ∀ j < k, Ok j := by
  classical
  push Not at h
  obtain ⟨hk, hbad⟩ := Nat.find_spec h
  refine ⟨Nat.find h, hk, hbad, fun j hj => ?_⟩
  by_contra hno
  exact Nat.find_min h hj ⟨lt_trans hj hk, hno⟩

/-- Every round of the loop returns, and there is a number after the last one. -/
def Returns (Ok : ℕ → Prop) (last : ℕ) : Prop := (∀ i ≤ last, Ok i) ∧ last + 1 ≠ 2 ^ 64

/-- Some round exits, and the ones before it return. -/
def ExitsAt (Ok Exit : ℕ → Prop) (last : ℕ) : Prop := ∃ i ≤ last, (∀ k < i, Ok k) ∧ Exit i

/-- **How a loop ends**, where it is known how its rounds do. -/
theorem forUpTo_cases (hok : ∀ i, Ok i → body i = .ok ())
    (hexit : ∀ i, Exit i → body i = .error .badCounter)
    (hcrash : ∀ i, ¬Ok i → ¬Exit i → ∃ e, body i = .error e ∧ ¬Exits e) :
    (Returns Ok last → forUpTo body last = .ok ()) ∧
      (ExitsAt Ok Exit last → forUpTo body last = .error .badCounter) ∧
      (¬Returns Ok last → ¬ExitsAt Ok Exit last →
        ∃ e, forUpTo body last = .error e ∧ ¬Exits e) := by
  have hrun : ∀ {e : Fault} {i : ℕ}, i ≤ last → (∀ k < i, Ok k) → body i = .error e →
      forUpTo body last = .error e := by
    intro e i hi hbefore he
    rw [forUpTo, runAll_error (i := 0) (k := i) (by omega) (by rwa [Nat.zero_add]) fun j hj => by
      rw [Nat.zero_add]
      exact hok j (hbefore j hj)]
  have hall : (∀ i ≤ last, Ok i) → runAll body 0 (last + 1) = .ok () := fun h =>
    runAll_ok fun k hk => by
      rw [Nat.zero_add]
      exact hok k (h k (by omega))
  refine ⟨fun hret => ?_, fun hex => ?_, fun hnot hnex => ?_⟩
  · rw [forUpTo, hall hret.1]
    exact if_neg hret.2
  · obtain ⟨i, hi, hbefore, hx⟩ := hex
    exact hrun hi hbefore (hexit i hx)
  · by_cases hends : ∀ i < last + 1, Ok i
    · replace hends : ∀ i ≤ last, Ok i := fun i hi => hends i (by omega)
      refine ⟨.endless, ?_, fun he => by rcases he with he | he <;> cases he⟩
      rw [forUpTo, hall hends]
      exact if_pos (not_not.mp fun hne => hnot ⟨hends, hne⟩)
    · obtain ⟨i, hi, hbad, hbefore⟩ := exists_first hends
      obtain ⟨e, he, hcr⟩ := hcrash i hbad fun hx => hnex ⟨i, by omega, hbefore, hx⟩
      exact ⟨e, hrun (by omega) hbefore he, hcr⟩

end Loops

/-! ### The fields of a file -/

/-- What is read as an `int` is one. -/
theorem loadInt_range (a : ℕ) : -2 ^ 31 ≤ f.loadInt a ∧ f.loadInt a < 2 ^ 31 := by
  rw [ByteFile.loadInt]
  exact i32_range _

/-- A place where the walk looks at a super block. The block size is a field of the super block
before it, and the number of entries follows from the block size of that one. -/
structure SuperAt where
  off : ℕ
  blockSize : ℤ
  maxPerSeg : ℤ

namespace SuperAt

variable {x y : SuperAt} {n : ℤ}

/-- The field `active_meta_num` of the super block. -/
def activeMetaNum (f : ByteFile) (x : SuperAt) : ℤ := f.loadInt (x.off + 8)

/-- The offset of the active meta block. -/
def activeMetaOff (f : ByteFile) (x : SuperAt) : ℕ :=
  activeMetaOffOf x.off x.blockSize (x.activeMetaNum f) x.maxPerSeg

/-- The offset of the meta block of number `n`, where -1 stands for the active one. -/
def metaOff (f : ByteFile) (x : SuperAt) (n : ℤ) : ℕ :=
  if n = -1 then x.activeMetaOff f
  else u64 (x.off + x.blockSize + n * (x.maxPerSeg + 1) * x.blockSize)

/-- The field `counter` of a meta block. -/
def counter (f : ByteFile) (x : SuperAt) (n : ℤ) : ℤ := f.loadInt (x.metaOff f n)

/-- A meta block is mapped, and within the file. -/
def Mapped (f : ByteFile) (x : SuperAt) (n : ℤ) : Prop :=
  0 < x.blockSize ∧ MmapOk (x.metaOff f n) ∧ f.Backed (x.metaOff f n)

/-- Its counter passes the check of `read_meta`. -/
def Counted (f : ByteFile) (x : SuperAt) (n : ℤ) : Prop := x.counter f n ≤ x.maxPerSeg

/-- Its slots are in the mapping, and on pages of the file. -/
def Slotted (cfg : Config) (f : ByteFile) (x : SuperAt) (n : ℤ) : Prop :=
  0 ≤ x.counter f n ∧ ∀ j < (x.counter f n).toNat,
    clSize + cfg.entrySize * j < (x.blockSize.toNat + 4095) / 4096 * 4096 ∧
      f.Backed (x.metaOff f n + clSize + cfg.entrySize * j)

/-- The offset behind the layer, where the next super block is. -/
def endOff (f : ByteFile) (x : SuperAt) : ℕ :=
  u64 (x.activeMetaOff f + x.blockSize * (1 + x.counter f (-1)))

/-- There is a super block after the layer. -/
def Found (cfg : Config) (f : ByteFile) (x y : SuperAt) : Prop :=
  y = ⟨x.endOff f, f.loadInt x.off, maxPerSegOf cfg x.blockSize⟩ ∧
    y.off < f.size ∧ MmapOk y.off ∧ HasMagic f y.off

/-- The place of the first super block. -/
def first (cfg : Config) (f : ByteFile) : SuperAt :=
  ⟨0, f.loadInt 0, maxPerSegOf cfg (f.loadInt 0)⟩

/-! #### Where the loops crash and where they lead -/

/-- **The walk goes on to `y`**: its active meta block is mapped and its counter passes. -/
def Leads (cfg : Config) (f : ByteFile) (x y : SuperAt) : Prop :=
  x.Found cfg f y ∧ y.Mapped f (-1) ∧ y.Counted f (-1)

/-- The super block after the layer has no active meta block. -/
def Crashes (cfg : Config) (f : ByteFile) (x : SuperAt) : Prop :=
  ∃ y, x.Found cfg f y ∧ ¬y.Mapped f (-1)

/-- A loop over the meta blocks of the layer returns, with what it needs of each. -/
def MetasReturn (f : ByteFile) (x : SuperAt) (Ok : ℤ → Prop) : Prop :=
  Returns (fun i => Ok (i32 i)) (u64 (x.activeMetaNum f))

/-- It exits at a meta block whose counter does not pass. -/
def MetasExit (f : ByteFile) (x : SuperAt) (Ok : ℤ → Prop) : Prop :=
  ExitsAt (fun i => Ok (i32 i)) (fun i => x.Mapped f (i32 i) ∧ ¬x.Counted f (i32 i))
    (u64 (x.activeMetaNum f))

/-- A meta block that `list_snapshots` can read. -/
def Listed (f : ByteFile) (x : SuperAt) (n : ℤ) : Prop := x.Mapped f n ∧ x.Counted f n

/-- A meta block that `fmmap` can read. -/
def MapRead (cfg : Config) (f : ByteFile) (x : SuperAt) (n : ℤ) : Prop :=
  x.Listed f n ∧ x.Slotted cfg f n

/-- `fmmap` goes on to `y` once it has mapped the layer. -/
def MapLeads (cfg : Config) (f : ByteFile) (x y : SuperAt) : Prop :=
  x.Leads cfg f y ∧ x.MetasReturn f (x.MapRead cfg f)

/-- `fmmap` crashes at the next super block, or at a meta block of a layer that is not the last. -/
def MapCrashes (cfg : Config) (f : ByteFile) (x : SuperAt) : Prop :=
  x.Crashes cfg f ∨ (∃ y, x.Leads cfg f y) ∧ ¬x.MetasReturn f (x.MapRead cfg f) ∧
    ¬x.MetasExit f (x.MapRead cfg f)

/-- `list_snapshots` gets through the layer. -/
def ListReturns (f : ByteFile) (x : SuperAt) : Prop :=
  x.MetasReturn f (x.Listed f) ∧ NameEnds f x.off

/-- `list_snapshots` goes on to `y`. -/
def ListLeads (cfg : Config) (f : ByteFile) (x y : SuperAt) : Prop :=
  x.ListReturns f ∧ x.Leads cfg f y

/-- `list_snapshots` crashes in the layer, or at the next super block. -/
def ListCrashes (cfg : Config) (f : ByteFile) (x : SuperAt) : Prop :=
  ¬x.ListReturns f ∧ ¬x.MetasExit f (x.Listed f) ∨ x.ListReturns f ∧ x.Crashes cfg f

/-- `rollback_snapshot` goes on, with the number of layers, unless it has cut the file. -/
def RollbackLeads (cfg : Config) (f : ByteFile) (snapshotNo : ℤ) (x y : ℕ × SuperAt) : Prop :=
  ((x.1 + 1 : ℕ) : ℤ) ≠ snapshotNo ∧ y.1 = x.1 + 1 ∧ x.2.Leads cfg f y.2

/-- `rollback_snapshot` crashes where it cuts off the active meta block of the layer, which it reads
again; before that, at the next super block. -/
def RollbackCrashes (cfg : Config) (f : ByteFile) (snapshotNo : ℤ) (x : ℕ × SuperAt) : Prop :=
  if ((x.1 + 1 : ℕ) : ℤ) = snapshotNo then x.2.endOff f ≤ x.2.activeMetaOff f
  else x.2.Crashes cfg f

/-! #### Super blocks in memory -/

/-- A super block in memory that was read at `x`. -/
structure Is (f : ByteFile) (x : SuperAt) (s : Super) : Prop where
  myOff : s.myOff = x.off
  blockSize : s.blockSize = x.blockSize
  maxPerSeg : s.maxPerSeg = x.maxPerSeg
  activeMetaNum : s.activeMetaNum = x.activeMetaNum f
  activeMetaOff : s.activeMetaOff = x.activeMetaOff f
  pmTop : s.activeMeta.pmTop = x.activeMetaOff f
  mapped : x.Mapped f (-1)
  blockSize_lt : x.blockSize < 2 ^ 31

theorem Is.endOff (h : x.Is f s) : s.endOff f = x.endOff f := by
  rw [Super.endOff, h.pmTop, h.activeMetaOff, h.blockSize]
  rfl

theorem Is.metaOff (h : x.Is f s) : s.metaOff n = x.metaOff f n := by
  rw [Super.metaOff, SuperAt.metaOff, h.activeMetaOff, h.myOff, h.blockSize, h.maxPerSeg]

theorem Is.backed (h : x.Is f s) : f.Backed s.activeMeta.pmTop := by
  rw [h.pmTop]
  exact h.mapped.2.2

/-- The super block in memory before its meta block is read. -/
def head (f : ByteFile) (fd : Path) (maxBlockNum : ℤ) (x : SuperAt) : Super :=
  headSuper f fd x.off x.blockSize maxBlockNum x.maxPerSeg

theorem head_activeMetaNum {mb : ℤ} : (x.head f fd mb).activeMetaNum = x.activeMetaNum f := by
  rw [head, headSuper, activeMetaNum]

theorem head_activeMetaOff {mb : ℤ} : (x.head f fd mb).activeMetaOff = x.activeMetaOff f := by
  rw [head, headSuper, activeMetaOff, activeMetaNum]

/-- **The outcomes of `read_meta`**: it crashes where the meta block is not mapped, or not in the
file, and otherwise its check decides. -/
theorem readMeta_cases (hbs : s.blockSize = x.blockSize) (hmax : s.maxPerSeg = x.maxPerSeg)
    (hoff : s.metaOff n = x.metaOff f n) :
    (¬x.Mapped f n → ∃ e, readMetaChecked f s n = .error e ∧ ¬Exits e) ∧
      (x.Mapped f n → ¬x.Counted f n → readMetaChecked f s n = .error .badCounter) ∧
      (x.Mapped f n → x.Counted f n →
        readMetaChecked f s n = .ok ⟨x.metaOff f n, x.counter f n⟩) := by
  rw [readMetaChecked, readMeta, hbs, hmax, hoff]
  refine ⟨fun hnot => ?_, fun hmapped hnot => ?_, fun hmapped hc => ?_⟩
  · by_cases hmap : x.blockSize ≤ 0 ∨ ¬MmapOk (x.metaOff f n)
    · exact ⟨_, if_pos hmap, fun he => by rcases he with he | he <;> cases he⟩
    · obtain ⟨hpos, hok⟩ := not_or.mp hmap
      have hback : ¬f.Backed (x.metaOff f n) := fun hb =>
        hnot ⟨not_le.mp hpos, not_not.mp hok, hb⟩
      rw [if_neg hmap, if_pos hback]
      exact ⟨_, rfl, fun he => by rcases he with he | he <;> cases he⟩
  · obtain ⟨hpos, hok, hback⟩ := hmapped
    rw [if_neg (not_or.mpr ⟨not_le.mpr hpos, not_not.mpr hok⟩), if_neg (not_not.mpr hback)]
    exact if_pos (not_le.mp hnot)
  · obtain ⟨hpos, hok, hback⟩ := hmapped
    rw [if_neg (not_or.mpr ⟨not_le.mpr hpos, not_not.mpr hok⟩), if_neg (not_not.mpr hback)]
    exact if_neg (not_lt.mpr hc)

/-- The outcomes of the last step of both functions that read a super block. -/
theorem readHead_cases {mb : ℤ} (hlt : x.blockSize < 2 ^ 31) :
    (¬x.Mapped f (-1) → ∃ e, readHead f (x.head f fd mb) = .error e ∧ ¬Exits e) ∧
      (x.Mapped f (-1) → ¬x.Counted f (-1) →
        readHead f (x.head f fd mb) = .error .badCounter) ∧
      (x.Mapped f (-1) → x.Counted f (-1) →
        ∃ t, readHead f (x.head f fd mb) = .ok (some t) ∧ x.Is f t) := by
  obtain ⟨hcrash, hexit, hok⟩ := @readMeta_cases f (x.head f fd mb) x (-1) rfl rfl rfl
  rw [readHead]
  refine ⟨fun hnot => ?_, fun hmapped hnot => ?_, fun hmapped hc => ?_⟩
  · obtain ⟨e, he, hbad⟩ := hcrash hnot
    rw [he]
    exact ⟨e, rfl, hbad⟩
  · rw [hexit hmapped hnot]
    rfl
  · rw [hok hmapped hc]
    have hoff : x.metaOff f (-1) = x.activeMetaOff f := if_pos rfl
    refine ⟨_, rfl, rfl, rfl, rfl, ?_, ?_, hoff, hmapped, hlt⟩
    · dsimp only
      exact head_activeMetaNum
    · dsimp only
      exact head_activeMetaOff

theorem first_of_magic (hsz : clSize ≤ f.size) (hmagic : HasMagic f 0) :
    readFirstSuperChecked cfg f fd = readHead f ((first cfg f).head f fd (f.loadInt 4)) := by
  rw [readFirstSuperChecked, if_neg (not_lt.mpr hsz), if_neg (not_not.mpr hmagic), head, first]

/-! #### The walk -/

/-- A step from a layer that no super block follows. -/
theorem next_of_not_found (h : x.Is f s) (hnot : ∀ y, ¬x.Found cfg f y) :
    readNextSuperChecked cfg f s = .ok none ∨
      readNextSuperChecked cfg f s = .error .assertFailed := by
  rw [readNextSuperChecked, if_neg (not_not.mpr h.backed), h.endOff]
  by_cases hsz : f.size ≤ x.endOff f
  · exact Or.inl (if_pos hsz)
  rw [if_neg hsz]
  by_cases hmap : MmapOk (x.endOff f)
  swap
  · exact Or.inr (if_pos hmap)
  rw [if_neg (not_not.mpr hmap)]
  by_cases hmagic : HasMagic f (x.endOff f)
  · exact absurd ⟨rfl, not_le.mp hsz, hmap, hmagic⟩
      (hnot ⟨x.endOff f, f.loadInt x.off, maxPerSegOf cfg x.blockSize⟩)
  · exact Or.inl (if_pos hmagic)

/-- A step to the super block after the layer. -/
theorem next_of_found (h : x.Is f s) (hfound : x.Found cfg f y) :
    readNextSuperChecked cfg f s = readHead f (y.head f s.fd (f.loadInt (s.myOff + 4))) := by
  obtain ⟨rfl, hsz, hmap, hmagic⟩ := hfound
  rw [readNextSuperChecked, if_neg (not_not.mpr h.backed), h.endOff, if_neg (not_le.mpr hsz),
    if_neg (not_not.mpr hmap), if_neg (not_not.mpr hmagic), h.myOff, h.blockSize, head]

theorem Found.blockSize_lt (h : x.Found cfg f y) : y.blockSize < 2 ^ 31 := by
  have hbs : y.blockSize = f.loadInt x.off := by
    rw [h.1]
  rw [hbs]
  exact (loadInt_range x.off).2

/-- **The outcomes of `read_next_super`.** -/
theorem next_cases (h : x.Is f s) :
    (x.Crashes cfg f → ∃ e, readNextSuperChecked cfg f s = .error e ∧ ¬Exits e) ∧
      (∀ y, x.Leads cfg f y → ∃ t, readNextSuperChecked cfg f s = .ok (some t) ∧ y.Is f t) ∧
      (¬x.Crashes cfg f → (∀ y, ¬x.Leads cfg f y) → readNextSuperChecked cfg f s = .ok none ∨
        ∃ e, readNextSuperChecked cfg f s = .error e ∧ Exits e) := by
  refine ⟨?_, ?_, fun hnot hstop => ?_⟩
  · rintro ⟨y, hfound, hmap⟩
    rw [next_of_found h hfound]
    exact (readHead_cases hfound.blockSize_lt).1 hmap
  · rintro y ⟨hfound, hmap, hc⟩
    rw [next_of_found h hfound]
    exact (readHead_cases hfound.blockSize_lt).2.2 hmap hc
  · by_cases hex : ∃ y, x.Found cfg f y
    · obtain ⟨y, hfound⟩ := hex
      have hmap : y.Mapped f (-1) := by
        by_contra hno
        exact hnot ⟨y, hfound, hno⟩
      have hc : ¬y.Counted f (-1) := fun hc => hstop y ⟨hfound, hmap, hc⟩
      right
      rw [next_of_found h hfound]
      exact ⟨_, (readHead_cases hfound.blockSize_lt).2.1 hmap hc, Or.inl rfl⟩
    · rcases next_of_not_found h fun y hy => hex ⟨y, hy⟩ with hnone | herr
      · exact Or.inl hnone
      · exact Or.inr ⟨_, herr, Or.inr rfl⟩

theorem walk_simulates : Simulates (readNextSuperChecked cfg f) Exits Super.myOff (Is f)
    (Crashes cfg f) (Leads cfg f) off f.size where
  rank_eq h := h.myOff
  crash h := (next_cases h).1
  leads h hlead := (next_cases h).2.1 _ hlead
  ends h := (next_cases h).2.2
  lt_bound h := h.1.2.1

/-! #### The rounds of the other loops -/

/-- The outcomes of the inner loop of `do_readonly_fmmap`. A negative counter is a large number of
slots, which leads out of the mapping. -/
theorem readSlots_cases (hbs : s.blockSize = x.blockSize) (hlt : x.blockSize < 2 ^ 31) :
    (x.Slotted cfg f n → readSlots cfg f s ⟨x.metaOff f n, x.counter f n⟩ = .ok ()) ∧
      (¬x.Slotted cfg f n →
        ∃ e, readSlots cfg f s ⟨x.metaOff f n, x.counter f n⟩ = .error e ∧ ¬Exits e) := by
  have hrange : -2 ^ 31 ≤ x.counter f n ∧ x.counter f n < 2 ^ 31 := by
    rw [counter]
    exact loadInt_range _
  rw [readSlots, hbs, Slotted]
  generalize x.counter f n = c at hrange
  generalize hP : (x.blockSize.toNat + 4095) / 4096 * 4096 = P
  set Ok : ℕ → Prop := fun j => clSize + cfg.entrySize * j < P ∧
    f.Backed (x.metaOff f n + clSize + cfg.entrySize * j) with hOk
  have hall : (∀ j < u64 c, Ok j) ↔ 0 ≤ c ∧ ∀ j < c.toNat, Ok j := by
    constructor
    · intro h
      have hc : 0 ≤ c := by
        by_contra hneg
        have hes : 0 < cfg.entrySize := by
          rw [Config.entrySize]
          split_ifs <;> decide
        have hin := (h P (by rw [u64]; omega)).1
        have hmul := Nat.le_mul_of_pos_left P hes
        omega
      exact ⟨hc, fun j hj => h j (by rw [u64]; omega)⟩
    · rintro ⟨hc, h⟩ j hj
      exact h j (by rw [u64] at hj; omega)
  rw [← hall]
  constructor
  · intro h
    refine runAll_ok fun j hj => ?_
    obtain ⟨hin, hback⟩ := h j hj
    rw [Nat.zero_add, if_neg (not_le.mpr hin), if_neg (not_not.mpr hback)]
  · intro h
    obtain ⟨j, hj, hbad, hbefore⟩ := exists_first h
    have herr : ∃ e, ((if P ≤ clSize + cfg.entrySize * j then .error .sigsegv
        else if ¬f.Backed (x.metaOff f n + clSize + cfg.entrySize * j) then .error .sigbus
        else .ok () : Except Fault Unit)) = .error e ∧ ¬Exits e := by
      by_cases hin : P ≤ clSize + cfg.entrySize * j
      · exact ⟨_, if_pos hin, fun he => by rcases he with he | he <;> cases he⟩
      · have hback : ¬f.Backed (x.metaOff f n + clSize + cfg.entrySize * j) := fun hb =>
          hbad ⟨not_le.mp hin, hb⟩
        rw [if_neg hin, if_pos hback]
        exact ⟨_, rfl, fun he => by rcases he with he | he <;> cases he⟩
    obtain ⟨e, he, hex⟩ := herr
    refine ⟨e, runAll_error hj ?_ fun i hi => ?_, hex⟩
    · rw [Nat.zero_add]
      exact he
    · obtain ⟨hin, hback⟩ := hbefore i hi
      rw [Nat.zero_add, if_neg (not_le.mpr hin), if_neg (not_not.mpr hback)]

/-- **The outcomes of the loop of `list_snapshots` over the meta blocks.** -/
theorem listBody_cases (h : x.Is f s) :
    (x.ListReturns f → listBody f s = .ok ()) ∧
      (x.MetasExit f (x.Listed f) → listBody f s = .error .badCounter) ∧
      (¬x.ListReturns f → ¬x.MetasExit f (x.Listed f) →
        ∃ e, listBody f s = .error e ∧ ¬Exits e) := by
  have hmeta := fun n => @readMeta_cases f s x n h.blockSize h.maxPerSeg h.metaOff
  obtain ⟨hret, hexit, hcrash⟩ := @forUpTo_cases
    (fun i => (readMetaChecked f s (i32 i)).map fun _ => ()) (fun i => x.Listed f (i32 i))
    (fun i => x.Mapped f (i32 i) ∧ ¬x.Counted f (i32 i)) (u64 (x.activeMetaNum f))
    (fun i hi => by rw [(hmeta (i32 i)).2.2 hi.1 hi.2]; rfl)
    (fun i hi => by rw [(hmeta (i32 i)).2.1 hi.1 hi.2]; rfl)
    (fun i hi hx => by
      have hmap : ¬x.Mapped f (i32 i) := fun hm =>
        hx ⟨hm, fun hc => hi ⟨hm, hc⟩⟩
      obtain ⟨e, he, hbad⟩ := (hmeta (i32 i)).1 hmap
      rw [he]
      exact ⟨e, rfl, hbad⟩)
  rw [listBody, h.activeMetaNum, h.myOff]
  refine ⟨fun hl => ?_, fun hl => ?_, fun hl hx => ?_⟩
  · rw [hret hl.1]
    exact if_pos hl.2
  · rw [hexit hl]
  · by_cases hr : x.MetasReturn f (x.Listed f)
    · rw [hret hr]
      exact ⟨_, if_neg fun hname => hl ⟨hr, hname⟩,
        fun he => by rcases he with he | he <;> cases he⟩
    · obtain ⟨e, he, hbad⟩ := hcrash hr hx
      rw [he]
      exact ⟨e, rfl, hbad⟩

/-- **The outcomes of `do_readonly_fmmap`.** -/
theorem mapBody_cases (h : x.Is f s) :
    (x.MetasReturn f (x.MapRead cfg f) → mapBody cfg f s = .ok ()) ∧
      (x.MetasExit f (x.MapRead cfg f) → mapBody cfg f s = .error .badCounter) ∧
      (¬x.MetasReturn f (x.MapRead cfg f) → ¬x.MetasExit f (x.MapRead cfg f) →
        ∃ e, mapBody cfg f s = .error e ∧ ¬Exits e) := by
  have hmeta := fun n => @readMeta_cases f s x n h.blockSize h.maxPerSeg h.metaOff
  have hslots := fun n => @readSlots_cases cfg f s x n h.blockSize h.blockSize_lt
  rw [mapBody, h.activeMetaNum]
  refine forUpTo_cases (fun i hi => ?_) (fun i hi => ?_) fun i hi hx => ?_
  · rw [(hmeta (i32 i)).2.2 hi.1.1 hi.1.2]
    exact (hslots (i32 i)).1 hi.2
  · rw [(hmeta (i32 i)).2.1 hi.1 hi.2]
  · by_cases hmap : x.Mapped f (i32 i)
    · have hc : x.Counted f (i32 i) := by
        by_contra hno
        exact hx ⟨hmap, hno⟩
      rw [(hmeta (i32 i)).2.2 hmap hc]
      exact (hslots (i32 i)).2 fun hs => hi ⟨⟨hmap, hc⟩, hs⟩
    · obtain ⟨e, he, hbad⟩ := (hmeta (i32 i)).1 hmap
      rw [he]
      exact ⟨e, rfl, hbad⟩

theorem map_simulates : Simulates (mapStep cfg f) Exits Super.myOff (Is f)
    (MapCrashes cfg f) (MapLeads cfg f) off f.size where
  rank_eq h := h.myOff
  crash {x s} h hcrash := by
    rw [mapStep]
    rcases hcrash with hnext | ⟨⟨y, hy⟩, hret, hexit⟩
    · obtain ⟨e, he, hbad⟩ := (next_cases h).1 hnext
      rw [he]
      exact ⟨e, rfl, hbad⟩
    · obtain ⟨t, ht, -⟩ := (next_cases h).2.1 y hy
      obtain ⟨e, he, hbad⟩ := (mapBody_cases h).2.2 hret hexit
      rw [ht]
      simp only [he]
      exact ⟨e, rfl, hbad⟩
  leads {x y s} h hlead := by
    obtain ⟨t, ht, hty⟩ := (next_cases h).2.1 y hlead.1
    rw [mapStep, ht]
    simp only [(mapBody_cases h).1 hlead.2]
    exact ⟨t, rfl, hty⟩
  ends {x s} h hnot hstop := by
    obtain ⟨hnext, hbody⟩ := not_or.mp hnot
    rw [mapStep]
    by_cases hlead : ∃ y, x.Leads cfg f y
    · obtain ⟨y, hy⟩ := hlead
      obtain ⟨t, ht, -⟩ := (next_cases h).2.1 y hy
      have hret : ¬x.MetasReturn f (x.MapRead cfg f) := fun hr => hstop y ⟨hy, hr⟩
      have hexit : x.MetasExit f (x.MapRead cfg f) := by
        by_contra hno
        exact hbody ⟨⟨y, hy⟩, hret, hno⟩
      right
      rw [ht]
      simp only [(mapBody_cases h).2.1 hexit]
      exact ⟨_, rfl, Or.inl rfl⟩
    · rcases (next_cases h).2.2 hnext (not_exists.mp hlead) with hnone | ⟨e, he, hgood⟩
      · rw [hnone]
        exact Or.inl rfl
      · rw [he]
        exact Or.inr ⟨e, rfl, hgood⟩
  lt_bound h := h.1.1.2.1

theorem list_simulates : Simulates (listStep cfg f) Exits Super.myOff (Is f)
    (ListCrashes cfg f) (ListLeads cfg f) off f.size where
  rank_eq h := h.myOff
  crash {x s} h hcrash := by
    rw [listStep]
    rcases hcrash with ⟨hret, hexit⟩ | ⟨hret, hnext⟩
    · obtain ⟨e, he, hbad⟩ := (listBody_cases h).2.2 hret hexit
      rw [he]
      exact ⟨e, rfl, hbad⟩
    · rw [(listBody_cases h).1 hret]
      exact (next_cases h).1 hnext
  leads {x y s} h hlead := by
    rw [listStep, (listBody_cases h).1 hlead.1]
    exact (next_cases h).2.1 y hlead.2
  ends {x s} h hnot hstop := by
    obtain ⟨hbody, hnext⟩ := not_or.mp hnot
    rw [listStep]
    by_cases hret : x.ListReturns f
    · rw [(listBody_cases h).1 hret]
      exact (next_cases h).2.2 (fun hc => hnext ⟨hret, hc⟩) fun y hy => hstop y ⟨hret, hy⟩
    · have hexit : x.MetasExit f (x.Listed f) := by
        by_contra hno
        exact hbody ⟨hret, hno⟩
      rw [(listBody_cases h).2.1 hexit]
      exact Or.inr ⟨_, rfl, Or.inl rfl⟩
  lt_bound h := h.2.1.2.1

/-- A cut behind the meta block leaves its counter, which is small where the cut is close: the bytes
that go are zero. -/
theorem counter_truncate {a m : ℕ} {b : ℤ} (hpos : 0 < b) (hc : 0 ≤ f.loadInt a)
    (hm : (m : ℤ) = a + b * (1 + f.loadInt a)) : (f.truncate m).loadInt a = f.loadInt a := by
  have hlt : f.load a 4 < 256 ^ 4 := ByteFile.load_lt
  have hload : f.loadInt a = f.load a 4 := by
    rw [ByteFile.loadInt] at hc ⊢
    generalize f.load a 4 = l at hc hlt
    rcases lt_or_ge l (2 ^ 31) with hl | hl
    · exact i32_of_range (by omega) (by omega)
    · rw [i32, Int.bmod_def] at hc
      omega
  rw [hload] at hm
  have hmul : 1 * (1 + (f.load a 4 : ℤ)) ≤ b * (1 + f.load a 4) :=
    mul_le_mul_of_nonneg_right hpos (by omega)
  refine ByteFile.loadInt_congr fun x hx₁ hx₂ => ?_
  rw [ByteFile.byte_truncate]
  split_ifs with hx
  · rfl
  · -- the byte is one of a counter below 256
    obtain ⟨i, rfl⟩ : ∃ i, x = a + i := ⟨x - a, by omega⟩
    have hdigit := @ByteFile.load_digit f a 4 i (by omega)
    have hpow : 256 ^ 1 ≤ 256 ^ i := Nat.pow_le_pow_right (by decide) (by omega)
    rw [Nat.div_eq_of_lt (by omega), Nat.zero_mod] at hdigit
    exact (UInt8.toNat_inj.mp hdigit)

/-- **The step after the file is cut**: it reads the counter again, and finds the end of the
file. -/
theorem next_ftruncate (h : x.Is f s) :
    (x.endOff f ≤ x.activeMetaOff f →
      readNextSuperChecked cfg (ftruncate f (x.endOff f)) s = .error .sigbus) ∧
      (x.activeMetaOff f < x.endOff f →
        readNextSuperChecked cfg (ftruncate f (x.endOff f)) s = .ok none ∨
          readNextSuperChecked cfg (ftruncate f (x.endOff f)) s = .error .assertFailed) := by
  have hmetaOff : x.metaOff f (-1) = x.activeMetaOff f := if_pos rfl
  obtain ⟨hpos, hmap, hback⟩ := h.mapped
  rw [hmetaOff] at hmap hback
  have hcounter : x.counter f (-1) = f.loadInt (x.activeMetaOff f) := by
    rw [counter, hmetaOff]
  have hend := h.endOff
  rw [readNextSuperChecked, h.pmTop]
  constructor
  · intro hle
    have hlt : x.endOff f < 2 ^ 63 := lt_of_le_of_lt hle hmap.2
    rw [ftruncate, if_pos hlt]
    refine if_pos fun hb => ?_
    have hpage : x.activeMetaOff f / 4096 * 4096 = x.activeMetaOff f := Nat.div_mul_cancel hmap.1
    rw [ByteFile.Backed, hpage, ByteFile.size_truncate] at hb
    omega
  · intro hlt
    by_cases hbig : x.endOff f < 2 ^ 63
    · -- the file ends where the walk looks for the next super block
      rw [ftruncate, if_pos hbig]
      have hz : (x.endOff f : ℤ) =
          x.activeMetaOff f + x.blockSize * (1 + f.loadInt (x.activeMetaOff f)) := by
        have hbs := h.blockSize_lt
        obtain ⟨hge, hle⟩ := @loadInt_range f (x.activeMetaOff f)
        have hm := hmap.2
        rw [endOff, hcounter] at hbig ⊢
        have hup : x.blockSize * (1 + f.loadInt (x.activeMetaOff f)) ≤ 2 ^ 31 * 2 ^ 31 := by
          nlinarith
        have hdown : -(2 ^ 31 * 2 ^ 31) ≤ x.blockSize * (1 + f.loadInt (x.activeMetaOff f)) := by
          nlinarith
        generalize x.blockSize * (1 + f.loadInt (x.activeMetaOff f)) = z at hbig hup hdown ⊢
        rw [u64] at hbig ⊢
        omega
      have hc : 0 ≤ f.loadInt (x.activeMetaOff f) := by
        by_contra hneg
        have hprod := mul_nonpos_of_nonneg_of_nonpos hpos.le
          (show 1 + f.loadInt (x.activeMetaOff f) ≤ 0 by omega)
        omega
      have hsame : s.endOff (f.truncate (x.endOff f)) = x.endOff f := by
        rw [← hend, Super.endOff, Super.endOff, h.pmTop, h.activeMetaOff, h.blockSize]
        rw [← hend, Super.endOff, h.pmTop, h.activeMetaOff, h.blockSize] at hz
        rw [counter_truncate hpos hc hz]
      left
      rw [if_neg (not_not.mpr (ByteFile.backed_of_lt hlt)), hsame]
      exact if_pos le_rfl
    · rw [ftruncate, if_neg hbig, if_neg (not_not.mpr hback), hend]
      by_cases hsz : f.size ≤ x.endOff f
      · exact Or.inl (if_pos hsz)
      · rw [if_neg hsz]
        exact Or.inr (if_pos fun hok => hbig hok.2)

theorem rollback_simulates (snapshotNo : ℤ) : Simulates (rollbackStep cfg snapshotNo) Exits
    (fun x => x.2.2.myOff) (fun x y => y.1 = f ∧ y.2.1 = x.1 ∧ x.2.Is f y.2.2)
    (RollbackCrashes cfg f snapshotNo) (RollbackLeads cfg f snapshotNo) (fun x => x.2.off)
    f.size where
  rank_eq h := h.2.2.myOff
  crash {x y} h hcrash := by
    obtain ⟨k, x⟩ := x
    obtain ⟨f', k', s⟩ := y
    obtain ⟨rfl, rfl, hs⟩ := h
    rw [RollbackCrashes] at hcrash
    rw [rollbackStep]
    simp only at hcrash hs ⊢
    split_ifs at hcrash ⊢ with hno
    · rw [hs.endOff, (next_ftruncate hs).1 hcrash]
      exact ⟨_, rfl, fun he => by rcases he with he | he <;> cases he⟩
    · obtain ⟨e, he, hbad⟩ := (next_cases hs).1 hcrash
      rw [he]
      exact ⟨e, rfl, hbad⟩
  leads {x y z} h hlead := by
    obtain ⟨k, x⟩ := x
    obtain ⟨l, y⟩ := y
    obtain ⟨f', k', s⟩ := z
    obtain ⟨rfl, rfl, hs⟩ := h
    obtain ⟨hno, rfl, hlead⟩ := hlead
    obtain ⟨t, ht, hty⟩ := (next_cases hs).2.1 y hlead
    rw [rollbackStep]
    simp only
    rw [if_neg hno, ht]
    exact ⟨_, rfl, rfl, rfl, hty⟩
  ends {x y} h hnot hstop := by
    obtain ⟨k, x⟩ := x
    obtain ⟨f', k', s⟩ := y
    obtain ⟨rfl, rfl, hs⟩ := h
    rw [RollbackCrashes] at hnot
    rw [rollbackStep]
    simp only at hnot hs ⊢
    split_ifs at hnot ⊢ with hno
    · rw [hs.endOff]
      rcases (next_ftruncate hs).2 (not_le.mp hnot) with hnone | herr
      · rw [hnone]
        exact Or.inl rfl
      · rw [herr]
        exact Or.inr ⟨_, rfl, Or.inr rfl⟩
    · rcases (next_cases hs).2.2 hnot fun y hy => hstop (k' + 1, y) ⟨hno, rfl, hy⟩ with
        hnone | ⟨e, he, hgood⟩
      · rw [hnone]
        exact Or.inl rfl
      · rw [he]
        exact Or.inr ⟨e, rfl, hgood⟩
  lt_bound h := h.2.2.1.2.1

end SuperAt

/-! ### Whole loops -/

/-- **The fields of the file are in order** for a loop: the first super block has an active meta
block; and where its counter passes, the loop crashes at no super block it gets to, and every one it
goes on to is behind the one before. -/
def FieldsOk {ξ : Type} (cfg : Config) (f : ByteFile) (start : SuperAt → ξ) (Crash : ξ → Prop)
    (Leads : ξ → ξ → Prop) (off : ξ → ℕ) : Prop :=
  clSize ≤ f.size → HasMagic f 0 → (SuperAt.first cfg f).Mapped f (-1) ∧
    ((SuperAt.first cfg f).Counted f (-1) →
      ∀ x, Relation.ReflTransGen Leads (start (SuperAt.first cfg f)) x →
        ¬Crash x ∧ ∀ y, Leads x y → off x < off y)

/-- **Which loops end well**, for every loop that the fields describe. -/
theorem loopOk_iff {σ ξ : Type} {step : σ → Except Fault (Option σ)} {start : Super → σ}
    {rank : σ → ℕ}
    {begin : SuperAt → ξ} {Is : ξ → σ → Prop} {Crash : ξ → Prop} {Leads : ξ → ξ → Prop}
    {off : ξ → ℕ}
    {bound : ℕ} (h : Simulates step Exits rank Is Crash Leads off bound)
    (hstart : ∀ x s, SuperAt.Is f x s → Is (begin x) (start s)) :
    LoopOk cfg f fd step start rank ↔ FieldsOk cfg f begin Crash Leads off := by
  rw [LoopOk, FieldsOk]
  by_cases hsz : f.size < clSize
  · rw [readFirstSuperChecked, if_pos hsz]
    exact iff_of_true trivial fun hle => absurd hsz (not_lt.mpr hle)
  by_cases hmagic : HasMagic f 0
  swap
  · rw [readFirstSuperChecked, if_neg hsz, if_pos hmagic]
    exact iff_of_true trivial fun _ hm => absurd hm hmagic
  have hlt : (SuperAt.first cfg f).blockSize < 2 ^ 31 := by
    have hbs : (SuperAt.first cfg f).blockSize = f.loadInt 0 := by
      rw [SuperAt.first]
    rw [hbs]
    exact (loadInt_range 0).2
  obtain ⟨hcrash, hexit, hok⟩ := @SuperAt.readHead_cases f fd _ (f.loadInt 4) hlt
  rw [SuperAt.first_of_magic (not_lt.mp hsz) hmagic, imp_iff_right (not_lt.mp hsz),
    imp_iff_right hmagic]
  by_cases hmap : (SuperAt.first cfg f).Mapped f (-1)
  swap
  · obtain ⟨e, he, hbad⟩ := hcrash hmap
    rw [he]
    exact iff_of_false hbad fun hall => hmap hall.1
  by_cases hc : (SuperAt.first cfg f).Counted f (-1)
  swap
  · rw [hexit hmap hc]
    exact iff_of_true (Or.inl rfl) ⟨hmap, fun h => absurd h hc⟩
  obtain ⟨s, hs, his⟩ := hok hmap hc
  rw [hs]
  simp only
  rw [h.endsWell_iff (hstart _ _ his)]
  exact ⟨fun hall => ⟨hmap, fun _ => hall⟩, fun hall => hall.2 hc⟩

/-- **On which files the loops end.** On a file of any size and content, each of the four loops over
the super blocks reports no image, exits through the check of a counter or an assertion, or visits
super blocks at increasing offsets and stops, exactly if the fields of the super blocks that it gets
to are in order. -/
theorem walkOk_iff (cfg : Config) (f : ByteFile) (fd : Path) :
    (WalkOk cfg f fd ↔
      FieldsOk cfg f id (SuperAt.Crashes cfg f) (SuperAt.Leads cfg f) SuperAt.off) ∧
    (MapWalkOk cfg f fd ↔
      FieldsOk cfg f id (SuperAt.MapCrashes cfg f) (SuperAt.MapLeads cfg f) SuperAt.off) ∧
    (ListWalkOk cfg f fd ↔
      FieldsOk cfg f id (SuperAt.ListCrashes cfg f) (SuperAt.ListLeads cfg f) SuperAt.off) ∧
    ∀ snapshotNo : ℤ, RollbackWalkOk cfg f fd snapshotNo ↔
      FieldsOk cfg f (fun x => (0, x)) (SuperAt.RollbackCrashes cfg f snapshotNo)
        (SuperAt.RollbackLeads cfg f snapshotNo) fun x => x.2.off :=
  ⟨loopOk_iff SuperAt.walk_simulates fun _ _ h => h,
    loopOk_iff SuperAt.map_simulates fun _ _ h => h,
    loopOk_iff SuperAt.list_simulates fun _ _ h => h,
    fun no => loopOk_iff (SuperAt.rollback_simulates no) fun _ _ h => ⟨rfl, rfl, h⟩⟩

/-- A file of two pages with a super block for blocks of one page, whose meta block has the counter
`c`. -/
def onePageFile (c : ℤ) : ByteFile :=
  FileOp.run [.fallocate 0 8192, storeInt 0 4096, .store 12 4 magic, storeInt 4096 c] .empty

/-- **A negative counter sends the walk back**: with the counter -2, the length of the layer is zero
blocks, and the super block follows itself. With -1, the walk ends, but `rollback_snapshot` cuts the
meta block off and reads it again. -/
theorem walkOk_negativeCounter : (∃ s,
    readFirstSuperChecked .shipped (onePageFile (-2)) [1] = .ok (some s) ∧
      readNextSuperChecked .shipped (onePageFile (-2)) s = .ok (some s) ∧
      ¬WalkOk .shipped (onePageFile (-2)) [1]) ∧
    WalkOk .shipped (onePageFile (-1)) [1] ∧ ¬RollbackWalkOk .shipped (onePageFile (-1)) [1] 1 := by
  refine ⟨?_, ?_, ?_⟩
  · have hfirst : readFirstSuperChecked .shipped (onePageFile (-2)) [1] =
        .ok (some ⟨[1], 4096, 0, 0, 504, 0, 4096, ⟨4096, -2⟩, 0, 0⟩) := by decide +kernel
    have hnext : readNextSuperChecked .shipped (onePageFile (-2))
        ⟨[1], 4096, 0, 0, 504, 0, 4096, ⟨4096, -2⟩, 0, 0⟩ =
        .ok (some ⟨[1], 4096, 0, 0, 504, 0, 4096, ⟨4096, -2⟩, 0, 0⟩) := by decide +kernel
    refine ⟨_, hfirst, hnext, fun hwalk => ?_⟩
    rw [WalkOk, LoopOk, hfirst] at hwalk
    exact absurd ((endsWell_of_some hnext).mp hwalk).1 (lt_irrefl _)
  · have hfirst : readFirstSuperChecked .shipped (onePageFile (-1)) [1] =
        .ok (some ⟨[1], 4096, 0, 0, 504, 0, 4096, ⟨4096, -1⟩, 0, 0⟩) := by decide +kernel
    have hnext : readNextSuperChecked .shipped (onePageFile (-1))
        ⟨[1], 4096, 0, 0, 504, 0, 4096, ⟨4096, -1⟩, 0, 0⟩ = .ok none := by decide +kernel
    rw [WalkOk, LoopOk, hfirst]
    exact endsWell_of_none hnext
  · have hfirst : readFirstSuperChecked .shipped (onePageFile (-1)) [1] =
        .ok (some ⟨[1], 4096, 0, 0, 504, 0, 4096, ⟨4096, -1⟩, 0, 0⟩) := by decide +kernel
    have hstep : rollbackStep .shipped 1 (onePageFile (-1), 0,
        ⟨[1], 4096, 0, 0, 504, 0, 4096, ⟨4096, -1⟩, 0, 0⟩) = .error .sigbus := by
      have hend : Super.endOff (onePageFile (-1))
          ⟨[1], 4096, 0, 0, 504, 0, 4096, ⟨4096, -1⟩, 0, 0⟩ = 4096 := by decide +kernel
      have hnext : readNextSuperChecked .shipped (ftruncate (onePageFile (-1)) 4096)
          ⟨[1], 4096, 0, 0, 504, 0, 4096, ⟨4096, -1⟩, 0, 0⟩ = .error .sigbus := by decide +kernel
      rw [rollbackStep]
      simp only
      rw [if_pos (by decide), hend, hnext]
      rfl
    rw [RollbackWalkOk, LoopOk, hfirst]
    intro hwell
    rcases (endsWell_of_error hstep).mp hwell with he | he <;> cases he

end Pcow
