import Pcow.Parts

/-!
# Guest stores during the copy of a whole block

The branch of `cow_handler` that copies a whole block copies it word by word, from the range the
guest sees to the second mapping of the data block. For the units that were copied before, the two
are the same bytes of the file, and the guest may write to them: other threads go on while the
handler runs. A store of the guest that falls between the load and the store of the same word is
undone (`wholeCopy_loses`). Where none does, and every page of the block is mapped, every word of
these units holds what the guest stored last, at every point of the copy and after it
(`wholeCopy_keeps`). The partial branch copies the one unit that is still write protected, and has
no such word.

`BlockCopy.handler` is `Session.copyBlock`, one load or store at a time (`BlockCopy.run_handler`). A
load from a missing page is a fault of its own; the copy is followed up to there.
-/

namespace Pcow

/-! ### The copy, word by word -/

/-- Where the copy of a whole block is. -/
inductive CopyPc
  /-- About to load word `i`. -/
  | load (i : ℕ) : CopyPc
  /-- About to store it; `w` is what was loaded. -/
  | store (i w : ℕ) : CopyPc
  /-- The load of word `i` is a fault, for its page is missing. -/
  | fault (i : ℕ) : CopyPc
  /-- About to flush the copy and map it over the block. -/
  | remap : CopyPc
  /-- About to store to the entry of the block. -/
  | entry : CopyPc
  /-- The copy is complete. -/
  | done : CopyPc
deriving DecidableEq

/-- A copy of a whole block, and the session it happens in. -/
structure BlockCopy where
  /-- The session. -/
  ses : Session
  /-- How far the copy is. -/
  pc : CopyPc

/-- A step of the copy, or the store of a word by another thread. -/
inductive RaceOp
  /-- A step of the copy. -/
  | handler : RaceOp
  /-- The guest stores the word `x` at `v`. -/
  | guest (v x : ℕ) : RaceOp

/-- The guest stores a word to a page it may write to. -/
def Session.storeWord (ses : Session) (v x : ℕ) : Session :=
  match ses.pages (v / pageSize) with
  | some e =>
    if e.writable then
      let f := (ses.fs e.file).getD .empty
      { ses with fs := Function.update ses.fs e.file (some (f.store (e.off + v % pageSize) 8 x)) }
    else ses
  | none => ses

/-- A byte array after the store of a word. -/
def putWord (mem : ℕ → UInt8) (v x : ℕ) : ℕ → UInt8 := fun a =>
  if v ≤ a ∧ a < v + 8 then UInt8.ofNat (x / 256 ^ (a - v) % 256) else mem a

namespace BlockCopy

variable {cfg : Config} {ce : CowEntry} {aligned : ℕ} {st st' : BlockCopy}

/-- The place after `i` words of `n` bytes. -/
def atWord (n i : ℕ) : CopyPc := if i < n / 8 then .load i else .remap

/-- The copy begins. -/
def start (ses : Session) : BlockCopy := ⟨ses, atWord (u64 ses.s.blockSize) 0⟩

/-- A step of the copy. -/
def handler (cfg : Config) (ce : CowEntry) (aligned : ℕ) (st : BlockCopy) : BlockCopy :=
  let n := u64 st.ses.s.blockSize
  match st.pc with
  -- the source is the range the guest sees
  | .load i =>
    if st.ses.pages ((aligned + 8 * i) / pageSize) = none then { st with pc := .fault i }
    else { st with pc := .store i (FileOp.word (st.ses.source aligned) (8 * i) 8) }
  | .store i w => ⟨st.ses.issue [.store (ce.blockOff + 8 * i) 8 w], atWord n (i + 1)⟩
  | .remap => ⟨(st.ses.issue (Session.flushLoop ce.blockOff n ++ [.fence])).remap
      (.mremap aligned n st.ses.s.fd ce.blockOff), .entry⟩
  | .entry =>
    ⟨st.ses.issue (Session.entryStore cfg st.ses.file ce.metaEntry (· &&& addrMask)), .done⟩
  -- what `uf_monitor` does then is not a step of the copy (`Session.copyMissing`)
  | .fault _ => st
  | .done => st

/-- One step. -/
def step (cfg : Config) (ce : CowEntry) (aligned : ℕ) (st : BlockCopy) : RaceOp → BlockCopy
  | .handler => st.handler cfg ce aligned
  | .guest v x => { st with ses := st.ses.storeWord v x }

/-- An order of the steps of the copy and of stores of the guest. -/
def run (cfg : Config) (ce : CowEntry) (aligned : ℕ) (st : BlockCopy) (ops : List RaceOp) :
    BlockCopy := ops.foldl (step cfg ce aligned) st

/-- Every step of a run has a property in the state before it. -/
def Along (cfg : Config) (ce : CowEntry) (aligned : ℕ) (P : BlockCopy → RaceOp → Prop) :
    BlockCopy → List RaceOp → Prop
  | _, [] => True
  | st, op :: ops => P st op ∧ Along cfg ce aligned P (st.step cfg ce aligned op) ops

/-- The step is no store of the guest to the word that the copy has loaded and not stored. -/
def Apart (aligned : ℕ) (st : BlockCopy) : RaceOp → Prop
  | .handler => True
  | .guest v _ => ∀ i w, st.pc = .store i w → v ≠ aligned + 8 * i

end BlockCopy

/-- What the guest has stored last, after a run. -/
def lastStored (mem : ℕ → UInt8) : List RaceOp → ℕ → UInt8
  | [] => mem
  | .handler :: ops => lastStored mem ops
  | .guest v x :: ops => lastStored (putWord mem v x) ops

/-- The page of the block at `aligned`, of size `n`, may be written to. -/
def Session.WritablePage (ses : Session) (aligned n p : ℕ) : Prop :=
  PageTable.InRange aligned n p ∧ ∃ e, ses.pages p = some e ∧ e.writable = true

/-- The stores of the guest are stores of words, to pages of the block that it may write to. -/
def RaceOp.ToWritable (ses : Session) (aligned n : ℕ) : RaceOp → Prop
  | .handler => True
  | .guest v _ => 8 ∣ v ∧ ses.WritablePage aligned n (v / pageSize)

/-! ### What the copy keeps -/

/-- **The words of the pages `W` hold what the guest stored last.** The pages are those of the data
block at `o`. -/
structure Session.Holds (ses : Session) (fd : Path) (o aligned n : ℕ) (W : ℕ → Prop)
    (mem : ℕ → UInt8) : Prop where
  fd_eq : ses.s.fd = fd
  blockSize : u64 ses.s.blockSize = n
  size_le : o + n ≤ ses.file.size
  pages : ∀ p, W p → ses.pages p = some ⟨fd, o + (p * pageSize - aligned), true⟩
  bytes : ∀ v, W (v / pageSize) → ses.file.byte (o + (v - aligned)) = mem v

/-- The word that the copy is about to store, if it is one of these pages, is what they hold. -/
def CopyPc.Ok (aligned n : ℕ) (W : ℕ → Prop) (mem : ℕ → UInt8) : CopyPc → Prop
  | .load i => 8 * i + 8 ≤ n
  | .store i w => 8 * i + 8 ≤ n ∧ ∀ j < 8, W ((aligned + 8 * i + j) / pageSize) →
      UInt8.ofNat (w / 256 ^ j % 256) = mem (aligned + 8 * i + j)
  | _ => True

section Holds

variable {cfg : Config} {ce : CowEntry} {aligned n o v : ℕ} {ses : Session} {W : ℕ → Prop}
  {fd : Path} {mem : ℕ → UInt8}

/-- The bytes of a page of a block are bytes of the block. -/
theorem mem_block (hal : pageSize ∣ aligned) (hn : pageSize ∣ n)
    (h : PageTable.InRange aligned n (v / pageSize)) : aligned ≤ v ∧ v < aligned + n := by
  obtain ⟨h₁, h₂⟩ := h
  obtain ⟨a, rfl⟩ := hal
  obtain ⟨b, rfl⟩ := hn
  rw [show pageSize = 4096 from rfl] at *
  omega

/-- The offset of a byte of a page of the block, in the file. -/
theorem page_off (hle : aligned ≤ v / pageSize * pageSize) :
    o + (v / pageSize * pageSize - aligned) + v % pageSize = o + (v - aligned) := by
  have := Nat.div_add_mod' v pageSize
  omega

/-- The guest sees what it stored last. -/
theorem Session.Holds.view (h : ses.Holds fd o aligned n W mem)
    (hW : ∀ p, W p → PageTable.InRange aligned n p) (hv : W (v / pageSize)) :
    ses.view v = mem v := by
  rw [Session.view, Session.byteAt, h.pages _ hv, ← h.bytes v hv, Session.file, h.fd_eq]
  simp only [Option.map_some, Option.getD_some, page_off (hW _ hv).1]

/-- Operations that do not change the bytes of the pages. -/
theorem Session.Holds.issue (h : ses.Holds fd o aligned n W mem) {ops : List FileOp}
    (hsz : (FileOp.run ops ses.file).size = ses.file.size)
    (hb : ∀ v, W (v / pageSize) → (FileOp.run ops ses.file).byte (o + (v - aligned)) =
      ses.file.byte (o + (v - aligned))) : (ses.issue ops).Holds fd o aligned n W mem := by
  refine ⟨h.fd_eq, h.blockSize, ?_, h.pages, fun v hv => ?_⟩
  · rw [Session.file_issue, hsz]
    exact h.size_le
  · rw [Session.file_issue, hb v hv]
    exact h.bytes v hv

/-- The copy goes on with a word of the block. -/
theorem BlockCopy.ok_atWord {i : ℕ} : (BlockCopy.atWord n i).Ok aligned n W mem := by
  rw [BlockCopy.atWord]
  split_ifs with hlt
  · have : 8 * i + 8 ≤ n := by omega
    exact this
  · trivial

/-- The store of a word to the data block. -/
theorem Session.Holds.put (h : ses.Holds fd o aligned n W mem) (hal : pageSize ∣ aligned)
    (hn : pageSize ∣ n) (hW : ∀ p, W p → PageTable.InRange aligned n p) (hv : aligned ≤ v) (x : ℕ) :
    (ses.issue [.store (o + (v - aligned)) 8 x]).Holds fd o aligned n W (putWord mem v x) := by
  have hsize := h.size_le
  refine ⟨h.fd_eq, h.blockSize, by rw [Session.file_issue]; exact hsize, h.pages, fun u hu => ?_⟩
  obtain ⟨hu₁, hu₂⟩ := mem_block hal hn (hW _ hu)
  rw [Session.file_issue, putWord]
  change (ses.file.store (o + (v - aligned)) 8 x).byte _ = _
  by_cases hin : v ≤ u ∧ u < v + 8
  · rw [if_pos hin, ByteFile.byte_store_of_mem (by omega) (by omega) (by omega),
      show o + (u - aligned) - (o + (v - aligned)) = u - v by omega]
  · rw [if_neg hin, ByteFile.byte_store_of_notMem (by omega)]
    exact h.bytes u hu

/-- The store of the guest to a word of the pages. -/
theorem Session.Holds.storeWord_eq (h : ses.Holds fd o aligned n W mem)
    (hW : ∀ p, W p → PageTable.InRange aligned n p) (hv : W (v / pageSize)) (x : ℕ) :
    ses.storeWord v x = ses.issue [.store (o + (v - aligned)) 8 x] := by
  rw [Session.storeWord, h.pages _ hv, ← h.fd_eq]
  simp only [if_true, page_off (hW _ hv).1]
  rfl

/-- **A step of the copy** keeps the words of the pages. -/
theorem Session.Holds.handler {st : BlockCopy}
    (h : st.ses.Holds fd ce.blockOff aligned n W mem) (hpc : st.pc.Ok aligned n W mem)
    (hal : pageSize ∣ aligned) (hn : pageSize ∣ n)
    (hW : ∀ p, W p → PageTable.InRange aligned n p)
    (hslot : ce.metaEntry + cfg.entrySize ≤ ce.blockOff ∨ ce.blockOff + n ≤ ce.metaEntry) :
    (st.handler cfg ce aligned).ses.Holds fd ce.blockOff aligned n W mem ∧
      (st.handler cfg ce aligned).pc.Ok aligned n W mem := by
  obtain ⟨ses, pc⟩ := st
  simp only at h hpc
  have hsize := h.size_le
  cases pc with
  | load i =>
    simp only [BlockCopy.handler]
    split_ifs
    · exact ⟨h, trivial⟩
    · -- the word loaded is what the guest sees
      refine ⟨h, hpc, fun j hj hw => ?_⟩
      rw [FileOp.word_digit hj, UInt8.ofNat_toNat, Session.source, ← Nat.add_assoc]
      exact h.view hW hw
  | store i w =>
    obtain ⟨hle, hword⟩ := hpc
    refine ⟨h.issue rfl fun v hv => ?_, ?_⟩
    · -- storing it does not change a word of the pages
      obtain ⟨h₁, h₂⟩ := mem_block hal hn (hW _ hv)
      change (ses.file.store (ce.blockOff + 8 * i) 8 w).byte _ = _
      by_cases hin : 8 * i ≤ v - aligned ∧ v - aligned < 8 * i + 8
      · have hj : aligned + 8 * i + (v - aligned - 8 * i) = v := by omega
        have hv' := hword (v - aligned - 8 * i) (by omega) (by rwa [hj])
        rw [hj] at hv'
        rw [ByteFile.byte_store_of_mem (by omega) (by omega) (by omega), h.bytes v hv, ← hv',
          show ce.blockOff + (v - aligned) - (ce.blockOff + 8 * i) = v - aligned - 8 * i by omega]
      · rw [ByteFile.byte_store_of_notMem (by omega)]
    · simp only [BlockCopy.handler, h.blockSize]
      exact BlockCopy.ok_atWord
  | remap =>
    have hbar : FileOp.run (Session.flushLoop ce.blockOff n ++ [.fence]) ses.file = ses.file :=
      FileOp.run_of_barriers Session.isBarrier_flushLoop
    have hissue : (ses.issue (Session.flushLoop ce.blockOff n ++ [.fence])).Holds fd ce.blockOff
        aligned n W mem := h.issue (by rw [hbar]) fun v _ => by rw [hbar]
    refine ⟨?_, trivial⟩
    simp only [BlockCopy.handler, h.blockSize]
    refine ⟨h.fd_eq, h.blockSize, hissue.size_le, fun p hp => ?_, hissue.bytes⟩
    rw [← h.fd_eq]
    exact PageTable.mapRange_of_inRange (hW p hp)
  | entry =>
    refine ⟨h.issue rfl fun v hv => ?_, trivial⟩
    obtain ⟨h₁, h₂⟩ := mem_block hal hn (hW _ hv)
    exact ByteFile.byte_store_of_notMem (by omega)
  | fault i => exact ⟨h, trivial⟩
  | done => exact ⟨h, trivial⟩

/-- **A store of the guest** to a word that the copy has not loaded. -/
theorem Session.Holds.guest {st : BlockCopy} {x : ℕ}
    (h : st.ses.Holds fd ce.blockOff aligned n W mem) (hpc : st.pc.Ok aligned n W mem)
    (hal : pageSize ∣ aligned) (hn : pageSize ∣ n)
    (hW : ∀ p, W p → PageTable.InRange aligned n p) (h8 : 8 ∣ v) (hv : W (v / pageSize))
    (hapart : BlockCopy.Apart aligned st (.guest v x)) :
    (st.ses.storeWord v x).Holds fd ce.blockOff aligned n W (putWord mem v x) ∧
      st.pc.Ok aligned n W (putWord mem v x) := by
  constructor
  · rw [h.storeWord_eq hW hv]
    exact h.put hal hn hW (mem_block hal hn (hW _ hv)).1 x
  · -- the word loaded is another one
    cases hst : st.pc with
    | store i w =>
      rw [hst] at hpc
      have hne := hapart i w hst
      refine ⟨hpc.1, fun j hj hw => ?_⟩
      obtain ⟨a, ha⟩ := hal
      obtain ⟨b, rfl⟩ := h8
      rw [show pageSize = 4096 from rfl] at ha
      rw [putWord, if_neg (by omega)]
      exact hpc.2 j hj hw
    | load i =>
      rw [hst] at hpc
      exact hpc
    | _ => trivial

/-- **A run** in which no store of the guest falls between the load and the store of the same
word. -/
theorem Session.Holds.run {st : BlockCopy} {ops : List RaceOp}
    (h : st.ses.Holds fd ce.blockOff aligned n W mem) (hpc : st.pc.Ok aligned n W mem)
    (hal : pageSize ∣ aligned) (hn : pageSize ∣ n)
    (hW : ∀ p, W p → PageTable.InRange aligned n p)
    (hslot : ce.metaEntry + cfg.entrySize ≤ ce.blockOff ∨ ce.blockOff + n ≤ ce.metaEntry)
    (hops : ∀ v x, .guest v x ∈ ops → 8 ∣ v ∧ W (v / pageSize))
    (halong : st.Along cfg ce aligned (BlockCopy.Apart aligned) ops) :
    (st.run cfg ce aligned ops).ses.Holds fd ce.blockOff aligned n W (lastStored mem ops) ∧
      (st.run cfg ce aligned ops).pc.Ok aligned n W (lastStored mem ops) := by
  induction ops generalizing st mem with
  | nil => exact ⟨h, hpc⟩
  | cons op ops ih =>
    obtain ⟨hapart, hrest⟩ := halong
    have hops' : ∀ v x, .guest v x ∈ ops → 8 ∣ v ∧ W (v / pageSize) := fun v x hmem =>
      hops v x (List.mem_cons_of_mem _ hmem)
    cases op with
    | handler =>
      obtain ⟨h₁, hpc₁⟩ := h.handler hpc hal hn hW hslot
      exact ih h₁ hpc₁ hops' hrest
    | guest v x =>
      obtain ⟨h8, hv⟩ := hops v x List.mem_cons_self
      obtain ⟨h₁, hpc₁⟩ := h.guest hpc hal hn hW h8 hv hapart
      exact ih h₁ hpc₁ hops' hrest

/-- **A store of the guest between the load and the store of its word is undone.** -/
theorem Session.Holds.undone {st : BlockCopy} {i w x : ℕ}
    (h : st.ses.Holds fd ce.blockOff aligned n W mem) (hst : st.pc = .store i w)
    (hpc : st.pc.Ok aligned n W mem) (hal : pageSize ∣ aligned) (hn : pageSize ∣ n)
    (hW : ∀ p, W p → PageTable.InRange aligned n p)
    (hpage : W ((aligned + 8 * i) / pageSize)) :
    ((st.step cfg ce aligned (.guest (aligned + 8 * i) x)).handler cfg ce aligned).ses.Holds fd
        ce.blockOff aligned n W mem ∧
      ((st.step cfg ce aligned (.guest (aligned + 8 * i) x)).handler cfg ce aligned).pc.Ok aligned n
        W mem := by
  obtain ⟨ses, pc⟩ := st
  simp only at h hst hpc
  subst hst
  have hle : aligned ≤ aligned + 8 * i := Nat.le_add_right _ _
  simp only [BlockCopy.step, BlockCopy.handler, h.storeWord_eq hW hpage]
  constructor
  · have hput := (h.put hal hn hW hle x).put hal hn hW hle w
    rw [Nat.add_sub_cancel_left] at hput ⊢
    -- the word stored last is the one that was there before the guest stored
    refine ⟨hput.fd_eq, hput.blockSize, hput.size_le, hput.pages, fun u hu => ?_⟩
    rw [hput.bytes u hu, putWord, putWord]
    split_ifs with hin
    · have hj : aligned + 8 * i + (u - (aligned + 8 * i)) = u := Nat.add_sub_cancel' hin.1
      have hu' := hpc.2 (u - (aligned + 8 * i)) (by omega) (by rwa [hj])
      rw [hu', hj]
    · rfl
  · have hblock : u64 (ses.issue [.store (ce.blockOff + (aligned + 8 * i - aligned)) 8
        x]).s.blockSize = n := h.blockSize
    rw [hblock]
    exact BlockCopy.ok_atWord

end Holds

/-! ### The copy alone -/

/-- The steps the copy has left, if it meets no fault. -/
def CopyPc.left (n : ℕ) : CopyPc → ℕ
  | .load i | .fault i => 2 * (n / 8 - i) + 2
  | .store i _ => 2 * (n / 8 - i) + 1
  | .remap => 2
  | .entry => 1
  | .done => 0

theorem CopyPc.left_eq_zero {n : ℕ} {pc : CopyPc} : pc.left n = 0 ↔ pc = .done := by
  cases pc <;> simp [CopyPc.left]

/-- The number of steps of the copy in a run. -/
def handlerSteps : List RaceOp → ℕ
  | [] => 0
  | .handler :: ops => handlerSteps ops + 1
  | .guest _ _ :: ops => handlerSteps ops

theorem handlerSteps_handlers {k : ℕ} : handlerSteps (List.replicate k .handler) = k := by
  induction k with
  | zero => rfl
  | succ k ih => exact congrArg (· + 1) ih

theorem handlerSteps_append {ops ops' : List RaceOp} :
    handlerSteps (ops ++ ops') = handlerSteps ops + handlerSteps ops' := by
  induction ops with
  | nil => exact (Nat.zero_add _).symm
  | cons op ops ih => cases op with
    | handler =>
      rw [List.cons_append, handlerSteps, handlerSteps, ih]
      omega
    | guest v x => exact ih

/-- Every page of the block at `aligned`, of size `n`, is mapped. -/
def Session.MapsBlock (ses : Session) (aligned n : ℕ) : Prop :=
  ∀ p, PageTable.InRange aligned n p → ses.pages p ≠ none

/-- The page of a word of the block. -/
theorem inRange_word {aligned n i : ℕ} (hal : pageSize ∣ aligned) (hdvd : pageSize ∣ n)
    (hi : i < n / 8) : PageTable.InRange aligned n ((aligned + 8 * i) / pageSize) := by
  obtain ⟨a, rfl⟩ := hal
  obtain ⟨m, rfl⟩ := hdvd
  rw [PageTable.InRange, show pageSize = 4096 from rfl] at *
  omega

namespace BlockCopy

variable {cfg : Config} {g : Geometry cfg} {ce : CowEntry} {aligned n i : ℕ} {ses : Session}
  {st : BlockCopy} {ls : List (List ℕ)} {es : List ℕ} {low : ℕ → Option (Path × ℕ)}

theorem run_append {ops ops' : List RaceOp} : st.run cfg ce aligned (ops ++ ops') =
    (st.run cfg ce aligned ops).run cfg ce aligned ops' := List.foldl_append

theorem left_atWord : (atWord n i).left n = 2 * (n / 8 - i) + 2 := by
  rw [atWord]
  split_ifs with h
  · rfl
  · rw [CopyPc.left]
    omega

/-- The word being copied is one of the block. -/
def InBlock (n : ℕ) : CopyPc → Prop
  | .load i | .store i _ => i < n / 8
  | .fault _ => False
  | _ => True

theorem inBlock_atWord : InBlock n (atWord n i) := by
  rw [atWord]
  split_ifs with h
  · exact h
  · trivial

/-- **The copy meets no fault**: all of the block is mapped. -/
structure Faultless (aligned n : ℕ) (st : BlockCopy) : Prop where
  blockSize : u64 st.ses.s.blockSize = n
  mapped : st.ses.MapsBlock aligned n
  inBlock : InBlock n st.pc

theorem faultless_start (hn : u64 ses.s.blockSize = n) (hmap : ses.MapsBlock aligned n) :
    (start ses).Faultless aligned n := by
  refine ⟨hn, hmap, ?_⟩
  rw [start, hn]
  exact inBlock_atWord

/-- A step of the copy. -/
theorem Faultless.handler (h : st.Faultless aligned n) (hal : pageSize ∣ aligned)
    (hdvd : pageSize ∣ n) : (st.handler cfg ce aligned).Faultless aligned n ∧
      (st.handler cfg ce aligned).pc.left n = st.pc.left n - 1 := by
  obtain ⟨ses, pc⟩ := st
  obtain ⟨hn, hmap, hpc⟩ := h
  simp only at hn hmap hpc
  cases pc with
  | load i =>
    have hlt : i < n / 8 := hpc
    simp only [BlockCopy.handler, if_neg (hmap _ (inRange_word hal hdvd hlt))]
    exact ⟨⟨hn, hmap, hlt⟩, rfl⟩
  | store i w =>
    have hlt : i < n / 8 := hpc
    simp only [BlockCopy.handler, hn]
    refine ⟨⟨hn, hmap, inBlock_atWord⟩, ?_⟩
    rw [left_atWord, CopyPc.left]
    omega
  | fault i => exact hpc.elim
  | remap =>
    -- mapping the copy maps no less
    exact ⟨⟨hn, fun p hp => Session.mapRange_mapped (hmap p hp), trivial⟩, rfl⟩
  | entry => exact ⟨⟨hn, hmap, trivial⟩, rfl⟩
  | done => exact ⟨⟨hn, hmap, trivial⟩, rfl⟩

/-- A store of the guest. -/
theorem Faultless.guest (h : st.Faultless aligned n) (v x : ℕ) :
    ({ st with ses := st.ses.storeWord v x } : BlockCopy).Faultless aligned n := by
  have hsame : (st.ses.storeWord v x).s = st.ses.s ∧
      (st.ses.storeWord v x).pages = st.ses.pages := by
    rw [Session.storeWord]
    split
    · split_ifs <;> exact ⟨rfl, rfl⟩
    · exact ⟨rfl, rfl⟩
  refine ⟨?_, fun p hp => ?_, h.inBlock⟩
  · rw [hsame.1]
    exact h.blockSize
  · rw [hsame.2]
    exact h.mapped p hp

/-- **The copy comes to an end**, after two steps for each word and two more, whatever the guest
does. -/
theorem Faultless.run {ops : List RaceOp} (h : st.Faultless aligned n) (hal : pageSize ∣ aligned)
    (hdvd : pageSize ∣ n) : (st.run cfg ce aligned ops).Faultless aligned n ∧
      (st.run cfg ce aligned ops).pc.left n = st.pc.left n - handlerSteps ops := by
  induction ops generalizing st with
  | nil => exact ⟨h, rfl⟩
  | cons op ops ih =>
    cases op with
    | handler =>
      obtain ⟨h₁, hleft⟩ := @Faultless.handler cfg ce _ _ _ h hal hdvd
      rw [handlerSteps, Nat.add_comm, ← Nat.sub_sub, ← hleft]
      exact ih h₁
    | guest v x => exact ih (h.guest v x)

theorem left_start (hn : u64 ses.s.blockSize = n) : (start ses).pc.left n = 2 * (n / 8) + 2 := by
  rw [start, hn, left_atWord, Nat.sub_zero]

/-- A copy of `n` bytes is complete after that many steps. -/
theorem run_done {ops : List RaceOp} (hn : u64 ses.s.blockSize = n)
    (hmap : ses.MapsBlock aligned n) (hal : pageSize ∣ aligned) (hdvd : pageSize ∣ n)
    (h : 2 * (n / 8) + 2 ≤ handlerSteps ops) : ((start ses).run cfg ce aligned ops).pc = .done := by
  obtain ⟨-, hleft⟩ := @Faultless.run cfg ce _ _ _ ops (faultless_start hn hmap) hal hdvd
  rw [left_start hn, Nat.sub_eq_zero_of_le h] at hleft
  exact CopyPc.left_eq_zero.mp hleft

/-- A copy that has just loaded word `i`. -/
theorem run_store (hn : u64 ses.s.blockSize = n) (hmap : ses.MapsBlock aligned n)
    (hal : pageSize ∣ aligned) (hdvd : pageSize ∣ n) (hi : i < n / 8) :
    ∃ w, ((start ses).run cfg ce aligned (List.replicate (2 * i + 1) .handler)).pc =
      .store i w := by
  obtain ⟨h, hleft⟩ := @Faultless.run cfg ce _ _ _ (List.replicate (2 * i + 1) .handler)
    (faultless_start hn hmap) hal hdvd
  rw [left_start hn, handlerSteps_handlers] at hleft
  have hin := h.inBlock
  rcases hpc : ((start ses).run cfg ce aligned (List.replicate (2 * i + 1) .handler)).pc with
    j | ⟨j, w⟩ | j | _ | _ | _
  all_goals
    rw [hpc] at hleft hin
    simp only [CopyPc.left, InBlock] at hleft hin
    try omega
  obtain rfl : j = i := by omega
  exact ⟨w, rfl⟩

theorem memcpy_succ {o : ℕ} {src : ℕ → UInt8} : FileOp.memcpy o (8 * (i + 1)) src =
    FileOp.memcpy o (8 * i) src ++ [.store (o + 8 * i) 8 (FileOp.word src (8 * i) 8)] := by
  rw [FileOp.memcpy, FileOp.memcpy, Nat.mul_div_cancel_left _ (by norm_num),
    Nat.mul_div_cancel_left _ (by norm_num), List.range_succ, List.map_append]
  rfl

/-- **The first words of a copy**, with no store of the guest in between. -/
theorem run_words {b : ℕ} {moved : ℕ → Option (List ℕ)} (h : ses.Core g ls es low moved)
    (htop : g.top ses.s.fd (g.chainEnd 0 ls) es b = some (ses.s.fd, ce.blockOff))
    (hmap : ses.MapsBlock (b * g.blockSize) g.blockSize) (hi : i ≤ g.blockSize / 8) :
    (start ses).run cfg ce (b * g.blockSize) (List.replicate (2 * i) .handler) =
      ⟨ses.issue (FileOp.memcpy ce.blockOff (8 * i) (ses.source (b * g.blockSize))),
        atWord g.blockSize i⟩ := by
  have hsome : ses.fs ses.s.fd ≠ none := by
    intro hnone
    have hle := h.image.last.size_le
    have hend := g.add_blockSize_le_endOff (g.chainEnd 0 ls) es.length
    have hpos := g.blockSize_pos
    have hsize : ses.file.size = 0 := by
      rw [Session.file, hnone]
      rfl
    omega
  have hu := h.super.u64_blockSize
  induction i with
  | zero =>
    have hnil : FileOp.memcpy ce.blockOff (8 * 0) (ses.source (b * g.blockSize)) = [] := rfl
    rw [hnil, Session.issue_nil hsome, ← hu]
    rfl
  | succ i ih =>
    obtain ⟨-, hsame, -⟩ := h.copy b ce.blockOff 0 (8 * i) htop (by omega) (Nat.dvd_mul_right 8 i)
      (List.forall_mem_nil FileOp.IsBarrier) (List.append_nil _).symm
    have hsource : (ses.issue (FileOp.memcpy ce.blockOff (8 * i)
        (ses.source (b * g.blockSize)))).source (b * g.blockSize) =
        ses.source (b * g.blockSize) := by
      funext x
      exact congrFun hsame.view (b * g.blockSize + x)
    have hlt : i < g.blockSize / 8 := hi
    have hpage : ¬(ses.issue (FileOp.memcpy ce.blockOff (8 * i)
        (ses.source (b * g.blockSize)))).pages ((b * g.blockSize + 8 * i) / pageSize) = none :=
      hmap _ (inRange_word (dvd_mul_of_dvd_right h.page_dvd b) h.page_dvd hlt)
    rw [show 2 * (i + 1) = 2 * i + 2 by omega, List.replicate_add, run_append, ih (by omega),
      memcpy_succ, ← Session.issue_issue]
    simp only [run, List.replicate, List.foldl_cons, List.foldl_nil, step, handler, atWord,
      if_pos hlt, if_neg hpage, hsource]
    congr 2
    exact congrArg (fun m => i + 1 < m / 8) hu

/-- **The copy alone is that of the model of `cow_handler`.** -/
theorem run_handler {b : ℕ} {moved : ℕ → Option (List ℕ)} (h : ses.Core g ls es low moved)
    (htop : g.top ses.s.fd (g.chainEnd 0 ls) es b = some (ses.s.fd, ce.blockOff))
    (hmap : ses.MapsBlock (b * g.blockSize) g.blockSize) :
    (start ses).run cfg ce (b * g.blockSize)
        (List.replicate (2 * (g.blockSize / 8) + 2) .handler) =
      ⟨(ses.copyBlock cfg ce (b * g.blockSize)).1, .done⟩ := by
  have h8 : 8 ∣ g.blockSize := dvd_trans (by decide) h.page_dvd
  have hu := h.super.u64_blockSize
  rw [List.replicate_add, run_append, run_words h htop hmap le_rfl, Nat.mul_div_cancel' h8]
  simp only [run, List.replicate, List.foldl_cons, List.foldl_nil, step, handler, atWord,
    lt_irrefl, if_false, Session.copyBlock, List.append_assoc]
  have hissue : ∀ ops : List FileOp, u64 (ses.issue ops).s.blockSize = g.blockSize := fun _ => hu
  rw [hissue, hu, Session.issue_issue]
  rfl

end BlockCopy

/-! ### Faults on a block some units of which are copied -/

section Fault

variable {cfg : Config} {g : Geometry cfg} {off : ℕ} {es : List ℕ} {low : PageTable Path}
  {ses ses₁ : Session} {v n n' : ℕ} {le : CowLEntry} {ce : CowEntry} {fops : List FileOp}

/-- The slot of an entry lies before or after a data block. -/
theorem Geometry.slot_data (off i j : ℕ) : g.slot off j + cfg.entrySize ≤ g.dataOff off i ∨
    g.dataOff off i + g.blockSize ≤ g.slot off j := by
  obtain ⟨h₁, h₂⟩ := g.slot_mem off j
  rcases lt_or_gt_of_ne (metaBlock_ne_dataBlock : g.metaBlock (j / g.perSeg) ≠ g.dataBlock i) with
    hlt | hlt
  · have := g.blockAt_add_le off hlt
    exact Or.inl (le_trans h₂ this)
  · have : g.dataOff off i + g.blockSize ≤ _ := g.blockAt_add_le off hlt
    exact Or.inr (by omega)

/-- **At the start of the copy** of a block with a protected page, the writable pages of the block
hold what the guest sees; they are pages of the data block the copy goes to. -/
theorem Session.Marked.holds (h : ses.Marked g off es low) (hs : ses.Shares g.blockSize)
    {e : Pte Path} (hp : ses.pages (v / pageSize) = some e) (hw : e.writable = false)
    (hins : ses.insertList cfg n n' (v / cowUnit * cowUnit) = .ok (ses₁, some (le, ce), fops))
    {p : ℕ} (hpage : ses.WritablePage (v / g.blockSize * g.blockSize) g.blockSize p) :
    ses₁.Holds ses.s.fd ce.blockOff (v / g.blockSize * g.blockSize) g.blockSize
        (ses.WritablePage (v / g.blockSize * g.blockSize) g.blockSize) ses.view ∧
      (ce.metaEntry + cfg.entrySize ≤ ce.blockOff ∨ ce.blockOff + g.blockSize ≤ ce.metaEntry) := by
  have hdiv : ∀ q, ses.WritablePage (v / g.blockSize * g.blockSize) g.blockSize q →
      q * pageSize / g.blockSize = v / g.blockSize := fun q hq =>
    (PageTable.inRange_block g.blockSize_pos).mp hq.1
  have hentry := fun q (hq : ses.WritablePage (v / g.blockSize * g.blockSize) g.blockSize q) e'
      (he' : ses.pages q = some e') (hw' : e'.writable = true) =>
    h.insertList_entry hs (hdiv q hq) (div_page h.page_dvd v) he' hw' hp hw hins
  obtain ⟨-, e', he', hw'⟩ := id hpage
  obtain ⟨⟨c, rfl⟩, ⟨j, hslot⟩, ⟨i, hi, hoff⟩, -⟩ := hentry p hpage e' he' hw'
  have hpages : ∀ q, ses.WritablePage (v / g.blockSize * g.blockSize) g.blockSize q →
      ses.pages q = some ⟨ses.s.fd, ce.blockOff + (q * pageSize - v / g.blockSize * g.blockSize),
        true⟩ := by
    intro q hq
    obtain ⟨-, e, he, hwe⟩ := id hq
    obtain ⟨-, -, -, hplace⟩ := hentry q hq e he hwe
    have hmod := Nat.div_add_mod' (q * pageSize) g.blockSize
    rw [hdiv q hq] at hmod
    rw [he, ← (h.toPaged.writable he hwe).1, ← hwe,
      show ce.blockOff + (q * pageSize - v / g.blockSize * g.blockSize) = e.off by omega]
  refine ⟨⟨rfl, h.super.u64_blockSize, ?_, hpages, fun u hu => ?_⟩, ?_⟩
  · rw [hoff]
    exact le_trans (g.blockAt_add_le _ (g.dataBlock_lt hi)) h.layer.size_le
  · have hle : v / g.blockSize * g.blockSize ≤ u / pageSize * pageSize := hu.1.1
    change ses.file.byte _ = _
    rw [Session.view, Session.byteAt, hpages _ hu]
    simp only [Option.map_some, Option.getD_some, page_off hle]
    rfl
  · rw [hslot, hoff]
    exact g.slot_data _ i j

end Fault

/-! ### The copy of a block of a session -/

section Reached

variable {cfg : Config} {g : Geometry cfg} {fs : Fs} {fd : Path} {ls : List (List ℕ)} {es : List ℕ}
  {length offset v n n' : ℕ} {ses ses' ses₁ : Session} {le : CowLEntry} {ce : CowEntry}
  {fops : List FileOp}

/-- **No store of the guest is lost during the copy of a whole block**, where none falls between the
load and the store of the same word. The session has come to a fault on a protected page of the
block by any run in which the new entries of the table are for the first meta block; its base is
any, but every page of the block is mapped. Then at every point of the copy, and when it is
complete, every word of a page of the block that was writable holds what the guest stored last. The
copy is complete after two steps for each word and two more, whatever the guest does. -/
theorem wholeCopy_keeps (hfine : cfg.finegrainedCow = true)
    (h : IsChain g ((fs fd).getD .empty) 0 (ls ++ [es]))
    (hf : ((fs fd).getD .empty).size < 2 ^ 63) (hdvd : pageSize ∣ g.blockSize)
    (hopen : Session.fmmap cfg fs fd length offset = .ok (some ses))
    (hrun : Relation.ReflTransGen (Session.CopiesFirst cfg) ses ses') {e : Pte Path}
    (hp : ses'.pages (v / pageSize) = some e) (hw : e.writable = false)
    (hmap : ses'.MapsBlock (v / g.blockSize * g.blockSize) g.blockSize)
    (hins : ses'.insertList cfg n n' (v / cowUnit * cowUnit) = .ok (ses₁, some (le, ce), fops))
    (_hfull : le.copySize = ses₁.s.blockSize) {rops : List RaceOp}
    (hto : ∀ op ∈ rops, op.ToWritable ses' (v / g.blockSize * g.blockSize) g.blockSize)
    (hapart : (BlockCopy.start ses₁).Along cfg ce (v / g.blockSize * g.blockSize)
      (BlockCopy.Apart (v / g.blockSize * g.blockSize)) rops) :
    (∀ u, ses'.WritablePage (v / g.blockSize * g.blockSize) g.blockSize (u / pageSize) →
      ((BlockCopy.start ses₁).run cfg ce (v / g.blockSize * g.blockSize) rops).ses.view u =
        lastStored ses'.view rops u) ∧
      (2 * (g.blockSize / 8) + 2 ≤ handlerSteps rops →
        ((BlockCopy.start ses₁).run cfg ce (v / g.blockSize * g.blockSize) rops).pc = .done) := by
  obtain ⟨low, hmarked⟩ := Session.marked_of_fmmap h hf hdvd hopen
  obtain ⟨es', h', hs⟩ := hmarked.shares_run (h.shares_of_fmmap hf hdvd hopen) hfine hrun
  obtain ⟨hfixed, -, hpages, -⟩ := Session.insertList_range hins
  have hu : u64 ses₁.s.blockSize = g.blockSize := by
    rw [hfixed.blockSize]
    exact h'.super.u64_blockSize
  have hal : pageSize ∣ v / g.blockSize * g.blockSize := dvd_mul_of_dvd_right hdvd _
  constructor
  · intro u hu'
    obtain ⟨hholds, hslot⟩ := h'.holds hs hp hw hins hu'
    have hstart : (BlockCopy.start ses₁).pc.Ok (v / g.blockSize * g.blockSize) g.blockSize
        (ses'.WritablePage (v / g.blockSize * g.blockSize) g.blockSize) ses'.view := by
      rw [BlockCopy.start, hu]
      exact BlockCopy.ok_atWord
    have hrun' := Session.Holds.run hholds hstart hal hdvd (fun p hp => hp.1) hslot
      (fun v x hmem => hto _ hmem) hapart
    exact hrun'.1.view (fun p hp => hp.1) hu'
  · refine BlockCopy.run_done hu (fun p hp => ?_) hal hdvd
    rw [hpages]
    exact hmap p hp

end Reached

/-! ### A block of two units, the second of which is copied -/

/-- Steps of the copy are apart from anything. -/
theorem BlockCopy.along_handlers {cfg : Config} {ce : CowEntry} {aligned k : ℕ} {st : BlockCopy} :
    st.Along cfg ce aligned (BlockCopy.Apart aligned) (List.replicate k .handler) := by
  induction k generalizing st with
  | zero => trivial
  | succ k ih => exact ⟨trivial, ih⟩

theorem lastStored_append {mem : ℕ → UInt8} {ops ops' : List RaceOp} :
    lastStored mem (ops ++ ops') = lastStored (lastStored mem ops) ops' := by
  induction ops generalizing mem with
  | nil => rfl
  | cons op ops ih => cases op with
    | handler => exact ih
    | guest v x => exact ih

theorem lastStored_handlers {k : ℕ} {mem : ℕ → UInt8} :
    lastStored mem (List.replicate k .handler) = mem := by
  induction k with
  | zero => rfl
  | succ k ih => exact ih

/-- **Wherever the guest stores between the load and the store of a word**, the word is as it was
before. -/
theorem Session.Holds.copy_undoes {cfg : Config} {ses : Session} {ce : CowEntry} {fd : Path}
    {aligned n : ℕ} {W : ℕ → Prop} {mem : ℕ → UInt8} (h : ses.Holds fd ce.blockOff aligned n W mem)
    (hal : pageSize ∣ aligned) (hn : pageSize ∣ n)
    (hW : ∀ p, W p → PageTable.InRange aligned n p)
    (hslot : ce.metaEntry + cfg.entrySize ≤ ce.blockOff ∨ ce.blockOff + n ≤ ce.metaEntry)
    (hmap : ses.MapsBlock aligned n) {i : ℕ} (hi : i < n / 8)
    (hpage : W ((aligned + 8 * i) / pageSize)) (x k : ℕ) {u : ℕ} (hu : W (u / pageSize)) :
    ((BlockCopy.start ses).run cfg ce aligned (List.replicate (2 * i + 1) .handler ++
      .guest (aligned + 8 * i) x :: List.replicate (k + 1) .handler)).ses.view u = mem u := by
  have hno : ∀ {j : ℕ} (v x : ℕ), .guest v x ∈ List.replicate j RaceOp.handler →
      8 ∣ v ∧ W (v / pageSize) := by
    intro j v x hmem
    cases List.eq_of_mem_replicate hmem
  have hstart : (BlockCopy.start ses).pc.Ok aligned n W mem := by
    rw [BlockCopy.start, h.blockSize]
    exact BlockCopy.ok_atWord
  -- the copy up to the load of the word
  obtain ⟨hholds, hpc⟩ := Session.Holds.run h hstart hal hn hW hslot (@hno (2 * i + 1))
    BlockCopy.along_handlers
  rw [lastStored_handlers] at hholds hpc
  obtain ⟨w, hst⟩ := @BlockCopy.run_store cfg ce _ _ _ _ h.blockSize hmap hal hn hi
  obtain ⟨hholds', hpc'⟩ := hholds.undone hst hpc hal hn hW hpage
  -- and from its store on
  have hrest := Session.Holds.run hholds' hpc' hal hn hW hslot (@hno k) BlockCopy.along_handlers
  rw [lastStored_handlers] at hrest
  rw [BlockCopy.run_append]
  exact hrest.1.view hW hu

/-- A session in which the second unit of a block is copied, and a fault on the first, for which the
whole block is copied. -/
theorem exists_wholeCopy : ∃ (f : ByteFile) (ses ses' ses₁ : Session) (le : CowLEntry)
    (ce : CowEntry) (es' : List ℕ) (low : PageTable Path),
    IsImage (Geometry.twoPages .shipped) f [[0]] [] ∧ f.byte 16 = 0 ∧
      Session.fmmap .shipped (fun _ => some f) [1] (8192 * 2) 0 = .ok (some ses) ∧
      ses.run .shipped [.store 4096 1 0 0] = .ok (ses', [.stored 4096 1 true]) ∧
      Relation.ReflTransGen (Session.CopiesFirst .shipped) ses ses' ∧
      ses'.view 4096 = 1 ∧ (∃ e, ses'.pages 0 = some e ∧ e.writable = false) ∧
      ses'.WritablePage 0 8192 1 ∧ ses'.MapsBlock 0 8192 ∧
      ses'.insertList .shipped 0 0 0 = .ok (ses₁, some (le, ce), []) ∧
      le.copySize = ses₁.s.blockSize ∧
      ses'.Marked (Geometry.twoPages .shipped) ((Geometry.twoPages .shipped).chainEnd 0 [[0]])
        es' low ∧ ses'.Shares 8192 := by
  obtain ⟨f, ses, ses', himage, hname, -, hopen, hrun, -, hview, ⟨i, hi⟩, ⟨e, hp, hw⟩,
    ⟨e', hp', hw'⟩, es', hgrow, hinv⟩ := exists_incomplete
  have hbase : BaseIs (Geometry.twoPages .shipped) (fun _ => some f) (baseImageName f 0) [] :=
    Or.inl ⟨baseImageName_eq_nil hname, rfl⟩
  have hopened := himage.isChain.fmmap rfl himage.size_lt hbase hopen
  have hu : u64 ses'.s.blockSize = 8192 := hinv.core.super.u64_blockSize
  -- the run of the guest is a run of the steps of the session
  have hfirst : Relation.ReflTransGen (Session.CopiesFirst .shipped) ses ses' := by
    obtain ⟨ses₂, ev, evs', hstep, hrest, -⟩ := Session.run_cons hrun
    cases hrest
    refine Session.copiesFirst_of_step ?_ (fun _ _ _ => ?_) hstep
    · change 4096 < ses.s.fmmapLength
      rw [hopened.fmmapLength]
      decide
    · have := (Geometry.twoPages .shipped).perSeg_pos
      rw [hopened.super.toAllocNum, hopened.super.maxPerSeg, List.length_nil]
      omega
  obtain ⟨low, hmarked⟩ := @Session.marked_of_fmmap _ _ (fun _ => some f) [1] _ _ _ _ _
    himage.isChain himage.size_lt (by decide) hopen
  obtain ⟨es₂, hmarked', hshares⟩ := hmarked.shares_run
    (@IsChain.shares_of_fmmap _ _ (fun _ => some f) [1] _ _ _ _ _ himage.isChain himage.size_lt
      (by decide) hopen) rfl hfirst
  -- the only block of the table is that of the only entry
  obtain ⟨ce, rest, hl⟩ := List.exists_cons_of_ne_nil hi
  have hce : ce ∈ ses'.cow.buckets i := by
    rw [hl]
    exact List.mem_cons_self
  obtain ⟨b, hkey, rfl⟩ := hinv.tables.bucket i ce hce
  obtain rfl : b = 0 := by
    obtain ⟨j, hj, hjb, -⟩ := Geometry.top_eq_some (hinv.top_of_mem hce hkey).2
    rcases hgrow with rfl | ⟨-, rfl⟩
    · exact absurd hj (Nat.not_lt_zero _)
    · have hmem : b ∈ [] ++ [0] := hjb ▸ List.getElem_mem hj
      simpa using hmem
  have hsearch : searchHt (0 / u64 ses'.s.blockSize * u64 ses'.s.blockSize) 0
      (ses'.cow.buckets (bucketNumber (u64 ses'.s.blockSize) 0)) =
        some ({ ce with copiedCounter := -1 }, true, rest) := by
    rw [hu]
    change searchHt 0 0 (ses'.cow.buckets (0 % bucketNum)) = _
    rw [hl, searchHt, if_pos (by rw [hkey, Nat.zero_mul]), if_pos (by decide)]
  have hlist : ¬ses'.cow.InList 0 := @Session.Inv.not_inList _ _ 0 _ _ _ _ hinv _ hp hw
  have hmap : ses'.MapsBlock 0 8192 := by
    rintro p ⟨-, hlt⟩
    obtain rfl | rfl : p = 0 ∨ p = 1 := by
      rw [show pageSize = 4096 from rfl] at hlt
      omega
    · rw [hp]
      exact Option.some_ne_none e
    · rw [hp']
      exact Option.some_ne_none e'
  exact ⟨f, ses, ses', _, _, _, es₂, low, himage, hname, hopen, hrun, hfirst, hview, ⟨e, hp, hw⟩,
    ⟨by decide, e', hp', hw'⟩, hmap, Session.insertList_old hlist hsearch rfl, rfl,
    hmarked', hshares⟩

/-- The guest stores to the second unit before the copy of the block begins. -/
theorem wholeCopy_keeps_before : ∃ (fs : Fs) (ses ses' ses₁ : Session) (le : CowLEntry)
    (ce : CowEntry), IsImage (Geometry.twoPages .shipped) ((fs [1]).getD .empty) [[0]] [] ∧
      Session.fmmap .shipped fs [1] (8192 * 2) 0 = .ok (some ses) ∧
      ses.run .shipped [.store 4096 1 0 0] = .ok (ses', [.stored 4096 1 true]) ∧
      ses'.insertList .shipped 0 0 0 = .ok (ses₁, some (le, ce), []) ∧
      le.copySize = ses₁.s.blockSize ∧ ses'.WritablePage 0 8192 1 ∧
      ((BlockCopy.start ses₁).run .shipped ce 0
        (.guest 4096 7 :: List.replicate 2050 .handler)).pc = .done ∧
      ((BlockCopy.start ses₁).run .shipped ce 0
        (.guest 4096 7 :: List.replicate 2050 .handler)).ses.view 4096 = 7 := by
  obtain ⟨f, ses, ses', ses₁, le, ce, es', low, himage, hname, hopen, hrun, hfirst, -,
    ⟨e, hp, hw⟩, hpage, hmap, hins, hfull, hmarked, -⟩ := exists_wholeCopy
  have hs : u64 ses₁.s.blockSize = 8192 := by
    rw [(Session.insertList_range hins).1.blockSize]
    exact hmarked.super.u64_blockSize
  have hapart : (BlockCopy.start ses₁).Along .shipped ce 0 (BlockCopy.Apart 0)
      (.guest 4096 7 :: List.replicate 2050 .handler) := by
    refine ⟨fun i w hpc => ?_, BlockCopy.along_handlers⟩
    -- the copy is about to load the first word
    rw [BlockCopy.start, hs] at hpc
    cases hpc
  have hto : ∀ op ∈ .guest 4096 7 :: List.replicate 2050 RaceOp.handler,
      op.ToWritable ses' 0 8192 := by
    intro op hop
    rcases List.mem_cons.mp hop with rfl | hop
    · exact ⟨by decide, hpage⟩
    · rw [List.eq_of_mem_replicate hop]
      trivial
  obtain ⟨hview, hdone⟩ := @wholeCopy_keeps .shipped (Geometry.twoPages .shipped) (fun _ => some f)
    [1] [[0]] [] (8192 * 2) 0 0 0 0 ses ses' ses₁ le ce [] rfl himage.isChain himage.size_lt
    (by decide) hopen hfirst e hp hw hmap hins hfull
    (.guest 4096 7 :: List.replicate 2050 .handler) hto hapart
  refine ⟨fun _ => some f, ses, ses', ses₁, le, ce, himage, hopen, hrun, hins, hfull, hpage, ?_, ?_⟩
  · refine hdone ?_
    rw [handlerSteps, handlerSteps_handlers]
    decide
  · refine (hview 4096 hpage).trans ?_
    rw [lastStored, lastStored_handlers]
    rfl

/-- **A store of the guest is lost.** Every page of the block is mapped. The store falls between the
load and the store of its word, the first of the second unit; when the copy is complete the word is
as it was before. -/
theorem wholeCopy_loses : ∃ (fs : Fs) (ses ses' ses₁ : Session) (le : CowLEntry) (ce : CowEntry),
    IsImage (Geometry.twoPages .shipped) ((fs [1]).getD .empty) [[0]] [] ∧
      baseImageName ((fs [1]).getD .empty) 0 = [] ∧
      Session.fmmap .shipped fs [1] (8192 * 2) 0 = .ok (some ses) ∧
      ses.run .shipped [.store 4096 1 0 0] = .ok (ses', [.stored 4096 1 true]) ∧
      (∃ e, ses'.pages 0 = some e ∧ e.writable = false) ∧ ses'.MapsBlock 0 8192 ∧
      ses'.insertList .shipped 0 0 0 = .ok (ses₁, some (le, ce), []) ∧
      le.copySize = ses₁.s.blockSize ∧ ses'.WritablePage 0 8192 1 ∧
      ((BlockCopy.start ses₁).run .shipped ce 0 (List.replicate 1025 .handler ++
        .guest 4096 7 :: List.replicate 1025 .handler)).pc = .done ∧
      ((BlockCopy.start ses₁).run .shipped ce 0 (List.replicate 1025 .handler ++
        .guest 4096 7 :: List.replicate 1025 .handler)).ses.view 4096 = 1 ∧
      lastStored ses'.view (List.replicate 1025 .handler ++
        .guest 4096 7 :: List.replicate 1025 .handler) 4096 = 7 := by
  obtain ⟨f, ses, ses', ses₁, le, ce, es', low, himage, hname, hopen, hrun, -, hone,
    ⟨e, hp, hw⟩, hpage, hmap, hins, hfull, hmarked, hshares⟩ := exists_wholeCopy
  obtain ⟨hfixed, -, hpages, -⟩ := Session.insertList_range hins
  have hs : u64 ses₁.s.blockSize = 8192 := by
    rw [hfixed.blockSize]
    exact hmarked.super.u64_blockSize
  have hmap₁ : ses₁.MapsBlock 0 8192 := fun p hp => by
    rw [hpages]
    exact hmap p hp
  refine ⟨fun _ => some f, ses, ses', ses₁, le, ce, himage, baseImageName_eq_nil hname, hopen, hrun,
    ⟨e, hp, hw⟩, hmap, hins, hfull, hpage, ?_, ?_, ?_⟩
  · refine BlockCopy.run_done hs hmap₁ (by decide) (by decide) ?_
    rw [handlerSteps_append, handlerSteps_handlers, handlerSteps, handlerSteps_handlers]
  · obtain ⟨hholds, hslot⟩ :=
      @Session.Marked.holds _ _ _ _ _ _ _ 0 _ _ _ _ _ hmarked hshares e hp hw
      hins 1 hpage
    refine Eq.trans ?_ hone
    -- the word is the 512th of the block
    exact hholds.copy_undoes (i := 512) (k := 1024) (u := 4096) (by decide) (by decide)
      (fun p hp => hp.1) hslot hmap₁ (by decide) hpage 7 hpage
  · rw [lastStored_append, lastStored_handlers, lastStored, lastStored_handlers]
    rfl

end Pcow
