import Pcow.Bitmap

/-!
# What is flushed of a copy

A copy is recorded in the entry of its block, and the entry is flushed. Before that the copied data
should have been written back: each of its cache lines flushed, and a fence issued. `cow_handler`
has a loop for it in both of its branches, but the loop ends at an eighth of the size of the copy
(`Session.flushLoop`), and `final_cow` has none. So the data of a copy is never flushed as a whole
(`copies_not_flushed`): of a unit only the first eight of its 64 lines are.
-/

namespace Pcow

variable {cfg : Config} {dst size entry : ℕ} {ops : List FileOp}

/-- **The range is flushed before the entry is**: before some flush of the entry, the cache line of
each byte of the range is flushed, and a fence follows. -/
def FlushedBefore (dst size entry : ℕ) (ops : List FileOp) : Prop :=
  ∃ pre post, ops = pre ++ FileOp.flush entry :: post ∧ ∀ x, dst ≤ x → x < dst + size →
    ∃ a l l' l'', a / clSize = x / clSize ∧ pre = l ++ FileOp.flush a :: (l' ++ FileOp.fence :: l'')

/-- What `final_cow` issues for one entry. -/
def Session.finalOps (cfg : Config) (ses : Session) (ce : CowEntry) : List FileOp :=
  let copy := FileOp.memcpy ce.blockOff (u64 ses.s.blockSize) (ses.source ce.faultVoffAligned)
  copy ++ entryStore cfg (ses.issue copy).file ce.metaEntry (· ||| addrMask)

namespace Session

variable {ses ses' ses₁ : Session} {n n' v : ℕ} {le : CowLEntry} {ce : CowEntry}

theorem finalCopy_eq : ses.finalCopy cfg ce = ses.issue (ses.finalOps cfg ce) := by
  rw [finalCopy, finalOps]
  exact issue_issue

/-- **The copies of a session**, each with its destination, its size, the entry that records it and
the operations it consists of: those of the calls of `cow_handler` and those of `final_cow`. -/
inductive Copies (cfg : Config) (ses : Session) : (dst size entry : ℕ) → List FileOp → Prop
  /-- The partial branch of `cow_handler`. -/
  | unit {ses₁ ses' : Session} {n n' v : ℕ} {le : CowLEntry} {ce : CowEntry}
      {ops₁ ops : List FileOp} :
      ses.cowHandler cfg n n' v = .ok (ses', ops₁ ++ ops) →
      ses.insertList cfg n n' (v / cowUnit * cowUnit) = .ok (ses₁, some (le, ce), ops₁) →
      le.copySize ≠ ses₁.s.blockSize →
      ses₁.copyUnit cfg le ce (v / u64 ses.s.blockSize * u64 ses.s.blockSize) = .ok (ses', ops) →
      Copies cfg ses (ce.blockOff + (le.voff - v / u64 ses.s.blockSize * u64 ses.s.blockSize))
        le.copySize.toNat ce.metaEntry ops
  /-- The other branch. -/
  | block {ses₁ ses' : Session} {n n' v : ℕ} {le : CowLEntry} {ce : CowEntry}
      {ops₁ ops : List FileOp} :
      ses.cowHandler cfg n n' v = .ok (ses', ops₁ ++ ops) →
      ses.insertList cfg n n' (v / cowUnit * cowUnit) = .ok (ses₁, some (le, ce), ops₁) →
      le.copySize = ses₁.s.blockSize →
      ses₁.copyBlock cfg ce (v / u64 ses.s.blockSize * u64 ses.s.blockSize) = (ses', ops) →
      Copies cfg ses ce.blockOff (u64 ses₁.s.blockSize) ce.metaEntry ops
  /-- A round of the loop of `final_cow`, after those for the entries before. -/
  | final {ce : CowEntry} {l₁ l₂ : List CowEntry} :
      (List.range bucketNum).flatMap ses.cow.buckets = l₁ ++ ce :: l₂ →
      Copies cfg ses ce.blockOff (u64 (l₁.foldl (finalCopy cfg) ses).s.blockSize) ce.metaEntry
        ((l₁.foldl (finalCopy cfg) ses).finalOps cfg ce)

theorem flush_mem_flushLoop {a len : ℕ} (h : FileOp.flush a ∈ flushLoop dst len) :
    dst ≤ a ∧ a < dst + len / 8 := by
  obtain ⟨i, hi, heq⟩ := List.mem_map.mp h
  rw [List.mem_range] at hi
  cases heq
  omega

end Session

theorem flush_not_mem_memcpy {a o len : ℕ} {src : ℕ → UInt8} :
    FileOp.flush a ∉ FileOp.memcpy o len src := by
  intro h
  rw [FileOp.memcpy, List.mem_map] at h
  obtain ⟨i, -, heq⟩ := h
  cases heq

/-- **Lines that are not flushed.** The flushes of a copy up to the one of its entry are in the part
before the entry is stored to; if they all miss the line of a byte, the range is not flushed. -/
theorem not_flushedBefore {x : ℕ} {l : List FileOp} (h₁ : dst ≤ x) (h₂ : x < dst + size)
    (hmiss : ∀ a, FileOp.flush a ∈ l → a / clSize ≠ x / clSize) {w y : ℕ} :
    ¬FlushedBefore dst size entry (l ++ [.store entry w y, .flush entry, .fence]) := by
  rintro ⟨pre, post, hops, hall⟩
  obtain ⟨a, m, m', m'', hline, rfl⟩ := hall x h₁ h₂
  -- what precedes a flush of the entry is in the part before the last one
  have hpre : m ++ FileOp.flush a :: (m' ++ FileOp.fence :: m'') <+: l ++ [.store entry w y] := by
    rw [show l ++ [.store entry w y, .flush entry, .fence] =
      l ++ [.store entry w y] ++ [.flush entry, .fence] by simp] at hops
    rcases List.append_eq_append_iff.mp hops with ⟨c, hc, hc'⟩ | ⟨c, hc, -⟩
    · match c, hc' with
      | [], _ =>
        rw [List.append_nil] at hc
        rw [hc]
      | [_], hc' => cases hc'
      | _ :: _ :: _, hc' => simp at hc'
    · exact ⟨c, hc.symm⟩
  have hmem : FileOp.flush a ∈ l ++ [.store entry w y] :=
    hpre.subset (List.mem_append_right _ List.mem_cons_self)
  rcases List.mem_append.mp hmem with hmem | hmem
  · exact hmiss a hmem hline
  · cases List.mem_singleton.mp hmem

/-- The operations of both branches of `cow_handler`, for a copy of more than a line. -/
theorem not_flushedBefore_copy {src : ℕ → UInt8} {f : ByteFile} {F : ℕ → ℕ} (hsize : 128 ≤ size) :
    ¬FlushedBefore dst size entry
      (FileOp.memcpy dst size src ++ Session.flushLoop dst size ++ [.fence] ++
      Session.entryStore cfg f entry F) := by
  refine not_flushedBefore (x := dst + size - 1) (by omega) (by omega) fun a ha => ?_
  rw [List.mem_append, List.mem_append] at ha
  rcases ha with (ha | ha) | ha
  · exact absurd ha flush_not_mem_memcpy
  · -- the loop ends at an eighth of the size
    obtain ⟨-, hlt⟩ := Session.flush_mem_flushLoop ha
    rw [show clSize = 64 from rfl]
    omega
  · cases List.mem_singleton.mp ha

theorem Session.finalCow_super {ses : Session} {l : List CowEntry} :
    (l.foldl (finalCopy cfg) ses).s = ses.s := by
  induction l generalizing ses with
  | nil => rfl
  | cons ce l ih => exact ih

/-- **No copy is flushed before its entry is**: whatever the state, the fault and the block size,
for every copy of `cow_handler` and of `final_cow` some cache line of the destination is not flushed
before the entry that records the copy is. -/
theorem copies_not_flushed {ses : Session} (hdvd : cowUnit ∣ u64 ses.s.blockSize)
    (hpos : 0 < u64 ses.s.blockSize) (h : ses.Copies cfg dst size entry ops) :
    ¬FlushedBefore dst size entry ops := by
  have hbs : 4096 ≤ u64 ses.s.blockSize := Nat.le_of_dvd hpos hdvd
  cases h with
  | @unit ses₁ ses' n n' v le ce ops₁ _ _ hins hsize hcopy =>
    obtain ⟨-, -, -, hle | hle⟩ := Session.insertList_range hins
    · rw [hle] at hcopy ⊢
      rw [Session.copyUnit] at hcopy
      split_ifs at hcopy
      cases hcopy
      exact not_flushedBefore_copy (by rw [Int.toNat_natCast]; decide)
    · exact absurd hle hsize
  | block _ hins _ hcopy =>
    obtain ⟨hsame, -⟩ := Session.insertList_range hins
    rw [Session.copyBlock] at hcopy
    cases hcopy
    exact not_flushedBefore_copy (by rw [hsame.blockSize]; omega)
  | final hl =>
    rw [Session.finalCow_super]
    exact not_flushedBefore le_rfl (by omega) fun a ha => absurd ha flush_not_mem_memcpy

/-- The end of a session in which a unit was copied: `final_cow` copies the block. -/
theorem copies_not_flushed_final : ∃ (fs : Fs) (ses ses' : Session) (ops ops' : List FileOp)
    (dst entry : ℕ), IsImage (Geometry.twoPages .shipped) ((fs [1]).getD .empty) [[0]] [] ∧
      Session.fmmap .shipped fs [1] (8192 * 2) 0 = .ok (some ses) ∧
      ses.cowHandler .shipped 0 0 4096 = .ok (ses', ops) ∧
        ses'.Copies .shipped dst 8192 entry ops' ∧
      ¬FlushedBefore dst 8192 entry ops' := by
  obtain ⟨f, ses, ses', ops, himage, -, hopen, -, hr, -, -, -, low, h', i, ce, hce, -⟩ :=
    @exists_firstCopy 4096 (Geometry.twoPages .shipped) (by decide) (by decide) (by decide)
      (by decide)
      (by decide)
  have hu : u64 ses'.s.blockSize = 8192 := h'.super.u64_blockSize
  obtain ⟨b, -, hb⟩ := h'.tables.bucket i ce hce
  have hmem : ce ∈ (List.range bucketNum).flatMap ses'.cow.buckets := by
    refine List.mem_flatMap.mpr ⟨i, List.mem_range.mpr ?_, hce⟩
    rw [hb]
    exact Nat.mod_lt _ (by decide)
  obtain ⟨l₁, l₂, hl⟩ := List.append_of_mem hmem
  have hcopy : ses'.Copies .shipped ce.blockOff 8192 ce.metaEntry
      ((l₁.foldl (Session.finalCopy .shipped) ses').finalOps .shipped ce) := by
    have := @Session.Copies.final .shipped ses' ce l₁ l₂ hl
    rwa [Session.finalCow_super, hu] at this
  exact ⟨fun _ => some f, ses, ses', ops, _, ce.blockOff, ce.metaEntry, himage, hopen, hr, hcopy,
    copies_not_flushed (by rw [hu]; decide) (by rw [hu]; decide) hcopy⟩

/-- **A copy of a unit that is not flushed**: the first write fault of a session. -/
theorem unit_not_flushed : ∃ (fs : Fs) (ses ses' : Session) (ops ops' : List FileOp)
    (dst entry : ℕ),
    IsImage (Geometry.twoPages .shipped) ((fs [1]).getD .empty) [[0]] [] ∧
      Session.fmmap .shipped fs [1] (8192 * 2) 0 = .ok (some ses) ∧
      ses.cowHandler .shipped 0 0 4096 = .ok (ses', ops) ∧ ses.Copies .shipped dst 4096 entry ops' ∧
      ¬FlushedBefore dst 4096 entry ops' := by
  obtain ⟨f, ses, ses', ops, himage, -, hopen, -, hr, hne, hs, hempty, -⟩ :=
    @exists_firstCopy 4096 (Geometry.twoPages .shipped) (by decide) (by decide) (by decide)
      (by decide)
      (by decide)
  rcases Session.cowHandler_cases hr with ⟨heq, -⟩ |
    ⟨-, -, -, ses₁, le, ce, ops₁, ops₂, hins, rfl, hcopy⟩ | ⟨-, hfine, -⟩
  · exact absurd heq hne
  · rcases Session.insertList_cases hins with ⟨full, rest, hsearch, -⟩ | ⟨-, rfl, -⟩
    · rw [hempty] at hsearch
      cases hsearch
    have hsize : ((cowUnit : ℕ) : ℤ) ≠ ses₁.s.blockSize := by
      rw [(Session.insertList_range hins).1.blockSize, hs.blockSize]
      decide
    rcases hcopy with ⟨-, hcopy⟩ | ⟨heq, -⟩
    · have hcopies := Session.Copies.unit hr hins hsize hcopy
      rw [Session.copyUnit] at hcopy
      split_ifs at hcopy
      cases hcopy
      exact ⟨fun _ => some f, ses, _, _, _, _, ce.metaEntry, himage, hopen, hr, hcopies,
        not_flushedBefore_copy (by decide)⟩
    · exact absurd heq hsize
  · cases hfine

end Pcow
