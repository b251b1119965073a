import Pcow.Overlay

/-!
# What the handlers leave alone

Facts about `new_block` and the fault handlers that hold in every state, whatever is in the
files: the fixed values of the super block stay (`newBlock_sameFixed`), and a fault on a page
changes the mappings of the block of that page and no others (`Session.fault_confined`). They are
what bounds the range in which a session maps, also where the layers are not in order.
-/

namespace Pcow

variable {cfg : Config} {f : ByteFile} {s s' : Super} {r r' : Ring} {ops : List FileOp}
  {n n' v : ℕ}

/-! ### `new_block` -/

/-- The values of a super block that do not change while it is in use. -/
structure Super.SameFixed (s s' : Super) : Prop where
  fd : s'.fd = s.fd
  blockSize : s'.blockSize = s.blockSize
  maxBlockNum : s'.maxBlockNum = s.maxBlockNum
  maxPerSeg : s'.maxPerSeg = s.maxPerSeg
  myOff : s'.myOff = s.myOff
  fmmapLength : s'.fmmapLength = s.fmmapLength

theorem Super.SameFixed.refl : s.SameFixed s := ⟨rfl, rfl, rfl, rfl, rfl, rfl⟩

theorem Super.SameFixed.trans {s'' : Super} (h : s.SameFixed s') (h' : s'.SameFixed s'') :
    s.SameFixed s'' :=
  ⟨h'.fd.trans h.fd, h'.blockSize.trans h.blockSize, h'.maxBlockNum.trans h.maxBlockNum,
    h'.maxPerSeg.trans h.maxPerSeg, h'.myOff.trans h.myOff, h'.fmmapLength.trans h.fmmapLength⟩

theorem Super.SameLayer.sameFixed (h : s.SameLayer s') : s.SameFixed s' := by
  rw [h]
  exact ⟨rfl, rfl, rfl, rfl, rfl, rfl⟩

/-- **What the allocator thread leaves alone**: of the super block it changes the offset it
allocates at, and it goes on running while the layer has room for what it can have ahead. -/
structure ThreadStep (s : Super) (r : Ring) (s' : Super) (r' : Ring) : Prop where
  sameLayer : s.SameLayer s'
  running : s.toAllocNum + 4 ≤ s.maxBlockNum → r'.running = r.running

theorem ThreadStep.trans {s'' : Super} {r'' : Ring} (h : ThreadStep s r s' r')
    (h' : ThreadStep s' r' s'' r'') : ThreadStep s r s'' r'' := by
  refine ⟨h.sameLayer.trans h'.sameLayer, fun hroom => ?_⟩
  rw [← h.running hroom]
  refine h'.running ?_
  rw [h.sameLayer]
  exact hroom

theorem allocate_thread (hr : allocate s r = .ok (s', r', ops)) : ThreadStep s r s' r' := by
  rw [allocate] at hr
  split_ifs at hr with h₁ h₂ h₃
  · cases hr
    exact ⟨rfl, fun _ => rfl⟩
  · cases hr
    refine ⟨rfl, fun hroom => ?_⟩
    rw [show (maxPreNum : ℤ) = 5 from rfl] at h₂
    omega
  · cases hr
    exact ⟨rfl, fun _ => rfl⟩
  · cases hr
    exact ⟨rfl, fun _ => rfl⟩

/-- It only reserves space. -/
theorem allocate_reserve (hr : allocate s r = .ok (s', r', ops)) : ∀ o ∈ ops, IsReserve o := by
  rw [allocate] at hr
  split_ifs at hr <;> cases hr
  · simp
  · simp
  · intro o ho
    rw [List.mem_singleton.mp ho]
    trivial
  · simp

theorem allocateMany_thread (hr : allocateMany n s r = .ok (s', r', ops)) :
    ThreadStep s r s' r' := by
  induction n generalizing s r s' r' ops with
  | zero =>
    cases hr
    exact ⟨rfl, fun _ => rfl⟩
  | succ n ih =>
    rw [allocateMany] at hr
    rcases hal : allocate s r with e | ⟨s₁, r₁, ops₁⟩
    · rw [hal] at hr
      cases hr
    rw [hal] at hr
    simp only at hr
    rcases hmany : allocateMany n s₁ r₁ with e | ⟨s₂, r₂, ops₂⟩
    · rw [hmany] at hr
      cases hr
    · rw [hmany] at hr
      cases hr
      exact (allocate_thread hal).trans (ih hmany)

theorem waitBlock_thread {nb : NewBlock} (hr : waitBlock n s r = .ok (s', r', nb, ops)) :
    ThreadStep s r s' r' := by
  rw [waitBlock] at hr
  rcases hmany : allocateMany n s r with e | ⟨s₁, r₁, ops₁⟩
  · rw [hmany] at hr
    cases hr
  rw [hmany] at hr
  simp only at hr
  have h₁ := allocateMany_thread hmany
  split_ifs at hr
  · cases hr
    exact ⟨h₁.sameLayer, h₁.running⟩
  rcases hal : allocate s₁ r₁ with e | ⟨s₂, r₂, ops₂⟩
  · rw [hal] at hr
    cases hr
  rw [hal] at hr
  simp only at hr
  have h₂ := h₁.trans (allocate_thread hal)
  split_ifs at hr
  cases hr
  exact ⟨h₂.sameLayer, h₂.running⟩

theorem Super.SameFixed.rollOver {m : Meta} : s.SameFixed (s.rollOver m) :=
  ⟨rfl, rfl, rfl, rfl, rfl, rfl⟩

theorem newBlockPlain_sameFixed {nb : NewBlock} {faultOff : ℕ}
    (hr : newBlockPlain cfg f s faultOff = .ok (s', nb, ops)) : s.SameFixed s' := by
  rw [newBlockPlain] at hr
  split_ifs at hr
  · simp only at hr
    split_ifs at hr
    cases hr
    exact ⟨rfl, rfl, rfl, rfl, rfl, rfl⟩
  · simp only at hr
    split_ifs at hr
    cases hr
    exact .rollOver

/-- **`new_block` keeps the fixed values of the super block**, and lets the thread run while there
is room. -/
theorem newBlock_sameFixed {nb : NewBlock} {faultOff : ℕ}
    (hr : newBlock cfg f s r n n' faultOff = .ok (s', r', nb, ops)) :
    s.SameFixed s' ∧ (s.toAllocNum + 4 ≤ s.maxBlockNum → r'.running = r.running) := by
  rw [newBlock] at hr
  split_ifs at hr
  · rw [newBlockPre] at hr
    split_ifs at hr with h₁ h₂ h₃
    · rcases hw : waitBlock n s r with e | ⟨s₁, r₁, nb₁, ops₁⟩
      · rw [hw] at hr
        cases hr
      · rw [hw] at hr
        cases hr
        have h := waitBlock_thread hw
        exact ⟨h.sameLayer.sameFixed.trans ⟨rfl, rfl, rfl, rfl, rfl, rfl⟩, h.running⟩
    · rcases hw : waitBlock n s r with e | ⟨s₁, r₁, nb₁, ops₁⟩
      · rw [hw] at hr
        cases hr
      rw [hw] at hr
      simp only at hr
      rcases hw' : waitBlock n' s₁ r₁ with e | ⟨s₂, r₂, nb₂, ops₂⟩
      · rw [hw'] at hr
        cases hr
      · rw [hw'] at hr
        cases hr
        have h := (waitBlock_thread hw).trans (waitBlock_thread hw')
        exact ⟨h.sameLayer.sameFixed.trans .rollOver, h.running⟩
  · rcases hplain : newBlockPlain cfg f s faultOff with e | ⟨s₁, nb₁, ops₁⟩
    · rw [hplain] at hr
      cases hr
    · rw [hplain] at hr
      cases hr
      exact ⟨newBlockPlain_sameFixed hplain, fun _ => rfl⟩

/-! ### The handlers -/

namespace Session

variable {ses ses' : Session}

/-- **A change confined to the block of `v`**: the fixed values stay, and so do the mappings of
every other block. A page that is mapped stays so. -/
structure Confined (ses ses' : Session) (v : ℕ) : Prop where
  super : ses.s.SameFixed ses'.s
  globalLength : ses'.globalLength = ses.globalLength
  pages : ∀ p, p * pageSize / u64 ses.s.blockSize ≠ v / u64 ses.s.blockSize →
    ses'.pages p = ses.pages p
  mapped : ∀ p, ses.pages p ≠ none → ses'.pages p ≠ none

theorem Confined.refl : ses.Confined ses v := ⟨.refl, rfl, fun _ _ => rfl, fun _ hp => hp⟩

/-- Mapping something maps no less. -/
theorem mapRange_mapped {t : PageTable Path} {voff len off p : ℕ} {file : Path} {w : Bool}
    (hp : t p ≠ none) : t.mapRange voff len file off w p ≠ none := by
  rw [PageTable.mapRange]
  split_ifs
  · exact Option.some_ne_none _
  · exact hp

/-- A change that maps nothing, and then one that is confined. -/
theorem Confined.of_pages (ses₁ : Session) (hs : ses.s.SameFixed ses₁.s)
    (hglob : ses₁.globalLength = ses.globalLength) (hpages : ses₁.pages = ses.pages)
    (h : ses₁.Confined ses' v) : ses.Confined ses' v where
  super := hs.trans h.super
  globalLength := h.globalLength.trans hglob
  pages p hp := by
    rw [h.pages p (by rwa [hs.blockSize]), hpages]
  mapped p hp := h.mapped p (by rwa [hpages])

/-- Mapping the whole block. -/
theorem confined_block (hs : ses.s.SameFixed ses'.s) (hglob : ses'.globalLength = ses.globalLength)
    (hpos : 0 < u64 ses.s.blockSize) {file : Path} {off : ℕ} {w : Bool}
    (hpages : ses'.pages = ses.pages.mapRange
      (v / u64 ses.s.blockSize * u64 ses.s.blockSize) (u64 ses.s.blockSize) file off w) :
    ses.Confined ses' v where
  super := hs
  globalLength := hglob
  pages p hp := by
    rw [hpages, PageTable.mapRange_of_not_inRange]
    rwa [PageTable.inRange_block hpos]
  mapped p hp := hpages ▸ mapRange_mapped hp

/-- Mapping the page of `v`. -/
theorem confined_unit (hs : ses.s.SameFixed ses'.s) (hglob : ses'.globalLength = ses.globalLength)
    (hdvd : pageSize ∣ u64 ses.s.blockSize) {file : Path} {off : ℕ} {w : Bool}
    (hpages : ses'.pages =
      ses.pages.mapRange (v / cowUnit * cowUnit) cowUnit file off w) : ses.Confined ses' v where
  super := hs
  globalLength := hglob
  pages p hp := by
    rw [hpages, PageTable.mapRange_of_not_inRange]
    intro hin
    rw [PageTable.inRange_block (by decide), Nat.mul_div_cancel _ (by decide)] at hin
    rw [hin, div_page hdvd] at hp
    exact hp rfl
  mapped p hp := hpages ▸ mapRange_mapped hp

/-- **What a call of `uf_monitor` does**: nothing, or it allocates a block for the block of the
fault and maps it. -/
theorem ufMonitor_cases (hr : ses.ufMonitor cfg n n' v = .ok (ses', ops)) :
    (ses' = ses ∧ ops = []) ∨ ∃ s' r' nb, newBlock cfg ses.file ses.s ses.ring n n'
        (v / pageSize * pageSize / u64 ses.s.blockSize * u64 ses.s.blockSize) =
          .ok (s', r', nb, ops) ∧
      ses' = ({ ses.issue ops with s := s', ring := r' } : Session).remap
        (.mmap (v / pageSize * pageSize / u64 ses.s.blockSize * u64 ses.s.blockSize)
          (u64 ses.s.blockSize) ses.s.fd nb.blockOff true) := by
  rw [ufMonitor] at hr
  split_ifs at hr
  · rcases hnb : newBlock cfg ses.file ses.s ses.ring n n'
      (v / pageSize * pageSize / u64 ses.s.blockSize * u64 ses.s.blockSize) with
      e | ⟨s', r', nb, ops'⟩
    · rw [hnb] at hr
      cases hr
    · rw [hnb] at hr
      cases hr
      exact Or.inr ⟨s', r', nb, rfl, rfl⟩
  · cases hr
    exact Or.inl ⟨rfl, rfl⟩

/-- `uf_monitor` maps the block of the fault. -/
theorem ufMonitor_confined (hdvd : pageSize ∣ u64 ses.s.blockSize) (hpos : 0 < u64 ses.s.blockSize)
    (hr : ses.ufMonitor cfg n n' v = .ok (ses', ops)) :
    ses.Confined ses' v := by
  rcases ufMonitor_cases hr with ⟨rfl, -⟩ | ⟨s', r', nb, hnb, rfl⟩
  · exact .refl
  · rw [div_page hdvd] at *
    exact confined_block (newBlock_sameFixed hnb).1 rfl hpos rfl

theorem ufMonitor_running (hr : ses.ufMonitor cfg n n' v = .ok (ses', ops))
    (hroom : ses.s.toAllocNum + 4 ≤ ses.s.maxBlockNum) : ses'.ring.running = ses.ring.running := by
  rcases ufMonitor_cases hr with ⟨rfl, -⟩ | ⟨s', r', nb, hnb, rfl⟩
  · rfl
  · exact (newBlock_sameFixed hnb).2 hroom

/-- `uf_monitor` leaves the tables alone. -/
theorem ufMonitor_cow (hr : ses.ufMonitor cfg n n' v = .ok (ses', ops)) : ses'.cow = ses.cow := by
  rcases ufMonitor_cases hr with ⟨rfl, -⟩ | ⟨s', r', nb, -, rfl⟩
  · rfl
  · rfl

theorem copyUnit_confined (hdvd : pageSize ∣ u64 ses.s.blockSize) {ce : CowEntry} {aligned : ℕ}
    {le : CowLEntry}
    (hle : le = ⟨v / cowUnit * cowUnit, cowUnit⟩)
    (hr : ses.copyUnit cfg le ce aligned = .ok (ses', ops)) : ses.Confined ses' v := by
  subst hle
  rw [copyUnit] at hr
  split_ifs at hr
  cases hr
  exact confined_unit .refl rfl hdvd rfl

theorem Confined.trans {ses'' : Session} (h : ses.Confined ses' v) (h' : ses'.Confined ses'' v) :
    ses.Confined ses'' v where
  super := h.super.trans h'.super
  globalLength := h'.globalLength.trans h.globalLength
  pages p hp := by
    rw [h'.pages p (by rwa [h.super.blockSize]), h.pages p hp]
  mapped p hp := h'.mapped p (h.mapped p hp)

@[simp] theorem cow_issue : (ses.issue ops).cow = ses.cow := rfl

@[simp] theorem cow_remap (o : MapOp Path) : (ses.remap o).cow = ses.cow := rfl

/-- Operations on the image map nothing. -/
theorem confined_issue : ses.Confined (ses.issue ops) v :=
  ⟨.refl, rfl, fun _ _ => rfl, fun _ hp => hp⟩

theorem copyBlock_confined (hpos : 0 < u64 ses.s.blockSize) {ce : CowEntry} :
    ses.Confined (ses.copyBlock cfg ce (v / u64 ses.s.blockSize * u64 ses.s.blockSize)).1 v :=
  confined_block .refl rfl hpos rfl

/-! ### Copies of blocks with missing pages -/

/-- A page of the block of `v` is at an offset of this block. -/
theorem add_page_div {k i : ℕ} (hle : i * pageSize + pageSize ≤ k) :
    (v / k * k + i * pageSize) / k = v / k := by
  have hpage : 0 < pageSize := by decide
  have hlt : i * pageSize < k := by omega
  rw [Nat.mul_comm, Nat.mul_add_div (by omega), Nat.div_eq_of_lt hlt, Nat.add_zero]

theorem copyMissing_confined (hdvd : pageSize ∣ u64 ses.s.blockSize)
    (hpos : 0 < u64 ses.s.blockSize) {dst i : ℕ}
    (hmiss : ses.firstMissing (v / u64 ses.s.blockSize * u64 ses.s.blockSize) = some i)
    (hr : ses.copyMissing cfg n n' dst (v / u64 ses.s.blockSize * u64 ses.s.blockSize) i =
      .ok (ses', ops)) : ses.Confined ses' v := by
  obtain ⟨hle, -⟩ := firstMissing_eq_some hmiss
  obtain ⟨ses₂, ops₂, hmon, -, rfl, -⟩ := copyMissing_ok hr
  have h := confined_issue.trans (ufMonitor_confined hdvd hpos hmon)
  have h₂ : ses.Confined ses₂ v := by
    refine ⟨h.super, h.globalLength, fun p hp => h.pages p ?_, h.mapped⟩
    rwa [add_page_div hle]
  exact h₂.trans confined_issue

theorem copyWhole_confined (hdvd : pageSize ∣ u64 ses.s.blockSize)
    (hpos : 0 < u64 ses.s.blockSize) {ce : CowEntry}
    (hr : ses.copyWhole cfg n n' ce (v / u64 ses.s.blockSize * u64 ses.s.blockSize) =
      .ok (ses', ops)) : ses.Confined ses' v := by
  rcases copyWhole_cases hr with ⟨-, hblock⟩ | ⟨i, ses₁, ops₁, hmiss, hcopy, rfl, -⟩
  · have h : ses.Confined
        (ses.copyBlock cfg ce (v / u64 ses.s.blockSize * u64 ses.s.blockSize)).1 v :=
      copyBlock_confined hpos
    rwa [hblock] at h
  · have h := copyMissing_confined hdvd hpos hmiss hcopy
    refine h.trans ?_
    rw [← h.super.blockSize] at hpos ⊢
    exact confined_block .refl rfl hpos rfl

/-- A copy of a block leaves the tables alone. -/
theorem copyMissing_cow {dst aligned i : ℕ}
    (hr : ses.copyMissing cfg n n' dst aligned i = .ok (ses', ops)) : ses'.cow = ses.cow := by
  obtain ⟨ses₂, ops₂, hmon, -, hses', -⟩ := copyMissing_ok hr
  rw [hses', cow_issue, ufMonitor_cow hmon, cow_issue]

theorem copyWhole_cow {ce : CowEntry} {aligned : ℕ}
    (hr : ses.copyWhole cfg n n' ce aligned = .ok (ses', ops)) : ses'.cow = ses.cow := by
  rcases copyWhole_cases hr with ⟨-, hblock⟩ | ⟨i, ses₁, ops₁, -, hcopy, rfl, -⟩
  · cases hblock
    rfl
  · have hcow : (ses₁.finishBlock cfg ce aligned).1.cow = ses₁.cow := rfl
    rw [hcow, copyMissing_cow hcopy]

theorem insertHt_sameFixed {key : ℕ} {ce : CowEntry}
    (hr : ses.insertHt cfg n n' key = .ok (ses', ce, ops)) :
    ses.s.SameFixed ses'.s ∧ ses'.globalLength = ses.globalLength ∧ ses'.pages = ses.pages := by
  rw [insertHt] at hr
  rcases hnb : newBlock cfg ses.file ses.s ses.ring n n' key with e | ⟨s', r', nb, ops₁⟩
  · rw [hnb] at hr
    cases hr
  rw [hnb] at hr
  simp only [linkEntry] at hr
  rcases hm : readMeta ({ ses.issue ops₁ with s := s', ring := r' } : Session).file s' (metaN s')
    with e | m
  · rw [hm] at hr
    cases hr
  · rw [hm] at hr
    cases hr
    exact ⟨(newBlock_sameFixed hnb).1, rfl, rfl⟩

/-- The unit or the block that `insert_list` hands over: an entry of the table, which a whole block
leaves, or a new one. -/
theorem insertList_cases {voff : ℕ} {le : CowLEntry} {ce : CowEntry}
    (hr : ses.insertList cfg n n' voff = .ok (ses', some (le, ce), ops)) :
    (∃ full rest, searchHt (voff / u64 ses.s.blockSize * u64 ses.s.blockSize) 0
        (ses.cow.buckets (bucketNumber (u64 ses.s.blockSize) voff)) = some (ce, full, rest) ∧
      le = (if full then ⟨voff / u64 ses.s.blockSize * u64 ses.s.blockSize, ses.s.blockSize⟩
        else ⟨voff, cowUnit⟩) ∧
      ses' = { ses with cow := (ses.cow.setBucket
        (bucketNumber (u64 ses.s.blockSize) voff) rest).pushList voff le } ∧ ops = []) ∨
    (searchHt (voff / u64 ses.s.blockSize * u64 ses.s.blockSize) 0
        (ses.cow.buckets (bucketNumber (u64 ses.s.blockSize) voff)) = none ∧ le = ⟨voff, cowUnit⟩ ∧
      ∃ ses₁, ses.insertHt cfg n n' (voff / u64 ses.s.blockSize * u64 ses.s.blockSize) =
        .ok (ses₁, ce, ops) ∧ ses' = { ses₁ with cow := ses₁.cow.pushList voff le }) := by
  rw [insertList] at hr
  split_ifs at hr
  · cases hr
  simp only at hr
  rcases hsearch : searchHt (voff / u64 ses.s.blockSize * u64 ses.s.blockSize) 0
    (ses.cow.buckets (bucketNumber (u64 ses.s.blockSize) voff)) with _ | ⟨ce', full, rest⟩
  · rw [hsearch] at hr
    simp only at hr
    rcases hins : ses.insertHt cfg n n' (voff / u64 ses.s.blockSize * u64 ses.s.blockSize)
      with e | ⟨ses₁, ce₁, ops₁⟩
    · rw [hins] at hr
      cases hr
    · rw [hins] at hr
      cases hr
      exact Or.inr ⟨rfl, rfl, ses₁, rfl, rfl⟩
  · rw [hsearch] at hr
    cases hr
    exact Or.inl ⟨full, rest, rfl, rfl, rfl, rfl⟩

/-- What `insert_list` gives `cow_handler` to copy: the unit of the fault, or its block. -/
theorem insertList_range {voff : ℕ} {le : CowLEntry} {ce : CowEntry}
    (hr : ses.insertList cfg n n' voff = .ok (ses', some (le, ce), ops)) :
    ses.s.SameFixed ses'.s ∧ ses'.globalLength = ses.globalLength ∧ ses'.pages = ses.pages ∧
      (le = ⟨voff, cowUnit⟩ ∨ le.copySize = ses'.s.blockSize) := by
  rcases insertList_cases hr with ⟨full, rest, -, rfl, rfl, -⟩ | ⟨-, hle, ses₁, hins, rfl⟩
  · refine ⟨.refl, rfl, rfl, ?_⟩
    cases full
    · exact Or.inl rfl
    · exact Or.inr rfl
  · obtain ⟨h₁, h₂, h₃⟩ := insertHt_sameFixed hins
    exact ⟨h₁, h₂, h₃, Or.inl hle⟩

/-- It hands over nothing if the unit is in its list, and then changes nothing. -/
theorem insertList_none {voff : ℕ} (hr : ses.insertList cfg n n' voff = .ok (ses', none, ops)) :
    ses' = ses ∧ ops = [] ∧ ses.cow.InList voff := by
  rw [insertList] at hr
  split_ifs at hr with hlist
  · cases hr
    exact ⟨rfl, rfl, hlist⟩
  · simp only at hr
    rcases hsearch : searchHt (voff / u64 ses.s.blockSize * u64 ses.s.blockSize) 0
      (ses.cow.buckets (bucketNumber (u64 ses.s.blockSize) voff)) with _ | ⟨ce', full, rest⟩
    · rw [hsearch] at hr
      simp only at hr
      rcases hins : ses.insertHt cfg n n' (voff / u64 ses.s.blockSize * u64 ses.s.blockSize)
        with e | ⟨ses₁, ce₁, ops₁⟩
      · rw [hins] at hr
        cases hr
      · rw [hins] at hr
        cases hr
    · rw [hsearch] at hr
      cases hr

/-- **What a call of `cow_handler` does**: nothing, where the address is not in the range or the
unit is in its list, or it has `insert_list` hand over a unit or a block and copies it; without
fine-grained copies it copies the block at once. -/
theorem cowHandler_cases (hr : ses.cowHandler cfg n n' v = .ok (ses', ops)) :
    (ses' = ses ∧ ops = [] ∧ (v > u64 (ses.globalLength - ses.s.blockSize) ∨
      ses.cow.InList (v / cowUnit * cowUnit))) ∨
    (v ≤ u64 (ses.globalLength - ses.s.blockSize) ∧ cfg.finegrainedCow = true ∧
      ¬ses.cow.InList (v / cowUnit * cowUnit) ∧ ∃ ses₁ le ce ops₁ ops₂,
        ses.insertList cfg n n' (v / cowUnit * cowUnit) = .ok (ses₁, some (le, ce), ops₁) ∧
        ops = ops₁ ++ ops₂ ∧
        ((le.copySize ≠ ses₁.s.blockSize ∧
            ses₁.copyUnit cfg le ce (v / u64 ses.s.blockSize * u64 ses.s.blockSize) =
              .ok (ses', ops₂)) ∨
          (le.copySize = ses₁.s.blockSize ∧
            ses₁.copyWhole cfg n n' ce (v / u64 ses.s.blockSize * u64 ses.s.blockSize) =
              .ok (ses', ops₂)))) ∨
    (v ≤ u64 (ses.globalLength - ses.s.blockSize) ∧ cfg.finegrainedCow = false ∧
      ses.copyPlain cfg n n' (v / u64 ses.s.blockSize * u64 ses.s.blockSize) =
        .ok (ses', ops)) := by
  rw [cowHandler] at hr
  by_cases hout : v > u64 (ses.globalLength - ses.s.blockSize)
  · rw [if_pos hout] at hr
    cases hr
    exact Or.inl ⟨rfl, rfl, Or.inl hout⟩
  rw [if_neg hout] at hr
  by_cases hcfg : cfg.finegrainedCow = true
  · simp only [if_pos hcfg] at hr
    by_cases hlist : ses.cow.InList (v / cowUnit * cowUnit)
    · rw [if_pos hlist] at hr
      cases hr
      exact Or.inl ⟨rfl, rfl, Or.inr hlist⟩
    rw [if_neg hlist] at hr
    rcases hins : ses.insertList cfg n n' (v / cowUnit * cowUnit) with
      e | ⟨ses₁, _ | ⟨le, ce⟩, ops₁⟩
    · rw [hins] at hr
      cases hr
    · rw [hins] at hr
      cases hr
      obtain ⟨h₁, h₂, h₃⟩ := insertList_none hins
      exact Or.inl ⟨h₁, h₂, Or.inr h₃⟩
    rw [hins] at hr
    simp only at hr
    refine Or.inr (Or.inl ⟨not_lt.mp hout, hcfg, hlist, ses₁, le, ce, ops₁, ?_⟩)
    split_ifs at hr with hsize
    · rcases hcopy : ses₁.copyUnit cfg le ce (v / u64 ses.s.blockSize * u64 ses.s.blockSize)
        with e | ⟨ses₂, ops₂⟩
      · rw [hcopy] at hr
        cases hr
      · rw [hcopy] at hr
        cases hr
        exact ⟨ops₂, rfl, rfl, Or.inl ⟨hsize, rfl⟩⟩
    · rcases hcopy : ses₁.copyWhole cfg n n' ce (v / u64 ses.s.blockSize * u64 ses.s.blockSize)
        with e | ⟨ses₂, ops₂⟩
      · rw [hcopy] at hr
        cases hr
      · rw [hcopy] at hr
        cases hr
        exact ⟨ops₂, rfl, rfl, Or.inr ⟨not_not.mp hsize, rfl⟩⟩
  · simp only [if_neg hcfg] at hr
    exact Or.inr (Or.inr ⟨not_lt.mp hout, by simpa using hcfg, hr⟩)

/-- `cow_handler` maps in the block of the fault. -/
theorem cowHandler_confined (hdvd : pageSize ∣ u64 ses.s.blockSize)
    (hpos : 0 < u64 ses.s.blockSize) (hr : ses.cowHandler cfg n n' v = .ok (ses', ops)) :
    ses.Confined ses' v := by
  rcases cowHandler_cases hr with
    ⟨rfl, -⟩ | ⟨-, -, -, ses₁, le, ce, ops₁, ops₂, hins, -, hcopy⟩ | ⟨-, -, hplain⟩
  · exact .refl
  · obtain ⟨hs, hglob, hpages, hle⟩ := insertList_range hins
    refine Confined.of_pages ses₁ hs hglob hpages ?_
    rw [← hs.blockSize] at hcopy hdvd hpos
    rcases hcopy with ⟨hsize, hcopy⟩ | ⟨-, hcopy⟩
    · exact copyUnit_confined hdvd (hle.resolve_right hsize) hcopy
    · exact copyWhole_confined hdvd hpos hcopy
  · obtain ⟨s', r', nb, ops₁, ses₁, hnb, hses₁, hcases⟩ := copyPlain_cases hplain
    have hs := (newBlock_sameFixed hnb).1
    have h₁ : ses.Confined ses₁ v := by
      rw [hses₁]
      exact ⟨hs, rfl, fun _ _ => rfl, fun _ hp => hp⟩
    have hbs : ses₁.s.blockSize = s'.blockSize := by rw [hses₁]
    have hmap : ∀ {ses₂ : Session}, ses.Confined ses₂ v → ses.Confined (ses₂.remap
        (.mremap (v / u64 ses.s.blockSize * u64 ses.s.blockSize) (u64 s'.blockSize) s'.fd
          nb.blockOff)) v := by
      intro ses₂ h
      refine h.trans (confined_block .refl rfl ?_ (by rw [h.super.blockSize, hs.blockSize]; rfl))
      rwa [h.super.blockSize]
    rcases hcases with ⟨-, rfl, -⟩ | ⟨i, ses₂, ops₂, hmiss, hcopy, rfl, -⟩
    · exact hmap (h₁.trans confined_issue)
    · rw [← h₁.super.blockSize] at hmiss hcopy hdvd hpos
      exact hmap (h₁.trans (copyMissing_confined hdvd hpos hmiss hcopy))

/-- **A fault changes the mappings of its block only.** -/
theorem fault_confined {write : Bool} (hdvd : pageSize ∣ u64 ses.s.blockSize)
    (hpos : 0 < u64 ses.s.blockSize) (hr : ses.fault cfg n n' v write = .ok (ses', ops)) :
    ses.Confined ses' v := by
  rw [fault] at hr
  rcases hp : ses.pages (v / pageSize) with _ | e
  · rw [hp] at hr
    exact ufMonitor_confined hdvd hpos hr
  · rw [hp] at hr
    simp only at hr
    split_ifs at hr
    · exact cowHandler_confined hdvd hpos hr
    · cases hr
      exact .refl

/-- A load leaves what its fault does, and comes to an end where there is a page then. -/
theorem load_ok {r : Option UInt8} (hr : ses.load cfg n n' v = .ok (ses', r)) :
    ∃ ops, ses.fault cfg n n' v false = .ok (ses', ops) ∧
      (r = none ↔ ses'.pages (v / pageSize) = none) := by
  rw [load] at hr
  rcases hf : ses.fault cfg n n' v false with e | ⟨ses₁, ops⟩
  · rw [hf] at hr
    cases hr
  rw [hf] at hr
  rcases hp : ses₁.pages (v / pageSize) with _ | e
  · simp only [hp] at hr
    cases hr
    exact ⟨ops, rfl, by simp [hp]⟩
  · simp only [hp] at hr
    split_ifs at hr
    cases hr
    exact ⟨ops, rfl, by simp [hp]⟩

/-- A store is its fault, and then a write if the page is writable. -/
theorem store_cases {x : UInt8} {d : Bool} (hr : ses.store cfg n n' v x = .ok (ses', d)) :
    ∃ ses₁ ops, ses.fault cfg n n' v true = .ok (ses₁, ops) ∧
      ((d = false ∧ ses' = ses₁ ∧ ∀ e, ses₁.pages (v / pageSize) = some e → e.writable = false) ∨
        (d = true ∧ ∃ e, ses₁.pages (v / pageSize) = some e ∧ e.writable = true ∧
          ses' = { ses₁ with
            fs := Function.update ses₁.fs e.file (some (((ses₁.fs e.file).getD .empty).store
              (e.off + v % pageSize) 1 x.toNat)) })) := by
  rw [store] at hr
  rcases hf : ses.fault cfg n n' v true with e | ⟨ses₁, ops⟩
  · rw [hf] at hr
    cases hr
  rw [hf] at hr
  refine ⟨ses₁, ops, rfl, ?_⟩
  rcases hp : ses₁.pages (v / pageSize) with _ | e
  · simp only [hp] at hr
    cases hr
    exact Or.inl ⟨rfl, rfl, fun e he => by cases he⟩
  simp only [hp] at hr
  split_ifs at hr with hw hback
  · cases hr
    exact Or.inr ⟨rfl, e, rfl, hw, rfl⟩
  · cases hr
    refine Or.inl ⟨rfl, rfl, fun e' he' => ?_⟩
    cases he'
    exact eq_false_of_ne_true hw

/-- A store leaves the tables and the pages as its fault does. -/
theorem store_ok {x : UInt8} {d : Bool} (hr : ses.store cfg n n' v x = .ok (ses', d)) :
    ∃ ses₁ ops, ses.fault cfg n n' v true = .ok (ses₁, ops) ∧ ses'.cow = ses₁.cow ∧
      ses'.pages = ses₁.pages := by
  obtain ⟨ses₁, ops, hf, ⟨-, rfl, -⟩ | ⟨-, e, -, -, rfl⟩⟩ := store_cases hr
  · exact ⟨ses', ops, hf, rfl, rfl⟩
  · exact ⟨ses₁, ops, hf, rfl, rfl⟩

/-- A store that came to an end was one to a writable page. -/
theorem store_writable {x : UInt8} (hr : ses.store cfg n n' v x = .ok (ses', true)) :
    ∃ e, ses'.pages (v / pageSize) = some e ∧ e.writable = true := by
  obtain ⟨ses₁, ops, -, ⟨hd, -⟩ | ⟨-, e, hp, hw, rfl⟩⟩ := store_cases hr
  · cases hd
  · exact ⟨e, hp, hw⟩

/-- A store that does not come to an end leaves what its fault does, and the page is not
writable. -/
theorem store_refused {x : UInt8} (hr : ses.store cfg n n' v x = .ok (ses', false)) :
    (∃ ops, ses.fault cfg n n' v true = .ok (ses', ops)) ∧
      ∀ e, ses'.pages (v / pageSize) = some e → e.writable = false := by
  obtain ⟨ses₁, ops, hf, ⟨-, rfl, hw⟩ | ⟨hd, -⟩⟩ := store_cases hr
  · exact ⟨⟨ops, hf⟩, hw⟩
  · cases hd

/-- A load of the guest changes no other mappings. -/
theorem load_confined {x : Option UInt8} (hdvd : pageSize ∣ u64 ses.s.blockSize)
    (hpos : 0 < u64 ses.s.blockSize) (hr : ses.load cfg n n' v = .ok (ses', x)) :
    ses.Confined ses' v := by
  obtain ⟨ops, hf, -⟩ := load_ok hr
  exact fault_confined hdvd hpos hf

/-- Neither does a store. -/
theorem store_confined {x : UInt8} {d : Bool} (hdvd : pageSize ∣ u64 ses.s.blockSize)
    (hpos : 0 < u64 ses.s.blockSize) (hr : ses.store cfg n n' v x = .ok (ses', d)) :
    ses.Confined ses' v := by
  obtain ⟨ses₁, ops, hf, hcases⟩ := store_cases hr
  have hconf := fault_confined hdvd hpos hf
  rcases hcases with ⟨-, rfl, -⟩ | ⟨-, e, -, -, rfl⟩
  · exact hconf
  · exact ⟨hconf.super, hconf.globalLength, hconf.pages, hconf.mapped⟩

/-- An iteration of the allocator thread. -/
theorem tick_cases (hr : ses.tick cfg = .ok ses') :
    (¬cfg.preAlloc = true ∧ ses' = ses) ∨ (cfg.preAlloc = true ∧
      ∃ s' r' ops, allocate ses.s ses.ring = .ok (s', r', ops) ∧
        ses' = { ses.issue ops with s := s', ring := r' }) := by
  rw [tick] at hr
  split_ifs at hr with hpre
  · rcases hal : allocate ses.s ses.ring with e | ⟨s', r', ops⟩
    · rw [hal] at hr
      cases hr
    · rw [hal] at hr
      cases hr
      exact Or.inr ⟨hpre, s', r', ops, rfl, rfl⟩
  · cases hr
    exact Or.inl ⟨hpre, rfl⟩

theorem tick_ok (hr : ses.tick cfg = .ok ses') :
    ses.s.SameFixed ses'.s ∧ ses'.globalLength = ses.globalLength ∧ ses'.pages = ses.pages ∧
      ses'.cow = ses.cow := by
  rcases tick_cases hr with ⟨-, rfl⟩ | ⟨-, s', r', ops, hal, rfl⟩
  · exact ⟨.refl, rfl, rfl, rfl⟩
  · exact ⟨(allocate_thread hal).sameLayer.sameFixed, rfl, rfl, rfl⟩

/-- It stores nothing. -/
theorem tick_byte (hr : ses.tick cfg = .ok ses') : ses'.file.byte = ses.file.byte := by
  rcases tick_cases hr with ⟨-, rfl⟩ | ⟨-, s', r', ops, hal, rfl⟩
  · rfl
  · rw [file_issue_of_fd (allocate_thread hal).sameLayer.sameFixed.fd]
    funext a
    exact FileOp.byte_run_of_not_touches fun o ho =>
      not_touches_of_isReserve (allocate_reserve hal o ho) a

/-- The allocator thread maps nothing in the range. -/
theorem tick_confined (hr : ses.tick cfg = .ok ses') : ses.Confined ses' v := by
  obtain ⟨hs, hglob, hpages, -⟩ := tick_ok hr
  exact ⟨hs, hglob, fun p _ => by rw [hpages], fun p hp => by rwa [hpages]⟩

end Session

end Pcow
