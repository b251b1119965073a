import Pcow.Slots
import Pcow.Table

/-!
# The limit on the blocks of a layer

`new_block` exits the process if the layer has `max_block_num` entries already. In a range of
exactly as many blocks this does not happen, as no block gets two entries in a layer: a block with
an entry is all writable, or it is in the table of incomplete blocks (`Session.Settled`), and
neither handler appends an entry in these cases. So the entries are for different blocks of the
range, and there is room for one more wherever a handler appends (`new_block_in_range`).

All of this is about the page map, the table and the numbers in the entries. It holds also in
segments in which `insert_ht` takes another block for the meta block of an entry.
-/

namespace Pcow

variable {cfg : Config} {g : Geometry cfg} {fs : Fs} {fd : Path} {off b v p : ℕ} {es es' : List ℕ}
  {ls : List (List ℕ)} {low : PageTable Path}

/-! ### The exit -/

theorem allocate_ne_outOfRange {s : Super} {r : Ring} : allocate s r ≠ .error .outOfRange := by
  rw [allocate]
  split_ifs <;> simp

theorem allocateMany_ne_outOfRange {n : ℕ} {s : Super} {r : Ring} :
    allocateMany n s r ≠ .error .outOfRange := by
  intro h
  induction n generalizing s r with
  | zero => cases h
  | succ n ih =>
    rw [allocateMany] at h
    rcases hone : allocate s r with e | ⟨s', r', ops⟩
    · rw [hone] at h
      cases h
      exact allocate_ne_outOfRange hone
    · rw [hone] at h
      simp only at h
      rcases hmany : allocateMany n s' r' with e | x
      · rw [hmany] at h
        cases h
        exact ih hmany
      · rw [hmany] at h
        cases h

theorem waitBlock_ne_outOfRange {n : ℕ} {s : Super} {r : Ring} :
    waitBlock n s r ≠ .error .outOfRange := by
  intro h
  rw [waitBlock] at h
  rcases hmany : allocateMany n s r with e | ⟨s₁, r₁, ops₁⟩
  · rw [hmany] at h
    cases h
    exact allocateMany_ne_outOfRange hmany
  rw [hmany] at h
  simp only at h
  split_ifs at h
  rcases hone : allocate s₁ r₁ with e | ⟨s₂, r₂, ops₂⟩
  · rw [hone] at h
    cases h
    exact allocate_ne_outOfRange hone
  · rw [hone] at h
    simp only at h
    split_ifs at h
    cases h

theorem newBlockPlain_outOfRange {f : ByteFile} {s : Super} {faultOff : ℕ}
    (h : newBlockPlain cfg f s faultOff = .error .outOfRange) : s.maxBlockNum < s.toAllocNum := by
  by_contra hle
  rw [newBlockPlain] at h
  simp only at h
  split_ifs at h
  all_goals cases h

/-- The exit is taken only by the check on the number of blocks. -/
theorem newBlock_outOfRange {f : ByteFile} {s : Super} {r : Ring} {n n' faultOff : ℕ}
    (h : newBlock cfg f s r n n' faultOff = .error .outOfRange) : s.maxBlockNum < s.toAllocNum := by
  rw [newBlock] at h
  split_ifs at h
  · by_contra hle
    rw [newBlockPre] at h
    split_ifs at h
    · cases h
    · rcases hw : waitBlock n s r with e | ⟨s₁, r₁, nb₁, ops₁⟩
      · rw [hw] at h
        cases h
        exact waitBlock_ne_outOfRange hw
      · rw [hw] at h
        cases h
    · rcases hw : waitBlock n s r with e | ⟨s₁, r₁, nb₁, ops₁⟩
      · rw [hw] at h
        cases h
        exact waitBlock_ne_outOfRange hw
      rw [hw] at h
      simp only at h
      rcases hw' : waitBlock n' s₁ r₁ with e | ⟨s₂, r₂, nb₂, ops₂⟩
      · rw [hw'] at h
        cases h
        exact waitBlock_ne_outOfRange hw'
      · rw [hw'] at h
        cases h
  · rcases hp : newBlockPlain cfg f s faultOff with e | x
    · rw [hp] at h
      cases h
      exact newBlockPlain_outOfRange hp
    · rw [hp] at h
      cases h

/-- Where the layer is full the exit is taken. -/
theorem newBlock_of_full {f : ByteFile} {s : Super} {r : Ring} {n n' faultOff : ℕ}
    (hlt : s.toAllocNum < 2 ^ 31) (h : s.maxBlockNum < s.toAllocNum) :
    newBlock cfg f s r n n' faultOff = .error .outOfRange := by
  rw [newBlock]
  split_ifs
  · rw [newBlockPre, if_neg (not_le.mpr hlt), if_pos h]
  · rw [newBlockPlain, if_neg (not_le.mpr hlt), if_pos h]
    rfl

namespace Session

variable {ses ses' : Session} {n n' : ℕ} {ops : List FileOp}

/-! ### Blocks and their entries -/

/-- **The entries of the layer are settled**: they name different blocks of the range, and a block
with an entry is all writable unless it is in the table. Of a block all pages are mapped or none,
and of a block of the table all. -/
structure Settled (ses : Session) (g : Geometry cfg) (off : ℕ) (es : List ℕ)
    (low : PageTable Path) : Prop extends ses.Tabled g off es low where
  nodup : es.Nodup
  lt_cap : ∀ e ∈ es, e < g.cap
  whole : ses.Whole g.blockSize
  writable : ∀ p, p * pageSize / g.blockSize ∈ es →
    ses.cow.movedOf g.blockSize (p * pageSize / g.blockSize) = none →
      ∃ e, ses.pages p = some e ∧ e.writable = true
  table_mapped : ∀ p, ses.cow.movedOf g.blockSize (p * pageSize / g.blockSize) ≠ none →
    ses.pages p ≠ none

theorem Tabled.needsBlock_iff (h : ses.Tabled g off es low) (v : ℕ) :
    ses.NeedsBlock v ↔ ses.cow.movedOf g.blockSize (v / g.blockSize) = none := by
  rw [NeedsBlock, searchHt_eq_none, CowTables.movedOf_eq_none, h.super.u64_blockSize, bucketNumber]

/-- A block with a missing page has no entry. -/
theorem Settled.not_mem_of_missing (h : ses.Settled g off es low)
    (hmiss : ses.pages (v / pageSize) = none) : v / g.blockSize ∉ es := by
  intro hmem
  rw [← div_page h.page_dvd] at hmem
  by_cases hmoved : ses.cow.movedOf g.blockSize (v / pageSize * pageSize / g.blockSize) = none
  · obtain ⟨e, he, -⟩ := h.writable _ hmem hmoved
    rw [hmiss] at he
    cases he
  · exact h.table_mapped _ hmoved hmiss

/-- A block with a protected page has none either, or is in the table. -/
theorem Settled.not_mem_of_protected (h : ses.Settled g off es low) {e : Pte Path}
    (hp : ses.pages (v / pageSize) = some e) (hw : e.writable = false) (hneeds : ses.NeedsBlock v) :
    v / g.blockSize ∉ es := by
  intro hmem
  rw [h.toTabled.needsBlock_iff] at hneeds
  rw [← div_page h.page_dvd] at hmem hneeds
  obtain ⟨e', he', hw'⟩ := h.writable _ hmem hneeds
  rw [hp] at he'
  cases he'
  rw [hw] at hw'
  cases hw'

/-- **There is room**: a layer whose entries are settled has not all blocks, if one of the range is
not among them. -/
theorem Settled.length_lt (h : ses.Settled g off es low) (hb : b < g.cap) (hnot : b ∉ es) :
    es.length < g.cap := by
  have hsub : es ++ [b] ⊆ List.range g.cap := by
    intro x hx
    rw [List.mem_range]
    rcases List.mem_append.mp hx with hx | hx
    · exact h.lt_cap x hx
    · rw [List.mem_singleton.mp hx]
      exact hb
  have hnodup : (es ++ [b]).Nodup := Grows.nodup (Or.inr ⟨hnot, rfl⟩) h.nodup
  have hle := hnodup.length_le_of_subset hsub
  rw [List.length_append, List.length_singleton, List.length_range] at hle
  exact hle

/-- **A step in one block**: a part of the block becomes writable, all of it if the block is not in
the table afterwards, and the block is all mapped afterwards. -/
theorem Settled.of_mapRange (h : ses.Settled g off es low) (ht : ses'.Tabled g off es' low)
    (hwhole : ses'.Whole g.blockSize) {voff len o : ℕ}
    (hpages : ses'.pages = ses.pages.mapRange voff len ses.s.fd o true)
    (hin : ∀ p, PageTable.InRange voff len p → p * pageSize / g.blockSize = b)
    (hmoved : ∀ d, d ≠ b → ses'.cow.movedOf g.blockSize d = ses.cow.movedOf g.blockSize d)
    (hes : Grows b es es') (hb : b < g.cap)
    (hmapped : ∀ p, p * pageSize / g.blockSize = b → ses'.pages p ≠ none)
    (hdone : ses'.cow.movedOf g.blockSize b = none →
      ∀ p, p * pageSize / g.blockSize = b → PageTable.InRange voff len p) :
    ses'.Settled g off es' low := by
  have hother : ∀ p, p * pageSize / g.blockSize ≠ b → ses'.pages p = ses.pages p := by
    intro p hp
    rw [hpages, PageTable.mapRange_of_not_inRange]
    exact fun hr => hp (hin p hr)
  refine ⟨ht, hes.nodup h.nodup, ?_, hwhole, fun p hp hm => ?_, fun p hm => ?_⟩
  · intro e he
    by_cases heb : e = b
    · rw [heb]
      exact hb
    · exact h.lt_cap e (hes.mem_of_ne heb he)
  · by_cases hpb : p * pageSize / g.blockSize = b
    · rw [hpb] at hm
      refine ⟨⟨ses.s.fd, o + (p * pageSize - voff), true⟩, ?_, rfl⟩
      rw [hpages, PageTable.mapRange_of_inRange (hdone hm p hpb)]
    · rw [hmoved _ hpb] at hm
      rw [hother p hpb]
      exact h.writable p (hes.mem_of_ne hpb hp) hm
  · by_cases hpb : p * pageSize / g.blockSize = b
    · exact hmapped p hpb
    · rw [hmoved _ hpb] at hm
      rw [hother p hpb]
      exact h.table_mapped p hm

/-! ### The handlers -/

/-- **`uf_monitor`** on a missing page. -/
theorem Settled.ufMonitor (h : ses.Settled g off es low) (hv : v < ses.s.fmmapLength)
    (hcap : v / g.blockSize < g.cap) (hmiss : ses.pages (v / pageSize) = none)
    (hr : ses.ufMonitor cfg n n' v = .ok (ses', ops)) : ∃ es', ses'.Settled g off es' low := by
  have hwhole := h.whole.step h.toPaged (.missing hv hmiss hr)
  have hcow := ufMonitor_cow hr
  rcases h.toPaged.ufMonitor hv hr with rfl | ⟨h', hpages⟩
  · exact ⟨es, h⟩
  have hblock : ∀ p, PageTable.InRange (v / g.blockSize * g.blockSize) g.blockSize p ↔
      p * pageSize / g.blockSize = v / g.blockSize :=
        fun p => PageTable.inRange_block g.blockSize_pos
  refine ⟨_, h.of_mapRange ⟨h', by rw [hcow]; exact h.tables⟩ hwhole hpages (fun p => (hblock p).mp)
    (fun d _ => by rw [hcow]) (Or.inr ⟨h.not_mem_of_missing hmiss, rfl⟩) hcap (fun p hp => ?_)
    fun _ p hp => (hblock p).mpr hp⟩
  rw [hpages, PageTable.mapRange_of_inRange ((hblock p).mpr hp)]
  exact Option.some_ne_none _

theorem CopiesUnit.pages {ce : CowEntry} {unit aligned : ℕ} {fr : Option CowEntry}
    (h : ses.CopiesUnit cfg n n' ce unit aligned ses' fr) (hne : (cowUnit : ℤ) ≠ ses.s.blockSize) :
    ses'.pages = ses.pages.mapRange unit cowUnit ses.s.fd (ce.blockOff + (unit - aligned))
      true := by
  rcases h with ⟨-, -, ops, hr⟩ | ⟨heq, -⟩
  · rw [copyUnit] at hr
    split_ifs at hr
    cases hr
    rfl
  · exact absurd heq hne

/-- The copy of a unit that was not copied before. -/
theorem exists_copyUnit (cfg : Config) (ses : Session) (le : CowLEntry) (aligned : ℕ)
    {ce : CowEntry} (hnil : ce.moved = []) :
    ∃ ses' ops, ses.copyUnit cfg le ce aligned = .ok (ses', ops) ∧
      ses'.s = ses.s ∧ ses'.ring = ses.ring ∧ ses'.globalLength = ses.globalLength ∧
      ses'.cow = ses.cow.modify (bucketNumber (u64 ses.s.blockSize) aligned) aligned
        (CowEntry.moveOut (le.voff - aligned)) := by
  rw [copyUnit, hnil]
  exact ⟨_, _, rfl, rfl, rfl, rfl, rfl⟩

/-- What a copy of a unit leaves of the table: the block of the unit is in it. -/
theorem CopiesUnit.movedOf {ce e₀ : CowEntry} {unit : ℕ} {fr : Option CowEntry}
    (h : ses.CopiesUnit cfg n n' ce unit (b * g.blockSize) ses' fr)
    (hbs : u64 ses.s.blockSize = g.blockSize) (hne : (cowUnit : ℤ) ≠ ses.s.blockSize)
    (hok : ses.cow.Ok g.blockSize) (he₀ : e₀ ∈ ses.cow.buckets (b % bucketNum))
    (hkey : e₀.faultVoffAligned = b * g.blockSize) : ∃ mv, ses'.cow.movedOf g.blockSize =
      Function.update (ses.cow.movedOf g.blockSize) b (some mv) := by
  rcases h.cow with ⟨heq, -⟩ | ⟨-, -, hcow⟩
  · exact absurd heq hne
  · have hF : ∀ e, (CowEntry.moveOut (unit - b * g.blockSize) e).faultVoffAligned =
        e.faultVoffAligned := fun _ => rfl
    rw [hcow, bucketNumber, hbs, Nat.mul_div_cancel _ g.blockSize_pos]
    exact ⟨_, (hok.modify g.blockSize_pos hF he₀ hkey).2⟩

/-- **`cow_handler`** on a protected page. -/
theorem Settled.cowHandler (h : ses.Settled g off es low) (hv : v < ses.s.fmmapLength)
    (hfine : cfg.finegrainedCow = true) (hne : (cowUnit : ℤ) ≠ ses.s.blockSize)
    (hcap : v / g.blockSize < g.cap) {e : Pte Path} (hp : ses.pages (v / pageSize) = some e)
    (hw : e.writable = false) (hr : ses.cowHandler cfg n n' v = .ok (ses', ops)) :
    ∃ es', ses'.Settled g off es' low := by
  have hwhole := h.whole.step h.toPaged (.copy hv hp hw hr)
  obtain ⟨es', hgrow, ht⟩ := h.toTabled.cowHandler hv hr
  have hfull : ses.firstMissing (v / g.blockSize * g.blockSize) = none :=
    h.whole.firstMissing_eq_none h.toPaged (by rw [hp]; exact Option.some_ne_none e)
  have hes : Grows (v / g.blockSize) es es' := by
    rcases hgrow with rfl | ⟨hneeds, rfl⟩ | ⟨hmiss, -⟩
    · exact Or.inl rfl
    · exact Or.inr ⟨h.not_mem_of_protected hp hw (hneeds hfine), rfl⟩
    · exact absurd hfull hmiss
  have hu := h.super.u64_blockSize
  have hblock : ∀ p, PageTable.InRange (v / g.blockSize * g.blockSize) g.blockSize p ↔
      p * pageSize / g.blockSize = v / g.blockSize :=
        fun p => PageTable.inRange_block g.blockSize_pos
  have hunit : ∀ p, PageTable.InRange (v / cowUnit * cowUnit) cowUnit p →
      p * pageSize / g.blockSize = v / g.blockSize := by
    intro p hin
    rw [PageTable.inRange_block (by decide), Nat.mul_div_cancel _ (by decide)] at hin
    rw [hin]
    exact div_page h.page_dvd v
  -- the block was all mapped, as one of its pages was
  have hold : ∀ p, p * pageSize / g.blockSize = v / g.blockSize → ses.pages p ≠ none := by
    intro p hpb
    refine h.whole (v / pageSize) p ((div_page h.page_dvd v).trans hpb.symm) ?_
    rw [hp]
    exact Option.some_ne_none e
  have hmapped : ∀ {voff len o : ℕ},
      ses'.pages = ses.pages.mapRange voff len ses.s.fd o true →
      ∀ p, p * pageSize / g.blockSize = v / g.blockSize → ses'.pages p ≠ none := by
    intro voff len o hpages p hpb
    rw [hpages, PageTable.mapRange]
    split_ifs
    · exact Option.some_ne_none _
    · exact hold p hpb
  rcases h.toLayered.cowHandler_cases h.page_dvd hfine hr with ⟨rfl, -⟩ |
    ⟨c, ce, l, hl, hkey, hc, -, -, ops₂, hcopy⟩ | ⟨c, ce, hce, hkey, hc, -, -, hcopy⟩ |
    ⟨c, ses₁, ce, ops₁, hnone, hins, hc, -, hcopy⟩
  · exact ⟨es, h⟩
  · have hl' : ses.cow.buckets (v / g.blockSize % bucketNum) = [] ++ ce :: l := hl
    have hblocks : ({ ses with cow := c } : Session).firstMissing (v / g.blockSize * g.blockSize) =
        none := hfull
    rw [copyWhole_of_mapped hblocks] at hcopy
    have hses' : ses' = (({ ses with cow := c } : Session).copyBlock cfg ce
        (v / g.blockSize * g.blockSize)).1 := (congrArg Prod.fst (Except.ok.inj hcopy)).symm
    have hmoved : ses'.cow.movedOf g.blockSize =
        Function.update (ses.cow.movedOf g.blockSize) (v / g.blockSize) none := by
      rw [← (h.tables.unlink g.blockSize_pos hl' hkey).2, hses']
      funext d
      change c.movedOf g.blockSize d = _
      rw [CowTables.movedOf, hc, CowTables.movedOf, List.nil_append]
    have hpages : ses'.pages = ses.pages.mapRange (v / g.blockSize * g.blockSize) g.blockSize
        ses.s.fd ce.blockOff true := by
      rw [hses', ← hu]
      rfl
    exact ⟨es', h.of_mapRange ht hwhole hpages (fun p => (hblock p).mp)
      (fun d hd => by rw [hmoved, Function.update_of_ne hd]) hes hcap (hmapped hpages)
      fun _ p hpb => (hblock p).mpr hpb⟩
  · obtain ⟨mv, hmoved⟩ := hcopy.movedOf hu hne (h.tables.congr hc) (by rw [hc]; exact hce) hkey
    have hpages := hcopy.pages hne
    refine ⟨es', h.of_mapRange ht hwhole hpages hunit (fun d hd => ?_) hes hcap (hmapped hpages)
      fun hm => ?_⟩
    · rw [hmoved, Function.update_of_ne hd, CowTables.movedOf, hc, CowTables.movedOf]
    · rw [hmoved, Function.update_self] at hm
      cases hm
  · obtain ⟨hok, hmem, hkey, -, -, -, hbs, hlink⟩ := h.toTabled.insertHt_table hnone hins
    obtain ⟨hfixed, -, hpages₁⟩ := insertHt_sameFixed hins
    have hne₁ : (cowUnit : ℤ) ≠ ses₁.s.blockSize := by rwa [hbs]
    obtain ⟨mv, hmoved⟩ := hcopy.movedOf (by rw [← hu, ← hbs]) hne₁ (hok.congr hc)
      (by rw [hc]; exact hmem) hkey
    have hpages := hcopy.pages hne₁
    simp only [hpages₁, hfixed.fd] at hpages
    refine ⟨es', h.of_mapRange ht hwhole hpages hunit (fun d hd => ?_) hes hcap (hmapped hpages)
      fun hm => ?_⟩
    · have hsame : ses₁.cow.movedOf g.blockSize d = ses.cow.movedOf g.blockSize d := by
        rw [hlink, Function.update_of_ne hd]
      rw [hmoved, Function.update_of_ne hd, ← hsame, CowTables.movedOf, hc, CowTables.movedOf]
    · rw [hmoved, Function.update_self] at hm
      cases hm

/-! ### The exit is not taken -/

theorem readMeta_ne_outOfRange {f : ByteFile} {s : Super} {k : ℤ} :
    readMeta f s k ≠ .error .outOfRange := by
  rw [readMeta]
  split_ifs <;> simp

/-- `insert_ht` leaves the process only where `new_block` does. -/
theorem insertHt_outOfRange {key : ℕ} (hr : ses.insertHt cfg n n' key = .error .outOfRange) :
    newBlock cfg ses.file ses.s ses.ring n n' key = .error .outOfRange := by
  rw [insertHt] at hr
  rcases hnb : newBlock cfg ses.file ses.s ses.ring n n' key with e | ⟨s', r', nb, ops₁⟩
  · rw [hnb] at hr
    cases hr
    rfl
  rw [hnb] at hr
  simp only [linkEntry] at hr
  rcases hm : readMeta ({ ses.issue ops₁ with s := s', ring := r' } : Session).file s' (metaN s')
    with e | m
  · rw [hm] at hr
    cases hr
    exact absurd hm readMeta_ne_outOfRange
  · rw [hm] at hr
    cases hr

/-- `cow_handler` for a block that is mapped leaves the process only where `new_block` does, for a
block that is not in the table. -/
theorem cowHandler_outOfRange (hfine : cfg.finegrainedCow = true)
    (hfull : ses.firstMissing (v / u64 ses.s.blockSize * u64 ses.s.blockSize) = none)
    (hr : ses.cowHandler cfg n n' v = .error .outOfRange) :
    ses.NeedsBlock (v / cowUnit * cowUnit) ∧ ses.s.maxBlockNum < ses.s.toAllocNum := by
  rw [cowHandler] at hr
  simp only [hfine, if_true] at hr
  split_ifs at hr with hout hlist
  rcases hins : ses.insertList cfg n n' (v / cowUnit * cowUnit) with
    e | ⟨ses₁, _ | ⟨le, ce⟩, ops₁⟩
  · rw [hins] at hr
    cases hr
    rw [insertList, if_neg hlist] at hins
    simp only at hins
    rcases hsearch : searchHt (v / cowUnit * cowUnit / u64 ses.s.blockSize * u64 ses.s.blockSize) 0
      (ses.cow.buckets (bucketNumber (u64 ses.s.blockSize) (v / cowUnit * cowUnit))) with
      _ | ⟨ce', full, rest⟩
    · rw [hsearch] at hins
      simp only at hins
      rcases hht : ses.insertHt cfg n n' (v / cowUnit * cowUnit / u64 ses.s.blockSize *
        u64 ses.s.blockSize) with e | x
      · rw [hht] at hins
        cases hins
        exact ⟨hsearch, newBlock_outOfRange (insertHt_outOfRange hht)⟩
      · rw [hht] at hins
        cases hins
    · rw [hsearch] at hins
      cases hins
  · rw [hins] at hr
    cases hr
  · rw [hins] at hr
    simp only at hr
    split_ifs at hr
    · rcases hcopy : ses₁.copyUnit cfg le ce (v / u64 ses.s.blockSize * u64 ses.s.blockSize)
        with e | x
      · rw [hcopy] at hr
        cases hr
        rw [copyUnit] at hcopy
        split_ifs at hcopy
        cases hcopy
      · rw [hcopy] at hr
        cases hr
    · have hfixed := insertList_range hins
      rw [copyWhole_of_mapped
        ((firstMissing_congr hfixed.1.blockSize hfixed.2.2.1).trans hfull)] at hr
      cases hr

/-- **No fault takes the exit**, where the entries of the layer are settled. -/
theorem Settled.fault_ne_outOfRange (h : ses.Settled g off es low)
    (hfine : cfg.finegrainedCow = true) (hcap : v / g.blockSize < g.cap) {write : Bool} :
    ses.fault cfg n n' v write ≠ .error .outOfRange := by
  intro hr
  have hroom : v / g.blockSize ∉ es → ¬ses.s.maxBlockNum < ses.s.toAllocNum := by
    intro hnot
    have hlt := h.length_lt hcap hnot
    rw [Geometry.cap] at hlt
    rw [h.super.toAllocNum, h.super.maxBlockNum]
    omega
  rw [fault] at hr
  rcases hp : ses.pages (v / pageSize) with _ | e
  · rw [hp] at hr
    simp only at hr
    rw [Session.ufMonitor] at hr
    split_ifs at hr
    rcases hnb : newBlock cfg ses.file ses.s ses.ring n n'
      (v / pageSize * pageSize / u64 ses.s.blockSize * u64 ses.s.blockSize) with err | x
    · rw [hnb] at hr
      cases hr
      exact hroom (h.not_mem_of_missing hp) (newBlock_outOfRange hnb)
    · rw [hnb] at hr
      cases hr
  · rw [hp] at hr
    simp only at hr
    split_ifs at hr with hcow
    rw [Bool.and_eq_true, Bool.not_eq_true'] at hcow
    have hmapped : ses.firstMissing (v / u64 ses.s.blockSize * u64 ses.s.blockSize) = none := by
      rw [h.super.u64_blockSize]
      exact h.whole.firstMissing_eq_none h.toPaged (by rw [hp]; exact Option.some_ne_none e)
    obtain ⟨hneeds, hfull⟩ := cowHandler_outOfRange hfine hmapped hr
    have hunit : v / cowUnit * cowUnit / g.blockSize = v / g.blockSize := div_page h.page_dvd v
    rw [h.toTabled.needsBlock_iff, hunit, ← h.toTabled.needsBlock_iff] at hneeds
    exact hroom (h.not_mem_of_protected hp hcow.2 hneeds) hfull

/-! ### Runs -/

/-- **Every step keeps the entries settled.** -/
theorem Settled.step (h : ses.Settled g off es low) (hfine : cfg.finegrainedCow = true)
    (hlt : cowUnit < g.blockSize) (hcap : ∀ v < ses.s.fmmapLength, v / g.blockSize < g.cap)
    (hstep : ses.Faults cfg ses') : ∃ es', ses'.Settled g off es' low := by
  cases hstep with
  | missing hv hp hr => exact h.ufMonitor hv (hcap _ hv) hp hr
  | copy hv hp hw hr =>
    have hne : (cowUnit : ℤ) ≠ ses.s.blockSize := by
      rw [h.super.blockSize]
      omega
    exact h.cowHandler hv hfine hne (hcap _ hv) hp hw hr
  | write y hp hw hx =>
    exact ⟨es, ⟨h.toPaged.poke hp hw hx y, h.tables⟩, h.nodup, h.lt_cap, h.whole, h.writable,
      h.table_mapped⟩
  | tick hr =>
    obtain ⟨-, -, hpages, hcow⟩ := tick_ok hr
    refine ⟨es, ⟨h.toPaged.tick hr, by rw [hcow]; exact h.tables⟩, h.nodup, h.lt_cap, ?_, ?_, ?_⟩
    · intro p p'
      rw [hpages]
      exact h.whole p p'
    · rw [hpages, hcow]
      exact h.writable
    · rw [hpages, hcow]
      exact h.table_mapped

/-- **So does every run.** -/
theorem Settled.run (h : ses.Settled g off es low) (hfine : cfg.finegrainedCow = true)
    (hlt : cowUnit < g.blockSize) (hcap : ∀ v < ses.s.fmmapLength, v / g.blockSize < g.cap)
    (hrun : Relation.ReflTransGen (Faults cfg) ses ses') : (∃ es', ses'.Settled g off es' low) ∧
      ses'.s.fmmapLength = ses.s.fmmapLength := by
  induction hrun with
  | refl => exact ⟨⟨es, h⟩, rfl⟩
  | tail _ hstep ih =>
    obtain ⟨⟨es₁, h₁⟩, hlen⟩ := ih
    exact ⟨h₁.step hfine hlt (by rwa [hlen]) hstep,
      hstep.advances.sameFixed.1.fmmapLength.trans hlen⟩

end Session

/-- In a session just opened the blocks of the last layer are writable. -/
theorem writable_chainSession {length : ℕ} {x : Fs × List (MapOp Path)}
    (hp : p * pageSize / g.blockSize ∈ es) :
    ∃ e, (chainSession g fd ls es length x).pages p = some e ∧ e.writable = true := by
  have hpages : (chainSession g fd ls es length x).pages p = PageTable.overlay g.blockSize
      (g.bindings fd (g.chainEnd 0 ls) es) true (PageTable.run (x.2 ++
        (g.chainBindings fd 0 ls).flatMap (readonlyCalls g.blockSize)) fun _ => none) p := by
    rw [← PageTable.run_blocks g.blockSize_pos, ← PageTable.run_append]
    rfl
  rw [hpages, PageTable.overlay]
  rcases htop : PageTable.lastOf (g.bindings fd (g.chainEnd 0 ls) es) (p * pageSize / g.blockSize)
    with _ | y
  · exact absurd hp (Geometry.top_eq_none.mp htop)
  · exact ⟨_, rfl, rfl⟩

/-- **The entries of a session just opened are settled**, if they name different blocks of the
range, and blocks are mapped as a whole. -/
theorem IsChain.settled_of_fmmap {length offset : ℕ} {ses : Session}
    (h : IsChain g ((fs fd).getD .empty) 0 (ls ++ [es])) (hf : ((fs fd).getD .empty).size < 2 ^ 63)
    (hdvd : pageSize ∣ g.blockSize) (hnodup : es.Nodup) (hlt : ∀ e ∈ es, e < g.cap)
    (hopen : Session.fmmap cfg fs fd length offset = .ok (some ses))
    (hwhole : ses.Whole g.blockSize) : ∃ low, ses.Settled g (g.chainEnd 0 ls) es low := by
  obtain ⟨low, htabled⟩ := h.tabled_of_fmmap hf hdvd hopen
  obtain ⟨-, x, -, rfl⟩ := h.fmmap_ok rfl hf hopen
  exact ⟨low, htabled, hnodup, hlt, hwhole, fun p hp _ => writable_chainSession hp,
    fun p hp => absurd rfl hp⟩

/-- A length of `max_block_num` blocks, which is mapped as it is; where it is zero it is also what
zero stands for. -/
theorem Geometry.mapLength_cap_le (g : Geometry cfg)
    (hle : g.mapLength (g.blockSize * g.cap) ≤ regLen) :
    g.mapLength (g.blockSize * g.cap) ≤ g.blockSize * g.cap := by
  by_cases h0 : g.blockSize * g.cap = 0
  · have hu : u64 ((g.blockSize : ℤ) * g.maxBlockNum) = g.mapLength (g.blockSize * g.cap) := by
      rw [Geometry.mapLength, if_pos h0]
    have hz := (Geometry.u64_mul_eq_iff hle).mp hu
    have hcap : g.maxBlockNum ≤ g.cap := by
      rw [Geometry.cap]
      exact Int.self_le_toNat _
    have hmul : (g.blockSize : ℤ) * g.maxBlockNum ≤ g.blockSize * g.cap :=
      mul_le_mul_of_nonneg_left hcap (Int.natCast_nonneg _)
    rw [hz] at hmul
    exact_mod_cast hmul
  · exact (if_neg h0).le

/-- **The limit on the blocks of a layer is not hit where blocks are mapped as a whole.** For every
image whose last layer has entries for different blocks of the range, blocks of several units and a
range of `max_block_num` blocks, every session in which `fmmap` has mapped all pages of a block or
none, which is so where the image has no base or the blocks of the base are a multiple of its own
(`IsChain.whole_of_fmmap`), and every state that faults lead to: the entries of the layer name
different blocks of the range, and no fault makes `new_block` exit because of the number of
blocks. -/
theorem new_block_in_range {offset : ℕ} {ses₀ ses : Session}
    (hfine : cfg.finegrainedCow = true) (h : IsChain g ((fs fd).getD .empty) 0 (ls ++ [es]))
    (hf : ((fs fd).getD .empty).size < 2 ^ 63)
    (hdvd : cowUnit ∣ g.blockSize) (hlt : cowUnit < g.blockSize) (hnodup : es.Nodup)
    (hes : ∀ e ∈ es, e < g.cap)
    (hopen : Session.fmmap cfg fs fd (g.blockSize * g.cap) offset = .ok (some ses₀))
    (hwhole : ses₀.Whole g.blockSize)
    (hrun : Relation.ReflTransGen (Session.Faults cfg) ses₀ ses) :
    (∃ es', IsLayer g ses.file (g.chainEnd 0 ls) es' ∧ es'.Nodup ∧ ∀ e ∈ es', e < g.cap) ∧
      ∀ n n' v write, v < ses.s.fmmapLength →
        ses.fault cfg n n' v write ≠ .error .outOfRange := by
  obtain ⟨low, hsettled⟩ := h.settled_of_fmmap hf hdvd hnodup hes hopen hwhole
  obtain ⟨hlength, x, -, hses₀⟩ := h.fmmap_ok rfl hf hopen
  have hcap : ∀ v < ses₀.s.fmmapLength, v / g.blockSize < g.cap := by
    intro v hv
    have hlen : ses₀.s.fmmapLength = g.mapLength (g.blockSize * g.cap) := by
      rw [hses₀]
      rfl
    rw [hlen] at hv
    rw [Nat.div_lt_iff_lt_mul g.blockSize_pos, Nat.mul_comm]
    exact lt_of_lt_of_le hv (g.mapLength_cap_le hlength.le)
  obtain ⟨⟨es', h'⟩, hlen⟩ := hsettled.run hfine hlt hcap hrun
  refine ⟨⟨es', h'.layer, h'.nodup, h'.lt_cap⟩, fun n n' v write hv => ?_⟩
  exact h'.fault_ne_outOfRange hfine (hcap v (by rwa [hlen] at hv))

/-- After a write fault on a block of the frozen layer. -/
theorem new_block_in_range_copied : ∃ (fs : Fs) (ses₀ ses : Session) (ops : List FileOp),
    IsImage (Geometry.twoPages .shipped) ((fs [1]).getD .empty) [[0]] [] ∧
      Session.fmmap .shipped fs [1] (8192 * 4096) 0 = .ok (some ses₀) ∧
      ses₀.cowHandler .shipped 0 0 0 = .ok (ses, ops) ∧
      ∀ n n' v write, v < ses.s.fmmapLength →
        ses.fault .shipped n n' v write ≠ .error .outOfRange := by
  obtain ⟨f, himage, hname, -⟩ := exists_image (Geometry.twoPages .shipped) [[0]] [] (by decide)
    (by decide) (by decide) (by decide)
  have hlen : (Geometry.twoPages .shipped).LengthOk (8192 * 4096) 0 :=
    Geometry.lengthOk_of_pages (by decide) (by decide)
  obtain ⟨ses₀, hopen, hopened⟩ := IsImage.exists_fmmap (fun _ => some f) [1] himage hname hlen
  have hbase : HasBase (fun _ => some f) (baseImageName f 0) (Geometry.twoPages .shipped) [] :=
    Or.inl ⟨baseImageName_eq_nil hname, rfl⟩
  have hwhole : ses₀.Whole (Geometry.twoPages .shipped).blockSize :=
    @IsChain.whole_of_fmmap _ _ _ (fun _ => some f)
      [1] _ _ _ _ _ _ himage.isChain himage.size_lt hbase
      (dvd_refl _) hopen
  have hinv := hopened.inv (by decide) himage
  have hroom : ses₀.Room .shipped := hopened.room (by decide) (by decide)
  obtain ⟨e, hp, hw⟩ : ∃ e, ses₀.pages (0 / pageSize) = some e ∧ e.writable = false :=
    hopened.protected (by decide) (List.mem_singleton_self _) (by decide) (by decide)
  have hv : 0 < ses₀.s.fmmapLength := by
    rw [hopened.fmmapLength]
    decide
  obtain ⟨ses, ops, hr, -⟩ : ∃ ses ops, ses₀.cowHandler .shipped 0 0 0 = .ok (ses, ops) ∧
      ses₀.Served ses (Geometry.twoPages .shipped) [[0]] [] _ 0 :=
    hinv.exists_cowHandler hroom rfl (by decide) hv hp hw (Nat.zero_le _) fun _ =>
      hopened.super.metaNOk
  exact ⟨fun _ => some f, ses₀, ses, ops, himage, hopen, hr,
    (@new_block_in_range _ _ (fun _ => some f) [1] _ _ _ _ _ rfl himage.isChain himage.size_lt
      (by decide) (by decide) List.nodup_nil (fun e he => by cases he) hopen hwhole
      (.single (.copy hv hp hw hr))).2⟩

theorem one_block_ge : (-2 ^ 31 : ℤ) ≤ 1 := by omega

theorem one_block_lt : (1 : ℤ) < 2 ^ 31 := by omega

/-- Layers of one block of two pages. -/
def Geometry.oneBlock (cfg : Config) : Geometry cfg where
  blockSize := 8192
  maxBlockNum := 1
  entry_le := (Geometry.twoPages cfg).entry_le
  blockSize_lt := (Geometry.twoPages cfg).blockSize_lt
  maxBlockNum_ge := one_block_ge
  maxBlockNum_lt := one_block_lt

/-- The first write fault of a session on a layer without entries. -/
theorem Session.Paged.exists_firstUnit {ses : Session} (h : ses.Paged g off [] low)
    (hfine : cfg.finegrainedCow = true) (hlt : cowUnit < g.blockSize) (hcow : ses.cow = initFgcow)
    (hv : v < ses.s.fmmapLength) (hle : v ≤ u64 ((ses.globalLength : ℤ) - ses.s.blockSize))
    (hnew : ∃ x, Pcow.newBlock cfg ses.file ses.s ses.ring 0 0
      (v / g.blockSize * g.blockSize) = .ok x) :
    ∃ ses' ops, ses.cowHandler cfg 0 0 v = .ok (ses', ops) ∧
      ses'.Paged g off [v / g.blockSize] low ∧ ∃ o, ses'.pages =
        ses.pages.mapRange (v / cowUnit * cowUnit) cowUnit ses.s.fd o true := by
  have hu := h.super.u64_blockSize
  have hunit : v / cowUnit * cowUnit / g.blockSize = v / g.blockSize := div_page h.page_dvd v
  have hlist : ¬ses.cow.InList (v / cowUnit * cowUnit) := by
    rw [hcow]
    rintro ⟨x, hx, -⟩
    cases hx
  have hcfg : cfg.entrySize = 8 := by rw [Config.entrySize, hfine]; rfl
  obtain ⟨⟨s', r', nb, ops₁⟩, hnb⟩ := hnew
  obtain ⟨ses₁, ce, ops₂, hins, -⟩ :=
    (h.toLayered.insertHt_locates h.page_dvd hnb).mpr g.perSeg_pos
  obtain ⟨h₁, hce, hkey⟩ := h.insertHt hcfg hv hins
  obtain ⟨-, -, hnil, -⟩ := h.toLayered.insertHt_cow hins
  obtain ⟨hfixed, -, hpages⟩ := insertHt_sameFixed hins
  have hins' := @insertList_new cfg _ ses 0 0 hlist (by rw [hcow]; rfl)
  rw [hu, hunit, hins] at hins'
  obtain ⟨c, hc⟩ : ∃ c, c = ses₁.cow.pushList (v / cowUnit * cowUnit)
      ⟨v / cowUnit * cowUnit, cowUnit⟩ :=
    ⟨_, rfl⟩
  have h₂ : ({ ses₁ with cow := c } : Session).Paged g off [v / g.blockSize] low :=
    h₁.setCow c fun i e he => ⟨i, e, by rwa [hc] at he, rfl, rfl, rfl⟩
  obtain ⟨ses', ops₃, hcopy, -⟩ := exists_copyUnit cfg { ses₁ with cow := c }
    ⟨v / cowUnit * cowUnit, cowUnit⟩ (v / g.blockSize * g.blockSize) hnil
  have hsize : (cowUnit : ℤ) ≠ ses₁.s.blockSize := by
    rw [h₁.super.blockSize]
    omega
  have hunits : ({ ses₁ with cow := c } : Session).CopiesUnit cfg 0 0 ce (v / cowUnit * cowUnit)
      (v / g.blockSize * g.blockSize) ses' none := Or.inl ⟨hsize, rfl, ops₃, hcopy⟩
  have hmap := hunits.pages hsize
  have hr := @cowHandler_eq cfg v ses 0 0 hfine (not_lt.mpr hle) hlist
  rw [hins', hu] at hr
  simp only [Except.map] at hr
  rw [if_pos hsize, ← hc, hcopy] at hr
  simp only [hpages, hfixed.fd] at hmap
  exact ⟨ses', ops₂ ++ ops₃, hr, h₂.copyUnit hcfg hce hkey hcopy, _, hmap⟩

/-- **A block gets two entries over a base with smaller blocks.** The base has the first page of the
one block of the layer. A store there has an entry appended for the block; a load from the second
page, which is missing, has `new_block` find the layer full, and the process exits. -/
theorem new_block_out_of_range : ∃ (fs : Fs) (ses₀ ses : Session) (ops : List FileOp),
    IsImage (Geometry.oneBlock .shipped) ((fs [1]).getD .empty) [] [] ∧
      HasBase fs (baseImageName ((fs [1]).getD .empty) 0) (Geometry.onePage .shipped) [[0]] ∧
      Session.fmmap .shipped fs [1] (8192 * 1) 0 = .ok (some ses₀) ∧
      (∃ e, ses₀.pages 0 = some e ∧ e.writable = false) ∧
      ses₀.cowHandler .shipped 0 0 0 = .ok (ses, ops) ∧ ses.pages 1 = none ∧
      ses.fault .shipped 0 0 4096 false = .error .outOfRange := by
  have hbs : (Geometry.oneBlock .shipped).blockSize = 8192 := rfl
  obtain ⟨fs, ses₀, himage, hbase, hopen, ⟨low, hstale⟩, hlen, hglob, -, hcow, -, hmapped, hnew⟩ :=
    exists_overBase (Geometry.oneBlock .shipped) (Geometry.onePage .shipped) (by decide) (by decide)
      (by decide) (by decide) (by decide) (by decide) (by decide)
      (@Geometry.lengthOk_of_pages _ _ 1 (by decide) (by decide)) (by decide)
  have hfirst : ∃ e, ses₀.pages 0 = some e :=
    Option.ne_none_iff_exists'.mp ((hmapped 0).mpr (by decide))
  obtain ⟨e, hp⟩ := hfirst
  have hw : e.writable = false := by
    rcases hstale.page 0 e hp with ⟨-, -, o, ⟨i, hi, -⟩, -⟩ | ⟨hw, -⟩
    · cases hi
    · exact hw
  have hmiss : ses₀.pages 1 = none := by
    by_contra hne
    exact absurd (List.mem_singleton.mp ((hmapped 1).mp hne)) (by decide)
  have hv : 0 < ses₀.s.fmmapLength := by
    rw [hlen]
    decide
  obtain ⟨ses, ops, hr, h, o, hpages⟩ :=
    hstale.toPaged.exists_firstUnit rfl (by rw [hbs]; decide) hcow
    hv (Nat.zero_le _) (hnew _)
  have hu := hstale.super.u64_blockSize
  have hs := (Session.cowHandler_confined (by rw [hu, hbs]; decide)
    (by rw [hu, hbs]; decide) hr).super
  have hmiss' : ses.pages 1 = none := by
    rw [hpages, PageTable.mapRange_of_not_inRange (by decide), hmiss]
  refine ⟨fs, ses₀, ses, ops, himage, hbase, hopen, ⟨e, hp, hw⟩, hr, hmiss', ?_⟩
  have hin : 4096 / pageSize * pageSize / u64 ses.s.blockSize * u64 ses.s.blockSize ≤
      u64 (ses.s.fmmapLength - ses.s.blockSize) := by
    rw [h.super.u64_blockSize, hbs]
    exact Nat.zero_le _
  have hpage : ses.pages (4096 / pageSize) = none := hmiss'
  rw [Session.fault, hpage, Session.ufMonitor]
  simp only [if_pos hin]
  rw [newBlock_of_full]
  · rfl
  · rw [h.super.toAllocNum]
    decide
  · rw [h.super.toAllocNum, h.super.maxBlockNum]
    decide

end Pcow
