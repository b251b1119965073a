import Pcow.Bounds
import Pcow.Close
import Pcow.Missing

/-!
# Entries of the table that are freed

`cow_handler` frees the entry of a block in the branch that copies the whole block. The branch is
taken where the size of the copy is the size of a block; that the entry is no longer in the table is
decided elsewhere, in `search_ht`, which unlinks it and has the whole block copied. With blocks of
one unit the two do not agree: the copy of a unit is one of a block then, and the entry is freed
while it is linked (`freed_linked`). With larger blocks no entry of the table was ever freed
(`freed_unlinked`).

An entry is known by the data block it is for: it is the one `new_block` returned in the call of
`insert_ht` that made the entry, and `new_block` returns no block twice.
-/

namespace Pcow

variable {cfg : Config} {g : Geometry cfg} {fs : Fs} {fd : Path} {off b v : ℕ} {es : List ℕ}
  {ls : List (List ℕ)} {low : PageTable Path}

/-- Whether a table is in order is a matter of its chains. -/
theorem CowTables.Ok.congr {c c' : CowTables} {n : ℕ} (h : c.Ok n) (hc : c'.buckets = c.buckets) :
    c'.Ok n where
  bucket := by
    rw [hc]
    exact h.bucket
  nodup := by
    rw [hc]
    exact h.nodup

/-- The entry of a block after the unit at `d` was copied. -/
def CowEntry.moveOut (d : ℕ) (e : CowEntry) : CowEntry :=
  { e with
    moved := d :: e.moved
    copiedCounter := e.copiedCounter + (d / cowUnit : ℕ) }

namespace Session

variable {ses ses' : Session} {n n' : ℕ} {ops : List FileOp} {fr : Option CowEntry}

/-- The entry a call of `cow_handler` frees, if it does. -/
def freed (cfg : Config) (ses : Session) (n n' voff : ℕ) : Option CowEntry :=
  if voff > u64 (ses.globalLength - ses.s.blockSize) then none
  else if cfg.finegrainedCow then
    if ses.cow.InList (voff / cowUnit * cowUnit) then none
    else
      match insertList cfg ses n n' (voff / cowUnit * cowUnit) with
      | .ok (ses₁, some (le, ce), _) => if le.copySize ≠ ses₁.s.blockSize then none else some ce
      | _ => none
  else none

theorem freed_eq_none (h : v > u64 (ses.globalLength - ses.s.blockSize) ∨
    ses.cow.InList (v / cowUnit * cowUnit)) : ses.freed cfg n n' v = none := by
  rw [freed]
  split_ifs with hout hfine hlist
  · rfl
  · rfl
  · exact absurd h (not_or.mpr ⟨hout, hlist⟩)
  · rfl

theorem freed_of_insertList (hle : v ≤ u64 (ses.globalLength - ses.s.blockSize))
    (hfine : cfg.finegrainedCow = true) (hlist : ¬ses.cow.InList (v / cowUnit * cowUnit))
    {ses₁ : Session} {le : CowLEntry} {ce : CowEntry} {ops₁ : List FileOp}
    (hins : ses.insertList cfg n n' (v / cowUnit * cowUnit) = .ok (ses₁, some (le, ce), ops₁)) :
    ses.freed cfg n n' v = if le.copySize ≠ ses₁.s.blockSize then none else some ce := by
  rw [freed, if_neg (not_lt.mpr hle), if_pos hfine, if_neg hlist, hins]

/-! ### What a call does with the table -/

/-- The copy of a unit, which is one of the block where the block has no other; what it frees. -/
def CopiesUnit (cfg : Config) (ses : Session) (n n' : ℕ) (ce : CowEntry) (unit aligned : ℕ)
    (ses' : Session) (fr : Option CowEntry) : Prop :=
  ((cowUnit : ℤ) ≠ ses.s.blockSize ∧ fr = none ∧
    ∃ ops, ses.copyUnit cfg ⟨unit, cowUnit⟩ ce aligned = .ok (ses', ops)) ∨
  ((cowUnit : ℤ) = ses.s.blockSize ∧ fr = some ce ∧
    ∃ ops, ses.copyWhole cfg n n' ce aligned = .ok (ses', ops))

/-- **The four outcomes of a call**: it does nothing; it copies the block, whose entry is the first
of its chain and leaves the table; it copies a unit of a block of the table; or it makes an entry
first. -/
theorem Layered.cowHandler_cases (h : ses.Layered g off es) (hdvd : pageSize ∣ g.blockSize)
    (hfine : cfg.finegrainedCow = true) (hr : ses.cowHandler cfg n n' v = .ok (ses', ops)) :
    (ses' = ses ∧ ses.freed cfg n n' v = none ∧ (v > u64 (ses.globalLength - ses.s.blockSize) ∨
      ses.cow.InList (v / cowUnit * cowUnit))) ∨
    (∃ c ce l, ses.cow.buckets (v / g.blockSize % bucketNum) = ce :: l ∧
      ce.faultVoffAligned = v / g.blockSize * g.blockSize ∧
      c.buckets = (ses.cow.setBucket (v / g.blockSize % bucketNum) l).buckets ∧
      c.htSize = ses.cow.htSize ∧
      ses.freed cfg n n' v = some { ce with copiedCounter := -1 } ∧
      ∃ ops₂, ({ ses with cow := c } : Session).copyWhole cfg n n' ce
        (v / g.blockSize * g.blockSize) = .ok (ses', ops₂)) ∨
    (∃ c, ∃ ce ∈ ses.cow.buckets (v / g.blockSize % bucketNum),
      ce.faultVoffAligned = v / g.blockSize * g.blockSize ∧ c.buckets = ses.cow.buckets ∧
      c.htSize = ses.cow.htSize ∧ (∀ e l, ses.cow.buckets (v / g.blockSize % bucketNum) = e :: l →
        e.faultVoffAligned ≠ v / g.blockSize * g.blockSize) ∧
      ({ ses with cow := c } : Session).CopiesUnit cfg n n' ce (v / cowUnit * cowUnit)
        (v / g.blockSize * g.blockSize) ses' (ses.freed cfg n n' v)) ∨
    (∃ c ses₁ ce ops₁, (∀ e ∈ ses.cow.buckets (v / g.blockSize % bucketNum),
        e.faultVoffAligned ≠ v / g.blockSize * g.blockSize) ∧
      ses.insertHt cfg n n' (v / g.blockSize * g.blockSize) = .ok (ses₁, ce, ops₁) ∧
      c.buckets = ses₁.cow.buckets ∧ c.htSize = ses₁.cow.htSize ∧
      ({ ses₁ with cow := c } : Session).CopiesUnit cfg n n' ce (v / cowUnit * cowUnit)
        (v / g.blockSize * g.blockSize) ses' (ses.freed cfg n n' v)) := by
  have hu := h.super.u64_blockSize
  have hunit : v / cowUnit * cowUnit / g.blockSize = v / g.blockSize := div_page hdvd v
  rcases Session.cowHandler_cases hr with ⟨rfl, -, hidle⟩ |
    ⟨hle, -, hlist, ses₁, le, ce, ops₁, ops₂, hins, -, hcopy⟩ | ⟨-, hplain, -⟩
  · exact Or.inl ⟨rfl, freed_eq_none hidle, hidle⟩
  · have hfr := freed_of_insertList hle hfine hlist hins
    rw [hu] at hcopy
    -- what is copied, from the entry handed over
    have hpart : le = ⟨v / cowUnit * cowUnit, cowUnit⟩ → ses₁.CopiesUnit cfg n n' ce
        (v / cowUnit * cowUnit) (v / g.blockSize * g.blockSize) ses' (ses.freed cfg n n' v) := by
      rintro rfl
      rcases hcopy with ⟨hsize, hcopy⟩ | ⟨hsize, hcopy⟩
      · rw [if_pos hsize] at hfr
        exact Or.inl ⟨hsize, hfr, ops₂, hcopy⟩
      · rw [if_neg (not_not.mpr hsize)] at hfr
        exact Or.inr ⟨hsize, hfr, ops₂, hcopy⟩
    have hbucket : bucketNumber (u64 ses.s.blockSize) (v / cowUnit * cowUnit) =
        v / g.blockSize % bucketNum := by rw [bucketNumber, hu, hunit]
    rcases insertList_cases hins with
      ⟨full, rest, hsearch, hle', hses₁, -⟩ | ⟨hsearch, hle', ses₂, hins₂, hses₁⟩
    · rw [hbucket, hu, hunit] at hsearch
      rw [hbucket] at hses₁
      rcases full with _ | _
      · obtain ⟨e₀, he₀, hkey, ⟨hfull, -⟩ | ⟨-, rfl, rfl⟩⟩ := searchHt_eq_some hsearch
        · cases hfull
        right
        right
        left
        have hc : ((ses.cow.setBucket (v / g.blockSize % bucketNum)
            (ses.cow.buckets (v / g.blockSize % bucketNum))).pushList (v / cowUnit * cowUnit)
              le).buckets = ses.cow.buckets := Function.update_eq_self _ _
        have hpart' := hpart hle'
        rw [hses₁] at hpart'
        refine ⟨_, ce, he₀, hkey, hc, rfl, fun e l hl he => ?_, hpart'⟩
        rw [hl, searchHt_head he] at hsearch
        cases hsearch
      · obtain ⟨e₀, hl, hkey, rfl⟩ := searchHt_full hsearch
        right
        left
        have hsize : le.copySize = ses₁.s.blockSize := by
          rw [hle', hses₁]
          rfl
        rw [if_neg (not_not.mpr hsize)] at hfr
        rcases hcopy with ⟨hne, -⟩ | ⟨-, hcopy⟩
        · exact absurd hsize hne
        · refine ⟨(ses.cow.setBucket (v / g.blockSize % bucketNum) rest).pushList
            (v / cowUnit * cowUnit) le, e₀, rest, hl, hkey, rfl, rfl, hfr, ?_⟩
          rw [hses₁] at hcopy
          exact ⟨ops₂, hcopy⟩
    · right
      right
      right
      rw [hbucket, hu, hunit] at hsearch
      rw [hu, hunit] at hins₂
      have hpart' := hpart hle'
      rw [hses₁] at hpart'
      exact ⟨ses₂.cow.pushList (v / cowUnit * cowUnit) le, ses₂, ce, ops₁,
        searchHt_eq_none.mp hsearch, hins₂, rfl, rfl, hpart'⟩
  · rw [hfine] at hplain
    cases hplain

/-! ### The table in a run -/

/-- The pages and the table of a session are in order: in the table a block has one entry at most,
in the bucket of the block. -/
structure Tabled (ses : Session) (g : Geometry cfg) (off : ℕ) (es : List ℕ)
    (low : PageTable Path) : Prop extends ses.Paged g off es low where
  tables : ses.cow.Ok g.blockSize

/-- What `insert_ht` links. -/
theorem Layered.insertHt_cow (h : ses.Layered g off es) {ce : CowEntry}
    (hr : ses.insertHt cfg n n' (b * g.blockSize) = .ok (ses', ce, ops)) :
    ses'.cow = ses.cow.link (b % bucketNum) ce ∧ ce.faultVoffAligned = b * g.blockSize ∧
      ce.moved = [] ∧ ce.blockOff = g.dataOff off es.length := by
  obtain ⟨s', r', nb, ops₁, ops₂, hnb, hlink, -⟩ := insertHt_ok hr
  obtain ⟨-, -, -, hoff⟩ := h.newBlock hnb
  obtain ⟨m, -, hce, hses', -⟩ := linkEntry_ok hlink
  have hbucket : bucketNumber (u64 s'.blockSize) (b * g.blockSize) = b % bucketNum := by
    have hs' : s'.blockSize = ses.s.blockSize := (newBlock_sameFixed hnb).1.blockSize
    rw [bucketNumber, hs', h.super.u64_blockSize, Nat.mul_div_cancel _ g.blockSize_pos]
  refine ⟨?_, by rw [hce]; rfl, by rw [hce]; rfl, by rw [hce]; exact hoff⟩
  rw [hses', ← hbucket]
  rfl

/-- **`insert_ht`** links an entry for the block it appends. -/
theorem Tabled.insertHt_table (h : ses.Tabled g off es low)
    (hnone : ∀ e ∈ ses.cow.buckets (b % bucketNum), e.faultVoffAligned ≠ b * g.blockSize)
    {ce : CowEntry} (hr : ses.insertHt cfg n n' (b * g.blockSize) = .ok (ses', ce, ops)) :
    ses'.cow.Ok g.blockSize ∧ ce ∈ ses'.cow.buckets (b % bucketNum) ∧
      ce.faultVoffAligned = b * g.blockSize ∧ ce.moved = [] ∧
      ce.blockOff = g.dataOff off es.length ∧
      (∀ i, ∀ e ∈ ses'.cow.buckets i, e = ce ∨ e ∈ ses.cow.buckets i) ∧
      ses'.s.blockSize = ses.s.blockSize ∧ ses'.cow.movedOf g.blockSize =
        Function.update (ses.cow.movedOf g.blockSize) b (some []) := by
  have hbs := (insertHt_sameFixed hr).1.blockSize
  obtain ⟨hcow, hkey, hnil, hoff⟩ := h.toLayered.insertHt_cow hr
  have hself : ses'.cow.buckets (b % bucketNum) = ce :: ses.cow.buckets (b % bucketNum) := by
    rw [hcow]
    exact Function.update_self _ _ _
  obtain ⟨hok, hmoved⟩ := h.tables.link g.blockSize_pos hkey (CowTables.movedOf_eq_none.mpr hnone)
  rw [← hcow] at hok hmoved
  rw [hnil] at hmoved
  refine ⟨hok, ?_, hkey, hnil, hoff, fun i e he => ?_, hbs, hmoved⟩
  · rw [hself]
    exact List.mem_cons_self
  · by_cases hi : i = b % bucketNum
    · rw [hi, hself, List.mem_cons] at he
      rcases he with rfl | he
      · exact Or.inl rfl
      · exact Or.inr (hi ▸ he)
    · have hother : (ses.cow.link (b % bucketNum) ce).buckets i = ses.cow.buckets i :=
        Function.update_of_ne hi _ _
      rw [hcow, hother] at he
      exact Or.inr he

/-- The copy of a unit changes the entry of the block at most, and not in what it names. -/
theorem CopiesUnit.cow {ce : CowEntry} {unit aligned : ℕ}
    (h : ses.CopiesUnit cfg n n' ce unit aligned ses' fr) :
    ((cowUnit : ℤ) = ses.s.blockSize ∧ fr = some ce ∧ ses'.cow = ses.cow) ∨
    ((cowUnit : ℤ) ≠ ses.s.blockSize ∧ fr = none ∧ ses'.cow = ses.cow.modify
      (bucketNumber (u64 ses.s.blockSize) aligned) aligned
      (CowEntry.moveOut (unit - aligned))) := by
  rcases h with ⟨hne, hfr, ops, hr⟩ | ⟨heq, hfr, ops, hr⟩
  · rw [copyUnit] at hr
    split_ifs at hr
    cases hr
    exact Or.inr ⟨hne, hfr, rfl⟩
  · exact Or.inl ⟨heq, hfr, copyWhole_cow hr⟩

/-- What is in the table after a unit was copied: what was there, as far as it names blocks. -/
theorem CopiesUnit.mem {ce e : CowEntry} {unit aligned i : ℕ}
    (h : ses.CopiesUnit cfg n n' ce unit aligned ses' fr) (he : e ∈ ses'.cow.buckets i) :
    ∃ j, ∃ e₀ ∈ ses.cow.buckets j, e₀.blockOff = e.blockOff := by
  rcases h.cow with ⟨-, -, hcow⟩ | ⟨-, -, hcow⟩
  · exact ⟨i, e, hcow ▸ he, rfl⟩
  · rw [hcow] at he
    obtain ⟨j, e₀, he₀, rfl | rfl⟩ := mem_modify_cases he
    · exact ⟨j, e₀, he₀, rfl⟩
    · exact ⟨j, e, he₀, rfl⟩

/-- It stays in order. -/
theorem CopiesUnit.ok {ce e₀ : CowEntry} {unit : ℕ}
    (h : ses.CopiesUnit cfg n n' ce unit (b * g.blockSize) ses' fr)
    (hbs : u64 ses.s.blockSize = g.blockSize) (hok : ses.cow.Ok g.blockSize)
    (he₀ : e₀ ∈ ses.cow.buckets (b % bucketNum)) (hkey : e₀.faultVoffAligned = b * g.blockSize) :
    ses'.cow.Ok g.blockSize := by
  rcases h.cow with ⟨-, -, hcow⟩ | ⟨-, -, hcow⟩
  · rw [hcow]
    exact hok
  · rw [hcow, bucketNumber, hbs, Nat.mul_div_cancel _ g.blockSize_pos]
    have hF : ∀ e, (CowEntry.moveOut (unit - b * g.blockSize) e).faultVoffAligned =
        e.faultVoffAligned := fun _ => rfl
    exact (hok.modify g.blockSize_pos hF he₀ hkey).1

/-- Without fine-grained copies the table is not used. -/
theorem copyPlain_cow {aligned : ℕ} (hr : ses.copyPlain cfg n n' aligned = .ok (ses', ops)) :
    ses'.cow = ses.cow := by
  obtain ⟨s', r', nb, ops₁, ses₁, -, hses₁, hcases⟩ := copyPlain_cases hr
  have hcow₁ : ses₁.cow = ses.cow := by
    rw [hses₁]
    rfl
  rcases hcases with ⟨-, rfl, -⟩ | ⟨i, ses₂, ops₂, -, hmiss, rfl, -⟩
  · rw [cow_remap, cow_issue, hcow₁]
  · rw [cow_remap, copyMissing_cow hmiss, hcow₁]

/-- **`cow_handler`** keeps the table in order. -/
theorem Tabled.cowHandler (h : ses.Tabled g off es low) (hv : v < ses.s.fmmapLength)
    (hr : ses.cowHandler cfg n n' v = .ok (ses', ops)) :
    ∃ es', ses.Gains cfg v (v / g.blockSize) (v / g.blockSize * g.blockSize) es es' ∧
      ses'.Tabled g off es' low := by
  obtain ⟨es', hgrow, h'⟩ := h.toPaged.cowHandler hv hr
  refine ⟨es', hgrow, h', ?_⟩
  by_cases hfine : cfg.finegrainedCow = true
  · rcases h.toLayered.cowHandler_cases h.page_dvd hfine hr with ⟨rfl, -⟩ |
      ⟨c, ce, l, hl, hkey, hc, -, -, ops₂, hcopy⟩ | ⟨c, ce, hce, hkey, hc, -, -, hcopy⟩ |
      ⟨c, ses₁, ce, ops₁, hnone, hins, hc, -, hcopy⟩
    · exact h.tables
    · have hl' : ses.cow.buckets (v / g.blockSize % bucketNum) = [] ++ ce :: l := hl
      rw [copyWhole_cow hcopy]
      exact (h.tables.unlink g.blockSize_pos hl' hkey).1.congr hc
    · exact hcopy.ok h.super.u64_blockSize (h.tables.congr hc) (by rw [hc]; exact hce) hkey
    · obtain ⟨hok, hmem, hkey, -, -, -, hbs, -⟩ := h.insertHt_table hnone hins
      refine hcopy.ok ?_ (hok.congr hc) (by rw [hc]; exact hmem) hkey
      simp only [hbs, h.super.u64_blockSize]
  · rcases Session.cowHandler_cases hr with ⟨rfl, -⟩ | ⟨-, hfine', -⟩ | ⟨-, -, hplain⟩
    · exact h.tables
    · exact absurd hfine' hfine
    · rw [copyPlain_cow hplain]
      exact h.tables

/-- A step that leaves the table alone keeps it in order. -/
theorem Tabled.of_cow_eq (h : ses.Tabled g off es low) (hstep : ses.Advances cfg ses')
    (hcow : ses'.cow = ses.cow) : ∃ es', es <+: es' ∧ ses'.Tabled g off es' low := by
  obtain ⟨es', hpre, h', -⟩ := h.toPaged.step hstep
  exact ⟨es', hpre, h', by rw [hcow]; exact h.tables⟩

/-- Entries for the same data block are for the same block. -/
theorem Tabled.key_eq (h : ses.Tabled g off es low) {e e' : CowEntry} {i j : ℕ}
    (he : e ∈ ses.cow.buckets i) (he' : e' ∈ ses.cow.buckets j) (ho : e.blockOff = e'.blockOff) :
    e.faultVoffAligned = e'.faultVoffAligned := by
  obtain ⟨b, hb, k, hk, hoff⟩ := (h.table i e he).block
  obtain ⟨b', hb', k', hk', hoff'⟩ := (h.table j e' he').block
  have hblock : g.dataBlock k = g.dataBlock k' :=
    Nat.eq_of_mul_eq_mul_left g.blockSize_pos
      (Nat.add_left_cancel ((hoff.symm.trans ho).trans hoff'))
  rw [g.dataBlock_injective hblock, hk'] at hk
  cases hk
  rw [hb, hb']

end Session

/-- A session just opened, over any base: the table is empty. -/
theorem IsChain.tabled_of_fmmap {length offset : ℕ} {ses : Session}
    (h : IsChain g ((fs fd).getD .empty) 0 (ls ++ [es]))
    (hf : ((fs fd).getD .empty).size < 2 ^ 63) (hdvd : pageSize ∣ g.blockSize)
    (hopen : Session.fmmap cfg fs fd length offset = .ok (some ses)) :
    ∃ low, ses.Tabled g (g.chainEnd 0 ls) es low := by
  obtain ⟨low, hpaged⟩ := h.paged_of_fmmap hf hdvd hopen
  obtain ⟨-, x, -, rfl⟩ := h.fmmap_ok rfl hf hopen
  exact ⟨low, hpaged, CowTables.ok_init⟩

/-! ### Runs with the entries that were freed -/

/-- A session, and the data blocks of the entries that were freed. -/
structure Freeing where
  ses : Session
  /-- The data blocks. -/
  freed : List ℕ

/-- The kinds of steps. -/
inductive FreeOp
  /-- A call of `cow_handler`. -/
  | copy (v : ℕ) : FreeOp
  /-- A call of `uf_monitor`, a store of the guest or an iteration of the allocator thread. -/
  | other : FreeOp

/-- **The steps**, with what they free. -/
inductive Freeing.Step (cfg : Config) (st : Freeing) : FreeOp → Freeing → Prop
  | copy {ses' : Session} {ops : List FileOp} {n n' v : ℕ} : v < st.ses.s.fmmapLength →
      st.ses.cowHandler cfg n n' v = .ok (ses', ops) → Step cfg st (.copy v)
        ⟨ses', ((st.ses.freed cfg n n' v).map (·.blockOff)).toList ++ st.freed⟩
  | missing {ses' : Session} {ops : List FileOp} {n n' v : ℕ} : v < st.ses.s.fmmapLength →
      st.ses.ufMonitor cfg n n' v = .ok (ses', ops) → Step cfg st .other ⟨ses', st.freed⟩
  | write {p x : ℕ} {e : Pte Path} (y : ℕ) : st.ses.pages p = some e → e.writable = true →
      x < pageSize → Step cfg st .other ⟨st.ses.poke e x y, st.freed⟩
  | tick {ses' : Session} : st.ses.tick cfg = .ok ses' → Step cfg st .other ⟨ses', st.freed⟩

/-- A block is larger than a unit, or the call finds the address outside of the range. -/
def Freeing.SizesDiffer (st : Freeing) : FreeOp → Prop
  | .copy v => (cowUnit : ℤ) ≠ st.ses.s.blockSize ∨
      v > u64 (st.ses.globalLength - st.ses.s.blockSize)
  | .other => True

/-- No entry of the table was freed. -/
def Freeing.Unlinked (st : Freeing) : Prop :=
  ∀ o ∈ st.freed, ∀ i, ∀ ce ∈ st.ses.cow.buckets i, ce.blockOff ≠ o

/-- **The invariant**: moreover, what was freed was for data blocks of the layer, so that no entry
to come is for one of them. -/
structure Freeing.Inv (st : Freeing) (g : Geometry cfg) (off : ℕ) (es : List ℕ)
    (low : PageTable Path) : Prop where
  tabled : st.ses.Tabled g off es low
  old : ∀ o ∈ st.freed, ∃ k < es.length, o = g.dataOff off k
  unlinked : st.Unlinked

section Freeing

variable {st st' : Freeing} {op : FreeOp} {ses' : Session}

/-- A step that frees nothing and brings no entry into the table that is for one of the old data
blocks. -/
theorem Freeing.Inv.of_table (h : st.Inv g off es low) {es' : List ℕ} (hpre : es <+: es')
    (ht : ses'.Tabled g off es' low)
    (hmem : ∀ i, ∀ ce ∈ ses'.cow.buckets i, (∃ j, ∃ e₀ ∈ st.ses.cow.buckets j,
      e₀.blockOff = ce.blockOff) ∨ ce.blockOff = g.dataOff off es.length) :
    Freeing.Inv ⟨ses', st.freed⟩ g off es' low := by
  refine ⟨ht, fun o ho => ?_, fun o ho i ce hce => ?_⟩
  · obtain ⟨k, hk, hoff⟩ := h.old o ho
    exact ⟨k, lt_of_lt_of_le hk hpre.length_le, hoff⟩
  · rcases hmem i ce hce with ⟨j, e₀, he₀, heq⟩ | heq
    · rw [← heq]
      exact h.unlinked o ho j e₀ he₀
    · obtain ⟨k, hk, rfl⟩ := h.old o ho
      rw [heq]
      intro hdata
      have hblock : g.dataBlock es.length = g.dataBlock k :=
        Nat.eq_of_mul_eq_mul_left g.blockSize_pos (Nat.add_left_cancel hdata)
      exact absurd (g.dataBlock_injective hblock) (by omega)

/-- A call of `cow_handler` on blocks larger than a unit: it frees the entry that `search_ht` has
unlinked, or none. -/
theorem Freeing.Inv.copy (h : st.Inv g off es low) {n n' v : ℕ} {ops : List FileOp}
    (hv : v < st.ses.s.fmmapLength) (hfine : cfg.finegrainedCow = true)
    (hne : (cowUnit : ℤ) ≠ st.ses.s.blockSize)
    (hr : st.ses.cowHandler cfg n n' v = .ok (ses', ops)) : ∃ es', Freeing.Inv
      ⟨ses', ((st.ses.freed cfg n n' v).map (·.blockOff)).toList ++ st.freed⟩ g off es' low := by
  have ht := h.tabled
  obtain ⟨es', hgrow, ht'⟩ := ht.cowHandler hv hr
  have hpre : es <+: es' := hgrow.isPrefix
  refine ⟨es', ?_⟩
  rcases ht.toLayered.cowHandler_cases ht.page_dvd hfine hr with ⟨rfl, hfr, -⟩ |
    ⟨c, ce, l, hl, hkey, hc, -, hfr, ops₂, hcopy⟩ | ⟨c, ce, hce, hkey, hc, -, -, hcopy⟩ |
    ⟨c, ses₁, ce, ops₁, hnone, hins, hc, -, hcopy⟩
  · rw [hfr]
    exact h.of_table hpre ht' fun i e he => Or.inl ⟨i, e, he, rfl⟩
  · -- the entry of the block has left the table
    have hleft : ∀ i, ∀ e ∈ ses'.cow.buckets i, e ∈ st.ses.cow.buckets i ∧
        e.faultVoffAligned ≠ v / g.blockSize * g.blockSize := by
      intro i e he
      rw [Session.copyWhole_cow hcopy, hc] at he
      have hl' : st.ses.cow.buckets (v / g.blockSize % bucketNum) = [] ++ ce :: l := hl
      exact ht.tables.mem_unlink g.blockSize_pos hl' hkey he
    have hold : ce ∈ st.ses.cow.buckets (v / g.blockSize % bucketNum) := by
      rw [hl]
      exact List.mem_cons_self
    have h' : Freeing.Inv ⟨_, st.freed⟩ g off es' low :=
      h.of_table hpre ht' fun i e he => Or.inl ⟨i, e, (hleft i e he).1, rfl⟩
    rw [hfr]
    refine ⟨ht', fun o ho => ?_, fun o ho i e he => ?_⟩
    · rcases List.mem_cons.mp ho with rfl | ho
      · obtain ⟨b, -, k, hk, hoff⟩ := (ht.table _ ce hold).block
        have hlt := (List.getElem?_eq_some_iff.mp hk).1
        exact ⟨k, lt_of_lt_of_le hlt hpre.length_le, hoff⟩
      · exact h'.old o ho
    · rcases List.mem_cons.mp ho with rfl | ho
      · obtain ⟨he', hek⟩ := hleft i e he
        intro hoff
        exact hek ((ht.key_eq he' hold hoff).trans hkey)
      · exact h'.unlinked o ho i e he
  · rcases hcopy.cow with ⟨heq, -⟩ | ⟨-, hfr, -⟩
    · exact absurd heq hne
    · rw [hfr]
      refine h.of_table hpre ht' fun i e he => Or.inl ?_
      obtain ⟨j, e₀, he₀, heq⟩ := hcopy.mem he
      exact ⟨j, e₀, hc ▸ he₀, heq⟩
  · obtain ⟨-, -, -, -, hoff, hmem, hbs, -⟩ := ht.insertHt_table hnone hins
    rcases hcopy.cow with ⟨heq, -⟩ | ⟨-, hfr, -⟩
    · rw [← hbs] at hne
      exact absurd heq hne
    · rw [hfr]
      refine h.of_table hpre ht' fun i e he => ?_
      obtain ⟨j, e₀, he₀, heq⟩ := hcopy.mem he
      have he₁ : e₀ ∈ ses₁.cow.buckets j := hc ▸ he₀
      rcases hmem j e₀ he₁ with rfl | hold
      · exact Or.inr (heq ▸ hoff)
      · exact Or.inl ⟨j, e₀, hold, heq⟩

/-- A step that frees nothing and leaves the table alone. -/
theorem Freeing.Inv.of_cow_eq (h : st.Inv g off es low) (hstep : st.ses.Advances cfg ses')
    (hcow : ses'.cow = st.ses.cow) : ∃ es', Freeing.Inv ⟨ses', st.freed⟩ g off es' low := by
  obtain ⟨es', hpre, ht⟩ := h.tabled.of_cow_eq hstep hcow
  exact ⟨es', h.of_table hpre ht fun i e he => Or.inl ⟨i, e, hcow ▸ he, rfl⟩⟩

/-- **Every step keeps the invariant**, where blocks are larger than units. -/
theorem Freeing.Inv.step (h : st.Inv g off es low) (hsize : st.SizesDiffer op)
    (hstep : st.Step cfg op st') : ∃ es', st'.Inv g off es' low := by
  cases hstep with
  | @copy ses' ops n n' v hv hr =>
    by_cases hfine : cfg.finegrainedCow = true
    · rcases hsize with hne | hout
      · exact h.copy hv hfine hne hr
      · -- the call does nothing
        have hfr : st.ses.freed cfg n n' v = none := if_pos hout
        rw [Session.cowHandler, if_pos hout] at hr
        cases hr
        rw [hfr]
        exact ⟨es, h⟩
    · have hfr : st.ses.freed cfg n n' v = none := by
        rw [Session.freed]
        split_ifs <;> rfl
      have hcow : ses'.cow = st.ses.cow := by
        rcases Session.cowHandler_cases hr with ⟨rfl, -⟩ | ⟨-, hfine', -⟩ | ⟨-, -, hplain⟩
        · rfl
        · exact absurd hfine' hfine
        · exact Session.copyPlain_cow hplain
      rw [hfr]
      exact h.of_cow_eq (.copy hv hr) hcow
  | missing hv hr => exact h.of_cow_eq (.missing hv hr) (Session.ufMonitor_cow hr)
  | write y hp hw hx => exact h.of_cow_eq (.write y hp hw hx) rfl
  | tick hr => exact h.of_cow_eq (.tick hr) (Session.tick_ok hr).2.2.2

/-- **So does every run.** -/
theorem Freeing.Inv.run (h : st.Inv g off es low)
    (hrun : Relation.ReflTransGen (fun a b => ∃ op, a.SizesDiffer op ∧ Freeing.Step cfg a op b)
      st st') : ∃ es', st'.Inv g off es' low := by
  induction hrun with
  | refl => exact ⟨es, h⟩
  | tail _ hstep ih =>
    obtain ⟨es₁, h₁⟩ := ih
    obtain ⟨op, hsize, hstep⟩ := hstep
    exact h₁.step hsize hstep

end Freeing

/-! ### A block is copied unit by unit -/

section Copies

variable {ses ses' : Session} {n n' : ℕ} {ops : List FileOp}

open Session

/-- For entries of the first meta block the number `meta_n` is 0. -/
theorem Super.Is.metaNOk_of_lt {s : Super} {k : ℕ} (hs : s.Is g off k) (hk : k < g.perSeg) :
    s.MetaNOk := by
  rw [Super.MetaNOk, hs.nextSeg, Geometry.lastSeg, Nat.add_sub_cancel, Nat.div_eq_of_lt hk]
  simp

/-- Where blocks are not allocated ahead, there is room below the capacity. -/
theorem Super.Is.room_plain (hs : ses.s.Is g off es.length) (hpre : cfg.preAlloc = false)
    (hcap : es.length < g.cap)
    (hend : g.endOff off es.length + g.blockSize * maxPreNum < 2 ^ 63) : ses.Room cfg := by
  rw [Geometry.cap] at hcap
  refine ⟨?_, ?_, fun hno => ?_⟩
  · rw [hs.toAllocNum, hs.maxBlockNum]
    omega
  · rw [hs.nextOff (by omega), hs.blockSize]
    exact_mod_cast hend
  · rw [hpre] at hno
    cases hno

/-- **The first write fault on a block** leaves its entry at the head of its chain, and the pages
beside the one it copies are as they were. -/
theorem Session.Layered.cowHandler_new (h : ses.Layered g off es) (hdvd : pageSize ∣ g.blockSize)
    (hfine : cfg.finegrainedCow = true) (hne : g.blockSize ≠ cowUnit)
    (hempty : ses.cow.buckets (v / g.blockSize % bucketNum) = [])
    (hle : ¬v > u64 (ses.globalLength - ses.s.blockSize))
    (hlist : ¬ses.cow.InList (v / cowUnit * cowUnit))
    (hr : ses.cowHandler cfg n n' v = .ok (ses', ops)) :
    ses.freed cfg n n' v = none ∧
    (∃ ce, ses'.cow.buckets (v / g.blockSize % bucketNum) = [ce] ∧
      ce.faultVoffAligned = v / g.blockSize * g.blockSize) ∧
      ∀ i, i ≠ v / g.blockSize % bucketNum → ses'.cow.buckets i = ses.cow.buckets i := by
  rcases h.cowHandler_cases hdvd hfine hr with ⟨-, -, hidle⟩ | ⟨c, ce, l, hl, -⟩ |
    ⟨c, ce, hce, -⟩ | ⟨c, ses₁, ce, ops₁, -, hins, hc, -, hcopy⟩
  · exact absurd hidle (not_or.mpr ⟨hle, hlist⟩)
  · rw [hempty] at hl
    cases hl
  · rw [hempty] at hce
    cases hce
  obtain ⟨hcow, hkey, -, -⟩ := h.insertHt_cow hins
  have hbs : ses₁.s.blockSize = g.blockSize :=
    (insertHt_sameFixed hins).1.blockSize.trans h.super.blockSize
  have hu : u64 ses₁.s.blockSize = g.blockSize := by
    rw [hbs, ← h.super.blockSize, h.super.u64_blockSize]
  rcases hcopy.cow with ⟨heq, -⟩ | ⟨-, hfr, hmod⟩
  · refine absurd ?_ hne
    have heq' : ((cowUnit : ℕ) : ℤ) = g.blockSize := heq.trans hbs
    exact_mod_cast heq'.symm
  have hbucket : bucketNumber (u64 ses₁.s.blockSize) (v / g.blockSize * g.blockSize) =
      v / g.blockSize % bucketNum := by
    rw [hu, bucketNumber, Nat.mul_div_cancel _ g.blockSize_pos]
  have hself : c.buckets (v / g.blockSize % bucketNum) = [ce] := by
    rw [hc, hcow, ← hempty]
    exact Function.update_self _ _ _
  have hother : ∀ i, i ≠ v / g.blockSize % bucketNum → c.buckets i = ses.cow.buckets i := by
    intro i hi
    rw [hc, hcow]
    exact Function.update_of_ne hi _ _
  rw [hmod]
  change _ ∧ (∃ ce', Function.update c.buckets _ _ _ = _ ∧ _) ∧ ∀ i, _ →
    Function.update c.buckets _ _ i = _
  rw [hbucket]
  refine ⟨hfr, ⟨CowEntry.moveOut (v / cowUnit * cowUnit - v / g.blockSize * g.blockSize) ce,
    ?_, hkey⟩,
    fun i hi => ?_⟩
  · rw [Function.update_self, hself, List.map_singleton, if_pos hkey]
  · rw [Function.update_of_ne hi]
    exact hother i hi

/-- **The next write fault on it** frees the entry, and the chain is empty again. -/
theorem Session.Layered.cowHandler_again (h : ses.Layered g off es) (hdvd : pageSize ∣ g.blockSize)
    (hfine : cfg.finegrainedCow = true) {ce : CowEntry}
    (hl : ses.cow.buckets (v / g.blockSize % bucketNum) = [ce])
    (hkey : ce.faultVoffAligned = v / g.blockSize * g.blockSize)
    (hle : ¬v > u64 (ses.globalLength - ses.s.blockSize))
    (hlist : ¬ses.cow.InList (v / cowUnit * cowUnit))
    (hr : ses.cowHandler cfg n n' v = .ok (ses', ops)) :
    ses.freed cfg n n' v ≠ none ∧
      ∀ i, i ≠ v / g.blockSize % bucketNum → ses'.cow.buckets i = ses.cow.buckets i := by
  rcases h.cowHandler_cases hdvd hfine hr with ⟨-, -, hidle⟩ |
    ⟨c, ce', l, -, -, hc, -, hfr, ops₂, hcopy⟩ | ⟨c, ce', hce, -, -, -, hhead, -⟩ |
    ⟨c, ses₁, ce', ops₁, hnone, -⟩
  · exact absurd hidle (not_or.mpr ⟨hle, hlist⟩)
  · refine ⟨by rw [hfr]; simp, fun i hi => ?_⟩
    rw [copyWhole_cow hcopy, hc]
    exact Function.update_of_ne hi _ _
  · exact absurd hkey (hhead ce [] hl)
  · exact absurd hkey (hnone ce (by rw [hl]; exact List.mem_singleton_self _))

/-- A page of a block without an entry is protected if a layer below has the block. -/
theorem Session.Inv.protected_of_low {low : ℕ → Option (Path × ℕ)} (h : ses.Inv g ls es low)
    (hnot : v / g.blockSize ∉ es) (hlow : low (v / g.blockSize) ≠ none) :
    ∃ e, ses.pages (v / pageSize) = some e ∧ e.writable = false := by
  obtain ⟨y, hy⟩ := Option.ne_none_iff_exists'.mp hlow
  have hplace := h.core.placeOf_eq v
  rw [Session.placeOf, place_of_none (Geometry.top_eq_none.mpr hnot), lowerPlace, hy] at hplace
  obtain ⟨e, he, heq⟩ := Option.map_eq_some_iff.mp hplace.symm
  exact ⟨e, he, congrArg Pte.writable heq⟩

theorem Grows.eq_of_singleton {es es' : List ℕ} (h : Grows b es es') (hes : es = [] ∨ es = [b]) :
    es' = [] ∨ es' = [b] := by
  rcases h with rfl | ⟨hnot, rfl⟩
  · exact hes
  · rcases hes with rfl | rfl
    · exact Or.inr rfl
    · exact absurd (List.mem_singleton_self b) hnot

/-- Three write faults: on both units of the first block of a frozen layer, and on the second
block. -/
theorem exists_freed : ∃ (f : ByteFile) (ses ses₁ ses₂ ses₃ : Session)
    (ops₁ ops₂ ops₃ : List FileOp),
    IsImage (Geometry.twoPages ⟨true, false⟩) f [[0, 1]] [] ∧
      Session.fmmap ⟨true, false⟩ (fun _ => some f) [1] (8192 * 4) 0 = .ok (some ses) ∧
      ses.s.fmmapLength = 8192 * 4 ∧ ses.s.blockSize = 8192 ∧
      ses.cowHandler ⟨true, false⟩ 0 0 0 = .ok (ses₁, ops₁) ∧
      ses₁.cowHandler ⟨true, false⟩ 0 0 4096 = .ok (ses₂, ops₂) ∧
      ses₂.cowHandler ⟨true, false⟩ 0 0 8192 = .ok (ses₃, ops₃) ∧
      ses₁.freed ⟨true, false⟩ 0 0 4096 ≠ none ∧ ∃ i, ses₃.cow.buckets i ≠ [] := by
  obtain ⟨f, himage, hname, -⟩ := exists_image (Geometry.twoPages ⟨true, false⟩) [[0, 1]] []
    (by decide) (by decide) (by decide) (by decide)
  have hlen : (Geometry.twoPages ⟨true, false⟩).LengthOk (8192 * 4) 0 :=
    Geometry.lengthOk_of_pages (by decide) (by decide)
  obtain ⟨ses, hopen, hopened⟩ := IsImage.exists_fmmap (fun _ => some f) [1] himage hname hlen
  have hdvd : pageSize ∣ (Geometry.twoPages ⟨true, false⟩).blockSize := by decide
  have hinv := hopened.inv hdvd himage
  have hbs : (Geometry.twoPages ⟨true, false⟩).blockSize = 8192 := rfl
  have hlow : ∀ b ∈ [0, 1], (Geometry.twoPages ⟨true, false⟩).lowBindings [] [1] [[0, 1]] b ≠
      none := by
    intro b hb hnone
    obtain ⟨x, hx, hxb⟩ := (Geometry.twoPages ⟨true, false⟩).exists_mem_chainBindings
      (List.mem_singleton_self _) hb
    exact PageTable.lastOf_eq_none_iff.mp hnone x hx hxb
  have hcap : (Geometry.twoPages ⟨true, false⟩).cap = 4096 := rfl
  have hper : (Geometry.twoPages ⟨true, false⟩).perSeg = 1016 := rfl
  have hend : ∀ k < 2, (Geometry.twoPages ⟨true, false⟩).endOff
      ((Geometry.twoPages ⟨true, false⟩).chainEnd 0 [[0, 1]]) k +
        (Geometry.twoPages ⟨true, false⟩).blockSize * maxPreNum < 2 ^ 63 := by decide
  generalize Geometry.twoPages ⟨true, false⟩ = g at *
  have hstep : ∀ {ses : Session} {es : List ℕ} {v : ℕ}, ses.Inv g [[0, 1]] es
      (g.lowBindings [] [1] [[0, 1]]) → es.length < 2 → ses.s.fmmapLength = 8192 * 4 →
      ses.globalLength = 8192 * 4 → v ≤ 8192 →
      (∃ e, ses.pages (v / pageSize) = some e ∧ e.writable = false) → ∃ ses' ops,
        ses.cowHandler ⟨true, false⟩ 0 0 v = .ok (ses', ops) ∧
          ¬v > u64 (ses.globalLength - ses.s.blockSize) ∧ ¬ses.cow.InList (v / cowUnit * cowUnit) ∧
          ses.Served ses' g [[0, 1]] es (g.lowBindings [] [1] [[0, 1]]) v := by
    rintro ses es v h hes hlen hglob hv ⟨e, hp, hw⟩
    have hle : v ≤ u64 ((ses.globalLength : ℤ) - g.blockSize) := by
      rw [hglob, hbs]
      exact le_trans hv (by decide)
    obtain ⟨ses', ops, hr, hserved⟩ :=
      h.exists_cowHandler (h.core.super.room_plain rfl (by omega) (hend _ hes)) rfl
        (by rw [hbs]; decide) (by omega) hp hw hle fun _ => h.core.super.metaNOk_of_lt (by omega)
    refine ⟨ses', ops, hr, ?_, h.not_inList hp hw, hserved⟩
    rw [h.core.super.blockSize]
    exact not_lt.mpr hle
  have hpaged := hopened.paged himage.isChain himage.size_lt hdvd
  have hdiv : ∀ v < 8192, v / g.blockSize = 0 := fun v hv => Nat.div_eq_of_lt (hbs ▸ hv)
  have hmap : g.mapLength (8192 * 4) = 8192 * 4 := if_neg (by norm_num)
  -- the first write fault, on the first unit of block 0
  obtain ⟨ses₁, ops₁, hr₁, hle₁, hlist₁, es₁, hgrow₁, hinv₁, hsame₁, -⟩ :=
    hstep hinv (by simp) (hopened.fmmapLength.trans hmap) hopened.globalLength (Nat.zero_le 8192)
      (hinv.protected_of_low List.not_mem_nil (hlow _ (by rw [hdiv 0 (by norm_num)]; simp)))
  rw [hdiv 0 (by norm_num)] at hgrow₁
  have hes₁ := hgrow₁.eq_of_singleton (Or.inl rfl)
  obtain ⟨-, ⟨ce, hce, hkey⟩, hother₁⟩ := hpaged.toLayered.cowHandler_new hdvd rfl
    (by rw [hbs]; decide) (by rw [hopened.cow]; rfl) hle₁ hlist₁ hr₁
  obtain ⟨-, hpages₁⟩ := Session.cowHandler_table rfl hle₁ hlist₁ (by rw [hopened.cow]; rfl) hr₁
  rw [hdiv 0 (by norm_num)] at hce hkey hother₁
  -- the second one, on its second unit
  obtain ⟨es₁', -, hpaged₁⟩ := hpaged.cowHandler (by rw [hopened.fmmapLength, hmap]; norm_num) hr₁
  obtain ⟨ses₂, ops₂, hr₂, hle₂, hlist₂, es₂, hgrow₂, hinv₂, hsame₂, -⟩ :=
    @hstep ses₁ es₁ 4096 hinv₁ (by rcases hes₁ with rfl | rfl <;> simp)
      (hsame₁.fmmapLength.trans (hopened.fmmapLength.trans hmap))
      (hsame₁.globalLength.trans hopened.globalLength) (by norm_num) (by
        rw [hpages₁ (by rw [hopened.super.blockSize, hbs]; decide) _ (by decide)]
        exact hinv.protected_of_low List.not_mem_nil
          (hlow _ (by rw [hdiv 4096 (by norm_num)]; simp)))
  rw [hdiv 4096 (by norm_num)] at hgrow₂
  have hes₂ := hgrow₂.eq_of_singleton hes₁
  obtain ⟨hfreed, hother₂⟩ := @Session.Layered.cowHandler_again _ _ _ 4096 _ _ _ _ _ _
    hpaged₁.toLayered hdvd rfl ce (by rw [hdiv 4096 (by norm_num)]; exact hce)
    (by rw [hdiv 4096 (by norm_num)]; exact hkey) hle₂ hlist₂ hr₂
  rw [hdiv 4096 (by norm_num)] at hother₂
  -- the third one, on block 1
  have hone : 8192 / g.blockSize = 1 := by rw [hbs]
  obtain ⟨ses₃, ops₃, hr₃, hle₃, hlist₃, -⟩ :=
    @hstep ses₂ es₂ 8192 hinv₂ (by rcases hes₂ with rfl | rfl <;> simp)
      (hsame₂.fmmapLength.trans (hsame₁.fmmapLength.trans (hopened.fmmapLength.trans hmap)))
      (hsame₂.globalLength.trans (hsame₁.globalLength.trans hopened.globalLength)) le_rfl
      (hinv₂.protected_of_low (by rw [hone]; rcases hes₂ with rfl | rfl <;> simp)
        (hlow _ (by rw [hone]; simp)))
  have hbucket : ses₂.cow.buckets 1 = [] := by
    rw [hother₂ 1 (by decide), hother₁ 1 (by decide), hopened.cow]
    rfl
  obtain ⟨htable, -⟩ := Session.cowHandler_table rfl hle₃ hlist₃ (by
    rw [hinv₂.core.super.u64_blockSize, bucketNumber, hbs]
    rw [show 8192 / cowUnit * cowUnit / 8192 % bucketNum = 1 from rfl, hbucket]
    rfl) hr₃
  exact ⟨f, ses, ses₁, ses₂, ses₃, ops₁, ops₂, ops₃, himage, hopen,
    hopened.fmmapLength.trans hmap, hopened.super.blockSize.trans (congrArg _ hbs), hr₁, hr₂, hr₃,
    hfreed, htable⟩

end Copies

/-- **No entry of the table was freed**, in every state that a run of faults, stores of the guest
and iterations of the allocator thread leads to, if blocks are larger than units or no write fault
is taken for one in the range. -/
theorem freed_unlinked {length offset : ℕ} {ses : Session} {st : Freeing}
    (h : IsChain g ((fs fd).getD .empty) 0 (ls ++ [es]))
    (hf : ((fs fd).getD .empty).size < 2 ^ 63) (hdvd : cowUnit ∣ g.blockSize)
    (hopen : Session.fmmap cfg fs fd length offset = .ok (some ses))
    (hrun : Relation.ReflTransGen (fun a b => ∃ op, a.SizesDiffer op ∧ Freeing.Step cfg a op b)
      ⟨ses, []⟩ st) : st.Unlinked := by
  obtain ⟨low, htabled⟩ := h.tabled_of_fmmap hf hdvd hopen
  have hstart : Freeing.Inv ⟨ses, []⟩ g (g.chainEnd 0 ls) es low := by
    refine ⟨htabled, ?_, ?_⟩
    · intro o ho
      cases ho
    · intro o ho
      cases ho
  obtain ⟨es', h'⟩ := hstart.run hrun
  exact h'.unlinked

/-- The entry of the first block was freed, and is not in the table, which has that of the
second. -/
theorem freed_unlinked_first : ∃ (fs : Fs) (ses : Session) (st : Freeing),
    IsImage (Geometry.twoPages ⟨true, false⟩) ((fs [1]).getD .empty) [[0, 1]] [] ∧
      Session.fmmap ⟨true, false⟩ fs [1] (8192 * 4) 0 = .ok (some ses) ∧
      Relation.ReflTransGen (fun a b => ∃ op, a.SizesDiffer op ∧ Freeing.Step ⟨true, false⟩ a op b)
        ⟨ses, []⟩ st ∧ st.freed ≠ [] ∧ (∃ i, st.ses.cow.buckets i ≠ []) ∧ st.Unlinked := by
  obtain ⟨f, ses, ses₁, ses₂, ses₃, ops₁, ops₂, ops₃, himage, hopen, hlen, hbs, hr₁, hr₂,
    hr₃, hfreed,
    htable⟩ := exists_freed
  obtain ⟨hfix₁, -⟩ := Session.cowHandler_sameFixed hr₁
  obtain ⟨hfix₂, -⟩ := Session.cowHandler_sameFixed hr₂
  have hstep : ∀ {ses ses' : Session} {ops : List FileOp} {v : ℕ} (l : List ℕ),
      v < ses.s.fmmapLength → ses.s.blockSize = 8192 →
      ses.cowHandler ⟨true, false⟩ 0 0 v = .ok (ses', ops) → ∃ op, Freeing.SizesDiffer ⟨ses, l⟩ op ∧
        Freeing.Step ⟨true, false⟩ ⟨ses, l⟩ op
          ⟨ses', ((ses.freed ⟨true, false⟩ 0 0 v).map (·.blockOff)).toList ++ l⟩ := by
    intro ses ses' ops v l hv hbs hr
    refine ⟨.copy v, Or.inl ?_, .copy hv hr⟩
    rw [hbs]
    decide
  have hrun : Relation.ReflTransGen (fun a b => ∃ op, a.SizesDiffer op ∧
      Freeing.Step ⟨true, false⟩ a op b) ⟨ses, []⟩ ⟨ses₃, _⟩ := ((Relation.ReflTransGen.single
    (hstep [] (by rw [hlen]; norm_num) hbs hr₁)).tail
    (hstep _ (by rw [hfix₁.fmmapLength, hlen]; norm_num) (hfix₁.blockSize.trans hbs) hr₂)).tail
    (hstep _ (by rw [hfix₂.fmmapLength, hfix₁.fmmapLength, hlen]; norm_num)
      (hfix₂.blockSize.trans (hfix₁.blockSize.trans hbs)) hr₃)
  refine ⟨fun _ => some f, ses, _, himage, hopen, hrun, ?_, htable,
    @freed_unlinked _ _ (fun _ => some f) [1] _ _ _ _ _ _ himage.isChain himage.size_lt (by decide)
      hopen hrun⟩
  obtain ⟨ce, hce⟩ := Option.ne_none_iff_exists'.mp hfreed
  simp [hce]

/-- **With blocks of one unit a linked entry is freed.** The first write fault on a block of the
frozen layer links an entry for the block, copies all of the block, and frees the entry. -/
theorem freed_linked : ∃ (fs : Fs) (ses ses' : Session) (ops : List FileOp) (ce : CowEntry) (i : ℕ),
    IsImage (Geometry.onePage .shipped) ((fs [1]).getD .empty) [[0]] [] ∧
      Session.fmmap .shipped fs [1] (8192 * 1) 0 = .ok (some ses) ∧
      (∃ e, ses.pages 0 = some e ∧ e.writable = false) ∧
      ses.cowHandler .shipped 0 0 0 = .ok (ses', ops) ∧ ses.freed .shipped 0 0 0 = some ce ∧
      ce ∈ ses'.cow.buckets i := by
  obtain ⟨f, himage, hname, -⟩ := exists_image (Geometry.onePage .shipped) [[0]] [] (by decide)
    (by decide) (by decide) (by decide)
  have hlen : (Geometry.onePage .shipped).LengthOk (8192 * 1) 0 :=
    Geometry.lengthOk_of_pages (by decide) (by decide)
  obtain ⟨ses, hopen, hopened⟩ := IsImage.exists_fmmap (fun _ => some f) [1] himage hname hlen
  have hinv := hopened.inv (by decide) himage
  have hroom : ses.Room .shipped := hopened.room (by decide) (by decide)
  obtain ⟨e, hp, hw⟩ : ∃ e, ses.pages (0 / pageSize) = some e ∧ e.writable = false :=
    hopened.protected (by decide) (List.mem_singleton_self _) (by decide) (by decide)
  have hu : u64 ses.s.blockSize = 4096 := hopened.super.u64_blockSize
  have hbs : ses.s.blockSize = 4096 := hopened.super.blockSize
  have hbs' : (Geometry.onePage .shipped).blockSize = 4096 := rfl
  obtain ⟨⟨ses₁, ce, ops₁⟩, hins⟩ : ∃ x, ses.insertHt .shipped 0 0 0 = .ok x := by
    rcases hinv.insertHt_cases 0 0 (b := 0) (by decide) (by decide) hopened.super.metaNOk with
      hx | ⟨err, hnb, -⟩
    · rwa [Nat.zero_mul] at hx
    · obtain ⟨x, hx⟩ := hinv.core.exists_newBlock (n := 0) hroom
        (0 * (Geometry.onePage .shipped).blockSize)
      rw [hnb] at hx
      cases hx
  have hlist : ¬ses.cow.InList (0 / cowUnit * cowUnit) := hinv.not_inList hp hw
  have hle : ¬0 > u64 ((ses.globalLength : ℤ) - ses.s.blockSize) := Nat.not_lt_zero _
  have hsearch : searchHt (0 / u64 ses.s.blockSize * u64 ses.s.blockSize) 0
      (ses.cow.buckets (bucketNumber (u64 ses.s.blockSize) 0)) = none := by
    rw [hopened.cow]
    rfl
  have hnew := @Session.insertList_new .shipped 0 ses 0 0 hlist hsearch
  rw [hu, show 0 / 4096 * 4096 = 0 from rfl, hins] at hnew
  have hlisted : ses.insertList .shipped 0 0 (0 / cowUnit * cowUnit) =
      .ok ({ ses₁ with cow := ses₁.cow.pushList 0 ⟨0, cowUnit⟩ }, some (⟨0, cowUnit⟩, ce),
        ops₁) := hnew
  have htabled : ses.Tabled (Geometry.onePage .shipped)
      ((Geometry.onePage .shipped).chainEnd 0 [[0]]) [] _ :=
    ⟨hopened.paged himage.isChain himage.size_lt (by decide), hinv.tables⟩
  have hins' : ses.insertHt .shipped 0 0 (0 * (Geometry.onePage .shipped).blockSize) =
      .ok (ses₁, ce, ops₁) := by
    rw [Nat.zero_mul]
    exact hins
  obtain ⟨-, hmem, -, -, -, -, hbs₁, -⟩ := htabled.insertHt_table
    (CowTables.movedOf_eq_none.mp (by rw [hopened.cow]; rfl)) hins'
  -- the copy of the unit is one of the block
  have hsize : ¬(((cowUnit : ℕ) : ℤ) ≠ ses₁.s.blockSize) := by
    rw [hbs₁, hbs]
    decide
  have hfr := Session.freed_of_insertList (Nat.zero_le _) rfl hlist hlisted
  rw [if_neg hsize] at hfr
  have hr := @Session.cowHandler_eq .shipped 0 ses 0 0 rfl hle hlist
  rw [hlisted] at hr
  simp only [if_neg hsize] at hr
  have hmapped : ses.firstMissing (0 * (Geometry.onePage .shipped).blockSize) = none :=
    hinv.core.firstMissing_eq_none (hinv.protected hp hw).1
  have hpages : ses₁.pages = ses.pages := (Session.insertHt_sameFixed hins).2.2
  have hmapped₁ : ({ ses₁ with cow := ses₁.cow.pushList 0 ⟨0, cowUnit⟩ } : Session).firstMissing
      (0 / u64 ses.s.blockSize * u64 ses.s.blockSize) = none := by
    rw [hu]
    exact (Session.firstMissing_congr hbs₁ hpages).trans hmapped
  rw [Session.copyWhole_of_mapped hmapped₁] at hr
  exact ⟨fun _ => some f, ses, _, _, ce, 0 % bucketNum, himage, hopen, ⟨e, hp, hw⟩, hr, hfr, hmem⟩

end Pcow
