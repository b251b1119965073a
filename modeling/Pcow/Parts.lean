import Pcow.Bitmap

/-!
# Blocks copied in part

Where a page of a block is still protected, the pages of it that are writable have been copied unit
by unit, into the data block that the table of incomplete blocks has for the block
(`Session.Shares`). This holds in every state that faults lead to, over any base
(`Session.Marked.shares_run`). So the entry that `insert_list` finds at the next write fault on the
block names the data block that these pages show (`Session.Marked.insertList_entry`).
-/

namespace Pcow

open PageTable

variable {cfg : Config} {g : Geometry cfg} {fs : Fs} {fd : Path} {ls : List (List ℕ)}
  {off b k v : ℕ} {es : List ℕ} {low : PageTable Path}

/-! ### Pages and the table -/

/-- What is mapped at page `p` by `e` is its part of the data block of the entry for its block. -/
def CowTables.Shows (c : CowTables) (k p : ℕ) (e : Pte Path) : Prop :=
  ∃ i, ∃ ce ∈ c.buckets i, ce.faultVoffAligned = p * pageSize / k * k ∧
    e.off = ce.blockOff + p * pageSize % k

theorem CowTables.mem_link {c : CowTables} {i j : ℕ} {ce e : CowEntry} (h : e ∈ c.buckets i) :
    e ∈ (c.link j ce).buckets i := by
  by_cases hi : i = j
  · have hself : (c.link j ce).buckets j = ce :: c.buckets j := Function.update_self _ _ _
    rw [hi] at h ⊢
    rw [hself]
    exact List.mem_cons_of_mem _ h
  · have hother : (c.link j ce).buckets i = c.buckets i := Function.update_of_ne hi _ _
    rwa [hother]

/-- The entry of another block is still there after one was changed. -/
theorem CowTables.exists_mem_modify {c : CowTables} {i j key : ℕ} {F : CowEntry → CowEntry}
    {e : CowEntry} (h : e ∈ c.buckets i) : ∃ e' ∈ (c.modify j key F).buckets i, e' = F e ∨
    e' = e := by
  by_cases hi : i = j
  · have hself : (c.modify j key F).buckets j =
        (c.buckets j).map fun e => if e.faultVoffAligned = key then F e else e :=
      Function.update_self _ _ _
    rw [hi] at h ⊢
    rw [hself]
    refine ⟨_, List.mem_map.mpr ⟨e, h, rfl⟩, ?_⟩
    split_ifs
    · exact Or.inl rfl
    · exact Or.inr rfl
  · have hother : (c.modify j key F).buckets i = c.buckets i := Function.update_of_ne hi _ _
    exact ⟨e, hother.symm ▸ h, Or.inr rfl⟩

namespace Session

variable {ses ses' : Session} {n n' : ℕ} {ops : List FileOp} {ce : CowEntry} {fr : Option CowEntry}

/-- **Of a block with a protected page, the writable pages show the data block that the table has
for the block.** -/
def Shares (ses : Session) (k : ℕ) : Prop :=
  ∀ p q e e', p * pageSize / k = q * pageSize / k → ses.pages p = some e → e.writable = true →
    ses.pages q = some e' → e'.writable = false → ses.cow.Shows k p e

/-- A step that maps nothing and loses no entry. -/
theorem Shares.mono (h : ses.Shares k) (hpages : ses'.pages = ses.pages)
    (htable : ∀ i, ∀ ce ∈ ses.cow.buckets i, ce ∈ ses'.cow.buckets i) : ses'.Shares k := by
  intro p q e e' hpq hp hw hq hw'
  rw [hpages] at hp hq
  obtain ⟨i, ce, hce, hshow⟩ := h p q e e' hpq hp hw hq hw'
  exact ⟨i, ce, htable i ce hce, hshow⟩

/-- A step that makes a whole block writable, and loses no entry of another one. -/
theorem Shares.of_block (h : ses.Shares k) (hpos : 0 < k)
    (hother : ∀ p, p * pageSize / k ≠ b → ses'.pages p = ses.pages p)
    (hblock : ∀ p e, p * pageSize / k = b → ses'.pages p = some e → e.writable = true)
    (htable : ∀ i, ∀ ce ∈ ses.cow.buckets i, ce.faultVoffAligned ≠ b * k →
      ce ∈ ses'.cow.buckets i) : ses'.Shares k := by
  intro p q e e' hpq hp hw hq hw'
  have hne : q * pageSize / k ≠ b := by
    intro hqb
    rw [hblock q e' hqb hq] at hw'
    cases hw'
  rw [hother q hne] at hq
  rw [← hpq] at hne
  rw [hother p hne] at hp
  obtain ⟨i, ce, hce, hkey, hoff⟩ := h p q e e' hpq hp hw hq hw'
  refine ⟨i, ce, htable i ce hce ?_, hkey, hoff⟩
  rw [hkey]
  exact fun heq => hne (Nat.eq_of_mul_eq_mul_right hpos heq)

/-- A unit of a block of the table is mapped. -/
theorem Shares.of_unit (h : ses.Shares g.blockSize) {o d : ℕ} {file : Path}
    (hpages : ses'.pages = ses.pages.mapRange (b * g.blockSize + d) cowUnit file (o + d) true)
    (hd : d + cowUnit ≤ g.blockSize)
    (htable : ∀ i, ∀ ce ∈ ses.cow.buckets i, ∃ ce' ∈ ses'.cow.buckets i,
      ce'.faultVoffAligned = ce.faultVoffAligned ∧ ce'.blockOff = ce.blockOff)
    (hnew : ∃ i, ∃ ce ∈ ses'.cow.buckets i, ce.faultVoffAligned = b * g.blockSize ∧
      ce.blockOff = o) : ses'.Shares g.blockSize := by
  intro p q e e' hpq hp hw hq hw'
  rw [hpages] at hp hq
  -- the protected page is not the one that was mapped
  have hnot : ¬InRange (b * g.blockSize + d) cowUnit q := by
    intro hin
    rw [mapRange_of_inRange hin] at hq
    cases hq
    cases hw'
  rw [mapRange_of_not_inRange hnot] at hq
  by_cases hin : InRange (b * g.blockSize + d) cowUnit p
  · rw [mapRange_of_inRange hin] at hp
    cases hp
    obtain ⟨i, ce, hce, hkey, rfl⟩ := hnew
    obtain ⟨h₁, h₂⟩ := hin
    have hdiv : p * pageSize / g.blockSize = b :=
      Nat.div_eq_of_lt_le (by omega) (by rw [Nat.succ_mul]; omega)
    have hmod := Nat.div_add_mod' (p * pageSize) g.blockSize
    rw [hdiv] at hmod
    refine ⟨i, ce, hce, by rw [hdiv, hkey], ?_⟩
    simp only
    omega
  · rw [mapRange_of_not_inRange hin] at hp
    obtain ⟨i, ce, hce, hkey, hoff⟩ := h p q e e' hpq hp hw hq hw'
    obtain ⟨ce', hce', hkey', hoff'⟩ := htable i ce hce
    exact ⟨i, ce', hce', hkey'.trans hkey, by rw [hoff', hoff]⟩

/-! ### The handlers -/

/-- After the copy of a whole block its pages are writable. -/
theorem copyWhole_writable (hdvd : pageSize ∣ u64 ses.s.blockSize) (hpos : 0 < u64 ses.s.blockSize)
    (hr : ses.copyWhole cfg n n' ce (v / u64 ses.s.blockSize * u64 ses.s.blockSize) =
      .ok (ses', ops)) {p : ℕ} {e : Pte Path}
    (hp : p * pageSize / u64 ses.s.blockSize = v / u64 ses.s.blockSize)
    (he : ses'.pages p = some e) : e.writable = true := by
  have hmap : ∀ {t : PageTable Path} {o : ℕ} {file : Path},
      t.mapRange (v / u64 ses.s.blockSize * u64 ses.s.blockSize)
        (u64 ses.s.blockSize) file o true p =
        some e → e.writable = true := by
    intro t o file ht
    rw [mapRange_block hpos, if_pos hp] at ht
    cases ht
    rfl
  rcases copyWhole_cases hr with ⟨-, hblock⟩ | ⟨i, ses₁, ops₁, hmiss, hcopy, rfl, -⟩
  · cases hblock
    exact hmap he
  · have hbs := (copyMissing_confined hdvd hpos hmiss hcopy).super.blockSize
    have he' : ses₁.pages.mapRange (v / u64 ses.s.blockSize * u64 ses.s.blockSize)
        (u64 ses₁.s.blockSize) ses₁.s.fd ce.blockOff true p = some e := he
    rw [hbs] at he'
    exact hmap he'

/-- The copy of a whole block, whose entry may have left the table. -/
theorem Layered.shares_copyWhole (h : ses.Layered g off es) (hdvd : pageSize ∣ g.blockSize)
    {ses₀ : Session} (hs : ses₀.Shares g.blockSize) (hpages : ses.pages = ses₀.pages)
    (htable : ∀ i, ∀ e ∈ ses₀.cow.buckets i,
      e.faultVoffAligned ≠ v / g.blockSize * g.blockSize → e ∈ ses.cow.buckets i)
    (hr : ses.copyWhole cfg n n' ce (v / g.blockSize * g.blockSize) = .ok (ses', ops)) :
    ses'.Shares g.blockSize := by
  have hcow := copyWhole_cow hr
  have hu := h.super.u64_blockSize
  have hpos := g.blockSize_pos
  rw [← hu] at hdvd hpos hr hs htable ⊢
  refine hs.of_block hpos (fun p hp => ?_) (fun p e => copyWhole_writable hdvd hpos hr)
    fun i e he hne => ?_
  · rw [(copyWhole_confined hdvd hpos hr).pages p hp, hpages]
  · rw [hcow]
    exact htable i e he hne

/-- The copy of a unit of a block of the table. -/
theorem Layered.shares_copiesUnit (h : ses.Layered g off es) (hdvd : pageSize ∣ g.blockSize)
    (hs : ses.Shares g.blockSize) (hce : ce ∈ ses.cow.buckets (v / g.blockSize % bucketNum))
    (hkey : ce.faultVoffAligned = v / g.blockSize * g.blockSize)
    (hcopy : ses.CopiesUnit cfg n n' ce (v / cowUnit * cowUnit) (v / g.blockSize * g.blockSize)
      ses' fr) : ses'.Shares g.blockSize := by
  have hcow := hcopy.cow
  rcases hcopy with ⟨hne, -, ops, hr⟩ | ⟨-, -, ops, hr⟩
  · obtain ⟨hunit, hd⟩ := g.unit_eq hdvd v
    rcases hcow with ⟨heq, -⟩ | ⟨-, -, hcow⟩
    · exact absurd heq hne
    rw [bucketNumber, h.super.u64_blockSize, Nat.mul_div_cancel _ g.blockSize_pos] at hcow
    rw [copyUnit] at hr
    simp only [hunit, Nat.add_sub_cancel_left, Int.toNat_natCast] at hr
    split_ifs at hr
    cases hr
    refine hs.of_unit rfl hd (fun i e he => ?_) ?_
    · -- the entry of the block was changed, but not in what it names
      obtain ⟨e', he', hcases⟩ := @CowTables.exists_mem_modify _ i (v / g.blockSize % bucketNum)
        (v / g.blockSize * g.blockSize) (CowEntry.moveOut (v / cowUnit * cowUnit -
          v / g.blockSize * g.blockSize)) e he
      rw [← hcow] at he'
      refine ⟨e', he', ?_⟩
      rcases hcases with rfl | rfl
      · exact ⟨rfl, rfl⟩
      · exact ⟨rfl, rfl⟩
    · have hmem := @CowTables.mem_modify_self ses.cow ce (CowEntry.moveOut (v / cowUnit * cowUnit -
        v / g.blockSize * g.blockSize)) _ _ hce hkey
      rw [← hcow] at hmem
      exact ⟨_, _, hmem, hkey, rfl⟩
  · exact h.shares_copyWhole hdvd hs rfl (fun i e he _ => he) hr

/-- **`cow_handler`**. -/
theorem Marked.shares_cowHandler (h : ses.Marked g off es low) (hs : ses.Shares g.blockSize)
    (hfine : cfg.finegrainedCow = true) (hv : v < ses.s.fmmapLength)
    (hr : ses.cowHandler cfg n n' v = .ok (ses', ops)) : ses'.Shares g.blockSize := by
  have hcfg : cfg.entrySize = 8 := by rw [Config.entrySize, hfine]; rfl
  rcases h.toLayered.cowHandler_cases h.page_dvd hfine hr with ⟨rfl, -⟩ |
    ⟨c, ce, l, hl, hkey, hc, -, -, ops₂, hcopy⟩ | ⟨c, ce, hce, hkey, hc, -, -, hcopy⟩ |
    ⟨c, ses₁, ce, ops₁, hnone, hins, hc, -, hcopy⟩
  · exact hs
  · -- the entry of the block has left the table
    have hlayer : ({ ses with cow := c } : Session).Layered g off es :=
      ⟨h.layer, h.super, h.ring, h.size_lt⟩
    refine hlayer.shares_copyWhole h.page_dvd hs rfl (fun i e he hne => ?_) hcopy
    rw [hc]
    by_cases hi : i = v / g.blockSize % bucketNum
    · have hself : (ses.cow.setBucket (v / g.blockSize % bucketNum) l).buckets
          (v / g.blockSize % bucketNum) = l := Function.update_self _ _ _
      rw [hi, hl] at he
      rw [hi, hself]
      rcases List.mem_cons.mp he with rfl | he
      · exact absurd hkey hne
      · exact he
    · have hother : (ses.cow.setBucket (v / g.blockSize % bucketNum) l).buckets i =
          ses.cow.buckets i := Function.update_of_ne hi _ _
      rwa [hother]
  · have hlayer : ({ ses with cow := c } : Session).Layered g off es :=
      ⟨h.layer, h.super, h.ring, h.size_lt⟩
    have hs' : ({ ses with cow := c } : Session).Shares g.blockSize :=
      hs.mono rfl fun i e he => by rwa [hc]
    exact hlayer.shares_copiesUnit h.page_dvd hs' (hc ▸ hce) hkey hcopy
  · -- an entry for the block was linked before
    obtain ⟨-, hmem, hkey, -⟩ := h.toTabled.insertHt_table hnone hins
    obtain ⟨hcow, -⟩ := h.toLayered.insertHt_cow hins
    obtain ⟨h₁, -⟩ := h.toPaged.insertHt hcfg hv hins
    have hlayer : ({ ses₁ with cow := c } : Session).Layered g off _ :=
      ⟨h₁.layer, h₁.super, h₁.ring, h₁.size_lt⟩
    have hs' : ({ ses₁ with cow := c } : Session).Shares g.blockSize := by
      refine hs.mono (insertHt_sameFixed hins).2.2 fun i e he => ?_
      rw [hc, hcow]
      exact CowTables.mem_link he
    exact hlayer.shares_copiesUnit h.page_dvd hs' (hc ▸ hmem) hkey hcopy

/-! ### Runs -/

/-- **Every step keeps it**: of a block with a protected page, what is writable is in the data block
that the table has for it. -/
theorem Marked.shares_step (h : ses.Marked g off es low) (hs : ses.Shares g.blockSize)
    (hfine : cfg.finegrainedCow = true) (hstep : ses.CopiesFirst cfg ses') :
    ses'.Shares g.blockSize := by
  cases hstep with
  | @missing _ _ _ _ v hv hr =>
    have hcow := ufMonitor_cow hr
    rcases h.toPaged.ufMonitor hv hr with rfl | ⟨-, hpages⟩
    · exact hs
    · refine hs.of_block (b := v / g.blockSize) g.blockSize_pos (fun p hp => ?_)
        (fun p e hp he => ?_) fun i ce hce _ => by rwa [hcow]
      · rw [hpages, mapRange_block g.blockSize_pos, if_neg hp]
      · rw [hpages, mapRange_block g.blockSize_pos, if_pos hp] at he
        cases he
        rfl
  | copy hv _ hr => exact h.shares_cowHandler hs hfine hv hr
  | write y hp hw hx => exact hs
  | tick hr =>
    obtain ⟨-, -, hpages, hcow⟩ := tick_ok hr
    exact hs.mono hpages fun i ce hce => by rwa [hcow]

/-- **So does every run.** -/
theorem Marked.shares_run (h : ses.Marked g off es low) (hs : ses.Shares g.blockSize)
    (hfine : cfg.finegrainedCow = true) (hrun : Relation.ReflTransGen (CopiesFirst cfg) ses ses') :
    ∃ es', ses'.Marked g off es' low ∧ ses'.Shares g.blockSize := by
  induction hrun with
  | refl => exact ⟨es, h, hs⟩
  | tail _ hstep ih =>
    obtain ⟨es₁, h₁, hs₁⟩ := ih
    obtain ⟨es₂, h₂⟩ := h₁.step hfine hstep
    exact ⟨es₂, h₂, h₁.shares_step hs₁ hfine hstep⟩

/-- **A step of the guest is such steps**: the fault it runs into, and a store. -/
theorem copiesFirst_of_step {op : GuestOp} {ev : Event} (hin : op.Within (· < ses.s.fmmapLength))
    (hroom : ∀ v, ses.IsCow v true → ses.NeedsBlock v → ses.s.toAllocNum ≤ ses.s.maxPerSeg)
    (hr : ses.step cfg op = .ok (ses', ev)) : Relation.ReflTransGen (CopiesFirst cfg) ses ses' := by
  have hfault : ∀ {v n n' write ses₁ ops}, v < ses.s.fmmapLength →
      ses.fault cfg n n' v write = .ok (ses₁, ops) →
      Relation.ReflTransGen (CopiesFirst cfg) ses ses₁ := by
    intro v n n' write ses₁ ops hv hf
    rw [fault] at hf
    rcases hp : ses.pages (v / pageSize) with _ | e
    · rw [hp] at hf
      exact .single (.missing hv hf)
    · rw [hp] at hf
      simp only at hf
      split_ifs at hf with hcow
      · rw [Bool.and_eq_true, Bool.not_eq_true'] at hcow
        exact .single (.copy hv (hroom v ⟨rfl, e, hp, hcow.2⟩) hf)
      · cases hf
        exact .refl
  cases op with
  | load v n n' =>
    obtain ⟨r, -, hl⟩ := step_load hr
    obtain ⟨fops, hf, -⟩ := load_ok hl
    exact hfault hin hf
  | store v x n n' =>
    obtain ⟨r, -, hs⟩ := step_store hr
    obtain ⟨ses₁, fops, hf, ⟨-, rfl, -⟩ | ⟨-, e, hp, hw, rfl⟩⟩ := store_cases hs
    · exact hfault hin hf
    · exact (hfault hin hf).tail (.write x.toNat hp hw (Nat.mod_lt v (by decide)))
  | tick =>
    obtain ⟨-, ht⟩ := step_tick hr
    exact .single (.tick ht)

/-- **The entry that `insert_list` finds** for a protected page of a block of which another page is
writable: it is the entry of the table, its slot is one of the last layer, and it names the data
block that the writable pages show. -/
theorem Marked.insertList_entry (h : ses.Marked g off es low) (hs : ses.Shares g.blockSize)
    {p q : ℕ} {e e' : Pte Path} (hpv : p * pageSize / g.blockSize = v / g.blockSize)
    (hqv : q * pageSize / g.blockSize = v / g.blockSize) (hp : ses.pages p = some e)
    (hw : e.writable = true) (hq : ses.pages q = some e') (hw' : e'.writable = false)
    {ses₁ : Session} {le : CowLEntry}
    (hr : ses.insertList cfg n n' (v / cowUnit * cowUnit) = .ok (ses₁, some (le, ce), ops)) :
    (∃ c, ses₁ = { ses with cow := c }) ∧ (∃ i, ce.metaEntry = g.slot off i) ∧
      (∃ i < es.length, ce.blockOff = g.dataOff off i) ∧
      e.off = ce.blockOff + p * pageSize % g.blockSize := by
  have hu := h.super.u64_blockSize
  have hdiv : v / cowUnit * cowUnit / g.blockSize = v / g.blockSize := div_page h.page_dvd v
  obtain ⟨i, ce₁, hce₁, hkey₁, hoff⟩ := hs p q e e' (hpv.trans hqv.symm) hp hw hq hw'
  rw [hpv] at hkey₁
  obtain ⟨b, hkey', rfl⟩ := h.tables.bucket i ce₁ hce₁
  obtain rfl : b = v / g.blockSize :=
    Nat.eq_of_mul_eq_mul_right g.blockSize_pos (hkey'.symm.trans hkey₁)
  rcases insertList_cases hr with ⟨full, rest, hsearch, -, rfl, -⟩ | ⟨hsearch, -⟩
  · rw [bucketNumber, hu, hdiv] at hsearch
    obtain ⟨ce₀, hce₀, hkey₀, hcases⟩ := searchHt_eq_some hsearch
    -- the keys of a chain differ
    obtain rfl : ce₀ = ce₁ := List.inj_on_of_nodup_map (h.tables.nodup _) hce₀ hce₁
      (hkey₀.trans hkey₁.symm)
    obtain ⟨k, hk⟩ := h.marked _ ce₀ hce₀
    have hsame : ce.metaEntry = ce₀.metaEntry ∧ ce.blockOff = ce₀.blockOff := by
      rcases hcases with ⟨-, rfl, -⟩ | ⟨-, rfl, -⟩
      · exact ⟨rfl, rfl⟩
      · exact ⟨rfl, rfl⟩
    rw [hsame.1, hsame.2]
    exact ⟨⟨_, rfl⟩, ⟨k, hk.entry⟩, ⟨k, hk.lt_length, hk.data⟩, hoff⟩
  · rw [bucketNumber, hu, hdiv] at hsearch
    exact absurd hkey₁ (searchHt_eq_none.mp hsearch ce₁ hce₁)

end Session

/-- A session just opened: no block has both protected and writable pages. -/
theorem IsChain.shares_of_fmmap {length offset : ℕ} {ses : Session}
    (h : IsChain g ((fs fd).getD .empty) 0 (ls ++ [es]))
    (hf : ((fs fd).getD .empty).size < 2 ^ 63) (hdvd : pageSize ∣ g.blockSize)
    (hopen : Session.fmmap cfg fs fd length offset = .ok (some ses)) :
    ses.Shares g.blockSize := by
  obtain ⟨-, ⟨fs', m⟩, hmaps, rfl⟩ := h.fmmap_ok rfl hf hopen
  have hlow := h.lowMaps hf hdvd hmaps
  intro p q e e' hpq hp hw hq hw'
  change PageTable.run _ _ p = some e at hp
  change PageTable.run _ _ q = some e' at hq
  rw [run_append, run_blocks g.blockSize_pos, overlay] at hp hq
  rw [hpq] at hp
  rcases hlast : lastOf (g.bindings fd (g.chainEnd 0 ls) es) (q * pageSize / g.blockSize) with
    _ | ⟨file, o⟩
  · -- what the layers below map is protected
    rw [hlast] at hp
    rw [(hlow p e hp).1] at hw
    cases hw
  · rw [hlast] at hq
    cases hq
    cases hw'

end Pcow
