import Pcow.Overlay
import Mathlib.Tactic.IntervalCases

/-!
# The fault handlers

What `uf_monitor` and `cow_handler` do to a session. `Session.Inv` is the invariant
of a session between two faults: the core of `Pcow.Overlay` for the units the table
of incomplete blocks has as copied, the table and the recent lists saying what is
true. Each handler is a few of the steps of `Pcow.Overlay` in a row: an entry for the
block, a copy, a new mapping, marks in the meta block. None of them is seen by the
guest (`Session.Inv.fault`).
-/

namespace Pcow

variable {cfg : Config} {g : Geometry cfg} {b v : ℕ} {es : List ℕ} {ls : List (List ℕ)}
  {low : ℕ → Option (Path × ℕ)}

/-- What an entry of the table of incomplete blocks says of its block: it is in the
last layer and in a layer below, and its units to be copied are still zero. -/
structure EntryOk (g : Geometry cfg) (f : ByteFile) (fd : Path) (off : ℕ) (es : List ℕ)
    (low : ℕ → Option (Path × ℕ)) (ce : CowEntry) : Prop where
  block : ∃ b, ce.faultVoffAligned = b * g.blockSize ∧
    g.top fd off es b = some (fd, ce.blockOff) ∧ low b ≠ none
  slot : ∃ j < es.length, ce.metaEntry = g.slot off j
  zero : ∀ x < g.blockSize, x / cowUnit * cowUnit ∉ ce.moved → f.byte (ce.blockOff + x) = 0

section EntryOk

variable {f f' : ByteFile} {fd : Path} {off : ℕ} {ce : CowEntry}

/-- An entry is about the data block of its block. -/
theorem EntryOk.congr (h : EntryOk g f fd off es low ce)
    (hdata : ∀ i, ∀ x < g.blockSize,
      f'.byte (g.dataOff off i + x) = f.byte (g.dataOff off i + x)) :
    EntryOk g f' fd off es low ce := by
  refine ⟨h.block, h.slot, fun x hx hm => ?_⟩
  obtain ⟨b, -, htop, -⟩ := h.block
  obtain ⟨i, -, -, hy⟩ := Geometry.top_eq_some htop
  have hoff : ce.blockOff = g.dataOff off i := (Prod.mk.inj hy).2
  have hz := h.zero x hx hm
  rw [hoff] at hz ⊢
  rw [hdata i x hx, hz]

/-- Entries for other blocks do not matter. -/
theorem EntryOk.append (h : EntryOk g f fd off es low ce) (hnot : b ∉ es) :
    EntryOk g f fd off (es ++ [b]) low ce := by
  refine ⟨?_, ?_, h.zero⟩
  · obtain ⟨c, hkey, htop, hlow⟩ := h.block
    refine ⟨c, hkey, ?_, hlow⟩
    have hne : b ≠ c := by
      rintro rfl
      rw [Geometry.top_eq_none.mpr hnot] at htop
      cases htop
    rw [Geometry.top_concat, if_neg hne, htop]
  · obtain ⟨j, hj, hs⟩ := h.slot
    refine ⟨j, ?_, hs⟩
    rw [List.length_append]
    omega

end EntryOk

/-- The blocks of the longest range have numbers an entry can hold. -/
theorem Geometry.block_lt (h : pageSize ∣ g.blockSize) (hv : v < regLen) :
    v / g.blockSize < 2 ^ 32 := by
  have h₁ : pageSize ≤ g.blockSize := Nat.le_of_dvd g.blockSize_pos h
  have h₂ : v / g.blockSize ≤ v / pageSize := Nat.div_le_div_left h₁ (by decide)
  have h₃ : v / pageSize < 2 ^ 32 := by
    rw [show regLen = 512 * 1024 * 1024 * 1024 from rfl] at hv
    rw [show pageSize = 4096 from rfl]
    omega
  omega

/-- The unit of an offset, in the block of the offset. -/
theorem Geometry.unit_eq (g : Geometry cfg) (hdvd : pageSize ∣ g.blockSize) (v : ℕ) :
    v / cowUnit * cowUnit =
        v / g.blockSize * g.blockSize + v % g.blockSize / cowUnit * cowUnit ∧
      v % g.blockSize / cowUnit * cowUnit + cowUnit ≤ g.blockSize := by
  obtain ⟨m, hm⟩ := hdvd
  rw [show pageSize = 4096 from rfl] at hm
  rw [show cowUnit = 4096 from rfl]
  constructor
  · have h₁ := Nat.div_add_mod v g.blockSize
    rw [Nat.mul_comm] at h₁
    have h₂ : v / g.blockSize * g.blockSize = v / g.blockSize * m * 4096 := by
      rw [hm]
      ring
    omega
  · have h₁ := Nat.mod_lt v g.blockSize_pos
    omega

/-- The entry of a block of the longest range. -/
theorem Geometry.blockOf_block (h : pageSize ∣ g.blockSize) (hv : v < regLen) :
    g.blockOf (v / g.blockSize * g.blockSize) = v / g.blockSize := by
  have hdiv : v / g.blockSize * g.blockSize / g.blockSize = v / g.blockSize :=
    Nat.mul_div_cancel _ g.blockSize_pos
  rw [g.blockOf_eq (by rw [hdiv]; exact g.block_lt h hv), hdiv]

/-- The pages of a session and its table of incomplete blocks agree. -/
structure Session.Consistent (ses : Session) (g : Geometry cfg) (ls : List (List ℕ))
    (es : List ℕ) (low : ℕ → Option (Path × ℕ)) : Prop where
  core : ses.Core g ls es low (ses.cow.movedOf g.blockSize)
  length_le : ses.s.fmmapLength ≤ regLen
  tables : ses.cow.Ok g.blockSize
  entry : ∀ i, ∀ ce ∈ ses.cow.buckets i,
    EntryOk g ses.file ses.s.fd (g.chainEnd 0 ls) es low ce

/-- **The invariant of a session**: moreover, what the recent lists name is
writable. -/
structure Session.Inv (ses : Session) (g : Geometry cfg) (ls : List (List ℕ)) (es : List ℕ)
    (low : ℕ → Option (Path × ℕ)) : Prop extends ses.Consistent g ls es low where
  lists : ∀ i, ∀ e ∈ (ses.cow.cowL i).entries, ∀ p, e.Covers (p * pageSize) →
    ∃ pte, ses.pages p = some pte ∧ pte.writable = true
  plain : cfg.finegrainedCow = false → ∀ i, ses.cow.buckets i = []

/-- The last layer grows at most by an entry for the block `b`, which it did not
have. -/
def Grows (b : ℕ) (es es' : List ℕ) : Prop := es' = es ∨ b ∉ es ∧ es' = es ++ [b]

theorem Grows.mem_of_ne {b d : ℕ} {es es' : List ℕ} (h : Grows b es es') (hd : d ≠ b)
    (hmem : d ∈ es') : d ∈ es := by
  rcases h with rfl | ⟨-, rfl⟩
  · exact hmem
  · rcases List.mem_append.mp hmem with hmem | hmem
    · exact hmem
    · exact absurd (List.mem_singleton.mp hmem) hd

theorem Grows.nodup {b : ℕ} {es es' : List ℕ} (h : Grows b es es') (hes : es.Nodup) :
    es'.Nodup := by
  rcases h with rfl | ⟨hnot, rfl⟩
  · exact hes
  · rw [← List.concat_eq_append, List.nodup_concat]
    exact ⟨hnot, hes⟩

namespace Session

variable {ses ses' : Session} {n n' : ℕ} {ops : List FileOp}

theorem Consistent.entry_of_moved (h : ses.Consistent g ls es low) {mv : List ℕ}
    (hmv : ses.cow.movedOf g.blockSize b = some mv) :
    ∃ ce ∈ ses.cow.buckets (b % bucketNum), ce.faultVoffAligned = b * g.blockSize ∧
      ce.moved = mv ∧ g.top ses.s.fd (g.chainEnd 0 ls) es b = some (ses.s.fd, ce.blockOff) ∧
      low b ≠ none := by
  obtain ⟨ce, hce, hkey, hmoved⟩ := CowTables.movedOf_eq_some hmv
  obtain ⟨b', hkey', htop, hlow⟩ := (h.entry _ ce hce).block
  obtain rfl : b' = b := Nat.eq_of_mul_eq_mul_right g.blockSize_pos (hkey'.symm.trans hkey)
  exact ⟨ce, hce, hkey, hmoved, htop, hlow⟩

/-- A block with a missing page has no entry and no binding in the layers below. -/
theorem Consistent.missing (h : ses.Consistent g ls es low)
    (hmiss : ses.pages (v / pageSize) = none) :
    v / g.blockSize ∉ es ∧ low (v / g.blockSize) = none ∧
      ses.cow.movedOf g.blockSize (v / g.blockSize) = none := by
  have hplace := h.core.placeOf_eq v
  rw [hmiss, Option.map_none, placeOf] at hplace
  have hmoved : ses.cow.movedOf g.blockSize (v / g.blockSize) = none := by
    by_contra hne
    obtain ⟨mv, hmv⟩ := Option.ne_none_iff_exists'.mp hne
    obtain ⟨ce, -, -, -, htop, hlow⟩ := h.entry_of_moved hmv
    obtain ⟨y, hy⟩ := Option.ne_none_iff_exists'.mp hlow
    rw [place, htop] at hplace
    simp only at hplace
    split at hplace
    · cases hplace
    · rw [lowerPlace, hy] at hplace
      cases hplace
  have hcop : Copied (ses.cow.movedOf g.blockSize) (v / g.blockSize) (v % g.blockSize) := by
    intro mv hmv
    rw [hmoved] at hmv
    cases hmv
  have htop : g.top ses.s.fd (g.chainEnd 0 ls) es (v / g.blockSize) = none := by
    by_contra hne
    obtain ⟨y, hy⟩ := Option.ne_none_iff_exists'.mp hne
    rw [place, hy] at hplace
    simp only [if_pos hcop] at hplace
    cases hplace
  refine ⟨Geometry.top_eq_none.mp htop, ?_, hmoved⟩
  rw [place_of_none htop, lowerPlace, Option.map_eq_none_iff] at hplace
  exact hplace

/-- A block with a protected page is in a layer below; if it is not in the table it
has no entry in the last layer, and otherwise the page is one of its units to be
copied. -/
theorem Consistent.protected (h : ses.Consistent g ls es low) {e : Pte Path}
    (hp : ses.pages (v / pageSize) = some e) (hw : e.writable = false) :
    low (v / g.blockSize) ≠ none ∧
      ((ses.cow.movedOf g.blockSize (v / g.blockSize) = none ∧ v / g.blockSize ∉ es) ∨
      ∃ mv, ses.cow.movedOf g.blockSize (v / g.blockSize) = some mv ∧
        v % g.blockSize / cowUnit * cowUnit ∉ mv) := by
  have hplace := h.core.placeOf_eq v
  rw [hp, Option.map_some] at hplace
  rcases place_eq_some hplace with ⟨hw', -⟩ | ⟨-, -, hlow, -⟩
  · rw [hw] at hw'
    cases hw'
  refine ⟨by rw [hlow]; simp, ?_⟩
  rw [placeOf, place] at hplace
  rcases hmv : ses.cow.movedOf g.blockSize (v / g.blockSize) with _ | mv
  · refine Or.inl ⟨rfl, fun hmem => ?_⟩
    have hcop : Copied (ses.cow.movedOf g.blockSize) (v / g.blockSize) (v % g.blockSize) := by
      intro mv hmv'
      rw [hmv] at hmv'
      cases hmv'
    rcases htop : g.top ses.s.fd (g.chainEnd 0 ls) es (v / g.blockSize) with _ | y
    · exact Geometry.top_eq_none.mp htop hmem
    · rw [htop] at hplace
      simp only [if_pos hcop, Option.some.injEq] at hplace
      have := congrArg Pte.writable hplace
      rw [hw] at this
      cases this
  · refine Or.inr ⟨mv, rfl, fun hmem => ?_⟩
    obtain ⟨ce, -, -, -, htop, -⟩ := h.entry_of_moved hmv
    have hcop : Copied (ses.cow.movedOf g.blockSize) (v / g.blockSize) (v % g.blockSize) := by
      intro mv' hmv'
      rw [hmv] at hmv'
      cases hmv'
      exact hmem
    rw [htop] at hplace
    simp only [if_pos hcop, Option.some.injEq] at hplace
    have := congrArg Pte.writable hplace
    rw [hw] at this
    cases this

/-- The blocks of the range have numbers an entry can hold. -/
theorem Consistent.block_lt (h : ses.Consistent g ls es low) (hv : v < ses.s.fmmapLength) :
    v / g.blockSize < 2 ^ 32 :=
  g.block_lt h.core.page_dvd (lt_of_lt_of_le hv h.length_le)

/-- The recent lists stay true while pages that are writable stay so. -/
theorem Inv.lists_same (h : ses.Inv g ls es low) (hsame : ses.Same ses')
    (hcow : ses'.cow.cowL = ses.cow.cowL) :
    ∀ i, ∀ e ∈ (ses'.cow.cowL i).entries, ∀ p, e.Covers (p * pageSize) →
      ∃ pte, ses'.pages p = some pte ∧ pte.writable = true := by
  intro i e he p hc
  rw [hcow] at he
  obtain ⟨pte, hpte, hw⟩ := h.lists i e he p hc
  exact hsame.writable p pte hpte hw

/-- The page of a byte is in the range of its block. -/
theorem inRange_of_block (h : pageSize ∣ g.blockSize) (v : ℕ) :
    PageTable.InRange (v / g.blockSize * g.blockSize + 0) g.blockSize (v / pageSize) := by
  rw [Nat.add_zero, PageTable.inRange_block g.blockSize_pos, div_page h]

/-! ### Missing pages -/

/-- **`uf_monitor`**: the block of a missing page gets a data block of its own, full
of zeros. -/
theorem Inv.ufMonitor (h : ses.Inv g ls es low) (hv : v < ses.s.fmmapLength)
    (hmiss : ses.pages (v / pageSize) = none)
    (hr : ses.ufMonitor cfg n n' v = .ok (ses', ops)) :
    ∃ es', Grows (v / g.blockSize) es es' ∧ ses'.Inv g ls es' low ∧ ses.Same ses' ∧
      (v / g.blockSize * g.blockSize ≤ u64 ((ses.s.fmmapLength : ℤ) - g.blockSize) →
        ∃ e, ses'.pages (v / pageSize) = some e ∧ e.writable = true) := by
  obtain ⟨hnot, hlow, hmoved⟩ := h.missing hmiss
  have hbs := h.core.super.u64_blockSize
  rw [Session.ufMonitor] at hr
  simp only [hbs, div_page h.core.page_dvd] at hr
  rw [h.core.super.blockSize] at hr
  split at hr
  swap
  · rename_i hout
    cases hr
    exact ⟨es, Or.inl rfl, h, Same.refl, fun hle => absurd hle hout⟩
  rcases hnb : newBlock cfg ses.file ses.s ses.ring n n' (v / g.blockSize * g.blockSize) with
    err | ⟨s', r', nb, ops'⟩
  · rw [hnb] at hr
    cases hr
  rw [hnb] at hr
  cases hr
  have hblock := g.blockOf_block h.core.page_dvd (lt_of_lt_of_le hv h.length_le)
  obtain ⟨hcore, hsame, rfl, hdata, hzero⟩ := h.core.append hnb hblock hnot rfl
  have hfd : s'.fd = ses.s.fd := hsame.fd
  have hview : ∀ x < g.blockSize, ses.view (v / g.blockSize * g.blockSize + x) = 0 := by
    intro x hx
    have hdiv : (v / g.blockSize * g.blockSize + x) / g.blockSize = v / g.blockSize :=
      g.mul_add_div hx
    rw [h.core.view_eq, placeOf,
      place_of_none (by rw [hdiv]; exact Geometry.top_eq_none.mpr hnot), lowerPlace, hdiv, hlow]
    rfl
  obtain ⟨hcore', hsame', hwrite⟩ := hcore.expose (v / g.blockSize)
    (g.dataOff (g.chainEnd 0 ls) es.length) 0 g.blockSize (ses.cow.movedOf g.blockSize)
    (.mmap (v / g.blockSize * g.blockSize) g.blockSize ses.s.fd
      (g.dataOff (g.chainEnd 0 ls) es.length) true)
    (by rw [Geometry.top_concat, if_pos rfl]) (by omega)
    (fun x hx => ⟨fun _ => Or.inl ⟨by omega, by omega⟩, fun _ mv hmv => by
      rw [hmoved] at hmv
      cases hmv⟩)
    (fun c hc => (Function.update_of_ne hc _ _).symm)
    (fun x _ hx => by rw [hzero, hsame.view, hview x (by omega)])
    (by rw [hfd]; rfl)
  refine ⟨es ++ [v / g.blockSize], Or.inr ⟨hnot, rfl⟩, ?_, hsame.trans hsame', fun _ => ?_⟩
  · refine ⟨⟨hcore', ?_, h.tables, fun i ce hce => ?_⟩,
      h.lists_same (hsame.trans hsame') rfl, h.plain⟩
    · rw [(hsame.trans hsame').fmmapLength]
      exact h.length_le
    · have hent := ((h.entry i ce hce).append hnot).congr hdata
      rw [← hsame.fd] at hent
      exact hent
  · exact hwrite _ (inRange_of_block h.core.page_dvd v)

end Session

/-! ### Marks in the meta blocks -/

section Marks

variable {f f' : ByteFile} {off k a : ℕ}

/-- A byte of a meta block past its counter, and in no entry's number, is neither
structure nor data. -/
theorem Geometry.quiet_of_meta {i : ℕ} (hi : i ≤ g.lastSeg k)
    (h₁ : g.blockAt off (g.metaBlock i) + 4 ≤ a)
    (h₂ : a < g.blockAt off (g.metaBlock i) + g.blockSize)
    (hslot : ∀ j < k, ¬(g.slot off j ≤ a ∧ a < g.slot off j + 4)) :
    off + g.blockSize ≤ a ∧ a < g.endOff off k ∧ ¬StructByte g off k a ∧
      ∀ j, ¬(g.dataOff off j ≤ a ∧ a < g.dataOff off j + g.blockSize) := by
  have hbs := g.entry_le
  have hle : off + g.blockSize ≤ g.blockAt off (g.metaBlock i) :=
    Nat.add_le_add_left (Nat.le_mul_of_pos_right _ g.metaBlock_pos) _
  have hend := g.blockAt_add_le off (g.metaBlock_lt hi)
  refine ⟨by omega, by rw [endOff]; omega, ?_, fun j => ?_⟩
  · rintro (⟨h₃, h₄⟩ | ⟨j, -, h₃, h₄⟩ | ⟨j, hj, h₃⟩)
    · have h0 : g.blockAt off 0 = off := by rw [blockAt, Nat.mul_zero, Nat.add_zero]
      exact g.blockAt_disjoint (i := 0) (Nat.ne_of_lt g.metaBlock_pos) (by omega) (by omega)
        ⟨by omega, h₂⟩
    · by_cases hij : g.metaBlock j = g.metaBlock i
      · rw [hij] at h₄
        omega
      · exact g.blockAt_disjoint hij h₃ (by omega) ⟨by omega, h₂⟩
    · exact hslot j hj h₃
  · exact g.blockAt_disjoint Geometry.metaBlock_ne_dataBlock (by omega) h₂

/-- The field `fg_counter` of a meta block is neither structure nor data. -/
theorem Geometry.quiet_fgCounter {i : ℕ} (hi : i ≤ g.lastSeg k)
    (h₁ : g.blockAt off (g.metaBlock i) + 4 ≤ a) (h₂ : a < g.blockAt off (g.metaBlock i) + 8) :
    off + g.blockSize ≤ a ∧ a < g.endOff off k ∧ ¬StructByte g off k a ∧
      ∀ j, ¬(g.dataOff off j ≤ a ∧ a < g.dataOff off j + g.blockSize) := by
  have hbs := g.entry_le
  have hes := entrySize_ge cfg
  refine g.quiet_of_meta hi h₁ (by omega) fun j _ hj => ?_
  have hmem := g.slot_mem off j
  by_cases hij : g.metaBlock (j / g.perSeg) = g.metaBlock i
  · rw [hij] at hmem
    omega
  · have hdis : ¬(g.blockAt off (g.metaBlock i) ≤ a ∧
        a < g.blockAt off (g.metaBlock i) + g.blockSize) :=
      g.blockAt_disjoint hij (by omega) (by omega)
    exact hdis ⟨by omega, by omega⟩

/-- The copy bitmap of an entry is neither structure nor data. -/
theorem Geometry.quiet_bitmap (hcfg : cfg.entrySize = 8) {j : ℕ} (hj : j < k)
    (h₁ : g.slot off j + 4 ≤ a) (h₂ : a < g.slot off j + 8) :
    off + g.blockSize ≤ a ∧ a < g.endOff off k ∧ ¬StructByte g off k a ∧
      ∀ i, ¬(g.dataOff off i ≤ a ∧ a < g.dataOff off i + g.blockSize) := by
  have hmem := g.slot_mem off j
  rw [hcfg] at hmem
  refine g.quiet_of_meta (Geometry.div_le_lastSeg hj) (by omega) (by omega) fun i _ hi => ?_
  by_cases hij : i = j
  · subst hij
    omega
  · have := g.slot_disjoint off hij
    rw [hcfg] at this
    omega

/-- A store to an entry that keeps its low half changes the copy bitmap at most. -/
theorem byte_run_entryStore (hcfg : cfg.entrySize = 8) {e : ℕ} {F : ℕ → ℕ}
    (hF : ∀ x, F x % 2 ^ 32 = x % 2 ^ 32) (ha : a < e + 4 ∨ e + 8 ≤ a) :
    (FileOp.run (Session.entryStore cfg f e F) f).byte a = f.byte a := by
  change (f.store e cfg.entrySize (F (f.load e cfg.entrySize))).byte a = f.byte a
  rw [hcfg]
  by_cases hmem : e ≤ a ∧ a < e + 8
  · by_cases hs : a < f.size
    swap
    · exact if_neg fun hin => hs hin.2.2
    obtain ⟨i, rfl⟩ : ∃ i, a = e + i := ⟨a - e, by omega⟩
    have hi : i < 4 := by omega
    have hd := ByteFile.load_digit (f := f) (a := e) (w := 8) (i := i) (by omega)
    have hFx := hF (f.load e 8)
    rw [ByteFile.byte_store_of_mem (by omega) (by omega) hs, Nat.add_sub_cancel_left]
    have hdig : F (f.load e 8) / 256 ^ i % 256 = f.load e 8 / 256 ^ i % 256 := by
      generalize F (f.load e 8) = y at *
      generalize f.load e 8 = x at *
      interval_cases i <;> omega
    rw [hdig, hd, UInt8.ofNat_toNat]
  · exact ByteFile.byte_store_of_notMem (by omega)

theorem or_cowBit_mod (i x : ℕ) : (x ||| Session.cowBit i) % 2 ^ 32 = x % 2 ^ 32 := by
  have h : Session.cowBit i % 2 ^ 32 = 0 := by
    rw [Session.cowBit, Nat.shiftLeft_eq _ 32]
    omega
  rw [Nat.or_mod_two_pow, h, Nat.or_zero]

theorem and_addrMask_mod (x : ℕ) : (x &&& addrMask) % 2 ^ 32 = x % 2 ^ 32 := by
  rw [show addrMask = 2 ^ 32 - 1 from rfl, Nat.and_two_pow_sub_one_eq_mod, Nat.mod_mod]

end Marks

/-! ### The number `insert_ht` computes -/

/-- The segment the next entry of a layer goes to. -/
def Super.nextSeg (s : Super) : ℤ := (s.toAllocNum - 1) / s.maxPerSeg

/-- The number `meta_n` that `insert_ht` computes for the next entry is cut to 0, so
that it names a meta block of the layer. For entries of the first segment it always
is; past it, the block size that the source multiplies with has to be such that the
product is a multiple of `2 ^ 32`. -/
def Super.MetaNOk (s : Super) : Prop := (2 ^ 32 : ℤ) ∣ s.nextSeg * s.blockSize * s.blockSize

instance (s : Super) : Decidable s.MetaNOk := inferInstanceAs (Decidable (_ ∣ _))

section MetaN

variable {s : Super} {off k : ℕ}

theorem Super.Is.nextSeg (hs : s.Is g off k) : s.nextSeg = (g.lastSeg (k + 1) : ℕ) := by
  rw [Super.nextSeg, hs.toAllocNum, hs.maxPerSeg, Geometry.lastSeg, Nat.add_sub_cancel]
  push_cast
  rw [add_sub_cancel_right]

/-- For the first entry of a layer the number is 0. -/
theorem Super.Is.metaNOk (hs : s.Is g off 0) : s.MetaNOk := by
  rw [Super.MetaNOk, hs.nextSeg]
  simp [Geometry.lastSeg]

/-- What the slip in the computation of `meta_n` comes to. -/
theorem Super.Is.metaN (hs : s.Is g off k)
    (hlt : g.blockAt off (g.metaBlock (g.lastSeg k)) < 2 ^ 64) :
    Session.metaN s = i32 ((g.lastSeg k * g.blockSize * g.blockSize : ℕ) : ℤ) := by
  have hper := g.perSeg_lt
  have hdiff : (s.activeMetaOff : ℤ) - s.myOff - s.blockSize =
      (g.lastSeg k * g.blockSize * (g.perSeg + 1) : ℕ) := by
    rw [hs.activeMetaOff, hs.myOff, hs.blockSize, Geometry.blockAt, Geometry.metaBlock]
    push_cast
    ring
  have hsmall : g.lastSeg k * g.blockSize * (g.perSeg + 1) < 2 ^ 64 := by
    rw [Geometry.blockAt, Geometry.metaBlock, Nat.mul_add] at hlt
    have : g.blockSize * (g.lastSeg k * (g.perSeg + 1)) =
      g.lastSeg k * g.blockSize * (g.perSeg + 1) := by ring
    omega
  have hseg : (s.maxPerSeg : ℤ) + 1 = (g.perSeg + 1 : ℕ) := by
    rw [hs.maxPerSeg]
    push_cast
    rfl
  rw [Session.metaN, hdiff, u64_natCast hsmall, hseg, u64_natCast (by omega),
    Nat.mul_div_cancel _ (Nat.succ_pos _), hs.blockSize, ← Nat.cast_mul, i32_u64]

/-- Where the number is cut to 0, `insert_ht` takes the first meta block. -/
theorem Super.Is.metaN_eq_zero (hs : s.Is g off k)
    (hlt : g.blockAt off (g.metaBlock (g.lastSeg k)) < 2 ^ 64)
    (hdvd : (2 ^ 32 : ℤ) ∣ (g.lastSeg k : ℤ) * g.blockSize * g.blockSize) :
    Session.metaN s = 0 := by
  rw [hs.metaN hlt, i32]
  push_cast
  exact Int.bmod_eq_zero_of_dvd (by exact_mod_cast hdvd)

end MetaN

namespace Session

variable {ses ses' : Session} {n n' : ℕ} {ops : List FileOp} {moved : ℕ → Option (List ℕ)}

/-- A store to the copy bitmap of an entry is not seen, and stays out of the data
blocks. -/
theorem Core.mark (h : ses.Core g ls es low moved) (hcfg : cfg.finegrainedCow = true) {e j : ℕ}
    (hj : j < es.length) (he : e = g.slot (g.chainEnd 0 ls) j) {F : ℕ → ℕ}
    (hF : ∀ x, F x % 2 ^ 32 = x % 2 ^ 32) :
    (ses.issue (entryStore cfg ses.file e F)).Core g ls es low moved ∧
      ses.Same (ses.issue (entryStore cfg ses.file e F)) ∧
      ∀ i, ∀ x < g.blockSize, (ses.issue (entryStore cfg ses.file e F)).file.byte
        (g.dataOff (g.chainEnd 0 ls) i + x) =
        ses.file.byte (g.dataOff (g.chainEnd 0 ls) i + x) := by
  have hcfg8 : cfg.entrySize = 8 := by rw [Config.entrySize, hcfg]; rfl
  have hquiet : ∀ a, (FileOp.run (entryStore cfg ses.file e F) ses.file).byte a ≠
      ses.file.byte a → g.chainEnd 0 ls + g.blockSize ≤ a ∧
        a < g.endOff (g.chainEnd 0 ls) es.length ∧ ¬StructByte g (g.chainEnd 0 ls) es.length a ∧
        ∀ i, ¬(g.dataOff (g.chainEnd 0 ls) i ≤ a ∧
          a < g.dataOff (g.chainEnd 0 ls) i + g.blockSize) := by
    intro a hne
    have hin : ¬(a < e + 4 ∨ e + 8 ≤ a) := fun ha =>
      hne (byte_run_entryStore hcfg8 hF ha)
    exact g.quiet_bitmap hcfg8 hj (by omega) (by omega)
  obtain ⟨hcore, hsame⟩ := h.issue_quiet rfl hquiet
  refine ⟨hcore, hsame, fun i x hx => ?_⟩
  rw [file_issue]
  by_contra hne
  exact (hquiet _ hne).2.2.2 i ⟨by omega, by omega⟩

/-- The field `fg_counter` is not seen either. -/
theorem Core.fgCounter (h : ses.Core g ls es low moved) (z : ℤ)
    (hops : ops = [storeInt (g.blockAt (g.chainEnd 0 ls) (g.metaBlock 0) + 4) z]) :
    (ses.issue ops).Core g ls es low moved ∧ ses.Same (ses.issue ops) ∧
      ∀ i, ∀ x < g.blockSize, (ses.issue ops).file.byte (g.dataOff (g.chainEnd 0 ls) i + x) =
        ses.file.byte (g.dataOff (g.chainEnd 0 ls) i + x) := by
  have hquiet : ∀ a, (FileOp.run ops ses.file).byte a ≠ ses.file.byte a →
        g.chainEnd 0 ls + g.blockSize ≤ a ∧ a < g.endOff (g.chainEnd 0 ls) es.length ∧
        ¬StructByte g (g.chainEnd 0 ls) es.length a ∧
        ∀ i, ¬(g.dataOff (g.chainEnd 0 ls) i ≤ a ∧
          a < g.dataOff (g.chainEnd 0 ls) i + g.blockSize) := by
    intro a hne
    have hin : ¬(a < g.blockAt (g.chainEnd 0 ls) (g.metaBlock 0) + 4 ∨
        g.blockAt (g.chainEnd 0 ls) (g.metaBlock 0) + 4 + 4 ≤ a) := fun ha =>
      hne (by rw [hops]; exact ByteFile.byte_store_of_notMem ha)
    exact g.quiet_fgCounter (Nat.zero_le _) (by omega) (by omega)
  obtain ⟨hcore, hsame⟩ := h.issue_quiet (by rw [hops]; rfl) hquiet
  refine ⟨hcore, hsame, fun i x hx => ?_⟩
  rw [file_issue]
  by_contra hne
  exact (hquiet _ hne).2.2.2 i ⟨by omega, by omega⟩

/-- The core does not look at the tables. -/
theorem Core.setCow (h : ses.Core g ls es low moved) (c : CowTables) :
    ({ ses with cow := c } : Session).Core g ls es low moved :=
  ⟨h.page_dvd, h.image, h.super, h.ring, h.below, h.pages⟩

theorem Same.setCow (h : ses.Same ses') (c : CowTables) : ses.Same { ses' with cow := c } :=
  ⟨⟨h.fd, h.fmmapLength, h.globalLength, h.files, h.myOff, h.kept⟩, h.view, h.mapped, h.writable⟩

theorem linkEntry_ok {nb : NewBlock} {key : ℕ} {ce : CowEntry}
    (hr : ses.linkEntry cfg nb key = .ok (ses', ce, ops)) :
    ∃ m, readMeta ses.file ses.s (metaN ses.s) = .ok m ∧ ce = newEntry cfg ses.s m nb key ∧
      ses' = { ses.issue ops with
        cow := ses.cow.link (bucketNumber (u64 ses.s.blockSize) key) ce } ∧
      ops = fgCounterOps ses.file m := by
  rw [linkEntry] at hr
  rcases hm : readMeta ses.file ses.s (metaN ses.s) with err | m
  · rw [hm] at hr
    cases hr
  · rw [hm] at hr
    cases hr
    exact ⟨m, rfl, rfl, rfl, rfl⟩

/-- The steps of a call of `insert_ht` that returns. -/
theorem insertHt_ok {key : ℕ} {ce : CowEntry}
    (hr : ses.insertHt cfg n n' key = .ok (ses', ce, ops)) :
    ∃ s' r' nb ops₁ ops₂, newBlock cfg ses.file ses.s ses.ring n n' key = .ok (s', r', nb, ops₁) ∧
      linkEntry cfg { ses.issue ops₁ with s := s', ring := r' } nb key = .ok (ses', ce, ops₂) ∧
      ops = ops₁ ++ ops₂ := by
  rw [Session.insertHt] at hr
  rcases hnb : newBlock cfg ses.file ses.s ses.ring n n' key with err | ⟨s', r', nb, ops₁⟩
  · rw [hnb] at hr
    cases hr
  rw [hnb] at hr
  simp only at hr
  rcases hl : linkEntry cfg { ses.issue ops₁ with s := s', ring := r' } nb key with
    err | ⟨ses₁, ce₁, ops₂⟩
  · rw [hl] at hr
    cases hr
  rw [hl] at hr
  cases hr
  exact ⟨s', r', nb, ops₁, ops₂, rfl, hl, rfl⟩

/-- The entry `insert_ht` takes for that of a new block: the slot with the right
number, in the first meta block. -/
theorem metaEntry_eq {s : Super} {off k : ℕ} (hs : s.Is g off (k + 1))
    (hlt : g.endOff off (k + 1) < 2 ^ 64) :
    ∃ j < k + 1, k = g.lastSeg (k + 1) * g.perSeg + j ∧
      u64 ((g.blockAt off (g.metaBlock 0) : ℕ) + (clSize : ℕ) +
        (cfg.entrySize : ℕ) * (s.activeMeta.counter - 1)) = g.slot off j := by
  have hpos : g.lastSeg (k + 1) * g.perSeg ≤ k := Nat.div_mul_le_self k g.perSeg
  have hper := g.counter_le (k := k + 1)
  have hcnt := hs.counter
  obtain ⟨j, hj⟩ : ∃ j, k = g.lastSeg (k + 1) * g.perSeg + j := ⟨_, (Nat.add_sub_cancel' hpos).symm⟩
  have hslot : g.slot off j = g.blockAt off (g.metaBlock 0) + 64 + cfg.entrySize * j := by
    rw [Geometry.slot, Nat.div_eq_of_lt (by omega), Nat.mod_eq_of_lt (by omega)]
  refine ⟨j, by omega, hj, ?_⟩
  have hz : ((g.blockAt off (g.metaBlock 0) : ℕ) : ℤ) + (clSize : ℕ) +
      (cfg.entrySize : ℕ) * (s.activeMeta.counter - 1) = (g.slot off j : ℕ) := by
    have hc : s.activeMeta.counter = (j : ℤ) + 1 := by
      rw [hcnt]
      omega
    rw [hc, hslot, show clSize = 64 from rfl]
    push_cast
    ring
  rw [hz, u64_natCast]
  have h₁ := g.slot_mem off j
  have h₂ := g.blockAt_add_le off (g.metaBlock_lt (Geometry.div_le_lastSeg
    (show j < k + 1 by omega)))
  rw [Geometry.endOff] at hlt
  omega

/-- The number is cut to 0, and the first meta block is read. -/
theorem Core.readMeta_metaN (h : ses.Core g ls (es ++ [b]) low moved)
    (hdvd : (2 ^ 32 : ℤ) ∣ (g.lastSeg (es.length + 1) : ℤ) * g.blockSize * g.blockSize) {m : Meta}
    (hread : readMeta ses.file ses.s (metaN ses.s) = .ok m) :
    m.pmTop = g.blockAt (g.chainEnd 0 ls) (g.metaBlock 0) := by
  have hlen : (es ++ [b]).length = es.length + 1 := by simp
  have hlast := h.image.last
  have hsz := h.image.size_lt
  have hread' := hlast.readMeta hsz h.super (Nat.zero_le (g.lastSeg _))
  rw [h.super.metaN_eq_zero (hlast.blockAt_lt hsz (g.metaBlock_lt le_rfl).le)
    (hlen ▸ hdvd)] at hread
  rw [Nat.cast_zero, hread] at hread'
  exact congrArg Meta.pmTop (Except.ok.inj hread')

/-- The second half of `insert_ht`, for the last entry of the layer: its block comes
into the table. -/
theorem Core.linkEntry (h : ses.Core g ls (es ++ [b]) low (Function.update moved b (some [])))
    {ce : CowEntry} {nb : NewBlock}
    (hdvd : (2 ^ 32 : ℤ) ∣ (g.lastSeg (es.length + 1) : ℤ) * g.blockSize * g.blockSize)
    (hr : ses.linkEntry cfg nb (b * g.blockSize) = .ok (ses', ce, ops)) :
    ses'.Core g ls (es ++ [b]) low (Function.update moved b (some [])) ∧ ses.Same ses' ∧
      (∀ i, ∀ x < g.blockSize, ses'.file.byte (g.dataOff (g.chainEnd 0 ls) i + x) =
        ses.file.byte (g.dataOff (g.chainEnd 0 ls) i + x)) ∧
      ses'.cow = ses.cow.link (b % bucketNum) ce ∧ ce.faultVoffAligned = b * g.blockSize ∧
      ce.blockOff = nb.blockOff ∧ ce.moved = [] ∧
      ∃ j < es.length + 1, ce.metaEntry = g.slot (g.chainEnd 0 ls) j := by
  have hlen : (es ++ [b]).length = es.length + 1 := by simp
  have hs := h.super
  have hlast := h.image.last
  have hsz := h.image.size_lt
  obtain ⟨m, hread, hce, hses', hops⟩ := linkEntry_ok hr
  have hm := h.readMeta_metaN hdvd hread
  rw [fgCounterOps, hm] at hops
  obtain ⟨hcore, hsame, hdata⟩ := h.fgCounter _ hops
  obtain ⟨j, hj, -, hslot⟩ := metaEntry_eq (hlen ▸ hs)
    (hlen ▸ hlast.blockAt_lt hsz (le_refl (g.blocks (es ++ [b]).length)))
  have hbucket : bucketNumber (u64 ses.s.blockSize) (b * g.blockSize) = b % bucketNum := by
    rw [bucketNumber, hs.u64_blockSize, Nat.mul_div_cancel _ g.blockSize_pos]
  rw [hbucket] at hses'
  have hfile : ses'.file = (ses.issue ops).file := by
    rw [hses']
    rfl
  refine ⟨?_, ?_, fun i x hx => ?_, by rw [hses'], by rw [hce]; rfl, by rw [hce]; rfl,
    by rw [hce]; rfl, j, hj, ?_⟩
  · rw [hses']
    exact hcore.setCow _
  · rw [hses']
    exact hsame.setCow _
  · rw [hfile]
    exact hdata i x hx
  · rw [hce, newEntry, hm]
    exact hslot

/-- The second half of `insert_ht` returns where the number is cut to 0. -/
theorem exists_linkEntry {off : ℕ} (h : IsLayer g ses.file off es) (hsz : ses.file.size < 2 ^ 63)
    (hs : ses.s.Is g off es.length) (nb : NewBlock) (key : ℕ)
    (hdvd : (2 ^ 32 : ℤ) ∣ (g.lastSeg es.length : ℤ) * g.blockSize * g.blockSize) :
    ∃ x, ses.linkEntry cfg nb key = .ok x := by
  have hread := h.readMeta hsz hs (Nat.zero_le (g.lastSeg _))
  rw [Nat.cast_zero] at hread
  rw [Session.linkEntry, hs.metaN_eq_zero (h.blockAt_lt hsz (g.metaBlock_lt le_rfl).le) hdvd, hread]
  exact ⟨_, rfl⟩

/-- **`insert_ht`**: a block of a layer below gets an entry in the last layer and in
the table. -/
theorem Consistent.insertHt (h : ses.Consistent g ls es low) {ce : CowEntry}
    (hb : b < 2 ^ 32) (hmoved : ses.cow.movedOf g.blockSize b = none) (hnot : b ∉ es)
    (hlow : low b ≠ none) (hmeta : ses.s.MetaNOk)
    (hr : ses.insertHt cfg n n' (b * g.blockSize) = .ok (ses', ce, ops)) :
    ses'.Consistent g ls (es ++ [b]) low ∧ ses.Same ses' ∧ ce.faultVoffAligned = b * g.blockSize ∧
      ce.moved = [] ∧ ce ∈ ses'.cow.buckets (b % bucketNum) ∧
      ses'.cow.cowL = ses.cow.cowL := by
  have hblock : g.blockOf (b * g.blockSize) = b := by
    have hdiv := Nat.mul_div_cancel b g.blockSize_pos
    rw [g.blockOf_eq (by rw [hdiv]; exact hb), hdiv]
  have hlen : (es ++ [b]).length = es.length + 1 := by simp
  have hdvd : (2 ^ 32 : ℤ) ∣ (g.lastSeg (es.length + 1) : ℤ) * g.blockSize * g.blockSize := by
    have := hmeta
    rwa [Super.MetaNOk, h.core.super.nextSeg, h.core.super.blockSize] at this
  obtain ⟨s', r', nb, ops₁, ops₂, hnb, hlink, -⟩ := insertHt_ok hr
  obtain ⟨hcore₁, hsame₁, rfl, hdata₁, hzero⟩ := h.core.append hnb hblock hnot rfl
  obtain ⟨hcore, hsame₂, hdata₂, hcow, hkey, hoff, hmv, j, hj, hslot⟩ :=
    hcore₁.linkEntry hdvd hlink
  have hcow' : ses'.cow = ses.cow.link (b % bucketNum) ce := hcow
  have hsame := hsame₁.trans hsame₂
  obtain ⟨hok, hmovedOf⟩ := h.tables.link g.blockSize_pos hkey hmoved
  have hself : ses'.cow.buckets (b % bucketNum) = ce :: ses.cow.buckets (b % bucketNum) := by
    rw [hcow']
    exact Function.update_self _ _ _
  refine ⟨⟨?_, ?_, hcow' ▸ hok, fun i e he => ?_⟩, hsame, hkey, hmv,
    by rw [hself]; exact List.mem_cons_self, by rw [hcow']; rfl⟩
  · rw [hcow', hmovedOf, hmv]
    exact hcore
  · rw [hsame.fmmapLength]
    exact h.length_le
  · have hnew : e ∈ ses.cow.buckets i ∨ e = ce := by
      by_cases hi : i = b % bucketNum
      · rw [hi, hself] at he
        rw [hi]
        exact (List.mem_cons.mp he).symm
      · have hother : ses'.cow.buckets i = ses.cow.buckets i := by
          rw [hcow']
          exact Function.update_of_ne hi _ _
        exact Or.inl (hother ▸ he)
    rw [hsame.fd]
    rcases hnew with he | rfl
    · exact (((h.entry i e he).append hnot).congr hdata₁).congr hdata₂
    · refine ⟨⟨b, hkey, ?_, hlow⟩, ⟨j, by omega, hslot⟩, fun x hx _ => ?_⟩
      · rw [Geometry.top_concat, if_pos rfl, hoff]
      · rw [hoff, hdata₂ _ x hx, hzero]

/-! ### The two copies -/

theorem copied_of_none {x : ℕ} (h : moved b = none) : Copied moved b x := by
  intro mv hmv
  rw [h] at hmv
  cases hmv

theorem copied_of_some {mv : List ℕ} {x : ℕ} (h : moved b = some mv) :
    Copied moved b x ↔ x / cowUnit * cowUnit ∈ mv := by
  constructor
  · intro hc
    exact hc mv h
  · intro hm mv' hmv'
    rw [h] at hmv'
    cases hmv'
    exact hm

theorem isBarrier_flushLoop {dst len : ℕ} : ∀ o ∈ flushLoop dst len ++ [.fence], o.IsBarrier := by
  intro o ho
  rcases List.mem_append.mp ho with ho | ho
  · obtain ⟨i, -, rfl⟩ := List.mem_map.mp ho
    exact trivial
  · rw [List.mem_singleton.mp ho]
    exact trivial

/-- **A copy and the mapping of what was copied**, with a mark in the meta block. -/
theorem Core.copyExpose (h : ses.Core g ls es low moved) (hcfg : cfg.finegrainedCow = true)
    (b o d len : ℕ) (moved' : ℕ → Option (List ℕ)) {e j : ℕ} {F : ℕ → ℕ} {ses₁ : Session}
    (htop : g.top ses.s.fd (g.chainEnd 0 ls) es b = some (ses.s.fd, o))
    (hle : d + len ≤ g.blockSize) (hlen : 8 ∣ len)
    (hmoved : ∀ x < g.blockSize, Copied moved' b x ↔ (d ≤ x ∧ x < d + len) ∨ Copied moved b x)
    (hother : ∀ c, c ≠ b → moved' c = moved c) (hj : j < es.length)
    (he : e = g.slot (g.chainEnd 0 ls) j) (hF : ∀ x, F x % 2 ^ 32 = x % 2 ^ 32)
    (hses₁ : ses₁ = (ses.issue (FileOp.memcpy (o + d) len (ses.source (b * g.blockSize + d)) ++
      flushLoop (o + d) len ++ [.fence])).remap
        (.mremap (b * g.blockSize + d) len ses.s.fd (o + d)))
    (hses' : ses' = ses₁.issue (entryStore cfg ses₁.file e F)) :
    ses'.Core g ls es low moved' ∧ ses.Same ses' ∧
      (∀ p, PageTable.InRange (b * g.blockSize + d) len p →
        ∃ e, ses'.pages p = some e ∧ e.writable = true) ∧
      ∀ i, ∀ x < g.blockSize, ¬(o + d ≤ g.dataOff (g.chainEnd 0 ls) i + x ∧
          g.dataOff (g.chainEnd 0 ls) i + x < o + d + len) →
        ses'.file.byte (g.dataOff (g.chainEnd 0 ls) i + x) =
          ses.file.byte (g.dataOff (g.chainEnd 0 ls) i + x) := by
  obtain ⟨hcore₁, hsame₁, hbytes, hframe⟩ := h.copy b o d len htop hle hlen isBarrier_flushLoop
    (List.append_assoc _ _ _)
  obtain ⟨hcore₂, hsame₂, hwrite⟩ := hcore₁.expose b o d len moved'
    (.mremap (b * g.blockSize + d) len ses.s.fd (o + d)) htop hle hmoved hother hbytes rfl
  rw [← hses₁] at hcore₂ hsame₂ hwrite
  obtain ⟨hcore₃, hsame₃, hdata⟩ := hcore₂.mark hcfg hj he hF
  rw [← hses'] at hcore₃ hsame₃ hdata
  refine ⟨hcore₃, (hsame₁.trans hsame₂).trans hsame₃, fun p hp => ?_, fun i x hx ha => ?_⟩
  · obtain ⟨pte, hpte, hw⟩ := hwrite p hp
    exact hsame₃.writable p pte hpte hw
  · have hfile : ses₁.file = (ses.issue (FileOp.memcpy (o + d) len
        (ses.source (b * g.blockSize + d)) ++ flushLoop (o + d) len ++ [.fence])).file := by
      rw [hses₁]
      rfl
    rw [hdata i x hx, hfile, hframe _ ha]

/-- A copy into the block of one entry does not touch the block of another. -/
theorem Consistent.entry_other (h : ses.Consistent g ls es low) {ce e : CowEntry} {i j : ℕ}
    {f' : ByteFile} (hce : ce ∈ ses.cow.buckets i) (he : e ∈ ses.cow.buckets j)
    (hne : e.faultVoffAligned ≠ ce.faultVoffAligned)
    (hf : ∀ i, ∀ x < g.blockSize, ¬(ce.blockOff ≤ g.dataOff (g.chainEnd 0 ls) i + x ∧
        g.dataOff (g.chainEnd 0 ls) i + x < ce.blockOff + g.blockSize) →
      f'.byte (g.dataOff (g.chainEnd 0 ls) i + x) =
        ses.file.byte (g.dataOff (g.chainEnd 0 ls) i + x)) :
    EntryOk g f' ses.s.fd (g.chainEnd 0 ls) es low e := by
  have hent := h.entry j e he
  obtain ⟨b, hkey, htop, -⟩ := (h.entry i ce hce).block
  obtain ⟨b', hkey', htop', -⟩ := hent.block
  obtain ⟨q, hq, hbq, hy⟩ := Geometry.top_eq_some htop
  obtain ⟨q', hq', hbq', hy'⟩ := Geometry.top_eq_some htop'
  have hoff : ce.blockOff = g.dataOff (g.chainEnd 0 ls) q := (Prod.mk.inj hy).2
  have hoff' : e.blockOff = g.dataOff (g.chainEnd 0 ls) q' := (Prod.mk.inj hy').2
  have hqq : g.dataBlock q' ≠ g.dataBlock q := by
    intro hd
    have := g.dataBlock_injective hd
    subst this
    exact hne (by rw [hkey, hkey', ← hbq, ← hbq'])
  refine ⟨hent.block, hent.slot, fun x hx hm => ?_⟩
  have hz := hent.zero x hx hm
  rw [hoff'] at hz ⊢
  rw [hf q' x hx ?_, hz]
  rw [hoff]
  exact g.blockAt_disjoint hqq (Nat.le_add_right _ _) (Nat.add_lt_add_left hx _)

/-- The entry of a block of the table, and the block's data block. -/
theorem Consistent.top_of_mem (h : ses.Consistent g ls es low) {ce : CowEntry}
    (hce : ce ∈ ses.cow.buckets (b % bucketNum)) (hkey : ce.faultVoffAligned = b * g.blockSize) :
    ses.cow.movedOf g.blockSize b = some ce.moved ∧
      g.top ses.s.fd (g.chainEnd 0 ls) es b = some (ses.s.fd, ce.blockOff) := by
  refine ⟨h.tables.movedOf_of_mem hce hkey, ?_⟩
  obtain ⟨b', hkey', htop, -⟩ := (h.entry _ ce hce).block
  obtain rfl : b' = b := Nat.eq_of_mul_eq_mul_right g.blockSize_pos (hkey'.symm.trans hkey)
  exact htop

/-- **The partial copy**: one unit of a block of the table becomes writable. -/
theorem Consistent.copyUnit (h : ses.Consistent g ls es low) (hcfg : cfg.finegrainedCow = true)
    {ce : CowEntry} (hce : ce ∈ ses.cow.buckets (b % bucketNum))
    (hkey : ce.faultVoffAligned = b * g.blockSize) {d : ℕ} (hd : cowUnit ∣ d)
    (hdle : d + cowUnit ≤ g.blockSize) (hdm : d ∉ ce.moved) :
    ∃ ses' ops, ses.copyUnit cfg ⟨b * g.blockSize + d, cowUnit⟩ ce (b * g.blockSize) =
        .ok (ses', ops) ∧
      ses'.Consistent g ls es low ∧ ses.Same ses' ∧ ses'.cow.cowL = ses.cow.cowL ∧
      ∀ p, PageTable.InRange (b * g.blockSize + d) cowUnit p →
        ∃ e, ses'.pages p = some e ∧ e.writable = true := by
  have hpos := g.blockSize_pos
  obtain ⟨hmv, htop⟩ := h.top_of_mem hce hkey
  obtain ⟨j, hj, hslot⟩ := (h.entry _ ce hce).slot
  have hbucket : bucketNumber (u64 ses.s.blockSize) (b * g.blockSize) = b % bucketNum := by
    rw [bucketNumber, h.core.super.u64_blockSize, Nat.mul_div_cancel _ hpos]
  have hmod : ∀ e : CowEntry, ({ e with moved := d :: e.moved, copiedCounter :=
      e.copiedCounter + (d / cowUnit : ℕ) } : CowEntry).faultVoffAligned = e.faultVoffAligned :=
    fun _ => rfl
  obtain ⟨hok, hmovedOf⟩ := h.tables.modify hpos hmod hce hkey
  rw [Session.copyUnit]
  simp only [Nat.add_sub_cancel_left, if_neg hdm, Int.toNat_natCast, hbucket]
  refine ⟨_, _, rfl, ?_⟩
  -- a byte is in the unit at `d` if its unit is `d`
  have hunit : ∀ x, x / cowUnit * cowUnit = d ↔ d ≤ x ∧ x < d + cowUnit := by
    intro x
    rw [show cowUnit = 4096 from rfl] at *
    omega
  obtain ⟨hcore, hsame, hwrite, hdata⟩ := h.core.copyExpose hcfg b ce.blockOff d cowUnit
    (Function.update (ses.cow.movedOf g.blockSize) b (some (d :: ce.moved))) htop hdle (by decide)
    (fun x _ => by
      rw [copied_of_some (Function.update_self _ _ _), copied_of_some hmv, List.mem_cons, hunit])
    (fun c hc => Function.update_of_ne hc _ _) hj hslot (or_cowBit_mod (d / cowUnit)) rfl rfl
  refine ⟨⟨?_, ?_, hok, fun i e he => ?_⟩, hsame.setCow _, rfl, hwrite⟩
  · have hc := hcore.setCow (ses.cow.modify (b % bucketNum) (b * g.blockSize) fun e =>
      { e with moved := d :: e.moved, copiedCounter := e.copiedCounter + (d / cowUnit : ℕ) })
    rw [← hmovedOf] at hc
    exact hc
  · exact hsame.fmmapLength ▸ h.length_le
  · rcases h.tables.mem_modify hpos hce hkey he with rfl | ⟨hmem, hne⟩
    · have hent := h.entry _ ce hce
      refine ⟨hent.block, hent.slot, fun x hx hm => ?_⟩
      obtain ⟨q, -, -, hy⟩ := Geometry.top_eq_some htop
      have hoff : ce.blockOff = g.dataOff (g.chainEnd 0 ls) q := (Prod.mk.inj hy).2
      have hmem : x / cowUnit * cowUnit ≠ d ∧ x / cowUnit * cowUnit ∉ ce.moved :=
        not_or.mp fun hm' => hm (List.mem_cons.mpr hm')
      have hz := hent.zero x hx hmem.2
      have hout := fun hin => hmem.1 ((hunit x).mpr hin)
      change (Session.file _).byte (ce.blockOff + x) = 0
      rw [hoff] at hz hdata ⊢
      rw [← hz]
      exact hdata q x hx fun hin => hout ⟨by omega, by omega⟩
    · refine h.entry_other hce hmem (by rw [hkey]; exact hne) fun q x hx hout => ?_
      exact hdata q x hx fun hin => hout ⟨by omega, by omega⟩

/-- **The copy of a whole block**, whose entry has left the table: all of it becomes
writable. -/
theorem Consistent.copyBlock (h : ses.Consistent g ls es low) (hcfg : cfg.finegrainedCow = true)
    {ce ce' : CowEntry} {l₁ l₂ : List CowEntry} {c : CowTables}
    (hl : ses.cow.buckets (b % bucketNum) = l₁ ++ ce :: l₂)
    (hkey : ce.faultVoffAligned = b * g.blockSize) (hoff : ce'.blockOff = ce.blockOff)
    (hslot' : ce'.metaEntry = ce.metaEntry)
    (hc : c.buckets = (ses.cow.setBucket (b % bucketNum) (l₁ ++ l₂)).buckets)
    (hses' : ses' = (({ ses with cow := c } : Session).copyBlock cfg ce' (b * g.blockSize)).1) :
    ses'.Consistent g ls es low ∧ ses.Same ses' ∧ ses'.cow = c ∧
      ∀ p, PageTable.InRange (b * g.blockSize + 0) g.blockSize p →
        ∃ e, ses'.pages p = some e ∧ e.writable = true := by
  have hpos := g.blockSize_pos
  have hce : ce ∈ ses.cow.buckets (b % bucketNum) := by
    rw [hl]
    exact List.mem_append_right _ List.mem_cons_self
  obtain ⟨hmv, htop⟩ := h.top_of_mem hce hkey
  obtain ⟨j, hj, hslot⟩ := (h.entry _ ce hce).slot
  obtain ⟨hok, hmovedOf⟩ := h.tables.unlink hpos hl hkey
  have hmovedOf' : c.movedOf g.blockSize =
      Function.update (ses.cow.movedOf g.blockSize) b none := by
    rw [← hmovedOf]
    funext d
    rw [CowTables.movedOf, CowTables.movedOf, hc]
  rw [Session.copyBlock] at hses'
  simp only [h.core.super.u64_blockSize, hoff, hslot'] at hses'
  obtain ⟨hcore, hsame, hwrite, hdata⟩ := (h.core.setCow c).copyExpose hcfg b ce.blockOff 0
    g.blockSize (Function.update (ses.cow.movedOf g.blockSize) b none) htop (by omega)
    (dvd_trans (by decide) h.core.page_dvd)
    (fun x hx => ⟨fun _ => Or.inl ⟨by omega, by omega⟩,
      fun _ => copied_of_none (Function.update_self _ _ _)⟩)
    (fun d hd => Function.update_of_ne hd _ _) hj hslot and_addrMask_mod rfl hses'
  have hcow : ses'.cow = c := by rw [hses']; rfl
  have hsame' : ses.Same ses' :=
    ⟨⟨hsame.fd, hsame.fmmapLength, hsame.globalLength, hsame.files, hsame.myOff, hsame.kept⟩,
      hsame.view, hsame.mapped, hsame.writable⟩
  refine ⟨⟨?_, ?_, ?_, fun i e he => ?_⟩, hsame', hcow, hwrite⟩
  · rw [hcow, hmovedOf']
    exact hcore
  · exact hsame'.fmmapLength ▸ h.length_le
  · rw [hcow]
    exact ⟨hc ▸ hok.bucket, hc ▸ hok.nodup⟩
  · rw [hcow, hc] at he
    obtain ⟨hmem, hne⟩ := h.tables.mem_unlink hpos hl hkey he
    rw [hsame'.fd]
    refine h.entry_other hce hmem (by rw [hkey]; exact hne) fun q x hx hout => ?_
    exact hdata q x hx fun hin => hout ⟨by omega, by omega⟩

/-! ### Write-protected pages -/

/-- The lists of recent copies do not matter for the rest. -/
theorem Consistent.setLists (h : ses.Consistent g ls es low) {c : CowTables}
    (hc : c.buckets = ses.cow.buckets) :
    ({ ses with cow := c } : Session).Consistent g ls es low := by
  have hmoved : c.movedOf g.blockSize = ses.cow.movedOf g.blockSize := by
    funext d
    rw [CowTables.movedOf, CowTables.movedOf, hc]
  refine ⟨?_, h.length_le, ⟨hc ▸ h.tables.bucket, hc ▸ h.tables.nodup⟩, fun i ce hce => ?_⟩
  · exact hmoved ▸ h.core.setCow c
  · exact h.entry i ce (hc ▸ hce)

/-- A list that got an entry is true if the others are and the range of the entry is
writable. -/
theorem lists_push {c : CowTables} {voff : ℕ} {le : CowLEntry}
    (hlists : ∀ i, ∀ e ∈ (c.cowL i).entries, ∀ p, e.Covers (p * pageSize) →
      ∃ pte, ses.pages p = some pte ∧ pte.writable = true)
    (hle : ∀ p, le.Covers (p * pageSize) → ∃ pte, ses.pages p = some pte ∧ pte.writable = true) :
    ∀ i, ∀ e ∈ ((c.pushList voff le).cowL i).entries, ∀ p, e.Covers (p * pageSize) →
      ∃ pte, ses.pages p = some pte ∧ pte.writable = true := by
  intro i e he p hp
  by_cases hi : i = listNum voff
  · have hself : (c.pushList voff le).cowL i = (c.cowL i).push le := by
      rw [hi]
      exact Function.update_self _ _ _
    rw [hself] at he
    rcases CowList.mem_push he with he | rfl
    · exact hlists i e he p hp
    · exact hle p hp
  · have hother : (c.pushList voff le).cowL i = c.cowL i := Function.update_of_ne hi _ _
    rw [hother] at he
    exact hlists i e he p hp

/-- A range of the recent lists covers the pages in it. -/
theorem inRange_of_covers {voff len p : ℕ}
    (h : (⟨voff, (len : ℕ)⟩ : CowLEntry).Covers (p * pageSize)) :
    PageTable.InRange voff len p := by
  obtain ⟨h₁, h₂⟩ := h
  rw [show cowUnit = 4096 from rfl] at h₂
  simp only at h₁ h₂
  exact ⟨h₁, by omega⟩

/-- The block of a write is not in the table, so that `cow_handler` allocates one. -/
def NeedsBlock (ses : Session) (v : ℕ) : Prop :=
  searchHt (v / u64 ses.s.blockSize * u64 ses.s.blockSize) 0
    (ses.cow.buckets (bucketNumber (u64 ses.s.blockSize) v)) = none

instance (ses : Session) (v : ℕ) : Decidable (ses.NeedsBlock v) :=
  inferInstanceAs (Decidable (_ = none))

theorem Consistent.needsBlock_iff (h : ses.Consistent g ls es low) (v : ℕ) :
    ses.NeedsBlock v ↔ ses.cow.movedOf g.blockSize (v / g.blockSize) = none := by
  rw [NeedsBlock, h.core.super.u64_blockSize, searchHt_eq_none, bucketNumber,
    CowTables.movedOf_eq_none]

/-- What a handler leaves: the invariant, and a range the guest sees no change
of. -/
def Served (ses ses' : Session) (g : Geometry cfg) (ls : List (List ℕ)) (es : List ℕ)
    (low : ℕ → Option (Path × ℕ)) (v : ℕ) : Prop :=
  ∃ es', Grows (v / g.blockSize) es es' ∧ ses'.Inv g ls es' low ∧ ses.Same ses' ∧
    ∃ e, ses'.pages (v / pageSize) = some e ∧ e.writable = true

/-- The end of `cow_handler` after a partial copy. -/
theorem Consistent.served_copyUnit {ses₁ : Session} {es' : List ℕ} (h : ses.Inv g ls es low)
    (h₁ : ses₁.Consistent g ls es' low) (hgrow : Grows (v / g.blockSize) es es')
    (hsame₁ : ses.Same ses₁)
    (hcowL : ses₁.cow.cowL = ses.cow.cowL) (hcfg : cfg.finegrainedCow = true) {ce : CowEntry}
    (hce : ce ∈ ses₁.cow.buckets (v / g.blockSize % bucketNum))
    (hkey : ce.faultVoffAligned = v / g.blockSize * g.blockSize)
    (hdm : v % g.blockSize / cowUnit * cowUnit ∉ ce.moved) {le : CowLEntry}
    (hle : le = ⟨v / cowUnit * cowUnit, cowUnit⟩) {ses₂ : Session}
    (hses₂ : ses₂ = { ses₁ with cow := ses₁.cow.pushList (v / cowUnit * cowUnit) le }) :
    ∃ ses' ops, ses₂.copyUnit cfg le ce (v / g.blockSize * g.blockSize) = .ok (ses', ops) ∧
      ses.Served ses' g ls es low v := by
  obtain ⟨hunit, hdle⟩ := g.unit_eq h.core.page_dvd v
  have hpush : ses₂.Consistent g ls es' low := by
    rw [hses₂]
    exact h₁.setLists rfl
  have hcow₂ : ses₂.cow = ses₁.cow.pushList (v / cowUnit * cowUnit) le := by rw [hses₂]
  obtain ⟨ses', ops, hcopy, hcons, hsame, hcow', hwrite⟩ := hpush.copyUnit hcfg
    (by rw [hcow₂]; exact hce) hkey (Nat.dvd_mul_left _ _) hdle hdm
  rw [← hunit, ← hle] at hcopy
  rw [← hunit] at hwrite
  have hsame' : ses.Same ses' := by
    refine Same.trans ?_ hsame
    rw [hses₂]
    exact hsame₁.setCow _
  refine ⟨ses', ops, hcopy, es', hgrow,
    ⟨hcons, ?_, fun hf => absurd (hcfg.symm.trans hf) (by decide)⟩,
    hsame', ?_⟩
  · rw [hcow', hcow₂]
    refine lists_push (fun i e he p hp => ?_) fun p hp =>
      hwrite p (inRange_of_covers (hle ▸ hp))
    rw [hcowL] at he
    obtain ⟨pte, hpte, hw⟩ := h.lists i e he p hp
    exact hsame'.writable p pte hpte hw
  · refine hwrite _ ⟨le_rfl, ?_⟩
    rw [show pageSize = 4096 from rfl, show cowUnit = 4096 from rfl]
    omega

/-- `insert_ht` fails only where `new_block` does. -/
theorem Consistent.insertHt_cases (h : ses.Consistent g ls es low) (n n' : ℕ) (hb : b < 2 ^ 32)
    (hnot : b ∉ es) (hmeta : ses.s.MetaNOk) :
    (∃ x, ses.insertHt cfg n n' (b * g.blockSize) = .ok x) ∨
      ∃ e, newBlock cfg ses.file ses.s ses.ring n n' (b * g.blockSize) = .error e ∧
        ses.insertHt cfg n n' (b * g.blockSize) = .error e := by
  have hblock : g.blockOf (b * g.blockSize) = b := by
    have hdiv := Nat.mul_div_cancel b g.blockSize_pos
    rw [g.blockOf_eq (by rw [hdiv]; exact hb), hdiv]
  have hdvd : (2 ^ 32 : ℤ) ∣ (g.lastSeg (es.length + 1) : ℤ) * g.blockSize * g.blockSize := by
    have := hmeta
    rwa [Super.MetaNOk, h.core.super.nextSeg, h.core.super.blockSize] at this
  rw [Session.insertHt]
  rcases hnb : newBlock cfg ses.file ses.s ses.ring n n' (b * g.blockSize) with
    e | ⟨s', r', nb, ops₁⟩
  · exact Or.inr ⟨e, rfl, rfl⟩
  · left
    obtain ⟨hcore, -⟩ := h.core.append hnb hblock hnot rfl
    obtain ⟨x, hx⟩ := exists_linkEntry hcore.image.last hcore.image.size_lt hcore.super nb
      (b * g.blockSize) (by rw [List.length_append, List.length_singleton]; exact hdvd)
    simp only
    rw [hx]
    exact ⟨_, rfl⟩

/-- The end of `cow_handler` after a copy of the whole block. -/
theorem Inv.served_copyBlock (h : ses.Inv g ls es low) (hcfg : cfg.finegrainedCow = true)
    {ce ce' : CowEntry} {l₁ l₂ : List CowEntry}
    (hl : ses.cow.buckets (v / g.blockSize % bucketNum) = l₁ ++ ce :: l₂)
    (hkey : ce.faultVoffAligned = v / g.blockSize * g.blockSize)
    (hoff : ce'.blockOff = ce.blockOff) (hslot : ce'.metaEntry = ce.metaEntry) {le : CowLEntry}
    (hle : le = ⟨v / g.blockSize * g.blockSize, (g.blockSize : ℕ)⟩) {c : CowTables} {voff : ℕ}
    (hc : c = (ses.cow.setBucket (v / g.blockSize % bucketNum) (l₁ ++ l₂)).pushList voff le)
    (hses' : ses' = (({ ses with cow := c } : Session).copyBlock cfg ce'
      (v / g.blockSize * g.blockSize)).1) : ses.Served ses' g ls es low v := by
  obtain ⟨hcons, hsame, hcow, hwrite⟩ := h.toConsistent.copyBlock hcfg hl hkey hoff hslot
    (by rw [hc]; rfl) hses'
  refine ⟨es, Or.inl rfl, ⟨hcons, ?_, fun hf => absurd (hcfg.symm.trans hf) (by decide)⟩, hsame,
    hwrite _ (inRange_of_block h.core.page_dvd v)⟩
  rw [hcow, hc]
  refine lists_push (fun i e he p hp => ?_) fun p hp => hwrite p (inRange_of_covers (hle ▸ hp))
  obtain ⟨pte, hpte, hw⟩ := h.lists i e he p hp
  exact hsame.writable p pte hpte hw

/-- A unit whose page is write protected is not in the recent lists. -/
theorem Inv.not_inList (h : ses.Inv g ls es low) {e : Pte Path}
    (hp : ses.pages (v / pageSize) = some e) (hw : e.writable = false) :
    ¬ses.cow.InList (v / cowUnit * cowUnit) := by
  rintro ⟨le, hle, hcov⟩
  obtain ⟨pte, hpte, hw'⟩ := h.lists _ le hle (v / pageSize) hcov
  rw [hp] at hpte
  cases hpte
  rw [hw] at hw'
  cases hw'

section Equations

variable {ses₁ : Session} {le : CowLEntry} {ce : CowEntry} {ops₁ : List FileOp} {err : Fault}

/-- `cow_handler` past its range check and its look at the recent lists. -/
theorem cowHandler_eq (hcfg : cfg.finegrainedCow = true)
    (hle : ¬v > u64 ((ses.globalLength : ℤ) - ses.s.blockSize))
    (hlist : ¬ses.cow.InList (v / cowUnit * cowUnit)) : ses.cowHandler cfg n n' v =
      match ses.insertList cfg n n' (v / cowUnit * cowUnit) with
      | .error e => .error e
      | .ok (ses₁, none, ops₁) => .ok (ses₁, ops₁)
      | .ok (ses₁, some (le, ce), ops₁) =>
        if le.copySize ≠ ses₁.s.blockSize then
          (ses₁.copyUnit cfg le ce (v / u64 ses.s.blockSize * u64 ses.s.blockSize)).map
            fun x => (x.1, ops₁ ++ x.2)
        else (ses₁.copyWhole cfg n n' ce (v / u64 ses.s.blockSize * u64 ses.s.blockSize)).map
          fun x => (x.1, ops₁ ++ x.2) := by
  rw [Session.cowHandler]
  exact (if_neg hle).trans ((if_pos hcfg).trans (if_neg hlist))

/-- `insert_list` for a block that is not in the table. -/
theorem insertList_new (hlist : ¬ses.cow.InList v)
    (hsearch : searchHt (v / u64 ses.s.blockSize * u64 ses.s.blockSize) 0
      (ses.cow.buckets (bucketNumber (u64 ses.s.blockSize) v)) = none) :
    ses.insertList cfg n n' v =
      (ses.insertHt cfg n n' (v / u64 ses.s.blockSize * u64 ses.s.blockSize)).map fun x =>
        ({ x.1 with cow := x.1.cow.pushList v ⟨v, cowUnit⟩ }, some (⟨v, cowUnit⟩, x.2.1),
          x.2.2) := by
  rw [Session.insertList, if_neg hlist]
  simp only [hsearch]

/-- `insert_list` for a block that is in the table. -/
theorem insertList_old (hlist : ¬ses.cow.InList v) {full : Bool} {rest : List CowEntry}
    (hsearch : searchHt (v / u64 ses.s.blockSize * u64 ses.s.blockSize) 0
      (ses.cow.buckets (bucketNumber (u64 ses.s.blockSize) v)) = some (ce, full, rest))
    (hl : le = if full then ⟨v / u64 ses.s.blockSize * u64 ses.s.blockSize, ses.s.blockSize⟩
      else ⟨v, cowUnit⟩) :
    ses.insertList cfg n n' v =
      .ok ({ ses with cow := (ses.cow.setBucket (bucketNumber (u64 ses.s.blockSize) v)
        rest).pushList v le }, some (le, ce), []) := by
  rw [Session.insertList, if_neg hlist, hl]
  simp only [hsearch]

end Equations

/-- **`cow_handler` on a write-protected page**, with fine-grained copies. It fails
only where `new_block` does; otherwise the page is writable afterwards, and the guest
sees no other change. -/
theorem Inv.cowHandler (h : ses.Inv g ls es low) (hcfg : cfg.finegrainedCow = true)
    (hbs : cowUnit < g.blockSize) (hv : v < ses.s.fmmapLength) {e : Pte Path}
    (hp : ses.pages (v / pageSize) = some e) (hw : e.writable = false)
    (hle : v ≤ u64 ((ses.globalLength : ℤ) - g.blockSize))
    (hmeta : ses.NeedsBlock v → ses.s.MetaNOk) :
    (∃ ses' ops, ses.cowHandler cfg n n' v = .ok (ses', ops) ∧ ses.Served ses' g ls es low v) ∨
      ∃ err, ses.NeedsBlock v ∧ newBlock cfg ses.file ses.s ses.ring n n'
          (v / g.blockSize * g.blockSize) = .error err ∧
        ses.cowHandler cfg n n' v = .error err := by
  have hu := h.core.super.u64_blockSize
  have hz := h.core.super.blockSize
  have hlist := h.not_inList hp hw
  have hdiv : v / cowUnit * cowUnit / g.blockSize = v / g.blockSize := div_page h.core.page_dvd v
  have hbucket : bucketNumber g.blockSize (v / cowUnit * cowUnit) =
      v / g.blockSize % bucketNum := by
    rw [bucketNumber, hdiv]
  have hne : ((cowUnit : ℕ) : ℤ) ≠ (g.blockSize : ℤ) := by
    intro he
    have := Int.ofNat.inj he
    omega
  obtain ⟨hlow, hcases⟩ := h.protected hp hw
  rw [cowHandler_eq hcfg (by rw [hz]; omega) hlist, hu]
  rcases hsearch : searchHt (v / g.blockSize * g.blockSize) 0
      (ses.cow.buckets (v / g.blockSize % bucketNum)) with _ | ⟨ce, full, rest⟩
  · -- the block is not in the table
    have hnone : ses.cow.movedOf g.blockSize (v / g.blockSize) = none := by
      rw [CowTables.movedOf_eq_none]
      exact searchHt_eq_none.mp hsearch
    have hneeds := (h.needsBlock_iff v).mpr hnone
    have hnot : v / g.blockSize ∉ es := by
      rcases hcases with ⟨-, hnot⟩ | ⟨mv, hmv, -⟩
      · exact hnot
      · rw [hnone] at hmv
        cases hmv
    rw [insertList_new hlist (by rw [hu, hdiv, hbucket]; exact hsearch), hu, hdiv]
    rcases h.insertHt_cases n n' (h.block_lt hv) hnot (hmeta hneeds) with
      ⟨⟨ses₁, ce, ops₁⟩, hins⟩ | ⟨err, hnb, hins⟩
    · left
      obtain ⟨hcons, hsame, hkey, hmv, hmem, hcowL⟩ := h.insertHt (h.block_lt hv) hnone hnot hlow
        (hmeta hneeds) hins
      obtain ⟨ses', ops, hcopy, hserved⟩ := Consistent.served_copyUnit h hcons
        (Or.inr ⟨hnot, rfl⟩) hsame hcowL hcfg hmem hkey (by rw [hmv]; exact List.not_mem_nil)
        rfl rfl
      refine ⟨ses', ops₁ ++ ops, ?_, hserved⟩
      rw [hins]
      simp only [Except.map]
      rw [if_pos (by rw [hcons.core.super.blockSize]; exact hne), hcopy]
    · right
      refine ⟨err, hneeds, hnb, ?_⟩
      rw [hins]
      rfl
  · left
    obtain ⟨ce₀, hmem, hkey, hfull⟩ := searchHt_eq_some hsearch
    obtain ⟨hmv, -⟩ := h.top_of_mem hmem hkey
    rw [insertList_old hlist (by rw [hu, hdiv, hbucket]; exact hsearch) rfl, hu, hdiv, hbucket, hz]
    rcases hfull with ⟨rfl, rfl, l₁, l₂, hl, rfl⟩ | ⟨rfl, rfl, rfl⟩
    · -- the entry was found at the head of its chain
      simp only [if_true]
      rw [if_neg (not_not.mpr hz.symm), copyWhole_of_mapped]
      · exact ⟨_, _, rfl, h.served_copyBlock hcfg hl hkey rfl rfl rfl rfl rfl⟩
      · exact h.core.firstMissing_eq_none hlow
    · have hdm : v % g.blockSize / cowUnit * cowUnit ∉ ce.moved := by
        rcases hcases with ⟨hnone, -⟩ | ⟨mv, hmv', hdm⟩
        · rw [hnone] at hmv
          cases hmv
        · rw [hmv] at hmv'
          cases hmv'
          exact hdm
      have hset : ses.cow.setBucket (v / g.blockSize % bucketNum)
          (ses.cow.buckets (v / g.blockSize % bucketNum)) = ses.cow := by
        rw [CowTables.setBucket, Function.update_eq_self]
      obtain ⟨ses', ops, hcopy, hserved⟩ := Consistent.served_copyUnit h h.toConsistent
        (Or.inl rfl) Same.refl rfl hcfg hmem hkey hdm rfl rfl
      refine ⟨ses', [] ++ ops, ?_, hserved⟩
      simp only [Bool.false_eq_true, if_false, hset]
      rw [if_pos (by rw [hz]; exact hne), hcopy]
      rfl

/-- The entry of a block of the range. -/
theorem Consistent.blockOf_block (h : ses.Consistent g ls es low) (hv : v < ses.s.fmmapLength) :
    g.blockOf (v / g.blockSize * g.blockSize) = v / g.blockSize :=
  g.blockOf_block h.core.page_dvd (lt_of_lt_of_le hv h.length_le)

/-- `cow_handler` on a write-protected page, without fine-grained copies. -/
theorem Inv.copyPlain (h : ses.Inv g ls es low) (hcfg : cfg.finegrainedCow = false)
    (hv : v < ses.s.fmmapLength) {e : Pte Path} (hp : ses.pages (v / pageSize) = some e)
    (hw : e.writable = false) :
    (∃ ses' ops, ses.copyPlain cfg n n' (v / g.blockSize * g.blockSize) = .ok (ses', ops) ∧
        ses.Served ses' g ls es low v) ∨
      ∃ err, newBlock cfg ses.file ses.s ses.ring n n' (v / g.blockSize * g.blockSize) =
          .error err ∧
        ses.copyPlain cfg n n' (v / g.blockSize * g.blockSize) = .error err := by
  have hmoved : ses.cow.movedOf g.blockSize (v / g.blockSize) = none := by
    rw [CowTables.movedOf, h.plain hcfg]
    rfl
  obtain ⟨hlow, hcases⟩ := h.protected hp hw
  have hnot : v / g.blockSize ∉ es := by
    rcases hcases with ⟨-, hnot⟩ | ⟨mv, hmv, -⟩
    · exact hnot
    · rw [hmoved] at hmv
      cases hmv
  rw [Session.copyPlain]
  rcases hnb : newBlock cfg ses.file ses.s ses.ring n n' (v / g.blockSize * g.blockSize) with
    err | ⟨s', r', nb, ops₁⟩
  · exact Or.inr ⟨err, rfl, rfl⟩
  left
  obtain ⟨hcore₁, hsame₁, rfl, hdata₁, hzero⟩ := h.core.append hnb (h.blockOf_block hv) hnot rfl
  have hu := hcore₁.super.u64_blockSize
  simp only at hu
  simp only [hu, hcore₁.firstMissing_eq_none hlow]
  refine ⟨_, _, rfl, ?_⟩
  have htop : g.top s'.fd (g.chainEnd 0 ls) (es ++ [v / g.blockSize]) (v / g.blockSize) =
      some (s'.fd, g.dataOff (g.chainEnd 0 ls) es.length) := by
    rw [Geometry.top_concat, if_pos rfl]
  obtain ⟨hcore₂, hsame₂, hbytes, -⟩ := hcore₁.copy (v / g.blockSize)
    (g.dataOff (g.chainEnd 0 ls) es.length) 0 g.blockSize htop (by omega)
    (dvd_trans (by decide) h.core.page_dvd) (List.forall_mem_nil FileOp.IsBarrier)
    (List.append_nil _).symm
  obtain ⟨hcore₃, hsame₃, hwrite⟩ := hcore₂.expose (v / g.blockSize)
    (g.dataOff (g.chainEnd 0 ls) es.length) 0 g.blockSize (ses.cow.movedOf g.blockSize)
    (.mremap (v / g.blockSize * g.blockSize) g.blockSize s'.fd
      (g.dataOff (g.chainEnd 0 ls) es.length)) htop (by omega)
    (fun x hx => ⟨fun _ => Or.inl ⟨by omega, by omega⟩, fun _ => copied_of_none hmoved⟩)
    (fun c hc => (Function.update_of_ne hc _ _).symm) hbytes rfl
  have hsame := (hsame₁.trans hsame₂).trans hsame₃
  refine ⟨es ++ [v / g.blockSize], Or.inr ⟨hnot, rfl⟩, ⟨⟨hcore₃, ?_, h.tables, fun i ce hce => ?_⟩,
    h.lists_same hsame rfl, h.plain⟩, hsame, hwrite _ (inRange_of_block h.core.page_dvd v)⟩
  · exact le_of_eq_of_le hsame.fmmapLength h.length_le
  · have hnil : ses.cow.buckets i = [] := h.plain hcfg i
    change ce ∈ ses.cow.buckets i at hce
    rw [hnil] at hce
    cases hce

end Session

end Pcow
