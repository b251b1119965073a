import Pcow.Layer

/-!
# Appending an entry to a layer

What `new_block` does to the file, in two halves. The first says when a file
holds a layer with one entry more (`IsLayer.snoc_active` and
`IsLayer.snoc_rollOver`): the bytes read of the old layer are as they were, but
for the one number that commits the entry, which is the counter of the active
meta block, or the number of the active meta block where a new segment is
opened. The second half runs `new_block` and finds these bytes.

The stores of a call are split at the store that commits
(`appendOps_eq`, `Super.Is.rollOverOps_eq`): everything before it goes to
bytes no reader of the old layer looks at, and nothing is stored after it.
-/

namespace Pcow

variable {cfg : Config} {g : Geometry cfg} {f f' : ByteFile} {fd : Path} {off k v : ℕ}
  {es : List ℕ}

/-! ### A layer with one entry more -/

theorem Geometry.fill_succ_of_lt {i : ℕ} (hi : i < g.lastSeg (k + 1)) :
    g.fill (k + 1) i = g.perSeg ∧ i ≤ g.lastSeg k ∧ g.fill k i = g.perSeg := by
  refine ⟨Geometry.fill_of_lt hi, ?_⟩
  rcases Nat.lt_or_ge (k - g.lastSeg k * g.perSeg) g.perSeg with h | h
  · rw [(g.lastSeg_succ_of_lt h).1] at hi
    exact ⟨hi.le, Geometry.fill_of_lt hi⟩
  · have hfull := le_antisymm g.counter_le h
    rw [(g.lastSeg_succ_of_full hfull).1] at hi
    refine ⟨by omega, ?_⟩
    rcases Nat.lt_or_ge i (g.lastSeg k) with hlt | hge
    · exact Geometry.fill_of_lt hlt
    · rw [show i = g.lastSeg k by omega, Geometry.fill_lastSeg, hfull]

/-- An entry goes into the active segment: the counter commits it. -/
theorem IsLayer.snoc_active (h : IsLayer g f off es)
    (hroom : es.length - g.lastSeg es.length * g.perSeg < g.perSeg)
    (hcap : es.length + 1 ≤ g.cap) (hsize : g.endOff off (es.length + 1) ≤ f'.size)
    (hbytes : ∀ a, StructByte g off es.length a →
      ¬(g.blockAt off (g.metaBlock (g.lastSeg es.length)) ≤ a ∧
        a < g.blockAt off (g.metaBlock (g.lastSeg es.length)) + 4) → f'.byte a = f.byte a)
    (hcnt : f'.loadInt (g.blockAt off (g.metaBlock (g.lastSeg es.length))) =
      (es.length - g.lastSeg es.length * g.perSeg + 1 : ℕ))
    (hent : f'.load (g.slot off es.length) 4 = v) : IsLayer g f' off (es ++ [v]) := by
  have hlen : (es ++ [v]).length = es.length + 1 := by simp
  obtain ⟨hseg, -, -⟩ := g.lastSeg_succ_of_lt hroom
  have hbs := g.entry_le
  have htop : ∀ q, q ≠ g.metaBlock (g.lastSeg es.length) → ∀ a, g.blockAt off q ≤ a →
      a < g.blockAt off q + g.blockSize →
      ¬(g.blockAt off (g.metaBlock (g.lastSeg es.length)) ≤ a ∧
        a < g.blockAt off (g.metaBlock (g.lastSeg es.length)) + 4) := by
    intro q hq a h₁ h₂ ⟨h₃, h₄⟩
    exact Geometry.blockAt_disjoint hq h₁ h₂ ⟨h₃, by omega⟩
  have hsuper : ∀ a, off ≤ a → a < off + 16 → f'.byte a = f.byte a := by
    intro a h₁ h₂
    have h0 : g.blockAt off 0 = off := by rw [Geometry.blockAt, Nat.mul_zero, Nat.add_zero]
    exact hbytes a (Or.inl ⟨h₁, h₂⟩)
      (htop 0 (Nat.ne_of_lt Geometry.metaBlock_pos) a (by omega) (by omega))
  refine
    { magic := h.magic.congr hsuper
      blockSize := (ByteFile.loadInt_congr fun a h₁ h₂ => hsuper a h₁ (by omega)).trans h.blockSize
      maxBlockNum := (ByteFile.loadInt_congr fun a h₁ h₂ =>
        hsuper a (by omega) (by omega)).trans h.maxBlockNum
      activeMetaNum := ?_, counter := ?_, entry := ?_
      size_le := by rw [hlen]; exact hsize
      length_le := by rw [hlen]; exact hcap }
  · rw [hlen, hseg, ← h.activeMetaNum]
    exact ByteFile.loadInt_congr fun a h₁ h₂ => hsuper a (by omega) (by omega)
  · rw [hlen, hseg]
    intro i hi
    rcases Nat.lt_or_ge i (g.lastSeg es.length) with hlt | hge
    · rw [(Geometry.fill_succ_of_lt (by rw [hseg]; exact hlt)).1, ← Geometry.fill_of_lt hlt,
        ← h.counter i hi]
      refine ByteFile.loadInt_congr fun a h₁ h₂ => hbytes a (Or.inr (Or.inl ⟨i, hi, h₁, h₂⟩))
        (htop _ (Nat.ne_of_lt (Geometry.metaBlock_strictMono hlt)) a h₁ (by omega))
    · obtain rfl : i = g.lastSeg es.length := by omega
      have hl := g.lastSeg_mul_le (k := es.length)
      rw [hcnt, ← hseg, Geometry.fill_lastSeg, hseg]
      omega
  · intro i hi
    rw [hlen] at hi
    rcases Nat.lt_or_ge i es.length with hlt | hge
    · rw [List.getElem_append_left hlt, ← h.entry i hlt]
      refine ByteFile.load_congr fun a h₁ h₂ =>
        hbytes a (Or.inr (Or.inr ⟨i, hlt, h₁, h₂⟩)) ?_
      have hmem := g.slot_mem off i
      have hes := entrySize_ge cfg
      by_cases hq : g.metaBlock (i / g.perSeg) = g.metaBlock (g.lastSeg es.length)
      · rw [hq] at hmem
        omega
      · exact htop _ hq a (by omega) (by omega)
    · obtain rfl : i = es.length := by omega
      rw [hent]
      simp

/-- An entry opens a new segment: the number of the active meta block commits
it. -/
theorem IsLayer.snoc_rollOver (h : IsLayer g f off es)
    (hfull : es.length - g.lastSeg es.length * g.perSeg = g.perSeg)
    (hcap : es.length + 1 ≤ g.cap) (hsize : g.endOff off (es.length + 1) ≤ f'.size)
    (hbytes : ∀ a, StructByte g off es.length a → ¬(off + 8 ≤ a ∧ a < off + 12) →
      f'.byte a = f.byte a)
    (hnum : f'.loadInt (off + 8) = (g.lastSeg es.length + 1 : ℕ))
    (hcnt : f'.loadInt (g.endOff off es.length) = 1)
    (hent : f'.load (g.slot off es.length) 4 = v) : IsLayer g f' off (es ++ [v]) := by
  have hlen : (es ++ [v]).length = es.length + 1 := by simp
  obtain ⟨hseg, -, -⟩ := g.lastSeg_succ_of_full hfull
  obtain ⟨-, -, hmeta⟩ := g.blocks_succ_of_full hfull
  have hbs := g.entry_le
  have hes := entrySize_ge cfg
  have hafter : ∀ i a, g.blockAt off (g.metaBlock i) ≤ a → ¬(off + 8 ≤ a ∧ a < off + 12) := by
    intro i a h₁
    have := g.blockAt_add_le off (g.metaBlock_pos (i := i))
    rw [Geometry.blockAt, Nat.mul_zero] at this
    omega
  refine
    { magic := (ByteFile.load_congr fun a h₁ h₂ =>
        hbytes a (Or.inl ⟨by omega, by omega⟩) (by omega)).trans h.magic
      blockSize := (ByteFile.loadInt_congr fun a h₁ h₂ =>
        hbytes a (Or.inl ⟨h₁, by omega⟩) (by omega)).trans h.blockSize
      maxBlockNum := (ByteFile.loadInt_congr fun a h₁ h₂ =>
        hbytes a (Or.inl ⟨by omega, by omega⟩) (by omega)).trans h.maxBlockNum
      activeMetaNum := by rw [hlen, hseg, hnum]
      counter := ?_, entry := ?_
      size_le := by rw [hlen]; exact hsize
      length_le := by rw [hlen]; exact hcap }
  · rw [hlen]
    intro i hi
    rcases Nat.lt_or_ge i (g.lastSeg (es.length + 1)) with hlt | hge
    · obtain ⟨h₁, h₂, h₃⟩ := Geometry.fill_succ_of_lt hlt
      rw [h₁, ← h₃, ← h.counter i h₂]
      exact ByteFile.loadInt_congr fun a ha ha' =>
        hbytes a (Or.inr (Or.inl ⟨i, h₂, ha, ha'⟩)) (hafter i a ha)
    · obtain rfl : i = g.lastSeg (es.length + 1) := by omega
      have hl := g.lastSeg_mul_le (k := es.length)
      rw [Geometry.fill_lastSeg, hmeta]
      rw [Geometry.endOff] at hcnt
      rw [hcnt, hseg, Nat.succ_mul]
      omega
  · intro i hi
    rw [hlen] at hi
    rcases Nat.lt_or_ge i es.length with hlt | hge
    · rw [List.getElem_append_left hlt, ← h.entry i hlt]
      have hmem := g.slot_mem off i
      exact ByteFile.load_congr fun a h₁ h₂ => hbytes a (Or.inr (Or.inr ⟨i, hlt, h₁, h₂⟩))
        (hafter (i / g.perSeg) a (by omega))
    · obtain rfl : i = es.length := by omega
      rw [hent]
      simp

/-! ### The bytes an append stores to -/

/-- The bytes stored to when an entry is appended to a layer of `k` entries: the
slot of the entry, the counter of the active meta block while it has room, and
otherwise the top of the new meta block and the number of the active one in the
super block. -/
def AppendByte (g : Geometry cfg) (off k a : ℕ) : Prop :=
  (g.slot off k ≤ a ∧ a < g.slot off k + cfg.entrySize) ∨
  (k - g.lastSeg k * g.perSeg < g.perSeg ∧ g.blockAt off (g.metaBlock (g.lastSeg k)) ≤ a ∧
    a < g.blockAt off (g.metaBlock (g.lastSeg k)) + 4) ∨
  (k - g.lastSeg k * g.perSeg = g.perSeg ∧ (g.endOff off k ≤ a ∧ a < g.endOff off k + 8 ∨
    off + 8 ≤ a ∧ a < off + 12))

/-- The slot of the next entry, in the active segment. -/
theorem Geometry.slot_of_lt (h : k - g.lastSeg k * g.perSeg < g.perSeg) :
    g.slot off k = g.blockAt off (g.metaBlock (g.lastSeg k)) + 64 +
      cfg.entrySize * (k - g.lastSeg k * g.perSeg) := by
  obtain ⟨-, h₁, h₂⟩ := g.lastSeg_succ_of_lt h
  rw [slot, h₁, h₂]

/-- The slot of the next entry, in a new segment. -/
theorem Geometry.slot_of_full (off : ℕ) (h : k - g.lastSeg k * g.perSeg = g.perSeg) :
    g.slot off k = g.endOff off k + 64 := by
  obtain ⟨h₁, h₂, h₃⟩ := g.lastSeg_succ_of_full h
  obtain ⟨-, -, h₄⟩ := g.blocks_succ_of_full h
  rw [slot, h₂, h₃, ← h₁, h₄, endOff, Nat.mul_zero, Nat.add_zero]

/-- The slot of the next entry does not overlap what is read of the layer. -/
theorem Geometry.slot_not_struct {a : ℕ} (h₁ : g.slot off k ≤ a)
    (h₂ : a < g.slot off k + cfg.entrySize) : ¬StructByte g off k a := by
  have hes := entrySize_ge cfg
  have hmem := g.slot_mem off k
  have hbs := g.entry_le
  rintro (⟨h₃, h₄⟩ | ⟨i, hi, h₃, h₄⟩ | ⟨i, hi, h₃, h₄⟩)
  · have := g.blockAt_add_le off (g.metaBlock_pos (i := k / g.perSeg))
    rw [Geometry.blockAt, Nat.mul_zero] at this
    omega
  · by_cases hq : g.metaBlock i = g.metaBlock (k / g.perSeg)
    · rw [← hq] at hmem
      omega
    · exact g.blockAt_disjoint (a := a) hq h₃ (by omega) ⟨by omega, by omega⟩
  · rcases g.slot_disjoint off (i := i) (j := k) (by omega) with h | h <;> omega

/-- No append stores into a data block. -/
theorem AppendByte.not_data {a : ℕ} (h : AppendByte g off k a) (i : ℕ) :
    ¬(g.dataOff off i ≤ a ∧ a < g.dataOff off i + g.blockSize) := by
  have hbs := g.entry_le
  rcases h with ⟨h₁, h₂⟩ | ⟨-, h₁, h₂⟩ | ⟨hfull, h | ⟨h₁, h₂⟩⟩
  · have hmem := g.slot_mem off k
    exact g.blockAt_disjoint (i := g.metaBlock (k / g.perSeg)) Geometry.metaBlock_ne_dataBlock
      (by omega) (by omega)
  · exact g.blockAt_disjoint Geometry.metaBlock_ne_dataBlock h₁ (by omega)
  · rw [Geometry.endOff, ← (g.blocks_succ_of_full hfull).2.2] at h
    exact g.blockAt_disjoint Geometry.metaBlock_ne_dataBlock h.1 (by omega)
  · have h0 : g.blockAt off 0 = off := by rw [Geometry.blockAt, Nat.mul_zero, Nat.add_zero]
    exact g.blockAt_disjoint (i := 0) (Nat.ne_of_lt Geometry.dataBlock_pos) (by omega) (by omega)

/-- An append stays inside the layer it makes. Past the end of the old one it
stores only into the new meta block, and not to where a super block would have
its magic. -/
theorem AppendByte.mem {a : ℕ} (h : AppendByte g off k a) :
    off ≤ a ∧ a < g.endOff off (k + 1) ∧
      (g.endOff off k ≤ a → a < g.endOff off k + 12 ∨ g.endOff off k + 16 ≤ a) := by
  have hbs := g.entry_le
  have hmem := g.slot_mem off k
  have hseg : k / g.perSeg ≤ g.lastSeg (k + 1) := Geometry.div_le_lastSeg (Nat.lt_succ_self k)
  have hend := g.blockAt_add_le off (g.metaBlock_lt hseg)
  have hle : ∀ q, off ≤ g.blockAt off q := fun q => Geometry.le_blockAt
  have hmono : g.endOff off k ≤ g.endOff off (k + 1) :=
    Geometry.blockAt_mono _ (Geometry.blocks_mono (Nat.le_succ k))
  have hlast := g.blockAt_add_le off (g.metaBlock_lt (le_refl (g.lastSeg k)))
  have h0 := g.add_blockSize_le_endOff off k
  have := hle (g.metaBlock (k / g.perSeg))
  have := hle (g.metaBlock (g.lastSeg k))
  simp only [Geometry.endOff] at *
  rcases h with ⟨h₁, h₂⟩ | ⟨-, h₁, h₂⟩ | ⟨hfull, h | ⟨h₁, h₂⟩⟩
  · refine ⟨by omega, by omega, fun h₃ => ?_⟩
    rcases Nat.lt_or_ge (k - g.lastSeg k * g.perSeg) g.perSeg with hlt | hge
    · rw [(g.lastSeg_succ_of_lt hlt).2.1] at hmem
      omega
    · have := g.slot_of_full off (le_antisymm g.counter_le hge)
      rw [Geometry.endOff] at this
      omega
  · omega
  · have := (g.blocks_succ_of_full hfull).1
    have := g.blockAt_mono off (show g.blocks k + 1 ≤ g.blocks (k + 1) by omega)
    rw [Geometry.blockAt_succ] at this
    rw [Geometry.endOff] at h
    omega
  · omega

/-! ### The stores of an append -/

/-- **The operations append an entry**: they store to the bytes of an append and
no others, they leave the layer longer by the entry and its slot with no mark, and a stop
in between leaves the layer with the entry or without. -/
structure Appends (g : Geometry cfg) (f : ByteFile) (off : ℕ) (es : List ℕ) (v : ℕ)
    (ops : List FileOp) : Prop where
  touches : ∀ o ∈ ops, ∀ a, o.Touches a → AppendByte g off es.length a
  layer : IsLayer g (FileOp.run ops f) off (es ++ [v])
  word : (FileOp.run ops f).load (g.slot off es.length) cfg.entrySize = v
  take : ∀ j, IsLayer g (FileOp.run (ops.take j) f) off es ∨
    FileOp.run (ops.take j) f = FileOp.run ops f

theorem touches_entryOps {m : Meta} {b : Bool} {o : FileOp} {a : ℕ}
    (ho : o ∈ entryOps cfg m v b) (h : o.Touches a) :
    slotOff cfg m ≤ a ∧ a < slotOff cfg m + cfg.entrySize := by
  simp only [entryOps, List.mem_append, List.mem_singleton] at ho
  rcases ho with (rfl | ho) | ho
  · exact h
  · split at ho
    · rw [List.mem_singleton] at ho
      subst ho
      exact h
    · simp at ho
  · split at ho
    · simp only [List.mem_cons, List.not_mem_nil, or_false] at ho
      rcases ho with rfl | rfl
      · exact h.elim
      · exact h.elim
    · simp at ho

theorem size_run_entryOps {m : Meta} {b : Bool} :
    (FileOp.run (entryOps cfg m v b) f).size = f.size := by
  rw [entryOps]
  split <;> split <;> rfl

theorem size_run_appendOps {m : Meta} {b : Bool} :
    (FileOp.run (appendOps cfg f m v b) f').size = f'.size := by
  rw [appendOps, FileOp.run_append]
  exact size_run_entryOps

theorem size_run_newMetaOps {m : ℕ} : (FileOp.run (newMetaOps cfg m) f).size = f.size := by
  rw [newMetaOps]
  split <;> rfl

/-- The slot reads back as the entry, as far as it is read. -/
theorem load_run_entryOps {m : Meta} {b : Bool} {w : ℕ} (hv : v < 2 ^ 32) (h4 : 4 ≤ w)
    (hw : w ≤ cfg.entrySize) (hs : slotOff cfg m + cfg.entrySize ≤ f.size) :
    (FileOp.run (entryOps cfg m v b) f).load (slotOff cfg m) w = v := by
  have hlt : v < 256 ^ w :=
    lt_of_lt_of_le hv (le_trans (by norm_num) (Nat.pow_le_pow_right (n := 256) (by norm_num) h4))
  have hmask : v &&& addrMask = v := by
    rw [show addrMask = 2 ^ 32 - 1 from rfl, Nat.and_two_pow_sub_one_eq_mod, Nat.mod_eq_of_lt hv]
  have hbar : ∀ f' : ByteFile, FileOp.run
      (if b = true then [.flush (slotOff cfg m), .fence] else []) f' = f' := by
    intro f'
    split <;> rfl
  rw [entryOps, FileOp.run_append, FileOp.run_append, hbar]
  split
  · rw [hmask]
    simp only [FileOp.run_cons, FileOp.run_nil, FileOp.exec_store]
    rw [ByteFile.load_store_prefix hw (by rw [ByteFile.size_store]; omega)]
    exact Nat.mod_eq_of_lt hlt
  · simp only [FileOp.run_cons, FileOp.run_nil, FileOp.exec_store]
    rw [ByteFile.load_store_prefix hw (by omega)]
    exact Nat.mod_eq_of_lt hlt

/-- The stores of an append to a meta block: the slot, then the counter, which
commits. -/
theorem appendOps_eq {m : Meta} {b : Bool} {c : ℕ} (hc : f.loadInt m.pmTop = c)
    (hlt : c + 1 < 2 ^ 31) (hslot : m.pmTop + 4 ≤ slotOff cfg m) :
    appendOps cfg f m v b = entryOps cfg m v b ++
      storeInt m.pmTop (c + 1 : ℕ) :: [.flush m.pmTop, .fence] := by
  have hload : (FileOp.run (entryOps cfg m v b) f).loadInt m.pmTop = c := by
    rw [← hc]
    refine ByteFile.loadInt_congr fun x h₁ h₂ => FileOp.byte_run_of_not_touches fun o ho ht => ?_
    have := touches_entryOps ho ht
    omega
  rw [appendOps, counterOps, hload, i32_of_range (by omega) (by omega)]
  push_cast
  rfl

/-- Operations that only reserve space. -/
def IsReserve : FileOp → Prop
  | .fallocate _ _ => True
  | _ => False

theorem not_touches_of_isReserve {o : FileOp} (h : IsReserve o) (a : ℕ) : ¬o.Touches a := by
  cases o with
  | store b w v => exact h.elim
  | flush b => exact id
  | fence => exact id
  | fallocate b n => exact id

theorem slotOff_eq {m : Meta} {c : ℕ} (hc : m.counter = c)
    (h : m.pmTop + 64 + cfg.entrySize * c < 2 ^ 64) :
    slotOff cfg m = m.pmTop + 64 + cfg.entrySize * c := by
  have hz : (m.pmTop : ℤ) + (clSize : ℕ) + cfg.entrySize * m.counter =
      (m.pmTop + 64 + cfg.entrySize * c : ℕ) := by
    rw [hc, show clSize = 64 from rfl]
    push_cast
    ring
  rw [slotOff, hz, u64_natCast h]

/-- The slot of the next entry in the active meta block. -/
theorem Super.Is.slotOff_active {s : Super} (hs : s.Is g off k)
    (hroom : k - g.lastSeg k * g.perSeg < g.perSeg) (hend : g.endOff off k < 2 ^ 64) :
    slotOff cfg s.activeMeta = g.slot off k := by
  have hmem := g.slot_mem off k
  rw [(g.lastSeg_succ_of_lt hroom).2.1, Geometry.slot_of_lt hroom] at hmem
  have hle : g.blockAt off (g.metaBlock (g.lastSeg k)) + g.blockSize ≤ g.endOff off k :=
    Geometry.blockAt_add_le _ (g.metaBlock_lt le_rfl)
  have hes := entrySize_ge cfg
  rw [hs.activeMeta, Geometry.slot_of_lt hroom]
  exact slotOff_eq rfl (by simp only; omega)

/-- The first slot of a new meta block. -/
theorem slotOff_newMeta (hfull : k - g.lastSeg k * g.perSeg = g.perSeg)
    (hend : g.endOff off k + 64 < 2 ^ 64) : slotOff cfg ⟨g.endOff off k, 0⟩ = g.slot off k := by
  have hlt : g.endOff off k + 64 + cfg.entrySize * 0 < 2 ^ 64 := by omega
  rw [slotOff_eq (c := 0) rfl hlt, Geometry.slot_of_full _ hfull, Nat.mul_zero, Nat.add_zero]

theorem byte_run_of_isReserve {pre : List FileOp} (hpre : ∀ o ∈ pre, IsReserve o) (a : ℕ) :
    (FileOp.run pre f).byte a = f.byte a :=
  FileOp.byte_run_of_not_touches fun o ho => not_touches_of_isReserve (hpre o ho) a

/-- The counter of the active meta block. -/
theorem IsLayer.loadInt_active (h : IsLayer g f off es) {s : Super} (hs : s.Is g off es.length)
    {pre : List FileOp} (hpre : ∀ o ∈ pre, IsReserve o) :
    (FileOp.run pre f).loadInt s.activeMeta.pmTop =
      (es.length - g.lastSeg es.length * g.perSeg : ℕ) := by
  rw [hs.activeMeta]
  refine (ByteFile.loadInt_congr fun a _ _ => byte_run_of_isReserve hpre a).trans ?_
  rw [h.counter _ le_rfl, Geometry.fill_lastSeg]

/-- **An append to the active segment**, after the space was reserved. -/
theorem IsLayer.appends_active (h : IsLayer g f off es) (hf : f.size < 2 ^ 63)
    (hroom : es.length - g.lastSeg es.length * g.perSeg < g.perSeg)
    (hcap : es.length + 1 ≤ g.cap) (hv : v < 2 ^ 32) {s : Super}
    (hs : s.Is g off es.length) (pre : List FileOp) (hpre : ∀ o ∈ pre, IsReserve o) (b : Bool)
    (hsize : g.endOff off (es.length + 1) ≤ (FileOp.run pre f).size) :
    Appends g f off es v (pre ++ appendOps cfg (FileOp.run pre f) s.activeMeta v b) := by
  have hc31 : es.length - g.lastSeg es.length * g.perSeg + 1 < 2 ^ 31 := by
    have := g.perSeg_lt
    omega
  set top := g.blockAt off (g.metaBlock (g.lastSeg es.length)) with htop
  set c := es.length - g.lastSeg es.length * g.perSeg with hcdef
  set f₁ := FileOp.run pre f with hf₁
  have hm : s.activeMeta = ⟨top, (c : ℕ)⟩ := hs.activeMeta
  have hbs := g.entry_le
  have hes := entrySize_ge cfg
  have hmem := g.slot_mem off es.length
  have hslot : g.slot off es.length = top + 64 + cfg.entrySize * c := Geometry.slot_of_lt hroom
  rw [(g.lastSeg_succ_of_lt hroom).2.1, ← htop] at hmem
  have htopend : top + g.blockSize ≤ g.endOff off es.length :=
    Geometry.blockAt_add_le _ (g.metaBlock_lt le_rfl)
  have hend : g.endOff off es.length ≤ g.endOff off (es.length + 1) :=
    Geometry.blockAt_mono _ (Geometry.blocks_mono (Nat.le_succ _))
  have hold := h.size_le
  have hslotOff : slotOff cfg s.activeMeta = g.slot off es.length :=
    hs.slotOff_active hroom (by omega)
  have hcnt₁ : f₁.loadInt s.activeMeta.pmTop = c := h.loadInt_active hs hpre
  rw [appendOps_eq hcnt₁ hc31 (by rw [hslotOff, hm, hslot]; simp only; omega)]
  rw [show pre ++ (entryOps cfg s.activeMeta v b ++
      storeInt s.activeMeta.pmTop (c + 1 : ℕ) :: [.flush s.activeMeta.pmTop, .fence]) =
    (pre ++ entryOps cfg s.activeMeta v b) ++
      storeInt s.activeMeta.pmTop (c + 1 : ℕ) :: [.flush s.activeMeta.pmTop, .fence] by simp]
  set early := pre ++ entryOps cfg s.activeMeta v b with hearly
  have hpost : ∀ o ∈ [FileOp.flush s.activeMeta.pmTop, .fence], o.IsBarrier := by
    intro o ho
    simp only [List.mem_cons, List.not_mem_nil, or_false] at ho
    rcases ho with rfl | rfl <;> trivial
  -- what precedes the counter stores to the slot only
  have htouch : ∀ o ∈ early, ∀ a, o.Touches a →
      g.slot off es.length ≤ a ∧ a < g.slot off es.length + cfg.entrySize := by
    intro o ho a ha
    rcases List.mem_append.mp ho with ho | ho
    · exact absurd ha (not_touches_of_isReserve (hpre o ho) a)
    · rw [← hslotOff]
      exact touches_entryOps ho ha
  have hrun : FileOp.run (early ++ storeInt s.activeMeta.pmTop (c + 1 : ℕ) ::
      [.flush s.activeMeta.pmTop, .fence]) f =
      (FileOp.run early f).store top 4 (u32 (c + 1 : ℕ)) := by
    rw [FileOp.run_append, FileOp.run_cons, FileOp.run_of_barriers hpost, hm]
    rfl
  have hsz : (FileOp.run early f).size = f₁.size := by
    rw [hearly, FileOp.run_append, size_run_entryOps]
  have hword : ∀ w, 4 ≤ w → w ≤ cfg.entrySize →
      ((FileOp.run early f).store top 4 (u32 (c + 1 : ℕ))).load (g.slot off es.length) w = v := by
    intro w h4 hw
    rw [ByteFile.load_store_disjoint (by omega), hearly, FileOp.run_append, ← hslotOff]
    exact load_run_entryOps hv h4 hw (by rw [hslotOff, ← hf₁]; omega)
  refine ⟨?_, ?_, ?_, ?_⟩
  · intro o ho a ha
    simp only [List.mem_append, List.mem_cons] at ho
    rcases ho with ho | rfl | ho
    · exact Or.inl (htouch o ho a ha)
    · rw [hm] at ha
      exact Or.inr (Or.inl ⟨hroom, ha⟩)
    · cases o with
      | store a w v => simp at ho
      | flush a => exact ha.elim
      | fence => exact ha.elim
      | fallocate a n => exact ha.elim
  · rw [hrun]
    refine h.snoc_active hroom hcap (by rw [ByteFile.size_store, hsz]; exact hsize) ?_ ?_ ?_
    · intro a ha hne
      rw [ByteFile.byte_store_of_notMem (by omega)]
      exact FileOp.byte_run_of_not_touches fun o ho ht =>
        Geometry.slot_not_struct (htouch o ho a ht).1 (htouch o ho a ht).2 ha
    · exact ByteFile.loadInt_store_nat (by rw [hsz]; omega) hc31
    · exact hword 4 le_rfl hes
  · rw [hrun]
    exact hword _ hes le_rfl
  · intro j
    rcases FileOp.run_take_cases (l := early) (f := f)
      (o := storeInt s.activeMeta.pmTop (c + 1 : ℕ))
      hpost j with ⟨i, hi⟩ | hi
    · left
      rw [hi]
      refine h.congr (le_trans hold FileOp.size_le_size_run) fun a ha => ?_
      refine FileOp.byte_run_of_not_touches fun o ho ht => ?_
      have := htouch o (List.mem_of_mem_take ho) a ht
      exact Geometry.slot_not_struct this.1 this.2 ha
    · right
      rw [hi, hrun, FileOp.run_append, hm]
      rfl

theorem touches_newMetaOps {m : ℕ} {o : FileOp} {a : ℕ} (ho : o ∈ newMetaOps cfg m)
    (h : o.Touches a) : m ≤ a ∧ a < m + 8 := by
  simp only [newMetaOps, List.mem_append, List.mem_singleton] at ho
  rcases ho with rfl | ho
  · obtain ⟨h₁, h₂⟩ : m ≤ a ∧ a < m + 4 := h
    omega
  · split at ho
    · rw [List.mem_singleton] at ho
      subst ho
      obtain ⟨h₁, h₂⟩ : m + 4 ≤ a ∧ a < m + 4 + 4 := h
      omega
    · simp at ho

theorem loadInt_run_newMetaOps (cfg : Config) {m : ℕ} (h : m + 4 ≤ f.size) :
    (FileOp.run (newMetaOps cfg m) f).loadInt m = 0 := by
  have h0 : (f.store m 4 (u32 0)).loadInt m = 0 :=
    ByteFile.loadInt_store_nat (n := 0) h (by norm_num)
  rw [newMetaOps, FileOp.run_append]
  split
  · exact (ByteFile.loadInt_store_disjoint (by omega)).trans h0
  · exact h0

/-- The counter of a new meta block. -/
theorem loadInt_newMeta {m : ℕ} {pre pre' : List FileOp} (hpre' : ∀ o ∈ pre', IsReserve o)
    (hsize : m + 4 ≤ (FileOp.run pre f).size) :
    (FileOp.run (pre ++ newMetaOps cfg m ++ pre') f).loadInt m = (0 : ℕ) := by
  rw [FileOp.run_append, FileOp.run_append]
  exact (ByteFile.loadInt_congr fun a _ _ => byte_run_of_isReserve hpre' a).trans
    (loadInt_run_newMetaOps cfg hsize)

/-- The last stores of an append that opens a new segment. -/
theorem Super.Is.rollOverOps_eq {s : Super} (hs : s.Is g off k) (hk : k < g.cap) :
    rollOverOps s = storeInt (off + 8) (g.lastSeg k + 1 : ℕ) :: [.flush off, .fence] := by
  have h₁ := g.lastSeg_le (k := k)
  have h₂ := g.cap_lt
  have hnum : i32 (s.activeMetaNum + 1) = (g.lastSeg k + 1 : ℕ) := by
    rw [hs.activeMetaNum, i32_of_range (by omega) (by omega)]
    push_cast
    rfl
  rw [rollOverOps, hnum, hs.myOff]

/-- **An append that opens a new segment**: space may be reserved before the meta
block is made and before the entry is put into it. -/
theorem IsLayer.appends_rollOver (h : IsLayer g f off es) (hf : f.size < 2 ^ 63)
    (hfull : es.length - g.lastSeg es.length * g.perSeg = g.perSeg)
    (hcap : es.length + 1 ≤ g.cap) (hv : v < 2 ^ 32) {s : Super}
    (hs : s.Is g off es.length) (pre pre' : List FileOp) (hpre : ∀ o ∈ pre, IsReserve o)
    (hpre' : ∀ o ∈ pre', IsReserve o) (b : Bool)
    (hsize : g.endOff off es.length + g.blockSize ≤ (FileOp.run pre f).size)
    (hsize' : g.endOff off (es.length + 1) ≤
      (FileOp.run (pre ++ newMetaOps cfg (g.endOff off es.length) ++ pre') f).size) :
    Appends g f off es v
      (pre ++ newMetaOps cfg (g.endOff off es.length) ++ pre' ++
        appendOps cfg (FileOp.run (pre ++ newMetaOps cfg (g.endOff off es.length) ++ pre') f)
          ⟨g.endOff off es.length, 0⟩ v b ++ rollOverOps s) := by
  have hseg31 : g.lastSeg es.length + 1 < 2 ^ 31 := by
    have h₁ := g.lastSeg_le (k := es.length)
    have h₂ := g.cap_lt
    omega
  set m := g.endOff off es.length with hm
  set first := pre ++ newMetaOps cfg m ++ pre' with hfirst
  set f₁ := FileOp.run first f with hf₁
  have hbs := g.entry_le
  have hes := entrySize_ge cfg
  have hold := h.size_le
  have hslot : g.slot off es.length = m + 64 := Geometry.slot_of_full _ hfull
  have hslotOff : slotOff cfg ⟨m, 0⟩ = g.slot off es.length := slotOff_newMeta hfull (by omega)
  have hcnt₁ : f₁.loadInt m = (0 : ℕ) := loadInt_newMeta hpre' (by omega)
  have happ : appendOps cfg f₁ ⟨m, 0⟩ v b = entryOps cfg ⟨m, 0⟩ v b ++
      storeInt m (1 : ℕ) :: [.flush m, .fence] :=
    appendOps_eq hcnt₁ (by norm_num) (by rw [hslotOff, hslot]; simp only; omega)
  set early := first ++ appendOps cfg f₁ ⟨m, 0⟩ v b with hearly
  have hroll : rollOverOps s =
      storeInt (off + 8) (g.lastSeg es.length + 1 : ℕ) :: [.flush off, .fence] :=
    hs.rollOverOps_eq hcap
  have hpost : ∀ o ∈ [FileOp.flush off, .fence], o.IsBarrier := by
    intro o ho
    simp only [List.mem_cons, List.not_mem_nil, or_false] at ho
    rcases ho with rfl | rfl <;> trivial
  rw [hroll]
  -- what precedes the number of the active meta block stores past the end of the layer only
  have htouch : ∀ o ∈ early, ∀ a, o.Touches a →
      g.slot off es.length ≤ a ∧ a < g.slot off es.length + cfg.entrySize ∨ m ≤ a ∧ a < m + 8 := by
    intro o ho a ha
    rw [hearly, happ, hfirst] at ho
    simp only [List.mem_append, List.mem_cons, List.not_mem_nil, or_false] at ho
    rcases ho with ((ho | ho) | ho) | ho | rfl | rfl | rfl
    · exact absurd ha (not_touches_of_isReserve (hpre o ho) a)
    · exact Or.inr (touches_newMetaOps ho ha)
    · exact absurd ha (not_touches_of_isReserve (hpre' o ho) a)
    · rw [← hslotOff]
      exact Or.inl (touches_entryOps ho ha)
    · obtain ⟨h₁, h₂⟩ : m ≤ a ∧ a < m + 4 := ha
      exact Or.inr ⟨h₁, by omega⟩
    · exact ha.elim
    · exact ha.elim
  have hout : ∀ o ∈ early, ∀ a, StructByte g off es.length a → ¬o.Touches a := by
    intro o ho a ha ht
    have h₁ := ha.mem
    rcases htouch o ho a ht with h₂ | h₂ <;> omega
  have hrun : FileOp.run (early ++ storeInt (off + 8) (g.lastSeg es.length + 1 : ℕ) ::
      [.flush off, .fence]) f =
      (FileOp.run early f).store (off + 8) 4 (u32 (g.lastSeg es.length + 1 : ℕ)) := by
    rw [FileOp.run_append, FileOp.run_cons, FileOp.run_of_barriers hpost]
    rfl
  have hrunEarly : FileOp.run early f =
      (FileOp.run (entryOps cfg ⟨m, 0⟩ v b) f₁).store m 4 (u32 (1 : ℕ)) := by
    rw [hearly, happ, FileOp.run_append, FileOp.run_append, ← hf₁]
    rfl
  have hsz : (FileOp.run early f).size = f₁.size := by
    rw [hrunEarly, ByteFile.size_store, size_run_entryOps]
  have hoff : off + g.blockSize ≤ m := Geometry.add_blockSize_le_endOff _ _
  have hmend : m + g.blockSize ≤ g.endOff off (es.length + 1) := by
    rw [hm, Geometry.endOff, Geometry.endOff, ← Geometry.blockAt_succ,
      (g.blocks_succ_of_full hfull).1]
    exact Geometry.blockAt_mono _ (by omega)
  have hword : ∀ w, 4 ≤ w → w ≤ cfg.entrySize → ((FileOp.run early f).store (off + 8) 4
      (u32 (g.lastSeg es.length + 1 : ℕ))).load (g.slot off es.length) w = v := by
    intro w h4 hw
    rw [ByteFile.load_store_disjoint (by omega), hrunEarly,
      ByteFile.load_store_disjoint (by omega), ← hslotOff]
    exact load_run_entryOps hv h4 hw (by rw [hslotOff, hslot]; omega)
  refine ⟨?_, ?_, ?_, ?_⟩
  · intro o ho a ha
    simp only [List.mem_append (s := early), List.mem_cons, List.not_mem_nil, or_false] at ho
    rcases ho with ho | rfl | rfl | rfl
    · rcases htouch o ho a ha with h₁ | h₁
      · exact Or.inl h₁
      · exact Or.inr (Or.inr ⟨hfull, Or.inl h₁⟩)
    · exact Or.inr (Or.inr ⟨hfull, Or.inr ha⟩)
    · exact ha.elim
    · exact ha.elim
  · rw [hrun]
    refine h.snoc_rollOver hfull hcap (by rw [ByteFile.size_store, hsz]; exact hsize') ?_ ?_ ?_ ?_
    · intro a ha hne
      rw [ByteFile.byte_store_of_notMem (by omega)]
      exact FileOp.byte_run_of_not_touches fun o ho => hout o ho a ha
    · exact ByteFile.loadInt_store_nat (by rw [hsz]; omega) hseg31
    · rw [ByteFile.loadInt_store_disjoint (by omega), hrunEarly]
      exact ByteFile.loadInt_store_nat (by rw [size_run_entryOps]; omega) (by norm_num)
    · exact hword 4 le_rfl hes
  · rw [hrun]
    exact hword _ hes le_rfl
  · intro j
    rcases FileOp.run_take_cases (l := early) (f := f)
      (o := storeInt (off + 8) (g.lastSeg es.length + 1 : ℕ)) hpost j with ⟨i, hi⟩ | hi
    · left
      rw [hi]
      refine h.congr (le_trans hold FileOp.size_le_size_run) fun a ha => ?_
      exact FileOp.byte_run_of_not_touches fun o ho => hout o (List.mem_of_mem_take ho) a ha
    · right
      rw [hi, hrun, FileOp.run_append]
      rfl

/-! ### `new_block`, plain body -/

/-- The values of a super block that `new_block` leaves alone. -/
def Super.SameEnv (s s' : Super) : Prop :=
  s'.fd = s.fd ∧ s'.fmmapLength = s.fmmapLength

section NewBlock

variable {s : Super}

/-- The number `new_block` compares with the capacity is the number of entries
the layer would have. -/
theorem Super.Is.toAllocNum (hs : s.Is g off k) : s.toAllocNum = (k + 1 : ℕ) := by
  have h₁ := g.lastSeg_mul_le (k := k)
  rw [Super.toAllocNum, hs.activeMetaNum, hs.maxPerSeg, hs.activeMeta]
  push_cast [h₁]
  ring

/-- The layer is below its capacity exactly if `new_block` gets past its check. -/
theorem Super.Is.check_iff (hs : s.Is g off k) :
    ¬2 ^ 31 ≤ s.toAllocNum ∧ ¬s.toAllocNum > s.maxBlockNum ↔ k + 1 ≤ g.cap := by
  have h₁ := g.maxBlockNum_lt
  rw [hs.toAllocNum, hs.maxBlockNum, Geometry.cap]
  omega

theorem Super.Is.counter (hs : s.Is g off k) :
    s.activeMeta.counter = (k - g.lastSeg k * g.perSeg : ℕ) := by
  rw [hs.activeMeta]

/-- The next block comes right after the layer. -/
theorem Super.Is.nextOff (hs : s.Is g off k) (h : g.endOff off k < 2 ^ 64) :
    s.nextOff = g.endOff off k := by
  have hz : (s.activeMetaOff : ℤ) + s.blockSize + s.activeMeta.counter * s.blockSize =
      (g.endOff off k : ℕ) := by
    rw [hs.activeMetaOff, hs.blockSize, hs.counter, Geometry.endOff, Geometry.blocks_eq,
      Geometry.blockAt, Geometry.blockAt]
    push_cast
    ring
  rw [Super.nextOff, hz, u64_natCast h]

theorem Super.Is.u64_blockSize (hs : s.Is g off k) : u64 s.blockSize = g.blockSize := by
  have := g.blockSize_lt
  rw [hs.blockSize, u64_natCast (by omega)]

theorem Super.Is.entryOf (hs : s.Is g off k) {faultOff : ℕ} :
    entryOf s faultOff = g.blockOf faultOff := by
  rw [Pcow.entryOf, hs.u64_blockSize, u32, Geometry.blockOf]
  omega

/-- The super block after an append to the active segment. -/
theorem Super.Is.succ_of_lt (hs : s.Is g off k) (h : k - g.lastSeg k * g.perSeg < g.perSeg) :
    Super.Is { s with activeMeta := { s.activeMeta with counter := s.activeMeta.counter + 1 } }
      g off (k + 1) := by
  have hseg := (g.lastSeg_succ_of_lt h).1
  have hle := g.lastSeg_mul_le (k := k)
  refine ⟨hs.blockSize, hs.maxBlockNum, ?_, hs.maxPerSeg, hs.myOff, ?_, ?_⟩
  · rw [hseg]
    exact hs.activeMetaNum
  · rw [hseg]
    exact hs.activeMetaOff
  · simp only [hs.activeMeta, hseg, Meta.mk.injEq, true_and]
    omega

/-- The super block after an append that opened a new segment. -/
theorem Super.Is.rollOver (hs : s.Is g off k) (h : k - g.lastSeg k * g.perSeg = g.perSeg)
    (hk : k + 1 < 2 ^ 31) (hend : g.endOff off k < 2 ^ 64) :
    (s.rollOver ⟨g.endOff off k, 1⟩).Is g off (k + 1) := by
  obtain ⟨hseg, -, -⟩ := g.lastSeg_succ_of_full h
  obtain ⟨-, -, hmeta⟩ := g.blocks_succ_of_full h
  have hle := g.lastSeg_le (k := k)
  have hnum : i32 (s.activeMetaNum + 1) = (g.lastSeg (k + 1) : ℕ) := by
    rw [hs.activeMetaNum, hseg, i32_of_range (by omega) (by omega)]
    push_cast
    rfl
  have htop : g.blockAt off (g.metaBlock (g.lastSeg (k + 1))) = g.endOff off k := by
    rw [hmeta, Geometry.endOff]
  have hz : (s.myOff : ℤ) + s.blockSize +
    (g.lastSeg (k + 1) : ℕ) * (s.maxPerSeg + 1) * s.blockSize =
      (g.endOff off k : ℕ) := by
    rw [← htop, hs.myOff, hs.blockSize, hs.maxPerSeg, Geometry.blockAt, Geometry.metaBlock]
    push_cast
    ring
  refine ⟨hs.blockSize, hs.maxBlockNum, hnum, hs.maxPerSeg, hs.myOff, ?_, ?_⟩
  · simp only [Super.rollOver, hnum, hz, u64_natCast hend, htop]
  · have hone : k + 1 - g.lastSeg (k + 1) * g.perSeg = 1 := by
      have hmul : (g.lastSeg k + 1) * g.perSeg = g.lastSeg k * g.perSeg + g.perSeg := by ring
      have := g.lastSeg_mul_le (k := k)
      rw [hseg]
      omega
    rw [htop, hone]
    rfl

/-- `new_block` in the active segment. -/
theorem newBlockPlain_of_lt {faultOff : ℕ}
    (hcheck : ¬2 ^ 31 ≤ s.toAllocNum ∧ ¬s.toAllocNum > s.maxBlockNum)
    (hlt : s.activeMeta.counter < s.maxPerSeg) (hok : FallocateOk s.nextOff s.blockSize) :
    newBlockPlain cfg f s faultOff =
      .ok ({ s with activeMeta := { s.activeMeta with counter := s.activeMeta.counter + 1 } },
        ⟨s.nextOff⟩, [.fallocate s.nextOff (u64 s.blockSize)] ++
          appendOps cfg (FileOp.run [.fallocate s.nextOff (u64 s.blockSize)] f) s.activeMeta
            (entryOf s faultOff) true) := by
  rw [newBlockPlain, if_neg hcheck.1, if_neg hcheck.2, if_pos hlt]
  exact if_neg (not_not.mpr hok)

/-- `new_block` with a full active segment. -/
theorem newBlockPlain_of_full {faultOff : ℕ}
    (hcheck : ¬2 ^ 31 ≤ s.toAllocNum ∧ ¬s.toAllocNum > s.maxBlockNum)
    (hfull : s.activeMeta.counter = s.maxPerSeg) (hok : FallocateOk s.nextOff s.blockSize)
    (hok' : FallocateOk (u64 (s.nextOff + s.blockSize)) s.blockSize) :
    newBlockPlain cfg f s faultOff =
      .ok (s.rollOver ⟨s.nextOff, 0 + 1⟩, ⟨u64 (s.nextOff + s.blockSize)⟩,
        [.fallocate s.nextOff (u64 s.blockSize)] ++ newMetaOps cfg s.nextOff ++
          [.fallocate (u64 (s.nextOff + s.blockSize)) (u64 s.blockSize)] ++
        appendOps cfg (FileOp.run ([.fallocate s.nextOff (u64 s.blockSize)] ++
          newMetaOps cfg s.nextOff ++
          [.fallocate (u64 (s.nextOff + s.blockSize)) (u64 s.blockSize)]) f) ⟨s.nextOff, 0⟩
          (entryOf s faultOff) true ++ rollOverOps s) := by
  rw [newBlockPlain, if_neg hcheck.1, if_neg hcheck.2, if_neg (by omega),
    if_neg (not_not.mpr hfull)]
  simp only [if_neg (not_not.mpr hok), if_neg (not_not.mpr hok')]

theorem Geometry.endOff_succ_of_lt (off : ℕ) (h : k - g.lastSeg k * g.perSeg < g.perSeg) :
    g.endOff off (k + 1) = g.endOff off k + g.blockSize ∧ g.dataOff off k = g.endOff off k := by
  obtain ⟨h₁, h₂⟩ := g.blocks_succ_of_lt h
  rw [endOff, h₁, blockAt_succ, endOff, dataOff, h₂]
  exact ⟨rfl, rfl⟩

theorem Geometry.endOff_succ_of_full (off : ℕ) (h : k - g.lastSeg k * g.perSeg = g.perSeg) :
    g.endOff off (k + 1) = g.endOff off k + g.blockSize + g.blockSize ∧
      g.dataOff off k = g.endOff off k + g.blockSize := by
  obtain ⟨h₁, h₂, -⟩ := g.blocks_succ_of_full h
  rw [endOff, h₁, blockAt_succ, blockAt_succ, endOff, dataOff, h₂, blockAt_succ]
  exact ⟨rfl, rfl⟩

/-- The data block of the next entry is the last block of the layer it makes. -/
theorem Geometry.dataOff_add : g.dataOff off k + g.blockSize = g.endOff off (k + 1) := by
  rcases Nat.lt_or_ge (k - g.lastSeg k * g.perSeg) g.perSeg with hlt | hge
  · obtain ⟨h₁, h₂⟩ := g.endOff_succ_of_lt off hlt
    rw [h₁, h₂]
  · obtain ⟨h₁, h₂⟩ := g.endOff_succ_of_full off (le_antisymm g.counter_le hge)
    rw [h₁, h₂]

/-- It comes after the layer. -/
theorem Geometry.endOff_le_dataOff (off k : ℕ) : g.endOff off k ≤ g.dataOff off k := by
  rcases lt_or_eq_of_le (g.counter_le (k := k)) with hlt | hfull
  · exact (g.endOff_succ_of_lt off hlt).2.ge
  · rw [(g.endOff_succ_of_full off hfull).2]
    exact Nat.le_add_right _ _

/-- An append stores to bytes before the data block it is for. -/
theorem AppendByte.lt_dataOff {a : ℕ} (h : AppendByte g off k a) : a < g.dataOff off k := by
  have h₁ := h.mem.2.1
  have h₂ := h.not_data k
  rw [← g.dataOff_add] at h₁
  omega

/-- **`new_block` appends**: while the layer is below its capacity and the file
may grow, the call returns the next data block, its stores append the entry and
the values in memory follow. -/
theorem IsLayer.newBlockPlain (h : IsLayer g f off es) (hf : f.size < 2 ^ 63)
    (hs : s.Is g off es.length) (hcap : es.length + 1 ≤ g.cap)
    (hend : g.endOff off (es.length + 1) < 2 ^ 63) (faultOff : ℕ) :
    ∃ s' ops, newBlockPlain cfg f s faultOff = .ok (s', ⟨g.dataOff off es.length⟩, ops) ∧
      s'.Is g off (es.length + 1) ∧ s.SameEnv s' ∧
      Appends g f off es (g.blockOf faultOff) ops ∧
      (FileOp.run ops f).size = max f.size (g.endOff off (es.length + 1)) := by
  have hbs := g.blockSize_pos
  have hk : es.length + 1 < 2 ^ 31 := lt_of_le_of_lt hcap g.cap_lt
  have hend₀ : g.endOff off es.length ≤ g.endOff off (es.length + 1) :=
    Geometry.blockAt_mono _ (Geometry.blocks_mono (Nat.le_succ _))
  have hnext := hs.nextOff (by omega)
  have hcheck := hs.check_iff.mpr hcap
  have hcounter := hs.counter
  have hper := hs.maxPerSeg
  rcases Nat.lt_or_ge (es.length - g.lastSeg es.length * g.perSeg) g.perSeg with hlt | hge
  · obtain ⟨hsz, hdata⟩ := g.endOff_succ_of_lt off hlt
    have hok : FallocateOk s.nextOff s.blockSize := by
      rw [hnext, hs.blockSize]
      exact ⟨by omega, by omega⟩
    rw [newBlockPlain_of_lt hcheck (by omega) hok, hdata.trans hnext.symm]
    refine ⟨_, _, rfl, hs.succ_of_lt hlt, ⟨rfl, rfl⟩, ?_, ?_⟩
    · rw [hs.entryOf]
      refine h.appends_active hf hlt hcap (g.blockOf_lt _) hs [_] (by simp [IsReserve]) true ?_
      rw [hsz, hnext, hs.u64_blockSize]
      exact le_max_right _ _
    · rw [FileOp.run_append, size_run_appendOps, hsz, hnext, hs.u64_blockSize]
      rfl
  · have hfull := le_antisymm g.counter_le hge
    obtain ⟨hsz, hdata⟩ := g.endOff_succ_of_full off hfull
    have hu : u64 (s.nextOff + s.blockSize) = g.endOff off es.length + g.blockSize := by
      rw [hnext, hs.blockSize, ← Nat.cast_add, u64_natCast (by omega)]
    have hok : FallocateOk s.nextOff s.blockSize := by
      rw [hnext, hs.blockSize]
      exact ⟨by omega, by omega⟩
    have hok' : FallocateOk (u64 (s.nextOff + s.blockSize)) s.blockSize := by
      rw [hu, hs.blockSize]
      exact ⟨by omega, by push_cast; omega⟩
    have hsize₁ : (FileOp.run ([.fallocate s.nextOff (u64 s.blockSize)] ++
        newMetaOps cfg s.nextOff ++
        [.fallocate (u64 (s.nextOff + s.blockSize)) (u64 s.blockSize)]) f).size =
        max f.size (g.endOff off (es.length + 1)) := by
      rw [FileOp.run_append, FileOp.run_append, FileOp.run_cons, FileOp.run_nil, FileOp.run_cons,
        FileOp.run_nil, FileOp.exec_fallocate, ByteFile.size_reserve, size_run_newMetaOps,
        FileOp.exec_fallocate, ByteFile.size_reserve, hu, hnext, hs.u64_blockSize, hsz]
      omega
    rw [newBlockPlain_of_full hcheck (by omega) hok hok', hdata.trans hu.symm]
    refine ⟨_, _, rfl, ?_, ⟨rfl, rfl⟩, ?_, ?_⟩
    · rw [hnext]
      exact hs.rollOver hfull hk (by omega)
    · rw [hnext] at hsize₁
      rw [hs.entryOf, hnext]
      refine h.appends_rollOver hf hfull hcap (g.blockOf_lt _) hs [_] [_]
        (by simp [IsReserve]) (by simp [IsReserve]) true ?_ ?_
      · rw [hs.u64_blockSize]
        exact le_max_right _ _
      · rw [hsize₁]
        exact le_max_right _ _
    · rw [FileOp.run_append, FileOp.run_append, ← hsize₁]
      exact size_run_appendOps

/-- **What a call that returned has checked**: the capacity, and that there is space for the block
or, where the active meta block is full, for the two blocks. -/
theorem newBlockPlain_ok {faultOff : ℕ} {r : Super × NewBlock × List FileOp}
    (hr : Pcow.newBlockPlain cfg f s faultOff = .ok r) :
    (¬2 ^ 31 ≤ s.toAllocNum ∧ ¬s.toAllocNum > s.maxBlockNum) ∧
      FallocateOk s.nextOff s.blockSize ∧
      (s.activeMeta.counter < s.maxPerSeg ∨ s.activeMeta.counter = s.maxPerSeg ∧
        FallocateOk (u64 (s.nextOff + s.blockSize)) s.blockSize) := by
  rw [Pcow.newBlockPlain] at hr
  split at hr
  · cases hr
  rename_i hcheck₁
  split at hr
  · cases hr
  rename_i hcheck₂
  refine ⟨⟨hcheck₁, hcheck₂⟩, ?_⟩
  split at hr
  · rename_i hlt
    simp only at hr
    split at hr
    · cases hr
    rename_i hok
    exact ⟨not_not.mp hok, Or.inl hlt⟩
  · split at hr
    · cases hr
    rename_i hfull
    simp only at hr
    split at hr
    · cases hr
    rename_i hok
    split at hr
    · cases hr
    rename_i hok'
    exact ⟨not_not.mp hok, Or.inr ⟨not_not.mp hfull, not_not.mp hok'⟩⟩

/-- A call that returned found room in the layer and in the file. -/
theorem Super.Is.room_of_newBlockPlain (hs : s.Is g off k) (hk : g.endOff off k < 2 ^ 63)
    {faultOff : ℕ} {r : Super × NewBlock × List FileOp}
    (hr : Pcow.newBlockPlain cfg f s faultOff = .ok r) :
    k + 1 ≤ g.cap ∧ g.endOff off (k + 1) < 2 ^ 63 := by
  have hnext := hs.nextOff (by omega)
  have hbs := g.blockSize_lt
  have hcounter := hs.counter
  have hper := hs.maxPerSeg
  obtain ⟨hcheck, ⟨-, hok⟩, hlt | ⟨hfull, -, hok'⟩⟩ := newBlockPlain_ok hr
  · refine ⟨hs.check_iff.mp hcheck, ?_⟩
    rw [(g.endOff_succ_of_lt off (k := k) (by omega)).1]
    rw [hnext, hs.blockSize] at hok
    omega
  · refine ⟨hs.check_iff.mp hcheck, ?_⟩
    rw [(g.endOff_succ_of_full off (k := k) (by omega)).1]
    have hu : u64 (s.nextOff + s.blockSize) = g.endOff off k + g.blockSize := by
      rw [hnext, hs.blockSize, ← Nat.cast_add, u64_natCast (by omega)]
    rw [hu, hs.blockSize] at hok'
    push_cast at hok'
    omega

end NewBlock

end Pcow
