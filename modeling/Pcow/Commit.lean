import Pcow.ReadBack
import Pcow.Close
import Pcow.Walk
import Pcow.Lib.Crash

/-!
# The commit points of `meta.c`

Each call that changes the metadata has one store that makes the change: the counter of the
active meta block, the number of the active meta block where a segment is opened, and the last
letter of the magic for a new layer. What comes before goes to bytes that no reader of the old
layers looks at, and lies in the same cache line as that store or is flushed and fenced before it
(`Update`).

It is not so without `FINEGRAINED_COW` in the body for `PRE_ALLOC`, which does not flush the slot
of the entry.
-/

namespace Pcow

variable {cfg : Config} {g : Geometry cfg} {f : ByteFile} {fd : Path} {off k v : ℕ}
  {es : List ℕ} {ls ls' : List (List ℕ)} {s s' : Super} {r r' : Ring} {ops : List FileOp}

/-- **An update with a commit point** that leads from the layers `ls` to the layers `ls'`. -/
structure Update (g : Geometry cfg) (f : ByteFile) (ls ls' : List (List ℕ)) (ops : List FileOp) :
    Prop where
  commits : ∃ early o post, ops = early ++ o :: post ∧
    FileOp.Commits f early o post (Held g ls) (Held g ls')
  holds : Holds g (FileOp.run ops f) ls'

/-! ### What `new_block` issues -/

/-- **The operations of a call of `new_block` that returns**: blocks are reserved, and the entry is
appended to the active meta block or, where that is full, to a new one. -/
theorem IsLayer.newBlock_ops (h : IsLayer g f off es) (hf : f.size < 2 ^ 63)
    (hs : s.Is g off es.length) (hring : RingInv g f off es.length s r)
    (hfg : cfg.finegrainedCow = true) {n n' faultOff : ℕ} {nb : NewBlock}
    (hr : Pcow.newBlock cfg f s r n n' faultOff = .ok (s', r', nb, ops)) :
    (es.length - g.lastSeg es.length * g.perSeg < g.perSeg ∧
      ∃ pre, (∀ o ∈ pre, IsReserve o) ∧
        ops = pre ++ appendOps cfg (FileOp.run pre f) s.activeMeta (g.blockOf faultOff) true) ∨
    (es.length - g.lastSeg es.length * g.perSeg = g.perSeg ∧
      ∃ pre pre', (∀ o ∈ pre, IsReserve o) ∧ (∀ o ∈ pre', IsReserve o) ∧
        g.endOff off es.length + g.blockSize ≤ (FileOp.run pre f).size ∧
        ops = pre ++ newMetaOps cfg (g.endOff off es.length) ++ pre' ++
          appendOps cfg (FileOp.run (pre ++ newMetaOps cfg (g.endOff off es.length) ++ pre') f)
            ⟨g.endOff off es.length, 0⟩ (g.blockOf faultOff) true ++ rollOverOps s) := by
  have hcounter := hs.counter
  have hper := hs.maxPerSeg
  have hle := g.counter_le (k := es.length)
  have hend := h.size_le
  have hnext := hs.nextOff (by omega)
  rw [Pcow.newBlock] at hr
  split at hr
  · rename_i hpre
    rcases (newBlockPre_ok hr).2 with ⟨hlt, s₁, r₁, nb₁, ops₁, hw, hx⟩ |
      ⟨hlt, s₁, r₁, nb₁, ops₁, s₂, r₂, nb₂, ops₂, hw, hw', hx⟩
    · cases hx
      obtain ⟨-, -, hsame, hres⟩ := (hring hpre).waitBlock hs hw
      have hs₁ := hs.sameLayer hsame
      refine Or.inl ⟨by omega, ops₁, hres, ?_⟩
      rw [hs₁.entryOf, hs₁.activeMeta, hs.activeMeta, hfg]
    · cases hx
      obtain ⟨rfl, hring₁, hsame₁, hres₁⟩ := (hring hpre).waitBlock hs hw
      obtain ⟨-, -, hsame₂, hres₂⟩ := hring₁.waitBlock (hs.sameLayer hsame₁) hw'
      have hsame := hsame₁.trans hsame₂
      refine Or.inr ⟨by omega, ops₁, ops₂, hres₁, hres₂, ?_, ?_⟩
      · have hall := hring₁.allocOff_le
        rw [hring₁.allocOff] at hall
        have := g.blockAt_mono off (show g.blocks es.length + 1 ≤
          g.blocks es.length + (0 + 1) + r₁.nbAvailable by omega)
        rw [Geometry.blockAt_succ] at this
        rw [Geometry.endOff]
        omega
      · rw [(hs.sameLayer hsame).entryOf, hsame]
        rfl
  · rcases hp : Pcow.newBlockPlain cfg f s faultOff with e | ⟨s₁, nb₁, ops₁⟩
    · rw [hp] at hr
      cases hr
    rw [hp] at hr
    cases hr
    have hres : ∀ a n : ℕ, ∀ o ∈ [FileOp.fallocate a n], IsReserve o := by simp [IsReserve]
    obtain ⟨hcheck, hok, hlt | ⟨hfull, hok'⟩⟩ := newBlockPlain_ok hp
    · rw [newBlockPlain_of_lt hcheck hlt hok] at hp
      cases hp
      refine Or.inl ⟨by omega, [.fallocate s.nextOff (u64 s.blockSize)], hres _ _, ?_⟩
      rw [hs.entryOf]
    · rw [newBlockPlain_of_full hcheck hfull hok hok'] at hp
      cases hp
      rw [hnext]
      refine Or.inr ⟨by omega, [.fallocate (g.endOff off es.length) (u64 s.blockSize)],
        [.fallocate (u64 ((g.endOff off es.length : ℕ) + s.blockSize)) (u64 s.blockSize)],
        hres _ _, hres _ _, ?_, ?_⟩
      · rw [hs.u64_blockSize]
        exact le_max_right _ _
      · rw [hs.entryOf]

/-! ### The bytes that are read after an append -/

/-- **What is read of a layer with one entry more**: the slot of the entry is, and the counter of
its meta block if that is new. -/
theorem StructByte.of_succ {a : ℕ} (h : StructByte g off (k + 1) a) : StructByte g off k a ∨
    (g.slot off k ≤ a ∧ a < g.slot off k + 4) ∨
    k - g.lastSeg k * g.perSeg = g.perSeg ∧ g.endOff off k ≤ a ∧ a < g.endOff off k + 4 := by
  rcases h with h | ⟨i, hi, ha⟩ | ⟨i, hi, ha⟩
  · exact Or.inl (Or.inl h)
  · rcases Nat.lt_or_ge (g.lastSeg k) i with hlt | hge
    · rcases lt_or_eq_of_le (g.counter_le (k := k)) with hroom | hfull
      · rw [(g.lastSeg_succ_of_lt hroom).1] at hi
        omega
      · have hseg := (g.lastSeg_succ_of_full hfull).1
        obtain rfl : i = g.lastSeg (k + 1) := by omega
        rw [(g.blocks_succ_of_full hfull).2.2] at ha
        exact Or.inr (Or.inr ⟨hfull, ha⟩)
    · exact Or.inl (Or.inr (Or.inl ⟨i, hge, ha⟩))
  · rcases Nat.lt_succ_iff_lt_or_eq.mp hi with hlt | rfl
    · exact Or.inl (Or.inr (Or.inr ⟨i, hlt, ha⟩))
    · exact Or.inr (Or.inl ha)

theorem Slack.mono {e e' a : ℕ} (h : Slack e' a) (hle : e + 128 ≤ e') : Slack e a := by
  have := h.1
  exact ⟨by omega, by omega⟩

/-- A block is longer than the two cache lines. -/
theorem Holds.le_blockSize (h : Holds g f ls) : 4096 ≤ g.blockSize :=
  Nat.le_of_dvd g.blockSize_pos h.dvd

theorem Holds.last (h : Holds g f (ls ++ [es])) : IsLayer g f (g.chainEnd 0 ls) es :=
  isLayers_singleton.mp (isLayers_append.mp h.layers).2

/-- Layers and meta blocks begin at a cache line. -/
theorem Holds.dvd_blockAt (h : Holds g f (ls ++ [es])) (q : ℕ) :
    64 ∣ g.blockAt (g.chainEnd 0 ls) q := by
  have hbs : 64 ∣ g.blockSize := Dvd.dvd.trans (by decide) h.dvd
  exact Nat.dvd_add (hbs.trans (g.dvd_chainEnd (dvd_zero _))) (hbs.mul_right q)

/-- The next slot is not read. -/
theorem not_held_of_slot {a : ℕ} (h₁ : g.slot (g.chainEnd 0 ls) es.length ≤ a)
    (h₂ : a < g.slot (g.chainEnd 0 ls) es.length + cfg.entrySize) : ¬Held g (ls ++ [es]) a := by
  have hmem := g.slot_mem (g.chainEnd 0 ls) es.length
  have hle : g.chainEnd 0 ls ≤
      g.blockAt (g.chainEnd 0 ls) (g.metaBlock (es.length / g.perSeg)) := Geometry.le_blockAt
  have hes : cfg.entrySize ≤ 8 := by rcases cfg.entrySize_cases with h | h <;> omega
  rintro (h | h)
  · rcases chainByte_concat.mp h with h | h
    · have := h.mem.2
      omega
    · exact Geometry.slot_not_struct h₁ h₂ h
  · rw [g.chainEnd_concat] at h
    rcases lt_or_eq_of_le (g.counter_le (k := es.length)) with hroom | hfull
    · rw [(g.lastSeg_succ_of_lt hroom).2.1] at hmem
      have hend : g.blockAt (g.chainEnd 0 ls) (g.metaBlock (g.lastSeg es.length)) + g.blockSize ≤
          g.endOff (g.chainEnd 0 ls) es.length := Geometry.blockAt_add_le _ (g.metaBlock_lt le_rfl)
      have := h.1
      omega
    · rw [g.slot_of_full _ hfull] at h₁ h₂
      exact h.2 ⟨h₁, by omega⟩

/-- Neither are the first bytes past the last layer. -/
theorem not_held_of_end {a : ℕ} (h₁ : g.chainEnd 0 ls ≤ a) (h₂ : a < g.chainEnd 0 ls + 15) :
    ¬Held g ls a := by
  rintro (h | h)
  · have := h.mem.2
    omega
  · have := h.1
    omega

/-- **What is read after an append** and was not read before it. -/
theorem Held.of_append {a : ℕ} (h : Held g (ls ++ [es ++ [v]]) a) (hbs : 4096 ≤ g.blockSize) :
    Held g (ls ++ [es]) a ∨
    (g.slot (g.chainEnd 0 ls) es.length ≤ a ∧ a < g.slot (g.chainEnd 0 ls) es.length + 4) ∨
    es.length - g.lastSeg es.length * g.perSeg = g.perSeg ∧
      g.endOff (g.chainEnd 0 ls) es.length ≤ a ∧ a < g.endOff (g.chainEnd 0 ls) es.length + 4 := by
  have hlen : (es ++ [v]).length = es.length + 1 := by simp
  rcases h with h | h
  · rw [chainByte_concat, hlen] at h
    rcases h with h | h
    · exact Or.inl (Or.inl (chainByte_concat.mpr (Or.inl h)))
    · exact h.of_succ.imp_left fun h => Or.inl (chainByte_concat.mpr (Or.inr h))
  · rw [g.chainEnd_concat, hlen, ← g.dataOff_add] at h
    have hle := g.endOff_le_dataOff (g.chainEnd 0 ls) es.length
    refine Or.inl (Or.inr ?_)
    rw [g.chainEnd_concat]
    exact h.mono (by omega)

/-! ### `new_block` -/

/-- Bytes of one cache line. -/
theorem div_eq_of_line {t a : ℕ} (ht : 64 ∣ t) (h₁ : t ≤ a) (h₂ : a < t + 64) :
    a / 64 = t / 64 := by
  obtain ⟨c, rfl⟩ := ht
  omega

/-- The slot of an entry does not cross the end of a cache line. -/
theorem Holds.slot_line (h : Holds g f (ls ++ [es])) (hfg : cfg.finegrainedCow = true) {a : ℕ}
    (h₁ : g.slot (g.chainEnd 0 ls) k ≤ a) (h₂ : a < g.slot (g.chainEnd 0 ls) k + 8) :
    g.slot (g.chainEnd 0 ls) k / 64 = a / 64 := by
  obtain ⟨c, hc⟩ := h.dvd_blockAt (g.metaBlock (k / g.perSeg))
  have hes : cfg.entrySize = 8 := by rw [Config.entrySize, if_pos hfg]
  rw [Geometry.slot, hc, hes] at h₁ h₂ ⊢
  omega

/-- Operations that write the slot flush it. -/
theorem secured_entryOps {m : Meta} {pre : List FileOp} {x : ℕ} (hx : slotOff cfg m / 64 = x / 64) :
    FileOp.Secured (pre ++ entryOps cfg m v true) x := by
  rw [entryOps, if_pos rfl, ← List.append_assoc]
  exact FileOp.secured_concat hx

/-- **The counter commits an entry of the active segment.** -/
theorem Holds.commits_active (h : Holds g f (ls ++ [es]))
    (hs : s.Is g (g.chainEnd 0 ls) es.length) (hfg : cfg.finegrainedCow = true)
    (hroom : es.length - g.lastSeg es.length * g.perSeg < g.perSeg) {pre : List FileOp}
    (hpre : ∀ o ∈ pre, IsReserve o) :
    ∃ early o post, pre ++ appendOps cfg (FileOp.run pre f) s.activeMeta v true =
      early ++ o :: post ∧
      FileOp.Commits f early o post (Held g (ls ++ [es])) (Held g (ls ++ [es ++ [v]])) := by
  have hlast := h.last
  have hend : g.endOff (g.chainEnd 0 ls) es.length < 2 ^ 63 :=
    lt_of_le_of_lt hlast.size_le h.size_lt
  have hslotOff := hs.slotOff_active hroom (by omega)
  have hper := g.perSeg_lt
  have hbs := h.le_blockSize
  have hes := entrySize_ge cfg
  have htop : s.activeMeta.pmTop =
      g.blockAt (g.chainEnd 0 ls) (g.metaBlock (g.lastSeg es.length)) := by rw [hs.activeMeta]
  have hdvd : 64 ∣ s.activeMeta.pmTop := by
    rw [htop]
    exact h.dvd_blockAt _
  have hslot : s.activeMeta.pmTop + 64 ≤ g.slot (g.chainEnd 0 ls) es.length := by
    rw [htop, Geometry.slot_of_lt hroom]
    exact Nat.le_add_right _ _
  rw [appendOps_eq (hlast.loadInt_active hs hpre) (by omega) (by omega), ← List.append_assoc]
  refine ⟨_, _, _, rfl, FileOp.commits_of_flush ?_ trivial ?_ ?_⟩
  · -- what precedes the counter is stored to the slot
    intro o ho x hx ht
    rcases List.mem_append.mp ho with ho | ho
    · exact not_touches_of_isReserve (hpre o ho) x ht
    · have hin := touches_entryOps ho ht
      rw [hslotOff] at hin
      exact not_held_of_slot hin.1 hin.2 hx
  · intro x hx
    exact div_eq_of_line hdvd hx.1 (by have := hx.2; omega)
  · intro x hx
    rcases hx.of_append hbs with hx | ⟨h₁, h₂⟩ | ⟨hfull, -⟩
    · exact Or.inl hx
    · refine Or.inr ⟨secured_entryOps ?_, fun ht => ?_⟩
      · rw [hslotOff]
        exact h.slot_line hfg h₁ (by omega)
      · have := ht.2
        omega
    · omega

/-- **The number of the active meta block commits an entry that opens a segment.** -/
theorem Holds.commits_rollOver (h : Holds g f (ls ++ [es]))
    (hs : s.Is g (g.chainEnd 0 ls) es.length) (hfg : cfg.finegrainedCow = true)
    (hfull : es.length - g.lastSeg es.length * g.perSeg = g.perSeg) (hcap : es.length < g.cap)
    {pre pre' : List FileOp} (hpre : ∀ o ∈ pre, IsReserve o)
    (hpre' : ∀ o ∈ pre', IsReserve o) {m : ℕ}
    (hm : m = g.endOff (g.chainEnd 0 ls) es.length)
    (hsize : m + g.blockSize ≤ (FileOp.run pre f).size) :
    ∃ early o post, pre ++ newMetaOps cfg m ++ pre' ++
        appendOps cfg (FileOp.run (pre ++ newMetaOps cfg m ++ pre') f)
          ⟨m, 0⟩ v true ++ rollOverOps s =
      early ++ o :: post ∧
      FileOp.Commits f early o post (Held g (ls ++ [es])) (Held g (ls ++ [es ++ [v]])) := by
  have hend : m < 2 ^ 63 := hm ▸ lt_of_le_of_lt h.last.size_le h.size_lt
  have hslotOff : slotOff cfg ⟨m, 0⟩ = g.slot (g.chainEnd 0 ls) es.length := by
    rw [hm] at hend ⊢
    exact slotOff_newMeta hfull (by omega)
  have hslot : g.slot (g.chainEnd 0 ls) es.length = m + 64 := by
    rw [hm]
    exact Geometry.slot_of_full _ hfull
  have hbs := h.le_blockSize
  have hes := entrySize_ge cfg
  have hoff : g.chainEnd 0 ls + g.blockSize ≤ m := hm ▸ Geometry.add_blockSize_le_endOff _ _
  have hdvdm : 64 ∣ m := by
    rw [hm]
    exact h.dvd_blockAt _
  have hdvd : 64 ∣ g.chainEnd 0 ls := by
    have := h.dvd_blockAt 0
    rwa [Geometry.blockAt, Nat.mul_zero, Nat.add_zero] at this
  have hmend : m = g.chainEnd 0 (ls ++ [es]) := by rw [hm, g.chainEnd_concat]
  have hload : (FileOp.run (pre ++ newMetaOps cfg m ++ pre') f).loadInt m = (0 : ℕ) :=
    loadInt_newMeta hpre' (by omega)
  have hapart : m + 4 ≤ slotOff cfg ⟨m, 0⟩ := by
    rw [hslotOff, hslot]
    omega
  have happ := @appendOps_eq cfg _ v ⟨m, 0⟩ true 0 hload (by norm_num) hapart
  rw [happ, hs.rollOverOps_eq hcap]
  refine ⟨_, _, _, rfl, FileOp.commits_of_flush ?_ trivial ?_ ?_⟩
  · -- what precedes the number is stored past the end of the last layer
    intro o ho x hx ht
    simp only [List.mem_append, List.mem_cons, List.not_mem_nil, or_false] at ho
    rcases ho with ((ho | ho) | ho) | ho | rfl | rfl | rfl
    · exact not_touches_of_isReserve (hpre o ho) x ht
    · have hin := touches_newMetaOps ho ht
      exact not_held_of_end (hmend ▸ hin.1) (by omega) hx
    · exact not_touches_of_isReserve (hpre' o ho) x ht
    · have hin := touches_entryOps ho ht
      rw [hslotOff] at hin
      exact not_held_of_slot hin.1 hin.2 hx
    · have hin : m ≤ x ∧ x < m + 4 := ht
      exact not_held_of_end (hmend ▸ hin.1) (by omega) hx
    · exact ht
    · exact ht
  · intro x hx
    have hin : g.chainEnd 0 ls + 8 ≤ x ∧ x < g.chainEnd 0 ls + 8 + 4 := hx
    exact div_eq_of_line hdvd (by omega) (by omega)
  · intro x hx
    rcases hx.of_append hbs with hx | ⟨h₁, h₂⟩ | ⟨-, h₁, h₂⟩
    · exact Or.inl hx
    · -- the entry is flushed before the counter is stored
      refine Or.inr ⟨?_, fun ht => ?_⟩
      · rw [← List.append_assoc]
        refine (secured_entryOps ?_).append fun p hp => ?_
        · rw [hslotOff]
          exact h.slot_line hfg h₁ (by omega)
        · simp only [List.mem_cons, List.not_mem_nil, or_false] at hp
          rcases hp with rfl | rfl | rfl
          · intro ht
            have hin : m ≤ x ∧ x < m + 4 := ht
            omega
          · exact id
          · exact id
      · have hin : g.chainEnd 0 ls + 8 ≤ x ∧ x < g.chainEnd 0 ls + 8 + 4 := ht
        omega
    · -- and the counter before the number
      rw [← hm] at h₁ h₂
      refine Or.inr ⟨?_, fun ht => ?_⟩
      · rw [← List.singleton_append, ← List.append_assoc, ← List.append_assoc]
        exact FileOp.secured_concat (div_eq_of_line hdvdm h₁ (by omega)).symm
      · have hin : g.chainEnd 0 ls + 8 ≤ x ∧ x < g.chainEnd 0 ls + 8 + 4 := ht
        omega

/-- **What a file holds after an append.** -/
theorem Holds.appends (h : Holds g f (ls ++ [es])) (happ : Appends g f (g.chainEnd 0 ls) es v ops)
    (hsz : (FileOp.run ops f).size < 2 ^ 63) : Holds g (FileOp.run ops f) (ls ++ [es ++ [v]]) := by
  have hlen : (es ++ [v]).length = es.length + 1 := by simp
  have hbs := h.le_blockSize
  have hbyte : ∀ a, ¬AppendByte g (g.chainEnd 0 ls) es.length a →
      (FileOp.run ops f).byte a = f.byte a := fun a ha =>
    FileOp.byte_run_of_not_touches fun o ho ht => ha (happ.touches o ho a ht)
  have hfrozen := (isLayers_append.mp h.layers).1
  refine ⟨isLayers_append.mpr ⟨?_, isLayers_singleton.mpr happ.layer⟩, fun a ha => ?_, h.dvd, hsz⟩
  · refine hfrozen.congr_bytes (le_trans hfrozen.chainEnd_le_size FileOp.size_le_size_run)
      fun a ha => hbyte a fun hap => ?_
    have h₁ := ha.mem.2
    have h₂ := hap.mem.1
    omega
  · rw [g.chainEnd_concat, hlen] at ha
    have h₁ := ha.1
    rw [hbyte a fun hap => by have := hap.mem.2.1; omega]
    refine h.slack a ?_
    rw [g.chainEnd_concat]
    rw [← g.dataOff_add] at ha
    have hle := g.endOff_le_dataOff (g.chainEnd 0 ls) es.length
    exact ha.mono (by omega)

/-- **A call of `new_block` that returns is an update with a commit point.** -/
theorem Holds.update_newBlock (h : Holds g f (ls ++ [es]))
    (hs : s.Is g (g.chainEnd 0 ls) es.length)
    (hring : RingInv g f (g.chainEnd 0 ls) es.length s r) (hfg : cfg.finegrainedCow = true)
    {n n' faultOff : ℕ} {nb : NewBlock}
    (hr : newBlock cfg f s r n n' faultOff = .ok (s', r', nb, ops)) :
    Update g f (ls ++ [es]) (ls ++ [es ++ [g.blockOf faultOff]]) ops := by
  obtain ⟨hcap, -, -, -, happ, hsz, -⟩ := h.last.newBlock h.size_lt hs hring hr
  refine ⟨?_, h.appends happ hsz⟩
  rcases h.last.newBlock_ops h.size_lt hs hring hfg hr with
    ⟨hroom, pre, hpre, rfl⟩ | ⟨hfull, pre, pre', hpre, hpre', hsize, rfl⟩
  · exact h.commits_active hs hfg hroom hpre
  · exact h.commits_rollOver hs hfg hfull hcap hpre hpre' rfl hsize

/-- **A call that does not return** touches nothing that is read. -/
theorem Holds.litters (hops : Litters g f (g.chainEnd 0 ls) es.length ops) :
    ∀ o ∈ ops, ∀ x, Held g (ls ++ [es]) x → ¬o.Touches x := by
  intro o ho x hx ht
  obtain ⟨hge, happ⟩ := hops.2 o ho x ht
  have hle := g.add_blockSize_le_endOff (g.chainEnd 0 ls) es.length
  have hbs := g.entry_le
  rcases happ with ⟨h₁, h₂⟩ | ⟨-, h₁, h₂⟩ | ⟨hfull, ⟨h₁, h₂⟩ | ⟨h₁, h₂⟩⟩
  · exact not_held_of_slot h₁ h₂ hx
  · have := g.blockAt_add_le (g.chainEnd 0 ls) (g.metaBlock_lt (le_refl (g.lastSeg es.length)))
    rw [Geometry.endOff] at hge
    omega
  · rw [← g.chainEnd_concat] at h₁ h₂
    exact not_held_of_end h₁ (by omega) hx
  · omega

/-! ### The entry of a block -/

/-- **A store to an entry is an update with a commit point**: it stays within a cache line. -/
theorem Holds.update_entryStore (h : Holds g f (ls ++ [es])) (hfg : cfg.finegrainedCow = true)
    {j : ℕ} (hj : j < es.length) (F : ℕ → ℕ) :
    ∃ v, Update g f (ls ++ [es]) (ls ++ [es.set j v])
      (Session.entryStore cfg f (g.slot (g.chainEnd 0 ls) j) F) := by
  have hes : cfg.entrySize = 8 := by rw [Config.entrySize, if_pos hfg]
  set e := g.slot (g.chainEnd 0 ls) j with he
  set x := F (f.load e cfg.entrySize) with hx
  have hlayer := h.last.setEntry hj x
  have hend : g.chainEnd 0 (ls ++ [es.set j (x % 2 ^ 32)]) = g.chainEnd 0 (ls ++ [es]) := by
    rw [g.chainEnd_concat, g.chainEnd_concat, List.length_set]
  have hheld : ∀ a, Held g (ls ++ [es.set j (x % 2 ^ 32)]) a → Held g (ls ++ [es]) a := by
    rintro a (ha | ha)
    · rw [chainByte_concat, List.length_set] at ha
      exact Or.inl (chainByte_concat.mpr ha)
    · exact Or.inr (hend ▸ ha)
  have hmem := g.slot_mem (g.chainEnd 0 ls) j
  have hseg := g.blockAt_add_le (g.chainEnd 0 ls)
    (g.metaBlock_lt (Geometry.div_le_lastSeg (g := g) hj))
  have hle : g.chainEnd 0 ls ≤ g.blockAt (g.chainEnd 0 ls) (g.metaBlock (j / g.perSeg)) :=
    Geometry.le_blockAt
  refine ⟨x % 2 ^ 32, ⟨[], .store e cfg.entrySize x, [.flush e, .fence], rfl,
    FileOp.commits_of_flush (fun p hp => by cases hp) trivial (fun a ha => ?_)
      fun a ha => Or.inl (hheld a ha)⟩, isLayers_append.mpr ⟨?_, isLayers_singleton.mpr hlayer⟩,
    fun a ha => ?_, h.dvd, h.size_lt⟩
  · have hin : e ≤ a ∧ a < e + cfg.entrySize := ha
    exact (h.slot_line hfg hin.1 (by omega)).symm
  · have hfrozen := (isLayers_append.mp h.layers).1
    refine hfrozen.congr_bytes hfrozen.chainEnd_le_size fun a ha => ?_
    have := ha.mem.2
    exact ByteFile.byte_store_of_notMem (by omega)
  · rw [hend] at ha
    have hpast := ha.1
    rw [g.chainEnd_concat, Geometry.endOff] at hpast
    exact (ByteFile.byte_store_of_notMem (by omega)).trans (h.slack a ha)

/-! ### `new_super` -/

/-- **`new_super` on a file that holds layers**: it stores at the end of the last one. -/
theorem Holds.newSuper_ok (h : Holds g f ls) {x : List FileOp × Option Super}
    (hr : newSuper cfg f fd g.blockSize g.maxBlockNum = .ok x) :
    x.1 = newSuperOps cfg (g.chainEnd 0 ls) g.blockSize g.maxBlockNum ∧ g.blockSize < 2 ^ 30 ∧
      g.chainEnd 0 ls + 2 * g.blockSize < 2 ^ 63 := by
  have key : ∀ {e : ℕ}, (if ¬FallocateOk e (i32 ((g.blockSize : ℤ) * 2)) then .error .assertFailed
      else if ¬MmapOk e ∨ ¬MmapOk (u64 (e + (g.blockSize : ℤ))) then .error .sigsegv
      else (readFirstSuper cfg (FileOp.run (newSuperOps cfg e g.blockSize g.maxBlockNum) f)
        fd e).map
        fun s => (newSuperOps cfg e g.blockSize g.maxBlockNum, s)) = Except.ok x →
      x.1 = newSuperOps cfg e g.blockSize g.maxBlockNum ∧ g.blockSize < 2 ^ 30 ∧
        e + 2 * g.blockSize < 2 ^ 63 := by
    intro e he
    split at he
    · cases he
    rename_i hok
    split at he
    · cases he
    refine ⟨?_, Geometry.blockSize_lt_of_fallocateOk (not_not.mp hok)⟩
    rcases hread : readFirstSuper cfg
      (FileOp.run (newSuperOps cfg e g.blockSize g.maxBlockNum) f) fd e with _ | y
    · rw [hread] at he
      cases he
    · rw [hread] at he
      cases he
      rfl
  rcases List.eq_nil_or_concat' ls with rfl | ⟨init, es, rfl⟩
  · rw [newSuper, h.readLastSuper_nil fd] at hr
    exact key hr
  · rw [newSuper, h.isChain.readLastSuper h.size_lt fd] at hr
    simp only [h.last.endOff h.size_lt superOf_is, ← g.chainEnd_concat] at hr
    exact key hr

/-- What is read after `new_super` and was not read before it is the new super block. -/
theorem Held.of_newSuper {a : ℕ} (h : Held g (ls ++ [[]]) a) (hbs : 4096 ≤ g.blockSize) :
    Held g ls a ∨ g.chainEnd 0 ls ≤ a ∧ a < g.chainEnd 0 ls + 16 := by
  rcases h with h | h
  · rcases chainByte_concat.mp h with h | h | ⟨i, hi, h₁, -⟩ | ⟨i, hi, -⟩
    · exact Or.inl (Or.inl h)
    · exact Or.inr h
    · have hle := g.blockAt_add_le (g.chainEnd 0 ls) (g.metaBlock_pos (i := i))
      rw [Geometry.blockAt, Nat.mul_zero, Nat.add_zero] at hle
      exact Or.inl (Or.inr ⟨by omega, by omega⟩)
    · simp at hi
  · rw [g.chainEnd_concat] at h
    have hle := g.add_blockSize_le_endOff (g.chainEnd 0 ls) ([] : List ℕ).length
    exact Or.inl (Or.inr (h.mono (by omega)))

/-- **The last letter of the magic commits a layer.** -/
theorem Holds.commits_newSuper (h : Holds g f ls) (hfg : cfg.finegrainedCow = true)
    (hlt : g.chainEnd 0 ls + 2 * g.blockSize < 2 ^ 63) :
    ∃ early o post, newSuperOps cfg (g.chainEnd 0 ls) g.blockSize g.maxBlockNum =
      early ++ o :: post ∧ FileOp.Commits f early o post (Held g ls) (Held g (ls ++ [[]])) := by
  set e := g.chainEnd 0 ls with he
  have hbs := h.le_blockSize
  have hdvd : 64 ∣ e := Dvd.dvd.trans (by decide) h.dvd_chainEnd
  have htop : u64 (e + (g.blockSize : ℤ)) = e + g.blockSize := by
    rw [← Nat.cast_add, u64_natCast (by omega)]
  set top := e + g.blockSize with htop'
  have hdvd' : 64 ∣ top := Nat.dvd_add hdvd (Dvd.dvd.trans (by decide) h.dvd)
  set early : List FileOp :=
    [.fallocate e (i32 ((g.blockSize : ℤ) * 2)).toNat, storeInt e g.blockSize,
    storeInt (e + 4) g.maxBlockNum, storeInt (e + 8) 0, .store (e + 12) 1 0x4e,
    .store (e + 13) 1 0x42, .store (e + 14) 1 0x4a] with hearly
  set o : FileOp := .store (e + 15) 1 0x4c with ho
  set post : List FileOp :=
    [.flush e, .fence, storeInt top 0, storeInt (top + 4) 0, .flush top, .fence]
    with hpost
  have hops : newSuperOps cfg e g.blockSize g.maxBlockNum = early ++ o :: post := by
    rw [newSuperOps, if_pos hfg, htop]
    rfl
  have htouch : ∀ p ∈ early, ∀ x, p.Touches x → e ≤ x ∧ x < e + 15 := by
    intro p hp x ht
    simp only [hearly, List.mem_cons, List.not_mem_nil, or_false] at hp
    rcases hp with rfl | rfl | rfl | rfl | rfl | rfl | rfl <;>
      simp only [FileOp.Touches, storeInt] at ht
    all_goals omega
  have htouch' : ∀ p ∈ post, ∀ x, p.Touches x → top ≤ x ∧ x < top + 8 := by
    intro p hp x ht
    simp only [hpost, List.mem_cons, List.not_mem_nil, or_false] at hp
    rcases hp with rfl | rfl | rfl | rfl | rfl | rfl <;>
      simp only [FileOp.Touches, storeInt] at ht
    all_goals omega
  have hline : ∀ x, e ≤ x → x < e + 16 → x / 64 = e / 64 := fun x h₁ h₂ =>
    div_eq_of_line hdvd h₁ (by omega)
  refine ⟨early, o, post, hops, ⟨?_, ⟨e / 64, ?_, ?_⟩, ?_, ?_, ?_⟩⟩
  · intro p hp x hx ht
    have hin := htouch p hp x ht
    exact not_held_of_end hin.1 hin.2 hx
  · intro x hx
    have hin : e + 15 ≤ x ∧ x < e + 15 + 1 := hx
    exact hline x (by omega) (by omega)
  · intro x hx
    rcases hx.of_newSuper hbs with hx | ⟨h₁, h₂⟩
    · exact Or.inr (Or.inl hx)
    · exact Or.inl (hline x h₁ h₂)
  · intro p hp
    simp only [hpost, List.mem_cons, List.not_mem_nil, or_false] at hp
    rcases hp with rfl | rfl | rfl | rfl | rfl | rfl | rfl <;> trivial
  · -- the counters of the new meta block are stored where there are zeros
    intro x _
    by_cases hx : top ≤ x ∧ x < top + 8
    · have hzero : (FileOp.run (early ++ [o]) f).byte x = 0 := by
        rw [FileOp.byte_run_of_not_touches fun p hp ht => ?_]
        · exact h.slack x ⟨by omega, by omega⟩
        · rcases List.mem_append.mp hp with hp | hp
          · have := htouch p hp x ht
            omega
          · rw [List.mem_singleton.mp hp] at ht
            have hin : e + 15 ≤ x ∧ x < e + 15 + 1 := ht
            omega
      rw [hzero]
      refine FileOp.always_zero (fun a w v hm => ?_) hzero
      simp only [hpost, storeInt, List.mem_cons, FileOp.store.injEq, List.not_mem_nil, or_false,
        reduceCtorEq, false_or] at hm
      rcases hm with ⟨-, -, rfl⟩ | ⟨-, -, rfl⟩ <;> rfl
    · exact FileOp.always_byte fun p hp ht => hx (htouch' p hp x ht)
  · intro x hx
    by_cases hnew : e ≤ x ∧ x < e + 16
    · -- the super block
      left
      rw [show early ++ o :: post = early ++ [o] ++ [.flush e, .fence] ++
        [storeInt top 0, storeInt (top + 4) 0, .flush top, .fence] by rw [hpost]; simp]
      refine (FileOp.secured_concat (hline x hnew.1 hnew.2).symm).append fun p hp ht => ?_
      have := htouch' p
        (by rw [hpost]; exact List.mem_cons_of_mem _ (List.mem_cons_of_mem _ hp)) x ht
      omega
    by_cases htop : top ≤ x ∧ x < top + 8
    · -- the meta block
      left
      rw [show early ++ o :: post =
        early ++ o :: [.flush e, .fence, storeInt top 0, storeInt (top + 4) 0] ++
        [.flush top, .fence] by rw [hpost]; simp]
      exact FileOp.secured_concat (div_eq_of_line hdvd' htop.1 (by omega)).symm
    · refine Or.inr ⟨(hx.of_newSuper hbs).resolve_right hnew, fun p hp ht => ?_⟩
      simp only [List.mem_append, List.mem_cons] at hp
      rcases hp with hp | rfl | hp
      · have := htouch p hp x ht
        omega
      · have hin : e + 15 ≤ x ∧ x < e + 15 + 1 := ht
        omega
      · exact htop (htouch' p hp x ht)

/-- **A call of `new_super` that returns is an update with a commit point.** -/
theorem Holds.update_newSuper (h : Holds g f ls) (hfg : cfg.finegrainedCow = true)
    {x : List FileOp × Option Super}
    (hr : newSuper cfg f fd g.blockSize g.maxBlockNum = .ok x) :
    Update g f ls (ls ++ [[]]) x.1 := by
  obtain ⟨hops, hbs, hlt⟩ := h.newSuper_ok hr
  have hle := h.le_blockSize
  rw [hops]
  refine ⟨h.commits_newSuper hfg hlt, ?_⟩
  obtain ⟨hlayer, hbelow, htail, hsz⟩ := isLayer_run_newSuperOps hbs hlt
    h.size_lt fun a ha => h.slack a ⟨by omega, by omega⟩
  refine ⟨isLayers_append.mpr ⟨?_, isLayers_singleton.mpr hlayer⟩, fun a ha => ?_, h.dvd, hsz⟩
  · exact h.layers.congr_bytes (le_trans h.layers.chainEnd_le_size FileOp.size_le_size_run)
      fun a ha => hbelow a ha.mem.2
  · rw [g.chainEnd_concat] at ha
    have := ha.1
    exact htail a (by rw [List.length_nil] at this; omega)

end Pcow
