import Pcow.Layout

/-!
# Layers in a file

`IsLayer g f off es` says that the file `f` holds, at offset `off`, a layer whose
entries name the virtual blocks `es`, in the order they were appended, and
`IsChain g f off ls` that it holds the layers `ls` one after the other and nothing
the chain walk would take for another one after them.

Each reading function of `meta.c` is then characterised on such a file: the super
block of a layer is read as `superOf`, the next one is looked for at the end of
the layer, and the walk returns one super block for each layer of the chain. The
file is assumed to be shorter than `2 ^ 63` bytes, as every file is whose offsets
are signed 64-bit numbers.
-/

namespace Pcow

variable {cfg : Config} {g : Geometry cfg} {f f' : ByteFile} {fd : Path} {off k : ℕ}
  {es : List ℕ} {ls : List (List ℕ)}

/-! ### What the cached values of a layer are -/

/-- The values in memory of a super block agree with a layer of `k` entries at
`off`. -/
structure Super.Is (s : Super) (g : Geometry cfg) (off k : ℕ) : Prop where
  blockSize : s.blockSize = g.blockSize
  maxBlockNum : s.maxBlockNum = g.maxBlockNum
  activeMetaNum : s.activeMetaNum = g.lastSeg k
  maxPerSeg : s.maxPerSeg = g.perSeg
  myOff : s.myOff = off
  activeMetaOff : s.activeMetaOff = g.blockAt off (g.metaBlock (g.lastSeg k))
  activeMeta : s.activeMeta =
    ⟨g.blockAt off (g.metaBlock (g.lastSeg k)), (k - g.lastSeg k * g.perSeg : ℕ)⟩

/-- The super block of a layer of `k` entries at `off`, as it is read. -/
def superOf (g : Geometry cfg) (fd : Path) (off k : ℕ) : Super where
  fd := fd
  blockSize := g.blockSize
  maxBlockNum := g.maxBlockNum
  activeMetaNum := g.lastSeg k
  maxPerSeg := g.perSeg
  myOff := off
  activeMetaOff := g.blockAt off (g.metaBlock (g.lastSeg k))
  activeMeta := ⟨g.blockAt off (g.metaBlock (g.lastSeg k)), (k - g.lastSeg k * g.perSeg : ℕ)⟩
  fmmapLength := 0
  allocOff := 0

theorem superOf_is : (superOf g fd off k).Is g off k := ⟨rfl, rfl, rfl, rfl, rfl, rfl, rfl⟩

/-! ### Layers -/

/-- **The file holds a layer**: the bytes the program reads of a layer at `off`
with the entries `es`. -/
structure IsLayer (g : Geometry cfg) (f : ByteFile) (off : ℕ) (es : List ℕ) : Prop where
  magic : HasMagic f off
  blockSize : f.loadInt off = g.blockSize
  maxBlockNum : f.loadInt (off + 4) = g.maxBlockNum
  activeMetaNum : f.loadInt (off + 8) = g.lastSeg es.length
  counter : ∀ i ≤ g.lastSeg es.length,
    f.loadInt (g.blockAt off (g.metaBlock i)) = g.fill es.length i
  entry : ∀ i (h : i < es.length), f.load (g.slot off i) 4 = es[i]
  size_le : g.endOff off es.length ≤ f.size
  length_le : es.length ≤ g.cap

/-- The bytes of a layer that the program reads as structure. -/
def StructByte (g : Geometry cfg) (off k a : ℕ) : Prop :=
  (off ≤ a ∧ a < off + 16) ∨
  (∃ i ≤ g.lastSeg k, g.blockAt off (g.metaBlock i) ≤ a ∧
    a < g.blockAt off (g.metaBlock i) + 4) ∨
  ∃ i < k, g.slot off i ≤ a ∧ a < g.slot off i + 4

theorem HasMagic.congr (h : HasMagic f off)
    (hb : ∀ a, off ≤ a → a < off + 16 → f'.byte a = f.byte a) :
    HasMagic f' off :=
  (ByteFile.load_congr fun x h₁ h₂ => hb x (by omega) (by omega)).trans h

/-- **Frame rule for layers**: a layer is there as long as its structure bytes
are. -/
theorem IsLayer.congr (h : IsLayer g f off es) (hs : g.endOff off es.length ≤ f'.size)
    (hb : ∀ a, StructByte g off es.length a → f'.byte a = f.byte a) : IsLayer g f' off es where
  magic := h.magic.congr fun a h₁ h₂ => hb a (Or.inl ⟨h₁, h₂⟩)
  blockSize := (ByteFile.loadInt_congr fun a h₁ h₂ => hb a (Or.inl ⟨h₁, by omega⟩)).trans
    h.blockSize
  maxBlockNum := (ByteFile.loadInt_congr fun a h₁ h₂ => hb a (Or.inl ⟨by omega, by omega⟩)).trans
    h.maxBlockNum
  activeMetaNum := (ByteFile.loadInt_congr fun a h₁ h₂ =>
    hb a (Or.inl ⟨by omega, by omega⟩)).trans h.activeMetaNum
  counter i hi := (ByteFile.loadInt_congr fun a h₁ h₂ =>
    hb a (Or.inr (Or.inl ⟨i, hi, h₁, h₂⟩))).trans (h.counter i hi)
  entry i hi := (ByteFile.load_congr fun a h₁ h₂ =>
    hb a (Or.inr (Or.inr ⟨i, hi, h₁, h₂⟩))).trans (h.entry i hi)
  size_le := hs
  length_le := h.length_le

theorem entrySize_ge (cfg : Config) : 4 ≤ cfg.entrySize := by
  rcases cfg.entrySize_cases with h | h <;> omega

/-- A structure byte lies in the super block or in one of the meta blocks. -/
theorem StructByte.block {a : ℕ} (h : StructByte g off k a) :
    ∃ q, (q = 0 ∨ ∃ i ≤ g.lastSeg k, q = g.metaBlock i) ∧
      g.blockAt off q ≤ a ∧ a < g.blockAt off q + g.blockSize := by
  have hbs := g.entry_le
  have hes := entrySize_ge cfg
  rcases h with ⟨h₁, h₂⟩ | ⟨i, hi, h₁, h₂⟩ | ⟨i, hi, h₁, h₂⟩
  · refine ⟨0, Or.inl rfl, ?_⟩
    rw [Geometry.blockAt, Nat.mul_zero]
    omega
  · exact ⟨_, Or.inr ⟨i, hi, rfl⟩, h₁, by omega⟩
  · have := g.slot_mem off i
    exact ⟨_, Or.inr ⟨_, Geometry.div_le_lastSeg hi, rfl⟩, by omega, by omega⟩

/-- A structure byte lies inside the layer. -/
theorem StructByte.mem {a : ℕ} (h : StructByte g off k a) : off ≤ a ∧ a < g.endOff off k := by
  obtain ⟨q, hq, h₁, h₂⟩ := h.block
  refine ⟨le_trans Geometry.le_blockAt h₁, lt_of_lt_of_le h₂ (Geometry.blockAt_add_le _ ?_)⟩
  rcases hq with rfl | ⟨i, hi, rfl⟩
  · rw [Geometry.blocks]
    omega
  · exact Geometry.metaBlock_lt hi

/-- **The data blocks hold no structure.** -/
theorem StructByte.not_data {a : ℕ} (h : StructByte g off k a) (i : ℕ) :
    ¬(g.dataOff off i ≤ a ∧ a < g.dataOff off i + g.blockSize) := by
  obtain ⟨q, hq, h₁, h₂⟩ := h.block
  refine Geometry.blockAt_disjoint ?_ h₁ h₂
  rcases hq with rfl | ⟨j, -, rfl⟩
  · exact Nat.ne_of_lt Geometry.dataBlock_pos
  · exact Geometry.metaBlock_ne_dataBlock

theorem IsLayer.blockAt_lt (h : IsLayer g f off es) (hf : f.size < 2 ^ 63) {q : ℕ}
    (hq : q ≤ g.blocks es.length) : g.blockAt off q < 2 ^ 64 := by
  have h₁ := g.blockAt_mono off hq
  have h₂ := h.size_le
  rw [Geometry.endOff] at h₂
  omega

/-! ### Reading a layer -/

theorem activeMetaOffOf_eq {n : ℕ} (h : g.blockAt off (g.metaBlock n) < 2 ^ 64) :
    activeMetaOffOf off g.blockSize n g.perSeg = g.blockAt off (g.metaBlock n) := by
  have hc : (off : ℤ) + g.blockSize * (1 + n * (1 + g.perSeg)) =
      (g.blockAt off (g.metaBlock n) : ℕ) := by
    rw [Geometry.blockAt, Geometry.metaBlock]
    push_cast
    ring
  rw [activeMetaOffOf, hc, u64_natCast h]

/-- The offset `read_meta` computes from the number of a meta block. -/
theorem Super.Is.metaOff {s : Super} (hs : s.Is g off k) {n : ℕ}
    (h : g.blockAt off (g.metaBlock n) < 2 ^ 64) :
    s.metaOff n = g.blockAt off (g.metaBlock n) := by
  have hc : (s.myOff : ℤ) + s.blockSize + n * (s.maxPerSeg + 1) * s.blockSize =
      (g.blockAt off (g.metaBlock n) : ℕ) := by
    rw [hs.myOff, hs.blockSize, hs.maxPerSeg, Geometry.blockAt, Geometry.metaBlock]
    push_cast
    ring
  rw [Super.metaOff, if_neg (by omega), hc, u64_natCast h]

/-- **`read_meta` finds the meta blocks of a layer.** -/
theorem IsLayer.readMeta (h : IsLayer g f off es) (hf : f.size < 2 ^ 63) {s : Super}
    (hs : s.Is g off es.length) {n : ℕ} (hn : n ≤ g.lastSeg es.length) :
    readMeta f s n = .ok ⟨g.blockAt off (g.metaBlock n), g.fill es.length n⟩ := by
  have hq := Geometry.metaBlock_lt hn
  have h₁ := g.blockAt_add_le off hq
  have h₂ := h.size_le
  have h₃ := g.blockSize_pos
  rw [Geometry.endOff] at h₂
  have hle : g.fill es.length n ≤ g.perSeg := min_le_left _ _
  rw [Pcow.readMeta, hs.metaOff (h.blockAt_lt hf hq.le), h.counter n hn, hs.maxPerSeg,
    if_neg (not_not.mpr (ByteFile.backed_of_lt (by omega))), if_neg (by omega)]

/-- `read_meta(s, -1)` finds the active meta block. -/
theorem IsLayer.readMeta_active (h : IsLayer g f off es) {s : Super}
    (hs : s.maxPerSeg = g.perSeg)
    (ho : s.activeMetaOff = g.blockAt off (g.metaBlock (g.lastSeg es.length))) :
    Pcow.readMeta f s (-1) = .ok ⟨g.blockAt off (g.metaBlock (g.lastSeg es.length)),
      (es.length - g.lastSeg es.length * g.perSeg : ℕ)⟩ := by
  have hq := Geometry.metaBlock_lt (g := g) (le_refl (g.lastSeg es.length))
  have h₁ := g.blockAt_add_le off hq
  have h₂ := h.size_le
  have h₃ := g.blockSize_pos
  rw [Geometry.endOff] at h₂
  have hle := g.counter_le (k := es.length)
  rw [Pcow.readMeta, Super.metaOff, if_pos rfl, ho, h.counter _ le_rfl, hs, Geometry.fill_lastSeg,
    if_neg (not_not.mpr (ByteFile.backed_of_lt (by omega))), if_neg (by omega)]

theorem IsLayer.clSize_le (h : IsLayer g f off es) : off + g.blockSize ≤ f.size := by
  have h₁ := h.size_le
  have h₂ := g.blockAt_add_le off (show 0 < g.blocks es.length by rw [Geometry.blocks]; omega)
  rw [Geometry.endOff] at h₁
  rw [Geometry.blockAt, Nat.mul_zero] at h₂
  omega

/-- **`read_first_super` reads the super block of a layer.** -/
theorem IsLayer.readFirstSuper (h : IsLayer g f off es) (hf : f.size < 2 ^ 63) (fd : Path) :
    readFirstSuper cfg f fd off = .ok (some (superOf g fd off es.length)) := by
  have hsz := h.clSize_le
  have hbs := g.entry_le
  have hq := h.blockAt_lt hf (Geometry.metaBlock_lt (g := g) (le_refl (g.lastSeg es.length))).le
  rw [Pcow.readFirstSuper, if_neg (by rw [show clSize = 64 from rfl]; omega),
    if_neg (not_not.mpr (ByteFile.backed_of_lt (by omega))), if_neg (not_not.mpr h.magic)]
  simp only [h.blockSize, h.maxBlockNum, h.activeMetaNum, Geometry.maxPerSegOf_blockSize,
    activeMetaOffOf_eq hq]
  rw [h.readMeta_active rfl rfl]
  rfl

/-- The end of a layer, as it is computed from the super block. -/
theorem IsLayer.endOff (h : IsLayer g f off es) (hf : f.size < 2 ^ 63) {s : Super}
    (hs : s.Is g off es.length) : s.endOff f = g.endOff off es.length := by
  have hc : (s.activeMetaOff : ℤ) + s.blockSize * (1 + f.loadInt s.activeMeta.pmTop) =
      (g.endOff off es.length : ℕ) := by
    rw [hs.activeMetaOff, hs.activeMeta, h.counter _ le_rfl, hs.blockSize, Geometry.fill_lastSeg,
      Geometry.endOff, Geometry.blocks_eq, Geometry.blockAt, Geometry.blockAt]
    push_cast
    ring
  have hlt : g.endOff off es.length < 2 ^ 64 := h.blockAt_lt hf le_rfl
  rw [Super.endOff, hc, u64_natCast hlt]

/-- **`read_next_super` reads the layer that follows.** -/
theorem IsLayer.readNextSuper {es' : List ℕ} (h : IsLayer g f off es) (hf : f.size < 2 ^ 63)
    {s : Super} (hs : s.Is g off es.length)
    (h' : IsLayer g f (g.endOff off es.length) es') :
    readNextSuper cfg f s = .ok (some (superOf g s.fd (g.endOff off es.length) es'.length)) := by
  have hsz := h'.clSize_le
  have hbs := g.blockSize_pos
  have hq := h'.blockAt_lt hf (Geometry.metaBlock_lt (g := g) (le_refl (g.lastSeg es'.length))).le
  rw [Pcow.readNextSuper, h.endOff hf hs]
  simp only [if_neg (show ¬f.size ≤ g.endOff off es.length by omega),
    if_neg (not_not.mpr h'.magic), hs.myOff, h.blockSize, h.maxBlockNum, h'.activeMetaNum,
    hs.blockSize, Geometry.maxPerSegOf_blockSize, activeMetaOffOf_eq hq]
  rw [h'.readMeta_active rfl rfl]
  rfl

/-! ### Chains of layers -/

/-- Nothing at `off` that the chain walk would take for a super block. -/
def NoSuper (f : ByteFile) (off : ℕ) : Prop := f.size ≤ off ∨ ¬HasMagic f off

/-- `read_next_super` on the last layer of a chain. -/
theorem IsLayer.readNextSuper_none (h : IsLayer g f off es) (hf : f.size < 2 ^ 63)
    {s : Super} (hs : s.Is g off es.length) (hn : NoSuper f (g.endOff off es.length)) :
    Pcow.readNextSuper cfg f s = .ok none := by
  rw [Pcow.readNextSuper, h.endOff hf hs]
  rcases hn with hn | hn
  · exact if_pos hn
  · by_cases hsz : f.size ≤ g.endOff off es.length
    · exact if_pos hsz
    · simp only [if_neg hsz, if_pos hn]

/-- The offset after the layers `ls`, the first of them at `off`. -/
def Geometry.chainEnd (g : Geometry cfg) : ℕ → List (List ℕ) → ℕ
  | off, [] => off
  | off, es :: ls => g.chainEnd (g.endOff off es.length) ls

/-- The file holds the layers `ls` one after the other, the first of them at
`off`. -/
def IsLayers (g : Geometry cfg) (f : ByteFile) : ℕ → List (List ℕ) → Prop
  | _, [] => True
  | off, es :: ls => IsLayer g f off es ∧ IsLayers g f (g.endOff off es.length) ls

/-- **The file holds a chain of layers**, the first of them at `off`, and no
super block follows. -/
structure IsChain (g : Geometry cfg) (f : ByteFile) (off : ℕ) (ls : List (List ℕ)) : Prop where
  layers : IsLayers g f off ls
  noSuper : NoSuper f (g.chainEnd off ls)

/-- The super blocks of a chain, as they are read. -/
def supersOf (g : Geometry cfg) (fd : Path) : ℕ → List (List ℕ) → List Super
  | _, [] => []
  | off, es :: ls => superOf g fd off es.length :: supersOf g fd (g.endOff off es.length) ls

@[simp] theorem length_supersOf : (supersOf g fd off ls).length = ls.length := by
  induction ls generalizing off with
  | nil => rfl
  | cons es ls ih => rw [supersOf, List.length_cons, ih, List.length_cons]

theorem Geometry.chainEnd_append {ls' : List (List ℕ)} :
    g.chainEnd off (ls ++ ls') = g.chainEnd (g.chainEnd off ls) ls' := by
  induction ls generalizing off with
  | nil => rfl
  | cons es ls ih => exact ih

theorem supersOf_append {ls' : List (List ℕ)} :
    supersOf g fd off (ls ++ ls') = supersOf g fd off ls ++ supersOf g fd (g.chainEnd off ls)
      ls' := by
  induction ls generalizing off with
  | nil => rfl
  | cons es ls ih =>
    simp only [List.cons_append, supersOf, ih]
    rfl

theorem isLayers_append {ls' : List (List ℕ)} : IsLayers g f off (ls ++ ls') ↔
    IsLayers g f off ls ∧ IsLayers g f (g.chainEnd off ls) ls' := by
  induction ls generalizing off with
  | nil => simp [IsLayers, Geometry.chainEnd]
  | cons es ls ih =>
    rw [List.cons_append, IsLayers, ih, IsLayers, and_assoc]
    rfl

theorem isLayers_singleton : IsLayers g f off [es] ↔ IsLayer g f off es :=
  and_iff_left trivial

theorem Geometry.add_blockSize_le_endOff (off k : ℕ) : off + g.blockSize ≤ g.endOff off k := by
  have := g.blockAt_add_le off (show 0 < g.blocks k by rw [Geometry.blocks]; omega)
  rwa [Geometry.blockAt, Nat.mul_zero] at this

theorem Geometry.le_chainEnd : off ≤ g.chainEnd off ls := by
  induction ls generalizing off with
  | nil => exact le_rfl
  | cons es ls ih => exact le_trans Geometry.le_blockAt ih

/-- A chain has at most as many layers as its file has bytes, and ends inside the
file. -/
theorem IsLayers.chainEnd_le (h : IsLayers g f off ls) (hne : ls ≠ []) :
    g.chainEnd off ls ≤ f.size ∧ off + ls.length ≤ g.chainEnd off ls := by
  induction ls generalizing off with
  | nil => exact absurd rfl hne
  | cons es ls ih =>
    have h₁ := h.1.size_le
    have h₂ := g.add_blockSize_le_endOff off es.length
    have h₃ := g.blockSize_pos
    rw [Geometry.chainEnd, List.length_cons]
    rcases eq_or_ne ls [] with rfl | hls
    · rw [Geometry.chainEnd]
      simp only [List.length_nil]
      omega
    · have := ih h.2 hls
      omega

/-- **The frame rule for layers**: the layers below `b` are there as long as the
bytes below `b` are. -/
theorem IsLayers.congr (h : IsLayers g f off ls) {b : ℕ} (hb : ∀ a < b, f'.byte a = f.byte a)
    (he : g.chainEnd off ls ≤ b) (hs : b ≤ f'.size) : IsLayers g f' off ls := by
  induction ls generalizing off with
  | nil => trivial
  | cons es ls ih =>
    have h₁ : g.endOff off es.length ≤ b := le_trans Geometry.le_chainEnd he
    exact ⟨h.1.congr (by omega) fun a ha => hb a (lt_of_lt_of_le ha.mem.2 h₁), ih h.2 he⟩

/-- **The chain walk visits the layers of a chain in order**, given enough
steps. -/
theorem IsChain.superChain (h : IsChain g f off (es :: ls)) (hf : f.size < 2 ^ 63) {n : ℕ}
    (hn : ls.length < n) :
    superChain cfg f n (superOf g fd off es.length) = .ok (supersOf g fd off (es :: ls)) := by
  obtain ⟨h, hno⟩ := h
  induction ls generalizing off es n with
  | nil =>
    obtain ⟨n, rfl⟩ : ∃ m, n = m + 1 := ⟨n - 1, by simp at hn; omega⟩
    rw [Pcow.superChain, h.1.readNextSuper_none hf superOf_is hno]
    rfl
  | cons es' ls ih =>
    obtain ⟨n, rfl⟩ : ∃ m, n = m + 1 := ⟨n - 1, by simp at hn; omega⟩
    rw [Pcow.superChain, h.1.readNextSuper hf superOf_is h.2.1]
    have hfd : (superOf g fd off es.length).fd = fd := rfl
    rw [hfd]
    simp only
    rw [ih (by simp at hn; omega) h.2 hno]
    rfl

/-- **`read_last_super` finds the last layer of an image.** -/
theorem IsChain.readLastSuper (h : IsChain g f 0 (ls ++ [es])) (hf : f.size < 2 ^ 63) (fd : Path) :
    readLastSuper cfg f fd = .ok (some (superOf g fd (g.chainEnd 0 ls) es.length)) := by
  have hlen := (h.layers.chainEnd_le (by simp))
  have hlast : (supersOf g fd 0 (ls ++ [es])).getLast? =
      some (superOf g fd (g.chainEnd 0 ls) es.length) := by
    rw [supersOf_append, supersOf, supersOf, List.getLast?_concat]
  obtain ⟨e, l, hel⟩ : ∃ e l, ls ++ [es] = e :: l := by
    cases ls with
    | nil => exact ⟨es, [], rfl⟩
    | cons e l => exact ⟨e, l ++ [es], rfl⟩
  rw [hel] at h hlen hlast
  simp only [List.length_cons] at hlen
  rw [Pcow.readLastSuper, h.layers.1.readFirstSuper hf fd]
  simp only
  rw [h.superChain hf (by omega), Except.map, hlast]

end Pcow
