import Pcow.History

/-!
# Reading an image back

`readBack` is what the reading functions find in a file: the super blocks in their order, each with
the entries of its meta blocks. It depends on few of the bytes. Those of the layers are the
structure bytes (`ChainByte`). Past the last layer there must not be the last letter of a magic, and
where the next layer or meta block is going to be there must be zeros (`Slack`). Calls that were cut
short may have left something in the first cache line up to that letter, and in the second.

`Holds` is the predicate for a file that holds given layers and nothing behind them but this.
Unlike `IsImage` it also describes a file with no layer at all, and one on which a call of
`new_super` has stopped before the last letter.
-/

namespace Pcow

variable {cfg : Config} {g : Geometry cfg} {f f' : ByteFile} {fd : Path} {off : ℕ}
  {es : List ℕ} {ls ls' : List (List ℕ)} {s : Super}

/-! ### Reading back -/

/-- The entries of meta block `i`, as the mapping loops read them. -/
def segmentEntries (cfg : Config) (f : ByteFile) (s : Super) (i : ℕ) : Except Fault (List ℕ) :=
  (readMeta f s (i32 i)).map fun m =>
    (List.range (u64 m.counter)).map fun j =>
      f.load (m.pmTop + clSize + cfg.entrySize * j) cfg.entrySize &&& addrMask

/-- The entries of a layer. -/
def layerEntries (cfg : Config) (f : ByteFile) (s : Super) : Except Fault (List ℕ) :=
  collect (segmentEntries cfg f s) 0 (u64 s.activeMetaNum + 1)

/-- The same for several layers. -/
def readLayers (cfg : Config) (f : ByteFile) : List Super → Except Fault (List (Super × List ℕ))
  | [] => .ok []
  | s :: L =>
    match layerEntries cfg f s with
    | .error e => .error e
    | .ok es => (readLayers cfg f L).map ((s, es) :: ·)

/-- **What is read back of a file**: its layers, as `read_first_super` and `read_next_super` find
them, and the entries that `read_meta` leads to. -/
def readBack (cfg : Config) (f : ByteFile) (fd : Path) : Except Fault (List (Super × List ℕ)) :=
  match supers cfg f fd with
  | .error e => .error e
  | .ok L => readLayers cfg f L

theorem IsLayer.segmentEntries (h : IsLayer g f off es) (hf : f.size < 2 ^ 63)
    (hs : s.Is g off es.length) {i : ℕ} (hi : i ≤ g.lastSeg es.length) :
    segmentEntries cfg f s i =
      .ok ((List.range (g.fill es.length i)).map fun j => es[i * g.perSeg + j]?.getD 0) := by
  have hi31 : i < 2 ^ 31 := by
    have h₁ := g.lastSeg_le (k := es.length)
    have h₂ := h.length_le
    have h₃ := g.cap_lt
    omega
  have hfill : g.fill es.length i ≤ g.perSeg := min_le_left _ _
  have hper := g.perSeg_lt
  rw [Pcow.segmentEntries, i32_of_range (by omega) (by omega), h.readMeta hf hs hi, Except.map]
  simp only
  rw [u64_natCast (by omega)]
  congr 1
  exact List.map_congr_left fun j hj => h.load_masked hi (List.mem_range.mp hj)

theorem IsLayer.layerEntries (h : IsLayer g f off es) (hf : f.size < 2 ^ 63)
    (hs : s.Is g off es.length) : layerEntries cfg f s = .ok es := by
  have hseg : g.lastSeg es.length < 2 ^ 64 := by
    have h₁ := g.lastSeg_le (k := es.length)
    have h₂ := h.length_le
    have h₃ := g.cap_lt
    omega
  rw [Pcow.layerEntries, hs.activeMetaNum, u64_natCast hseg,
    collect_of_ok fun j _ hj => h.segmentEntries hf hs (by omega)]
  simp only [Nat.zero_add, List.map_eq_flatMap]
  rw [g.flatMap_segments es.length fun i => [es[i]?.getD 0], ← List.map_eq_flatMap]
  congr 1
  refine List.ext_getElem (by simp) fun i hi hi' => ?_
  simp [List.getElem?_eq_getElem hi']

theorem IsLayers.readLayers (h : IsLayers g f off ls) (hf : f.size < 2 ^ 63) :
    readLayers cfg f (supersOf g fd off ls) = .ok ((supersOf g fd off ls).zip ls) := by
  induction ls generalizing off with
  | nil => rfl
  | cons es ls ih =>
    rw [supersOf, Pcow.readLayers, h.1.layerEntries hf superOf_is]
    simp only
    rw [ih h.2, Except.map, List.zip_cons_cons]

theorem IsChain.readBack (h : IsChain g f 0 ls) (hne : ls ≠ []) (hf : f.size < 2 ^ 63) (fd : Path) :
    readBack cfg f fd = .ok ((supersOf g fd 0 ls).zip ls) := by
  rw [Pcow.readBack, h.supers hne hf fd]
  exact h.layers.readLayers hf

/-! ### The bytes that are read -/

/-- The structure bytes of the layers `ls`, the first of them at `off`. -/
def ChainByte (g : Geometry cfg) : ℕ → List (List ℕ) → ℕ → Prop
  | _, [], _ => False
  | off, es :: ls, a => StructByte g off es.length a ∨ ChainByte g (g.endOff off es.length) ls a

theorem chainByte_append {a : ℕ} : ChainByte g off (ls ++ ls') a ↔
    ChainByte g off ls a ∨ ChainByte g (g.chainEnd off ls) ls' a := by
  induction ls generalizing off with
  | nil => rw [ChainByte, false_or, List.nil_append, Geometry.chainEnd]
  | cons es ls ih => rw [List.cons_append, ChainByte, ChainByte, ih, or_assoc, Geometry.chainEnd]

theorem chainByte_concat {a : ℕ} : ChainByte g off (ls ++ [es]) a ↔
    ChainByte g off ls a ∨ StructByte g (g.chainEnd off ls) es.length a := by
  rw [chainByte_append, ChainByte, ChainByte, or_false]

/-- The structure bytes of layers lie inside them. -/
theorem ChainByte.mem {a : ℕ} (h : ChainByte g off ls a) : off ≤ a ∧ a < g.chainEnd off ls := by
  induction ls generalizing off with
  | nil => exact h.elim
  | cons es ls ih =>
    rcases h with h | h
    · exact ⟨h.mem.1, lt_of_lt_of_le h.mem.2 Geometry.le_chainEnd⟩
    · have hle := g.add_blockSize_le_endOff off es.length
      exact ⟨by have := (ih h).1; omega, (ih h).2⟩

/-- **The frame rule for layers, byte by byte**: they are there as long as their structure
bytes are. -/
theorem IsLayers.congr_bytes (h : IsLayers g f off ls) (hs : g.chainEnd off ls ≤ f'.size)
    (hb : ∀ a, ChainByte g off ls a → f'.byte a = f.byte a) : IsLayers g f' off ls := by
  induction ls generalizing off with
  | nil => trivial
  | cons es ls ih =>
    exact ⟨h.1.congr (le_trans Geometry.le_chainEnd hs) fun a ha => hb a (Or.inl ha),
      ih h.2 hs fun a ha => hb a (Or.inr ha)⟩

/-- The bytes past the end `e` of the last layer that hold zeros, whatever calls have stopped there:
all but those in which a super block is made before the last letter of its magic, and those in which
a meta block has its first entries. -/
def Slack (e a : ℕ) : Prop := e + 15 ≤ a ∧ ¬(e + 64 ≤ a ∧ a < e + 128)

/-- The bytes that tell which layers a file holds. -/
def Held (g : Geometry cfg) (ls : List (List ℕ)) (a : ℕ) : Prop :=
  ChainByte g 0 ls a ∨ Slack (g.chainEnd 0 ls) a

/-- **The file holds the layers `ls`**, and no layer follows. -/
structure Holds (g : Geometry cfg) (f : ByteFile) (ls : List (List ℕ)) : Prop where
  layers : IsLayers g f 0 ls
  slack : ∀ a, Slack (g.chainEnd 0 ls) a → f.byte a = 0
  dvd : 4096 ∣ g.blockSize
  size_lt : f.size < 2 ^ 63

theorem IsLayers.chainEnd_le_size (h : IsLayers g f 0 ls) : g.chainEnd 0 ls ≤ f.size := by
  rcases eq_or_ne ls [] with rfl | hne
  · exact Nat.zero_le _
  · exact (h.chainEnd_le hne).1

/-- **A file holds what another one holds that agrees with it on these bytes.** -/
theorem Holds.congr (h : Holds g f ls) (hle : g.chainEnd 0 ls ≤ f'.size) (hlt : f'.size < 2 ^ 63)
    (hb : ∀ a, Held g ls a → f'.byte a = f.byte a) : Holds g f' ls where
  layers := h.layers.congr_bytes hle fun a ha => hb a (Or.inl ha)
  slack a ha := (hb a (Or.inr ha)).trans (h.slack a ha)
  dvd := h.dvd
  size_lt := hlt

/-- A file without layers holds no layer, whatever the block size. -/
theorem Holds.of_nil {g' : Geometry cfg} (h : Holds g f []) (hdvd : 4096 ∣ g'.blockSize) :
    Holds g' f [] :=
  ⟨trivial, h.slack, hdvd, h.size_lt⟩

/-- The last letter of the magic. -/
theorem HasMagic.byte (h : HasMagic f off) : f.byte (off + 15) = 0x4c := by
  have h₀ := (f.byte (off + 12)).toNat_lt
  have h₁ := (f.byte (off + 12 + 1)).toNat_lt
  have h₂ := (f.byte (off + 12 + 1 + 1)).toNat_lt
  simp only [HasMagic, ByteFile.load, magic] at h
  refine UInt8.toNat_inj.mp ?_
  rw [show off + 15 = off + 12 + 1 + 1 + 1 from rfl, show (0x4c : UInt8).toNat = 0x4c from rfl]
  omega

theorem Holds.not_hasMagic (h : Holds g f ls) : ¬HasMagic f (g.chainEnd 0 ls) := by
  intro hm
  have h₀ := h.slack (g.chainEnd 0 ls + 15) ⟨le_rfl, by omega⟩
  rw [hm.byte] at h₀
  exact absurd h₀ (by decide)

theorem Holds.isChain (h : Holds g f ls) : IsChain g f 0 ls := ⟨h.layers, Or.inr h.not_hasMagic⟩

theorem Holds.readFirstSuper_nil (h : Holds g f []) (fd : Path) :
    readFirstSuper cfg f fd 0 = .ok none := by
  rw [readFirstSuper]
  split
  · rfl
  rename_i hsz
  have hno : ¬HasMagic f 0 := h.not_hasMagic
  have hb : f.Backed 0 := ByteFile.backed_of_lt (by rw [show clSize = 64 from rfl] at hsz; omega)
  rw [if_neg (not_not.mpr hb), if_pos hno]

theorem Holds.readLastSuper_nil (h : Holds g f []) (fd : Path) :
    readLastSuper cfg f fd = .ok none := by
  rw [readLastSuper, h.readFirstSuper_nil fd]

/-- **What is read back of a file that holds layers**: these. -/
theorem Holds.readBack (h : Holds g f ls) (fd : Path) :
    readBack cfg f fd = .ok ((supersOf g fd 0 ls).zip ls) := by
  rcases eq_or_ne ls [] with rfl | hne
  · rw [Pcow.readBack, supers, h.readFirstSuper_nil fd]
    rfl
  · exact h.isChain.readBack hne h.size_lt fd

/-- The file ends, and each of its layers begins, at a multiple of the page size. -/
theorem Holds.dvd_chainEnd (h : Holds g f ls) : 4096 ∣ g.chainEnd 0 ls :=
  h.dvd.trans (g.dvd_chainEnd (dvd_zero _))

/-- A file cut after one of its layers. -/
theorem Holds.truncate (h : Holds g f ls) (hpre : ls' <+: ls) :
    Holds g (f.truncate (g.chainEnd 0 ls')) ls' := by
  obtain ⟨rest, rfl⟩ := hpre
  have hend := h.layers.chainEnd_le_size
  have hle : g.chainEnd 0 ls' ≤ g.chainEnd 0 (ls' ++ rest) := by
    rw [g.chainEnd_append]
    exact Geometry.le_chainEnd
  have hsz := h.size_lt
  refine ⟨?_, fun a ha => if_neg ?_, h.dvd, ?_⟩
  · exact (isLayers_append.mp h.layers).1.congr_bytes le_rfl fun a ha => if_pos ha.mem.2
  · have := ha.1
    omega
  · change g.chainEnd 0 ls' < 2 ^ 63
    omega

end Pcow
