import Pcow.Meta
import Mathlib.Tactic.Linarith
import Mathlib.Tactic.Ring

/-!
# The layout of a layer

The block structure the offset computations of `meta.c` and `pcow.c` describe:

```
| Super | Meta0 | data … data | Meta1 | data … data | … | Metan | data … |
```

A layer with `k` entries occupies `blocks k` consecutive blocks. Block 0 is the
super block, block `metaBlock i` the `i`-th meta block and block `dataBlock i` the
data block of the `i`-th entry. `IsLayer` says that a file holds such a layer and
`IsChain` that it holds a sequence of them, one right after the other; both are
about the bytes the program reads, and about nothing else.

The first half of this file is the arithmetic of the layout, the second the
statement that each reading function of `Pcow.Meta` finds what is there.
-/

namespace Pcow

/-- The fixed parameters of an image: the block size and the capacity of a layer.
A meta block holds at least one entry, and both numbers are values of an
`int`. -/
structure Geometry (cfg : Config) where
  /-- The size of a block. -/
  blockSize : ℕ
  /-- The largest number of data blocks of a layer; an image may be created with a
  negative one, and then holds none. -/
  maxBlockNum : ℤ
  /-- A block holds the top of a meta block and one entry. -/
  entry_le : 64 + cfg.entrySize ≤ blockSize
  /-- The block size is an `int`. -/
  blockSize_lt : blockSize < 2 ^ 31
  /-- The capacity is an `int`. -/
  maxBlockNum_ge : -2 ^ 31 ≤ maxBlockNum
  /-- The capacity is an `int`. -/
  maxBlockNum_lt : maxBlockNum < 2 ^ 31

theorem Config.entrySize_cases (cfg : Config) : cfg.entrySize = 4 ∨ cfg.entrySize = 8 := by
  rw [Config.entrySize]
  split <;> simp

namespace Geometry

variable {cfg : Config} (g : Geometry cfg)

/-- The number of data blocks a layer can hold. -/
def cap : ℕ := g.maxBlockNum.toNat

/-- The number of entries of a meta block. -/
def perSeg : ℕ := (g.blockSize - 64) / cfg.entrySize

/-- The number of the active meta block of a layer with `k` entries. -/
def lastSeg (k : ℕ) : ℕ := (k - 1) / g.perSeg

/-- The counter of meta block `i` in a layer with `k` entries. -/
def fill (k i : ℕ) : ℕ := min g.perSeg (k - i * g.perSeg)

/-- The block of the `i`-th meta block, counted from the super block. -/
def metaBlock (i : ℕ) : ℕ := 1 + i * (g.perSeg + 1)

/-- The block of the `i`-th data block, counted from the super block. -/
def dataBlock (i : ℕ) : ℕ := 2 + i + i / g.perSeg

/-- The number of blocks of a layer with `k` entries. -/
def blocks (k : ℕ) : ℕ := 2 + g.lastSeg k + k

/-- The offset of block `q` of a layer at `off`. -/
def blockAt (off q : ℕ) : ℕ := off + g.blockSize * q

/-- The offset of the slot of entry `i` of a layer at `off`. -/
def slot (off i : ℕ) : ℕ :=
  g.blockAt off (g.metaBlock (i / g.perSeg)) + 64 + cfg.entrySize * (i % g.perSeg)

/-- The offset of data block `i` of a layer at `off`. -/
def dataOff (off i : ℕ) : ℕ := g.blockAt off (g.dataBlock i)

/-- The offset right after a layer with `k` entries at `off`. -/
def endOff (off k : ℕ) : ℕ := g.blockAt off (g.blocks k)

/-- The entry `new_block` makes for a fault at `faultOff`: the number of the
virtual block, as far as an `unsigned int` holds it. -/
def blockOf (faultOff : ℕ) : ℕ := faultOff / g.blockSize % 2 ^ 32

/-! ### Arithmetic of the layout -/

theorem blockOf_lt (faultOff : ℕ) : g.blockOf faultOff < 2 ^ 32 := Nat.mod_lt _ (by norm_num)

theorem blockOf_eq {faultOff : ℕ} (h : faultOff / g.blockSize < 2 ^ 32) :
    g.blockOf faultOff = faultOff / g.blockSize := Nat.mod_eq_of_lt h

theorem blockSize_pos : 0 < g.blockSize := by
  have := g.entry_le
  omega

/-- The block of a virtual address that is given by its block and an offset in it. -/
theorem mul_add_div {c x : ℕ} (hx : x < g.blockSize) : (c * g.blockSize + x) / g.blockSize = c := by
  rw [Nat.mul_comm, Nat.mul_add_div g.blockSize_pos, Nat.div_eq_of_lt hx, Nat.add_zero]

theorem mul_add_mod {c x : ℕ} (hx : x < g.blockSize) : (c * g.blockSize + x) % g.blockSize = x := by
  rw [Nat.mul_comm, Nat.mul_add_mod, Nat.mod_eq_of_lt hx]

theorem cap_lt : g.cap < 2 ^ 31 := by
  have := g.maxBlockNum_lt
  rw [cap]
  omega

theorem perSeg_pos : 0 < g.perSeg := by
  have h := g.entry_le
  refine Nat.div_pos (by omega) ?_
  rcases cfg.entrySize_cases with h | h <;> omega

/-- The entries of a segment fit into the meta block after its first cache
line. -/
theorem perSeg_mul_le : 64 + cfg.entrySize * g.perSeg ≤ g.blockSize := by
  have h := Nat.mul_div_le (g.blockSize - 64) cfg.entrySize
  have := g.entry_le
  rw [perSeg]
  omega

theorem perSeg_lt : g.perSeg < 2 ^ 31 := by
  have h := g.perSeg_mul_le
  have := g.blockSize_lt
  rcases cfg.entrySize_cases with hs | hs <;> rw [hs] at h <;> omega

theorem maxPerSegOf_blockSize : maxPerSegOf cfg g.blockSize = g.perSeg := by
  have h := g.entry_le
  have hc : (g.blockSize : ℤ) - (clSize : ℕ) = ((g.blockSize - 64 : ℕ) : ℤ) := by
    rw [show clSize = 64 from rfl]
    omega
  rw [maxPerSegOf, hc, perSeg]
  exact (Int.ofNat_tdiv _ _).symm

variable {g} {k i j q off : ℕ}

@[simp] theorem lastSeg_zero : g.lastSeg 0 = 0 := by simp [lastSeg]

@[simp] theorem blocks_zero : g.blocks 0 = 2 := by simp [blocks]

theorem lastSeg_le : g.lastSeg k ≤ k :=
  le_trans (Nat.div_le_self _ _) (Nat.sub_le _ _)

theorem lastSeg_mul_le : g.lastSeg k * g.perSeg ≤ k :=
  le_trans (Nat.div_mul_le_self _ _) (Nat.sub_le _ _)

/-- The active segment has room for the last entry. -/
theorem le_lastSeg_mul_add : k ≤ g.lastSeg k * g.perSeg + g.perSeg := by
  have h := Nat.lt_div_mul_add (a := k - 1) g.perSeg_pos
  rw [lastSeg]
  omega

/-- The segment of an entry is one of the layer's segments. -/
theorem div_le_lastSeg (h : i < k) : i / g.perSeg ≤ g.lastSeg k :=
  Nat.div_le_div_right (by omega)

theorem lastSeg_mono (h : k ≤ j) : g.lastSeg k ≤ g.lastSeg j :=
  Nat.div_le_div_right (by omega)

theorem blocks_mono (h : k ≤ j) : g.blocks k ≤ g.blocks j := by
  have := g.lastSeg_mono h
  rw [blocks, blocks]
  omega

theorem blockAt_mono (off : ℕ) (h : i ≤ j) : g.blockAt off i ≤ g.blockAt off j :=
  Nat.add_le_add_left (Nat.mul_le_mul_left _ h) _

theorem blockAt_succ : g.blockAt off (i + 1) = g.blockAt off i + g.blockSize := by
  rw [blockAt, blockAt]
  ring

theorem blockAt_add_le (off : ℕ) (h : i < j) : g.blockAt off i + g.blockSize ≤ g.blockAt off j := by
  rw [← blockAt_succ]
  exact blockAt_mono off h

theorem le_blockAt : off ≤ g.blockAt off i := Nat.le_add_right _ _

/-- A data block lies right after the meta block of its segment and the data
blocks before it in the segment. -/
theorem dataBlock_eq : g.dataBlock i = g.metaBlock (i / g.perSeg) + 1 + i % g.perSeg := by
  have h := Nat.div_add_mod i g.perSeg
  rw [dataBlock, metaBlock]
  generalize i / g.perSeg = d at *
  generalize i % g.perSeg = r at *
  have : d * (g.perSeg + 1) = g.perSeg * d + d := by ring
  omega

theorem dataBlock_lt (h : i < k) : g.dataBlock i < g.blocks k := by
  have := g.div_le_lastSeg h
  rw [dataBlock, blocks]
  omega

theorem dataBlock_strictMono (h : i < j) : g.dataBlock i < g.dataBlock j := by
  have := Nat.div_le_div_right (c := g.perSeg) h.le
  rw [dataBlock, dataBlock]
  omega

theorem dataBlock_injective (h : g.dataBlock i = g.dataBlock j) : i = j := by
  rcases lt_trichotomy i j with hlt | rfl | hlt
  · have := g.dataBlock_strictMono hlt
    omega
  · rfl
  · have := g.dataBlock_strictMono hlt
    omega

theorem metaBlock_lt (h : i ≤ g.lastSeg k) : g.metaBlock i < g.blocks k := by
  have h₁ : i * g.perSeg ≤ k := le_trans (Nat.mul_le_mul_right _ h) lastSeg_mul_le
  have : i * (g.perSeg + 1) = i * g.perSeg + i := by ring
  rw [metaBlock, blocks]
  omega

theorem metaBlock_strictMono (h : i < j) : g.metaBlock i < g.metaBlock j := by
  have : i * (g.perSeg + 1) < j * (g.perSeg + 1) := Nat.mul_lt_mul_of_pos_right h (by omega)
  rw [metaBlock, metaBlock]
  omega

theorem metaBlock_injective (h : g.metaBlock i = g.metaBlock j) : i = j := by
  have h' : i * (g.perSeg + 1) = j * (g.perSeg + 1) := by
    rw [metaBlock, metaBlock] at h
    omega
  exact Nat.eq_of_mul_eq_mul_right (by omega) h'

/-- **Meta blocks and data blocks are different blocks.** Modulo the length of a
segment the former are at one and the latter never are. -/
theorem metaBlock_ne_dataBlock : g.metaBlock i ≠ g.dataBlock j := by
  intro h
  have hr := Nat.mod_lt j g.perSeg_pos
  rw [dataBlock_eq, metaBlock, metaBlock] at h
  generalize j / g.perSeg = d at *
  generalize j % g.perSeg = r at *
  rcases Nat.lt_or_ge d i with hlt | hge
  · have := Nat.mul_le_mul_right (g.perSeg + 1) hlt
    rw [Nat.succ_mul] at this
    omega
  · have := Nat.mul_le_mul_right (g.perSeg + 1) hge
    omega

theorem dataBlock_pos : 0 < g.dataBlock i := by
  have := Nat.zero_le (i / g.perSeg)
  rw [dataBlock]
  omega

theorem metaBlock_pos : 0 < g.metaBlock i := by
  rw [metaBlock]
  omega

/-- **Different blocks do not overlap.** -/
theorem blockAt_disjoint {a : ℕ} (h : i ≠ j) (hi : g.blockAt off i ≤ a)
    (hi' : a < g.blockAt off i + g.blockSize) :
    ¬(g.blockAt off j ≤ a ∧ a < g.blockAt off j + g.blockSize) := by
  rintro ⟨hj, hj'⟩
  rcases lt_or_gt_of_ne h with hlt | hlt
  · have := g.blockAt_add_le off hlt
    omega
  · have := g.blockAt_add_le off hlt
    omega

/-- The slot of an entry lies in the meta block of its segment, after the first
cache line. -/
theorem slot_mem (off i : ℕ) : g.blockAt off (g.metaBlock (i / g.perSeg)) + 64 ≤ g.slot off i ∧
    g.slot off i + cfg.entrySize ≤ g.blockAt off (g.metaBlock (i / g.perSeg)) + g.blockSize := by
  have h := Nat.mod_lt i g.perSeg_pos
  have h₁ := Nat.mul_le_mul_left cfg.entrySize (Nat.succ_le_of_lt h)
  have h₂ := g.perSeg_mul_le
  rw [Nat.mul_succ] at h₁
  rw [slot]
  omega

/-- The slots of different entries do not overlap. -/
theorem slot_disjoint (off : ℕ) (h : i ≠ j) :
    g.slot off i + cfg.entrySize ≤ g.slot off j ∨ g.slot off j + cfg.entrySize ≤ g.slot off i := by
  have hi := g.slot_mem off i
  have hj := g.slot_mem off j
  rcases lt_trichotomy (i / g.perSeg) (j / g.perSeg) with hd | hd | hd
  · have := g.blockAt_add_le off (g.metaBlock_strictMono hd)
    omega
  · have hm : i % g.perSeg ≠ j % g.perSeg := fun he => h (by
      rw [← Nat.div_add_mod i g.perSeg, ← Nat.div_add_mod j g.perSeg, hd, he])
    rw [slot, slot, hd]
    rcases lt_or_gt_of_ne hm with hlt | hlt
    · have := Nat.mul_le_mul_left cfg.entrySize (Nat.succ_le_of_lt hlt)
      rw [Nat.mul_succ] at this
      omega
    · have := Nat.mul_le_mul_left cfg.entrySize (Nat.succ_le_of_lt hlt)
      rw [Nat.mul_succ] at this
      omega
  · have := g.blockAt_add_le off (g.metaBlock_strictMono hd)
    omega

/-! ### Appending an entry -/

/-- The counter of the active segment. -/
theorem fill_lastSeg : g.fill k (g.lastSeg k) = k - g.lastSeg k * g.perSeg := by
  have := g.le_lastSeg_mul_add (k := k)
  rw [fill]
  omega

/-- Every segment before the active one is full. -/
theorem fill_of_lt (h : i < g.lastSeg k) : g.fill k i = g.perSeg := by
  have h₁ := Nat.mul_le_mul_right g.perSeg (Nat.succ_le_of_lt h)
  have h₂ := g.lastSeg_mul_le (k := k)
  rw [Nat.succ_mul] at h₁
  rw [fill]
  omega

/-- While the active segment has room, the next entry goes into it. -/
theorem lastSeg_succ_of_lt (h : k - g.lastSeg k * g.perSeg < g.perSeg) :
    g.lastSeg (k + 1) = g.lastSeg k ∧ k / g.perSeg = g.lastSeg k ∧
      k % g.perSeg = k - g.lastSeg k * g.perSeg := by
  have h₁ := g.lastSeg_mul_le (k := k)
  have hd : k / g.perSeg = g.lastSeg k := by
    refine Nat.div_eq_of_lt_le h₁ ?_
    rw [Nat.succ_mul]
    omega
  refine ⟨by rw [← hd]; rfl, hd, ?_⟩
  have h₂ := Nat.div_add_mod k g.perSeg
  rw [hd, Nat.mul_comm] at h₂
  omega

/-- When the active segment is full, the next entry opens a new one. -/
theorem lastSeg_succ_of_full (h : k - g.lastSeg k * g.perSeg = g.perSeg) :
    g.lastSeg (k + 1) = g.lastSeg k + 1 ∧ k / g.perSeg = g.lastSeg k + 1 ∧
      k % g.perSeg = 0 := by
  have h₁ := g.lastSeg_mul_le (k := k)
  have hp := g.perSeg_pos
  have hk : k = (g.lastSeg k + 1) * g.perSeg := by
    rw [Nat.succ_mul]
    omega
  have hd : k / g.perSeg = g.lastSeg k + 1 := Nat.div_eq_of_eq_mul_left hp hk
  refine ⟨by rw [← hd]; rfl, hd, ?_⟩
  rw [hk]
  exact Nat.mul_mod_left _ _

theorem counter_le : k - g.lastSeg k * g.perSeg ≤ g.perSeg := by
  have := g.le_lastSeg_mul_add (k := k)
  omega

/-- The end of a layer, from its active segment. -/
theorem blocks_eq : g.blocks k = g.metaBlock (g.lastSeg k) + 1 + (k - g.lastSeg k * g.perSeg) := by
  have h := g.lastSeg_mul_le (k := k)
  have : g.lastSeg k * (g.perSeg + 1) = g.lastSeg k * g.perSeg + g.lastSeg k := by ring
  rw [blocks, metaBlock]
  omega

theorem blocks_succ_of_lt (h : k - g.lastSeg k * g.perSeg < g.perSeg) :
    g.blocks (k + 1) = g.blocks k + 1 ∧ g.dataBlock k = g.blocks k := by
  obtain ⟨h₁, h₂, -⟩ := g.lastSeg_succ_of_lt h
  rw [blocks, blocks, dataBlock, h₁, h₂]
  omega

theorem blocks_succ_of_full (h : k - g.lastSeg k * g.perSeg = g.perSeg) :
    g.blocks (k + 1) = g.blocks k + 2 ∧ g.dataBlock k = g.blocks k + 1 ∧
      g.metaBlock (g.lastSeg (k + 1)) = g.blocks k := by
  obtain ⟨h₁, h₂, -⟩ := g.lastSeg_succ_of_full h
  have h₃ := g.blocks_eq (k := k)
  have : (g.lastSeg k + 1) * (g.perSeg + 1) = g.lastSeg k * (g.perSeg + 1) + g.perSeg + 1 := by ring
  rw [metaBlock] at h₃
  rw [dataBlock, metaBlock, h₁, h₂]
  rw [blocks, blocks, h₁] at *
  omega

theorem pages_ge : (-2 ^ 31 : ℤ) ≤ 4096 := by norm_num

theorem pages_lt : (4096 : ℤ) < 2 ^ 31 := by norm_num

theorem page_lt : 4096 < 2 ^ 31 := by norm_num

/-- Blocks of one page, and layers of up to 4096 blocks. -/
def onePage (cfg : Config) : Geometry cfg where
  blockSize := 4096
  maxBlockNum := 4096
  entry_le := by
    rcases cfg.entrySize_cases with h | h <;> omega
  blockSize_lt := page_lt
  maxBlockNum_ge := pages_ge
  maxBlockNum_lt := pages_lt

end Geometry

end Pcow
