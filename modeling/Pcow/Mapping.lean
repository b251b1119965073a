import Pcow.Layer
import Pcow.Lib.PageTable

/-!
# Mapping the layers of an image

`do_readonly_fmmap` and `do_writable_fmmap` of `pcow.c`: two nested loops, over the
segments of a layer and over the slots of a segment, that map the data block of
each entry at the virtual block the entry names. Each function is modelled by the
list of calls it makes, in order.

On a layer of the file the two loops together run over the entries in the order
they were appended, and the data block of an entry is the one the layout gives it
(`IsLayer.doWritableFmmap`, `IsLayer.doReadonlyFmmap`).

The `prot` and `flags` handed to `do_writable_fmmap` are read and write access and
`MAP_SHARED`, the only ones the source claims to support.
-/

namespace Pcow

variable {cfg : Config} {g : Geometry cfg} {f : ByteFile} {off : ℕ} {es : List ℕ}

/-- The virtual offset at which the mapping loops put entry `j` of a meta
block. -/
def entryVoff (cfg : Config) (f : ByteFile) (s : Super) (m : Meta) (j : ℕ) : ℕ :=
  u64 ((f.load (m.pmTop + clSize + cfg.entrySize * j) cfg.entrySize &&& addrMask : ℕ) *
    s.blockSize)

/-- The file offset of the first data block of segment `i`. -/
def Super.dataOff (s : Super) (i : ℕ) : ℕ :=
  u64 (s.myOff + s.blockSize * (2 + (1 + s.maxPerSeg) * i))

/-- The calls of the inner loop, over the slots of segment `i`. -/
def segmentMaps (cfg : Config) (f : ByteFile) (s : Super)
    (calls : ℕ → ℕ → List (MapOp Path)) (i : ℕ) : Except Fault (List (MapOp Path)) :=
  (readMeta f s (i32 i)).map fun m =>
    (List.range (u64 m.counter)).flatMap fun j =>
      calls (entryVoff cfg f s m j) (u64 (s.dataOff i + s.blockSize * j))

/-- A loop over `n` indices from `i` on that collects what its body returns and
stops at the first fault. -/
def collect {α : Type} (body : ℕ → Except Fault (List α)) : ℕ → ℕ → Except Fault (List α)
  | _, 0 => .ok []
  | i, n + 1 =>
    match body i with
    | .error e => .error e
    | .ok l => (collect body (i + 1) n).map (l ++ ·)

/-- Both loops over a layer; `calls` are the calls for one entry. -/
def layerMaps (cfg : Config) (f : ByteFile) (s : Super)
    (calls : ℕ → ℕ → List (MapOp Path)) : Except Fault (List (MapOp Path)) :=
  collect (segmentMaps cfg f s calls) 0 (u64 s.activeMetaNum + 1)

/-- `do_readonly_fmmap`. -/
def doReadonlyFmmap (cfg : Config) (f : ByteFile) (s : Super) :
    Except Fault (List (MapOp Path)) :=
  layerMaps cfg f s fun voff o =>
    [.mmap voff (u64 s.blockSize) s.fd o true, .mprotect voff (u64 s.blockSize) false]

/-- `do_writable_fmmap`. -/
def doWritableFmmap (cfg : Config) (f : ByteFile) (s : Super) :
    Except Fault (List (MapOp Path)) :=
  layerMaps cfg f s fun voff o => [.mmap voff (u64 s.blockSize) s.fd o true]

/-! ### What holds of every page that is mapped -/

section Keeps

variable {s : Super} {P : Pte Path → Prop} {l : List (MapOp Path)}

/-- A loop of calls. -/
theorem keeps_collect {body : ℕ → Except Fault (List (MapOp Path))}
    (h : ∀ i l, body i = .ok l → PageTable.Keeps P l) {i n : ℕ}
    (hr : collect body i n = .ok l) : PageTable.Keeps P l := by
  induction n generalizing i l with
  | zero =>
    cases hr
    exact PageTable.keeps_nil
  | succ n ih =>
    rw [collect] at hr
    rcases hb : body i with e | l₁
    · rw [hb] at hr
      cases hr
    rw [hb] at hr
    obtain ⟨l₂, hrest, rfl⟩ := map_eq_ok hr
    exact (h i l₁ hb).append (ih hrest)

theorem keeps_layerMaps {calls : ℕ → ℕ → List (MapOp Path)}
    (h : ∀ voff off, PageTable.Keeps P (calls voff off)) (hr : layerMaps cfg f s calls = .ok l) :
    PageTable.Keeps P l := by
  refine keeps_collect (fun i l hl => ?_) hr
  obtain ⟨m, -, rfl⟩ := map_eq_ok hl
  exact PageTable.Keeps.flatMap fun j => h _ _

/-- **`do_readonly_fmmap` maps read-only pages of the file of its layer**, whatever it reads. -/
theorem keeps_doReadonlyFmmap (hP : ∀ o, P ⟨s.fd, o, false⟩)
    (hr : doReadonlyFmmap cfg f s = .ok l) : PageTable.Keeps P l :=
  keeps_layerMaps (fun _ _ => PageTable.keeps_mmap_mprotect hP) hr

/-- And `do_writable_fmmap` writable ones. -/
theorem keeps_doWritableFmmap (hP : ∀ o, P ⟨s.fd, o, true⟩)
    (hr : doWritableFmmap cfg f s = .ok l) : PageTable.Keeps P l :=
  keeps_layerMaps (fun _ _ => PageTable.keeps_mmap hP) hr

end Keeps

/-! ### What the loops map -/

/-- Full segments of `p` slots and a last one of `r` slots are a single run of
slots. -/
theorem flatMap_range_segments {α : Type} (p n r : ℕ) (F : ℕ → List α) :
    ((List.range n).flatMap fun i => (List.range p).flatMap fun j => F (i * p + j)) ++
      ((List.range r).flatMap fun j => F (n * p + j)) = (List.range (n * p + r)).flatMap F := by
  have hfull : ((List.range n).flatMap fun i => (List.range p).flatMap fun j => F (i * p + j)) =
      (List.range (n * p)).flatMap F := by
    induction n with
    | zero => simp
    | succ n ih =>
      rw [List.range_succ, List.flatMap_append, ih, Nat.succ_mul, List.range_add,
        List.flatMap_append, List.flatMap_map]
      simp
  rw [hfull, List.range_add, List.flatMap_append, List.flatMap_map]

variable {s : Super} {calls : ℕ → ℕ → List (MapOp Path)}

/-- The slots of segment `i` are entries of the layer. -/
theorem Geometry.slot_lt {k i j : ℕ} (hi : i ≤ g.lastSeg k) (hj : j < g.fill k i) :
    j < g.perSeg ∧ i * g.perSeg + j < k := by
  have h₁ := Nat.mul_le_mul_right g.perSeg hi
  have h₂ := g.lastSeg_mul_le (k := k)
  rw [Geometry.fill] at hj
  omega

theorem Geometry.seg_div_mod (g : Geometry cfg) (i : ℕ) {j : ℕ} (hj : j < g.perSeg) :
    (i * g.perSeg + j) / g.perSeg = i ∧ (i * g.perSeg + j) % g.perSeg = j := by
  constructor
  · rw [Nat.mul_comm, Nat.mul_add_div g.perSeg_pos, Nat.div_eq_of_lt hj, Nat.add_zero]
  · rw [Nat.mul_comm, Nat.mul_add_mod, Nat.mod_eq_of_lt hj]

/-- The data block of a slot of segment `i`. -/
theorem Geometry.dataOff_seg {i j : ℕ} (hj : j < g.perSeg) : g.dataOff off (i * g.perSeg + j) =
    off + g.blockSize * (2 + (1 + g.perSeg) * i) + g.blockSize * j := by
  obtain ⟨hd, hm⟩ := g.seg_div_mod i hj
  rw [Geometry.dataOff, Geometry.blockAt, Geometry.dataBlock_eq, hd, hm, Geometry.metaBlock]
  ring

/-- The offset that the loops compute for it. -/
theorem IsLayer.dataOff_slot (h : IsLayer g f off es) (hf : f.size < 2 ^ 63)
    (hs : s.Is g off es.length) {i j : ℕ} (hi : i ≤ g.lastSeg es.length)
    (hj : j < g.fill es.length i) :
    u64 (s.dataOff i + s.blockSize * j) = g.dataOff off (i * g.perSeg + j) := by
  obtain ⟨hper, hlt⟩ := Geometry.slot_lt hi hj
  have hdata := @Geometry.dataOff_seg cfg g off i j hper
  have hb : g.dataOff off (i * g.perSeg + j) < 2 ^ 64 := h.blockAt_lt hf (g.dataBlock_lt hlt).le
  have h₁ : (s.myOff : ℤ) + s.blockSize * (2 + (1 + s.maxPerSeg) * i) =
      (off + g.blockSize * (2 + (1 + g.perSeg) * i) : ℕ) := by
    rw [hs.myOff, hs.blockSize, hs.maxPerSeg]
    push_cast
    ring
  rw [Super.dataOff, h₁, u64_natCast (by omega), hs.blockSize, ← Nat.cast_mul, ← Nat.cast_add,
    u64_natCast (by omega), hdata]

/-- The entry in it, once the bits that are not part of the block number are masked. -/
theorem IsLayer.load_masked (h : IsLayer g f off es) {i j : ℕ} (hi : i ≤ g.lastSeg es.length)
    (hj : j < g.fill es.length i) :
    f.load (g.blockAt off (g.metaBlock i) + clSize + cfg.entrySize * j) cfg.entrySize &&& addrMask =
      es[i * g.perSeg + j]?.getD 0 := by
  obtain ⟨hj', hlt⟩ := Geometry.slot_lt hi hj
  obtain ⟨hd, hm⟩ := g.seg_div_mod i hj'
  have hentry := h.entry _ hlt
  rw [Geometry.slot, hd, hm] at hentry
  rw [show addrMask = 2 ^ 32 - 1 from rfl, Nat.and_two_pow_sub_one_eq_mod,
    show (2 : ℕ) ^ 32 = 256 ^ 4 by norm_num, ByteFile.load_mod (entrySize_ge cfg), hentry,
    List.getElem?_eq_getElem hlt, Option.getD_some]

/-- The calls for the entries of segment `i` of a layer. -/
theorem IsLayer.segmentMaps (h : IsLayer g f off es) (hf : f.size < 2 ^ 63)
    (hs : s.Is g off es.length) {i : ℕ} (hi : i ≤ g.lastSeg es.length) :
    segmentMaps cfg f s calls i = .ok ((List.range (g.fill es.length i)).flatMap fun j =>
      calls (es[i * g.perSeg + j]?.getD 0 * g.blockSize) (g.dataOff off (i * g.perSeg + j))) := by
  have hi31 : i < 2 ^ 31 := by
    have h₁ := g.lastSeg_le (k := es.length)
    have h₂ := h.length_le
    have h₃ := g.cap_lt
    omega
  have hfill : g.fill es.length i ≤ g.perSeg := min_le_left _ _
  have hper := g.perSeg_lt
  rw [Pcow.segmentMaps, i32_of_range (by omega) (by omega), h.readMeta hf hs hi, Except.map]
  simp only
  rw [u64_natCast (by omega)]
  congr 1
  rw [List.flatMap_def, List.flatMap_def]
  congr 1
  refine List.map_congr_left fun j hj => ?_
  rw [List.mem_range] at hj
  have hentry := h.load_masked hi hj
  have hes32 : es[i * g.perSeg + j]?.getD 0 < 2 ^ 32 := by
    rw [← hentry]
    exact lt_of_le_of_lt Nat.and_le_right (by norm_num)
  have hbs := g.blockSize_lt
  congr 1
  · have hprod : es[i * g.perSeg + j]?.getD 0 * g.blockSize < 2 ^ 64 :=
      lt_of_lt_of_le (Nat.mul_lt_mul'' hes32 hbs) (by norm_num)
    rw [entryVoff, hentry, hs.blockSize, ← Nat.cast_mul, u64_natCast hprod]
  · exact h.dataOff_slot hf hs hi hj

/-- A loop none of whose iterations fails. -/
theorem collect_of_ok {α : Type} {body : ℕ → Except Fault (List α)} {F : ℕ → List α} {i n : ℕ}
    (h : ∀ j, i ≤ j → j < i + n → body j = .ok (F j)) :
    collect body i n = .ok ((List.range n).flatMap fun j => F (i + j)) := by
  induction n generalizing i with
  | zero => rfl
  | succ n ih =>
    rw [collect, h i le_rfl (by omega)]
    simp only
    rw [ih fun j h₁ h₂ => h j (by omega) (by omega), Except.map, List.range_succ_eq_map,
      List.flatMap_cons, List.flatMap_map]
    simp only [Nat.add_zero, Nat.succ_eq_add_one, Nat.add_assoc, Nat.add_comm 1]

/-- The slots of all segments of a layer, one segment after the other, are its entries in
order. -/
theorem Geometry.flatMap_segments {α : Type} (g : Geometry cfg) (k : ℕ) (F : ℕ → List α) :
    ((List.range (g.lastSeg k + 1)).flatMap fun i =>
      (List.range (g.fill k i)).flatMap fun j => F (i * g.perSeg + j)) =
      (List.range k).flatMap F := by
  have hle := g.lastSeg_mul_le (k := k)
  have hfull : ((List.range (g.lastSeg k)).flatMap fun i =>
      (List.range (g.fill k i)).flatMap fun j => F (i * g.perSeg + j)) =
      (List.range (g.lastSeg k)).flatMap fun i =>
        (List.range g.perSeg).flatMap fun j => F (i * g.perSeg + j) := by
    rw [List.flatMap_def, List.flatMap_def]
    congr 1
    refine List.map_congr_left fun i hi => ?_
    rw [Geometry.fill_of_lt (List.mem_range.mp hi)]
  rw [List.range_succ, List.flatMap_append, List.flatMap_singleton, Geometry.fill_lastSeg, hfull,
    flatMap_range_segments, Nat.add_sub_cancel' hle]

/-- **The loops visit the entries of a layer in order**, each with its data
block. -/
theorem IsLayer.layerMaps (h : IsLayer g f off es) (hf : f.size < 2 ^ 63)
    (hs : s.Is g off es.length) :
    layerMaps cfg f s calls = .ok ((List.range es.length).flatMap fun i =>
      calls (es[i]?.getD 0 * g.blockSize) (g.dataOff off i)) := by
  have hseg : g.lastSeg es.length < 2 ^ 64 := by
    have h₁ := g.lastSeg_le (k := es.length)
    have h₂ := h.length_le
    have h₃ := g.cap_lt
    omega
  rw [Pcow.layerMaps, hs.activeMetaNum, u64_natCast hseg,
    collect_of_ok fun j _ hj => h.segmentMaps hf hs (by omega)]
  simp only [Nat.zero_add]
  rw [g.flatMap_segments es.length fun i => calls (es[i]?.getD 0 * g.blockSize) (g.dataOff off i)]

/-- **`do_writable_fmmap` maps each entry's data block** at the virtual block the
entry names. -/
theorem IsLayer.doWritableFmmap (h : IsLayer g f off es) (hf : f.size < 2 ^ 63)
    (hs : s.Is g off es.length) :
    doWritableFmmap cfg f s = .ok ((List.range es.length).flatMap fun i =>
      [.mmap (es[i]?.getD 0 * g.blockSize) g.blockSize s.fd (g.dataOff off i) true]) := by
  have hu : u64 s.blockSize = g.blockSize := by
    have := g.blockSize_lt
    rw [hs.blockSize, u64_natCast (by omega)]
  rw [Pcow.doWritableFmmap, h.layerMaps hf hs, hu]

/-- **`do_readonly_fmmap` does the same**, and takes the write access away. -/
theorem IsLayer.doReadonlyFmmap (h : IsLayer g f off es) (hf : f.size < 2 ^ 63)
    (hs : s.Is g off es.length) :
    doReadonlyFmmap cfg f s = .ok ((List.range es.length).flatMap fun i =>
      [.mmap (es[i]?.getD 0 * g.blockSize) g.blockSize s.fd (g.dataOff off i) true,
        .mprotect (es[i]?.getD 0 * g.blockSize) g.blockSize false]) := by
  have hu : u64 s.blockSize = g.blockSize := by
    have := g.blockSize_lt
    rw [hs.blockSize, u64_natCast (by omega)]
  rw [Pcow.doReadonlyFmmap, h.layerMaps hf hs, hu]

end Pcow
