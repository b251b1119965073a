import Mathlib.Data.List.Nodup
import Pcow.History
import Pcow.Lib.Tiling

/-!
# The blocks of an image

The source computes the offset of a block in five places: `new_super` puts a super block,
`read_meta` looks for a meta block, `new_meta` and `new_block` put new blocks, and the mapping
loops look for data blocks. `imageBlocks` collects the offsets that the reading functions
compute, for every layer of a file, and `blocks_tile` says that they describe one layout: in
every state of every history the blocks tile the file up to the offset at which the next super
block would go, and what `new_block` hands out comes after all of them.
-/

namespace Pcow

variable {cfg : Config} {g : Geometry cfg} {f : ByteFile} {fd : Path} {off k : ℕ}
  {es : List ℕ} {ls : List (List ℕ)}

/-- The file offset a call maps. -/
def mapOff : MapOp Path → Option ℕ
  | .mmap _ _ _ o _ => some o
  | _ => none

/-- The offsets of the blocks of a layer: its super block, the meta blocks where `read_meta`
looks for them, and the data blocks `do_readonly_fmmap` maps. -/
def layerBlocks (cfg : Config) (f : ByteFile) (s : Super) : Except Fault (List ℕ) :=
  (doReadonlyFmmap cfg f s).map fun maps =>
    s.myOff :: (List.range (u64 s.activeMetaNum + 1)).map (fun i : ℕ => s.metaOff i) ++
      maps.filterMap mapOff

/-- The blocks of several layers. -/
def layersBlocks (cfg : Config) (f : ByteFile) : List Super → Except Fault (List ℕ)
  | [] => .ok []
  | s :: L => match layerBlocks cfg f s with
    | .error e => .error e
    | .ok l => (layersBlocks cfg f L).map (l ++ ·)

/-- The blocks of all layers of an image. -/
def imageBlocks (cfg : Config) (f : ByteFile) (fd : Path) : Except Fault (List ℕ) :=
  match supers cfg f fd with
  | .error e => .error e
  | .ok L => layersBlocks cfg f L

/-! ### The blocks of a layer -/

/-- The numbers of the blocks of a layer with `k` entries, in the order of
`layerBlocks`. -/
def Geometry.blockNumbers (g : Geometry cfg) (k : ℕ) : List ℕ :=
  0 :: (List.range (g.lastSeg k + 1)).map g.metaBlock ++ (List.range k).map g.dataBlock

/-- **Every block of a layer is the super block, a meta block or a data block**, and only one
of these. -/
theorem Geometry.tiles_blockNumbers (hdvd : g.blockSize ∣ off) (k : ℕ) :
    Tiles g.blockSize off (g.endOff off k) ((g.blockNumbers k).map (g.blockAt off)) := by
  refine tiles_of_nodup g.blockSize_pos hdvd ?_ ?_ ?_
  · have hmeta : ((List.range (g.lastSeg k + 1)).map g.metaBlock).Nodup :=
      List.Nodup.map (fun i j hij => Geometry.metaBlock_injective hij) List.nodup_range
    have hdata : ((List.range k).map g.dataBlock).Nodup :=
      List.Nodup.map (fun i j hij => Geometry.dataBlock_injective hij) List.nodup_range
    rw [Geometry.blockNumbers, List.cons_append, List.nodup_cons, List.mem_append]
    refine ⟨?_, List.nodup_append.mpr ⟨hmeta, hdata, ?_⟩⟩
    · rintro (h | h)
      · obtain ⟨i, -, hi⟩ := List.mem_map.mp h
        exact absurd hi Geometry.metaBlock_pos.ne'
      · obtain ⟨i, -, hi⟩ := List.mem_map.mp h
        exact absurd hi Geometry.dataBlock_pos.ne'
    · intro x hx y hy
      obtain ⟨i, -, rfl⟩ := List.mem_map.mp hx
      obtain ⟨j, -, rfl⟩ := List.mem_map.mp hy
      exact Geometry.metaBlock_ne_dataBlock
  · intro q hq
    rw [Geometry.blockNumbers, List.cons_append, List.mem_cons, List.mem_append] at hq
    rcases hq with rfl | h | h
    · rw [Geometry.blocks]
      omega
    · obtain ⟨i, hi, rfl⟩ := List.mem_map.mp h
      exact Geometry.metaBlock_lt (by have := List.mem_range.mp hi; omega)
    · obtain ⟨i, hi, rfl⟩ := List.mem_map.mp h
      exact Geometry.dataBlock_lt (List.mem_range.mp hi)
  · simp only [Geometry.blockNumbers, Geometry.blocks, List.length_cons, List.length_append,
      List.length_map, List.length_range]
    omega

/-- **The reading functions find the blocks of a layer.** -/
theorem IsLayer.layerBlocks (h : IsLayer g f off es) (hf : f.size < 2 ^ 63) {s : Super}
    (hs : s.Is g off es.length) :
    layerBlocks cfg f s = .ok ((g.blockNumbers es.length).map (g.blockAt off)) := by
  have hseg : u64 s.activeMetaNum = g.lastSeg es.length := by
    rw [hs.activeMetaNum]
    exact u64_natCast (by
      have := g.lastSeg_le (k := es.length)
      have := h.length_le
      have := g.cap_lt
      omega)
  have hmeta : (List.range (g.lastSeg es.length + 1)).map (fun i : ℕ => s.metaOff i) =
      ((List.range (g.lastSeg es.length + 1)).map g.metaBlock).map (g.blockAt off) := by
    rw [List.map_map]
    refine List.map_congr_left fun i hi => hs.metaOff (h.blockAt_lt hf ?_)
    exact (Geometry.metaBlock_lt (by have := List.mem_range.mp hi; omega)).le
  have hdata : ∀ l : List ℕ, (l.flatMap fun i =>
      [MapOp.mmap (es[i]?.getD 0 * g.blockSize) g.blockSize s.fd (g.dataOff off i) true,
        .mprotect (es[i]?.getD 0 * g.blockSize) g.blockSize false]).filterMap mapOff =
      (l.map g.dataBlock).map (g.blockAt off) := by
    intro l
    induction l with
    | nil => rfl
    | cons i l ih =>
      rw [List.flatMap_cons, List.filterMap_append, ih]
      rfl
  rw [Pcow.layerBlocks, h.doReadonlyFmmap hf hs, hseg, hmeta]
  refine congrArg Except.ok ?_
  simp only
  rw [hdata, hs.myOff, Geometry.blockNumbers, List.map_append, List.map_cons]
  rfl

/-- The blocks of a chain of layers tile the file up to its end. -/
theorem IsLayers.layersBlocks (h : IsLayers g f off ls) (hf : f.size < 2 ^ 63)
    (hdvd : g.blockSize ∣ off) (fd : Path) :
    ∃ l, layersBlocks cfg f (supersOf g fd off ls) = .ok l ∧
      Tiles g.blockSize off (g.chainEnd off ls) l := by
  induction ls generalizing off with
  | nil => exact ⟨[], rfl, tiles_nil⟩
  | cons e ls ih =>
    have hend : g.blockSize ∣ g.endOff off e.length := Nat.dvd_add hdvd (dvd_mul_right _ _)
    obtain ⟨l, hl, htiles⟩ := ih h.2 hend
    refine ⟨(g.blockNumbers e.length).map (g.blockAt off) ++ l, ?_, ?_⟩
    · rw [supersOf, Pcow.layersBlocks, h.1.layerBlocks hf superOf_is]
      simp only
      rw [hl]
      rfl
    · exact (Geometry.tiles_blockNumbers hdvd e.length).append htiles g.blockSize_pos
        (le_trans (Nat.le_add_right _ _) (g.add_blockSize_le_endOff off e.length))
        Geometry.le_chainEnd

/-- **Blocks tile the file.** In every state an image reaches from an empty file by opening
it, by `new_block` calls, guest writes, snapshots and rollbacks, the super blocks, meta blocks
and data blocks of all layers, at the offsets at which they are read, are aligned to the block
size `n`, do not overlap, and cover the range from 0 to the offset at which `new_super` puts the
next super block. A block that `new_block` hands out lies after all of them. -/
theorem blocks_tile (cfg : Config) (fs fs₀ : Fs) (name : Path) (blockSize : ℤ) (maxSize : ℕ)
    (base : Option CString) (f₀ : ByteFile) (ops : List ImageOp) (st : ImageState)
    (hempty : (fs name).getD .empty = .empty)
    (hnew : newImage cfg fs name blockSize maxSize base = .ok (fs₀, 0))
    (hf₀ : fs₀ name = some f₀) (hrun : ImageState.run cfg name ⟨f₀, none⟩ ops = .ok st) :
    ∃ (n : ℕ) (last : Super) (l : List ℕ), 0 < n ∧ readLastSuper cfg st.file name =
      .ok (some last) ∧
      last.blockSize = n ∧ imageBlocks cfg st.file name = .ok l ∧
      Tiles n 0 (last.endOff st.file) l ∧
      ∀ s r, st.session = some (s, r) → ∀ k k' faultOff x,
        newBlock cfg st.file s r k k' faultOff = .ok x →
          n ∣ x.2.2.1.blockOff ∧ ∀ b ∈ l, b + n ≤ x.2.2.1.blockOff := by
  obtain ⟨g, f, rfl, -, himg, -, -, -⟩ := isImage_newImage hempty hnew
  rw [Function.update_self, Option.some.injEq] at hf₀
  subst hf₀
  have his₀ : ImageState.Is ⟨f, none⟩ g [] [] := ⟨himg, fun s r hs => by cases hs⟩
  obtain ⟨ls, es, his⟩ := his₀.run hrun
  have himage := his.image
  obtain ⟨l, hl, htiles⟩ := himage.isChain.layers.layersBlocks himage.size_lt (dvd_zero _) name
  refine ⟨g.blockSize, _, l, g.blockSize_pos, himage.readLastSuper name, rfl, ?_, ?_, ?_⟩
  · rw [imageBlocks, himage.supers name]
    exact hl
  · rw [himage.last.endOff himage.size_lt superOf_is, ← g.chainEnd_concat]
    exact htiles
  · rintro s r hses k k' faultOff ⟨s', r', nb, ops'⟩ hnb
    obtain ⟨hs, hring⟩ := his.session s r hses
    obtain ⟨-, -, -, rfl, -, -⟩ := himage.newBlock hs hring hnb
    have hdvd : g.blockSize ∣ g.chainEnd 0 ls := Geometry.dvd_chainEnd (dvd_zero _)
    refine ⟨Nat.dvd_add hdvd (dvd_mul_right _ _), fun b hb => ?_⟩
    have hmem := (htiles.mem g.blockSize_pos hb).2
    rw [g.chainEnd_concat] at hmem
    exact le_trans hmem (g.endOff_le_dataOff _ _)

/-- Two snapshots are made, each of a layer with data blocks, and the second one is rolled back. -/
def twoSnapshots : List ImageOp :=
  [.reopen, .newBlock 2 1 0, .write 0 5 7, .snapshot, .reopen, .newBlock 2 1 0, .newBlock 1 1 4096,
    .snapshot, .reopen, .newBlock 2 1 4096, .rollback 2, .reopen]

/-- The blocks of the two layers that are left, and the one that is handed out next. -/
theorem blocks_tile_twoSnapshots : ∃ fs₀ f₀ st n last s r x,
    newImage Config.shipped (fun _ => none) [] (4 * (1 : ℕ)) 1 none = .ok (fs₀, 0) ∧
      fs₀ [] = some f₀ ∧
      ImageState.run Config.shipped [] ⟨f₀, none⟩ twoSnapshots = .ok st ∧
      readLastSuper .shipped st.file [] = .ok (some last) ∧
      Tiles n 0 (last.endOff st.file) [0, 4096, 8192, 12288, 16384, 20480, 24576] ∧
      st.session = some (s, r) ∧ newBlock .shipped st.file s r 2 1 8192 = .ok x ∧
      ∀ b ∈ [0, 4096, 8192, 12288, 16384, 20480, 24576], b + n ≤ x.2.2.1.blockOff := by
  obtain ⟨fs₀, f₀, hnew, hf₀, hF⟩ := @exists_onNewImage _ (fun f =>
    (ImageState.run .shipped [] ⟨f, none⟩ twoSnapshots).bind fun st =>
      (imageBlocks .shipped st.file []).bind fun l => st.session.elim (.error .outOfRange) fun x =>
        (newBlock .shipped st.file x.1 x.2 2 1 8192).bind fun _ => .ok l)
    [0, 4096, 8192, 12288, 16384, 20480, 24576] (by decide +kernel)
  obtain ⟨st, hrun, hF⟩ := exists_of_bind hF
  obtain ⟨l, hl, hF⟩ := exists_of_bind hF
  rcases hses : st.session with _ | ⟨s, r⟩
  · rw [hses] at hF
    cases hF
  rw [hses] at hF
  obtain ⟨x, hnb, hl'⟩ := exists_of_bind hF
  obtain rfl := Except.ok.inj hl'
  obtain ⟨n, last, l', -, hlast, -, hblocks, htiles, hnext⟩ :=
    blocks_tile .shipped (fun _ => none) _ []
    (4 * (1 : ℕ)) 1 none f₀ twoSnapshots st rfl hnew hf₀ hrun
  obtain rfl := Except.ok.inj (hblocks.symm.trans hl)
  exact ⟨fs₀, f₀, st, n, last, s, r, x, hnew, hf₀, hrun, hlast, htiles, hses, hnb,
    (hnext s r hses 2 1 8192 x hnb).2⟩

end Pcow
