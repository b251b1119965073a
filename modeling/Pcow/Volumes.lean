import Pcow.Shelf

/-!
# Files as volumes

The file of a closed image is a volume (`IsVolume`): its layers are those of the file, each of them
the bytes its data blocks hold at the blocks they are bound to, and its base is the name read back.
They overlay each other as the bindings of the chain do (`look_chainLayers`).

The calls of the tool then do to the file what they are to do to the volume. `new_image` makes an
empty one, `update_base_image` changes the name, which lies between the bytes that are read as
structure, `snapshot` puts a layer on top and `rollback_snapshot` takes layers off; the bytes of the
layers that stay are kept by all of them.
-/

namespace Pcow

open LayerStack

variable {cfg : Config} {g : Geometry cfg} {fs fs' : Fs} {f f' : ByteFile} {name : Path}
  {off n v : ℕ} {es : List ℕ} {ls : List (List ℕ)}

/-! ### The layers of a file -/

/-- The layer that bindings of blocks of size `n` make. -/
def bindingLayer (fs : Fs) (n : ℕ) (l : List (ℕ × Path × ℕ)) : Layer ℕ UInt8 := fun v =>
  (PageTable.lastOf l (v / n)).map fun y => fs.byteOf y.1 (y.2 + v % n)

@[simp] theorem bindingLayer_nil : bindingLayer fs n [] v = none := rfl

theorem bindingLayer_append {l l' : List (ℕ × Path × ℕ)} : bindingLayer fs n (l ++ l') v =
    (bindingLayer fs n l' v).or (bindingLayer fs n l v) := by
  rw [bindingLayer, PageTable.lastOf_append, Option.map_or]
  rfl

/-- A layer depends on the bytes of its blocks. -/
theorem bindingLayer_congr {l : List (ℕ × Path × ℕ)} (hn : 0 < n)
    (h : ∀ x ∈ l, ∀ a, x.2.2 ≤ a → a < x.2.2 + n → fs'.byteOf x.2.1 a = fs.byteOf x.2.1 a) :
    bindingLayer fs' n l = bindingLayer fs n l := by
  funext v
  rw [bindingLayer, bindingLayer]
  rcases hl : PageTable.lastOf l (v / n) with _ | ⟨p, o⟩
  · rfl
  · have hlt := Nat.mod_lt v hn
    rw [Option.map_some, Option.map_some]
    exact congrArg some (h _ (PageTable.mem_of_lastOf hl) _ (Nat.le_add_right _ _)
      (Nat.add_lt_add_left hlt o))

/-- The layers of a chain, the first of them at `off`. -/
def chainLayers (g : Geometry cfg) (fs : Fs) (name : Path) : ℕ → List (List ℕ) →
    List (Layer ℕ UInt8)
  | _, [] => []
  | off, es :: ls => bindingLayer fs g.blockSize (g.bindings name off es) ::
      chainLayers g fs name (g.endOff off es.length) ls

theorem chainLayers_append {ls' : List (List ℕ)} : chainLayers g fs name off (ls ++ ls') =
    chainLayers g fs name off ls ++ chainLayers g fs name (g.chainEnd off ls) ls' := by
  induction ls generalizing off with
  | nil => rfl
  | cons es ls ih => rw [List.cons_append, chainLayers, ih]; rfl

theorem chainLayers_concat : chainLayers g fs name off (ls ++ [es]) =
    chainLayers g fs name off ls ++
      [bindingLayer fs g.blockSize (g.bindings name (g.chainEnd off ls) es)] :=
  chainLayers_append

@[simp] theorem length_chainLayers : (chainLayers g fs name off ls).length = ls.length := by
  induction ls generalizing off with
  | nil => rfl
  | cons es ls ih => rw [chainLayers, List.length_cons, ih, List.length_cons]

theorem take_chainLayers (k : ℕ) :
    (chainLayers g fs name off ls).take k = chainLayers g fs name off (ls.take k) := by
  induction ls generalizing off k with
  | nil => rw [chainLayers, List.take_nil, List.take_nil, chainLayers]
  | cons es ls ih =>
    cases k with
    | zero => rfl
    | succ k => rw [chainLayers, List.take_succ_cons, ih, List.take_succ_cons, chainLayers]

/-- **The layers of a chain overlay each other as its bindings do.** -/
theorem look_chainLayers : look (chainLayers g fs name off ls) v =
    bindingLayer fs g.blockSize (g.chainBindings name off ls) v := by
  induction ls generalizing off with
  | nil => rfl
  | cons es ls ih =>
    rw [chainLayers, look_cons, ih, Geometry.chainBindings, bindingLayer_append]

/-- **The layers have nothing at an offset** if none has an entry for its block. -/
theorem look_chainLayers_eq_none :
    look (chainLayers g fs name off ls) v = none ↔ ∀ e ∈ ls, v / g.blockSize ∉ e := by
  induction ls generalizing off with
  | nil => simp [chainLayers]
  | cons e ls ih =>
    have htop : bindingLayer fs g.blockSize (g.bindings name off e) v = none ↔
        v / g.blockSize ∉ e := Option.map_eq_none_iff.trans Geometry.top_eq_none
    rw [chainLayers, look_cons, Option.or_eq_none_iff, ih, htop, List.forall_mem_cons, and_comm]

/-- They depend on the bytes of the chain past its first super block. -/
theorem chainLayers_congr (h : ∀ a, off + g.blockSize ≤ a → a < g.chainEnd off ls →
    fs'.byteOf name a = fs.byteOf name a) :
    chainLayers g fs' name off ls = chainLayers g fs name off ls := by
  induction ls generalizing off with
  | nil => rfl
  | cons es ls ih =>
    have hnext := g.add_blockSize_le_endOff off es.length
    rw [chainLayers, chainLayers, ih fun a ha => h a (by omega)]
    congr 1
    refine bindingLayer_congr g.blockSize_pos fun x hx a hle ha => ?_
    obtain ⟨i, hi, rfl⟩ := g.mem_bindings hx
    have hdata : off + g.blockSize ≤ g.dataOff off i :=
      Nat.add_le_add_left (Nat.le_mul_of_pos_right _ g.dataBlock_pos) _
    have hlt := g.blockAt_add_le off (g.dataBlock_lt hi)
    have hend : g.endOff off es.length ≤ g.chainEnd off (es :: ls) :=
      Geometry.chainEnd_mono (List.prefix_append [es] ls) off
    rw [Geometry.dataOff] at *
    rw [Geometry.endOff] at hend
    simp only at hle ha
    exact h a (by omega) (by omega)

/-! ### An image that is closed -/

/-- **The closed image is the volume `w`.** -/
structure IsVolume (g : Geometry cfg) (fs : Fs) (name : Path) (ls : List (List ℕ)) (es : List ℕ)
    (w : Volume) : Prop where
  image : IsImage g ((fs name).getD .empty) ls es
  dvd : pageSize ∣ g.blockSize
  lt : g.blockSize < 2 ^ 30
  blockSize : w.blockSize = g.blockSize
  maxBlockNum : w.maxBlockNum = g.maxBlockNum
  base : w.base = baseImageName ((fs name).getD .empty) 0
  layers : w.layers = chainLayers g fs name 0 (ls ++ [es])

namespace IsVolume

variable {w : Volume}

theorem split (h : IsVolume g fs name ls es w) : w.frozen = chainLayers g fs name 0 ls ∧
    w.top = bindingLayer fs g.blockSize (g.bindings name (g.chainEnd 0 ls) es) := by
  have hl := h.layers
  rw [chainLayers_concat, Volume.layers] at hl
  obtain ⟨h₁, h₂⟩ := List.append_inj' hl rfl
  exact ⟨h₁, List.singleton_inj.mp h₂⟩

theorem page_le (h : IsVolume g fs name ls es w) : 4096 ≤ g.blockSize :=
  Nat.le_of_dvd g.blockSize_pos h.dvd

theorem rangeLength (h : IsVolume g fs name ls es w) (length : ℕ) :
    w.rangeLength length = g.mapLength length := by
  rw [Volume.rangeLength, Geometry.mapLength, h.blockSize, h.maxBlockNum]

theorem readFirstSuper (h : IsVolume g fs name ls es w) :
    ∃ s, Pcow.readFirstSuper cfg ((fs name).getD .empty) name 0 = .ok (some s) := by
  obtain ⟨e, l, -, hread⟩ := h.image.readFirstSuper name
  exact ⟨_, hread⟩

/-- The block size is the first number of the file. -/
theorem loadInt (h : IsVolume g fs name ls es w) :
    ((fs name).getD .empty).loadInt 0 = g.blockSize := by
  obtain ⟨e, l, hel⟩ := List.exists_cons_of_ne_nil (show ls ++ [es] ≠ [] by simp)
  have hlayers := h.image.isChain.layers
  rw [hel] at hlayers
  exact hlayers.1.blockSize

/-- A volume has its layers in one file. -/
theorem congr (h : IsVolume g fs name ls es w)
    (hfile : (fs' name).getD .empty = (fs name).getD .empty) : IsVolume g fs' name ls es w where
  image := hfile ▸ h.image
  dvd := h.dvd
  lt := h.lt
  blockSize := h.blockSize
  maxBlockNum := h.maxBlockNum
  base := hfile ▸ h.base
  layers := h.layers.trans (chainLayers_congr fun a _ _ => by
    rw [Fs.byteOf, Fs.byteOf, hfile]).symm

end IsVolume

/-! ### What the calls of the tool do -/

/-- There is no volume in an empty file. -/
theorem readFirstSuper_empty : readFirstSuper cfg .empty name 0 = .ok none := if_pos (by decide)

theorem IsImage.exists_file (h : IsImage g ((fs name).getD .empty) ls es) :
    ∃ f, fs name = some f := by
  refine Option.ne_none_iff_exists'.mp fun hnone => ?_
  obtain ⟨e, l, -, hread⟩ := h.readFirstSuper name
  rw [hnone, Option.getD_none, readFirstSuper_empty] at hread
  cases hread

/-- The bytes of the name lie before all that is read as structure. -/
theorem ChainByte.not_name (hdvd : pageSize ∣ g.blockSize) {a : ℕ} (h : ChainByte g 0 ls a) :
    a < 16 ∨ 64 ≤ a := by
  have hpage := Nat.le_of_dvd g.blockSize_pos hdvd
  rw [show pageSize = 4096 from rfl] at hpage
  rcases ls with _ | ⟨e, ls⟩
  · exact h.elim
  rcases h with (⟨-, h⟩ | ⟨i, -, h, -⟩ | ⟨i, -, h, -⟩) | h
  · exact Or.inl h
  · have hle := g.blockAt_add_le 0 (g.metaBlock_pos (i := i))
    rw [Geometry.blockAt, Nat.mul_zero] at hle
    omega
  · have hmem := g.slot_mem 0 i
    have hle := g.blockAt_add_le 0 (g.metaBlock_pos (i := i / g.perSeg))
    rw [Geometry.blockAt, Nat.mul_zero] at hle
    omega
  · have hle := h.mem.1
    have hend := g.add_blockSize_le_endOff 0 e.length
    omega

/-- **The name of the base may change** in an image. -/
theorem IsImage.rename (h : IsImage g f ls es) (hdvd : pageSize ∣ g.blockSize)
    (hsz : f'.size = f.size) (hb : ∀ a, a < 16 ∨ 64 ≤ a → f'.byte a = f.byte a) :
    IsImage g f' ls es := by
  have hchain : IsLayers g f' 0 (ls ++ [es]) := by
    refine h.isChain.layers.congr_bytes ?_ fun a ha => hb a (ha.not_name hdvd)
    rw [hsz, g.chainEnd_concat]
    exact h.endOff_le
  obtain ⟨hfrozen, hlast⟩ := isLayers_append.mp hchain
  refine ⟨hfrozen, isLayers_singleton.mp hlast, fun a ha hap => ?_, hsz ▸ h.size_lt⟩
  have hpage := Nat.le_of_dvd g.blockSize_pos hdvd
  have hend := g.add_blockSize_le_endOff (g.chainEnd 0 ls) es.length
  rw [show pageSize = 4096 from rfl] at hpage
  rw [hb a (Or.inr (by omega))]
  exact h.tail a ha hap

/-- **`new_image` on an empty file makes a new volume.** -/
theorem isVolume_newImage {blockSize rc : ℤ} {maxSize : ℕ} {base : Option CString}
    (hempty : (fs name).getD .empty = .empty) (hname : ∀ b ∈ base, b.chars.length < 48)
    (hr : newImage cfg fs name blockSize maxSize base = .ok (fs', rc)) :
    rc = 0 ∧ (∀ q, q ≠ name → fs' q = fs q) ∧ ∃ (g : Geometry cfg),
      (g.blockSize : ℤ) = i32 (blockSize * 1024) ∧
      g.maxBlockNum = i32 (u64 (maxSize * 1024 * 1024) / u64 blockSize : ℕ) ∧
      IsVolume g fs' name [] [] (.new g.blockSize g.maxBlockNum base) := by
  have hnone : readFirstSuper cfg ((fs name).getD .empty) name 0 = .ok none := by
    rw [hempty]
    exact readFirstSuper_empty
  obtain ⟨g', f', hfs, rfl, himage, hdvd, hlt, hzero, hbs, hmax⟩ := isImage_newImage hempty hr
  obtain ⟨-, g, hfs', hdvd', hb30, -⟩ := newImage_ok hnone hr
  have hf' : f' = FileOp.run (formatOps g base) .empty := by
    have heq := congrFun (hfs.symm.trans hfs') name
    rw [Function.update_self, Function.update_self, hempty] at heq
    exact Option.some.inj heq
  have hfile : (fs' name).getD .empty = f' := by rw [hfs, Function.update_self, Option.getD_some]
  refine ⟨rfl, fun q hq => by rw [hfs, Function.update_of_ne hq], g', hbs, hmax, ?_⟩
  refine ⟨hfile ▸ himage, hdvd, hlt, rfl, rfl, ?_, rfl⟩
  rw [hfile, Volume.new]
  rcases base with _ | b
  · exact (baseImageName_eq_nil (hzero rfl)).symm
  · rw [hf']
    exact ((baseImageName_run_formatOps hdvd' hb30).mpr (Or.inl (hname b rfl))).symm

namespace IsVolume

variable {w : Volume} {rc : ℤ}

theorem exists_file (h : IsVolume g fs name ls es w) : ∃ f, fs name = some f := h.image.exists_file

/-- `new_image` fails on a volume. -/
theorem newImage {blockSize : ℤ} {maxSize : ℕ} {base : Option CString}
    (h : IsVolume g fs name ls es w)
    (hr : Pcow.newImage cfg fs name blockSize maxSize base = .ok (fs', rc)) : rc = -1 ∧
    fs' = fs := by
  obtain ⟨s, hs⟩ := h.readFirstSuper
  obtain ⟨f, hf⟩ := h.exists_file
  rw [Pcow.newImage] at hr
  simp only [hs] at hr
  cases hr
  rw [hf, Option.getD_some, ← hf]
  exact ⟨rfl, Function.update_eq_self _ _⟩

/-- **`update_base_image` gives the volume another base.** -/
theorem updateBaseImage {base : CString} (h : IsVolume g fs name ls es w)
    (hname : base.chars.length < 48)
    (hr : Pcow.updateBaseImage cfg fs name base = .ok (fs', rc)) :
    rc = 0 ∧ (∀ q, q ≠ name → fs' q = fs q) ∧
      IsVolume g fs' name ls es { w with base := base.chars } := by
  obtain ⟨s, hs⟩ := h.readFirstSuper
  obtain ⟨f, hf⟩ := h.exists_file
  have himage := h.image
  rw [hf, Option.getD_some] at hs himage
  have hoff := readFirstSuper_myOff hs
  rw [Pcow.updateBaseImage, hf] at hr
  simp only [hs, hoff] at hr
  cases hr
  have hbytes : ∀ a, a < 16 ∨ 64 ≤ a → (FileOp.run (baseNameOps 0 base) f).byte a = f.byte a := by
    intro a ha
    refine FileOp.byte_run_of_not_touches fun o ho ht => ?_
    have := touches_baseNameOps ho ht
    omega
  have hsz : (FileOp.run (baseNameOps 0 base) f).size = f.size :=
    FileOp.size_run_of_inPlace fun o ho => FileOp.inPlace_memcpy ho
  have hrun : FileOp.run (baseNameOps 0 base ++ [.flush (0 + 16), .fence]) f =
      FileOp.run (baseNameOps 0 base) f := by
    rw [FileOp.run_append, FileOp.run_of_barriers (by simp [FileOp.IsBarrier])]
  refine ⟨rfl, fun q hq => Function.update_of_ne hq _ _, ?_⟩
  refine ⟨?_, h.dvd, h.lt, h.blockSize, h.maxBlockNum, ?_,
    h.layers.trans (chainLayers_congr fun a ha _ => ?_).symm⟩
  · rw [Function.update_self, Option.getD_some, hrun]
    exact himage.rename h.dvd hsz hbytes
  · rw [Function.update_self, Option.getD_some, hrun]
    exact ((baseImageName_eq_iff (fun i hi => byte_run_baseNameOps hi (readFirstSuper_clSize hs))
      fun a ha _ => hbytes a (Or.inr ha)).mpr (Or.inl hname)).symm
  · have hpage := h.page_le
    rw [Fs.byteOf, Fs.byteOf, Function.update_self, Option.getD_some, hrun, hf, Option.getD_some]
    exact hbytes a (Or.inr (by omega))

/-- Where the bytes up to the end of some layers are kept, these layers are, and the name. -/
theorem of_kept {g : Geometry cfg} {ls' : List (List ℕ)} {es' : List ℕ} {w' : Volume}
    (h : IsVolume g fs name ls es w) (himage : IsImage g ((fs' name).getD .empty) ls' es')
    {k : List (List ℕ)} (hk : k ≠ [])
    (hkept : ∀ a < g.chainEnd 0 k, ((fs' name).getD .empty).byte a = ((fs name).getD .empty).byte a)
    (hlayers : w'.layers = chainLayers g fs' name 0 (ls' ++ [es']))
    (hw' : w' = { w with frozen := w'.frozen, top := w'.top }) :
    IsVolume g fs' name ls' es' w' := by
  have hpage := h.page_le
  have hend : 4096 ≤ g.chainEnd 0 k := by
    obtain ⟨e, l, rfl⟩ := List.exists_cons_of_ne_nil hk
    have hle : g.endOff 0 e.length ≤ g.chainEnd (g.endOff 0 e.length) l := Geometry.le_chainEnd
    have hnext := g.add_blockSize_le_endOff 0 e.length
    rw [Geometry.chainEnd]
    omega
  rw [hw']
  refine ⟨himage, h.dvd, h.lt, h.blockSize, h.maxBlockNum, ?_, hlayers⟩
  rw [baseImageName_congr fun a ha => hkept a (lt_of_lt_of_le ha.2 hend)]
  exact h.base

/-- **`snapshot` freezes the layer on top.** -/
theorem snapshot (h : IsVolume g fs name ls es w)
    (hr : Pcow.snapshot cfg fs name = .ok (fs', rc)) :
    rc = 0 ∧ (∀ q, q ≠ name → fs' q = fs q) ∧ IsVolume g fs' name (ls ++ [es]) [] w.freeze := by
  obtain ⟨f, hf⟩ := h.exists_file
  have himage := h.image
  rw [hf, Option.getD_some] at himage
  rw [Pcow.snapshot, onImage, hf] at hr
  simp only at hr
  rcases hs : snapshotFile cfg f name with e | y
  · rw [hs] at hr
    cases hr
  rw [hs] at hr
  cases hr
  obtain ⟨hrc, himage', hbytes⟩ := himage.snapshotFile hs
  have hfile : ((Function.update fs name (some y.1)) name).getD .empty = y.1 := by
    rw [Function.update_self, Option.getD_some]
  refine ⟨hrc, fun q hq => Function.update_of_ne hq _ _, h.of_kept (hfile.symm ▸ himage')
    (List.concat_ne_nil es ls) (fun a ha => ?_) ?_ rfl⟩
  · rw [hfile, hf, Option.getD_some]
    exact hbytes a ha
  · have hconcat : chainLayers g (Function.update fs name (some y.1)) name 0
      ((ls ++ [es]) ++ [[]]) =
        chainLayers g (Function.update fs name (some y.1)) name 0 (ls ++ [es]) ++ [empty] :=
      chainLayers_concat
    rw [Volume.layers_freeze, h.layers, hconcat]
    congr 1
    refine (chainLayers_congr fun a _ ha => ?_).symm
    rw [Fs.byteOf, Fs.byteOf, hfile, hf, Option.getD_some]
    exact hbytes a ha

/-- **`rollback_snapshot` cuts the volume.** -/
theorem rollbackSnapshot {no : ℤ} (h : IsVolume g fs name ls es w)
    (hr : Pcow.rollbackSnapshot cfg fs name no = .ok (fs', rc)) :
    rc = 0 ∧ (∀ q, q ≠ name → fs' q = fs q) ∧ ∃ ls' es',
      IsVolume g fs' name ls' es' (w.cut no) := by
  obtain ⟨f, hf⟩ := h.exists_file
  have himage := h.image
  rw [hf, Option.getD_some] at himage
  have hlen : w.frozen.length = ls.length := by rw [h.split.1, length_chainLayers]
  rw [Pcow.rollbackSnapshot, onImage, hf] at hr
  simp only [himage.rollbackFile no] at hr
  by_cases hno : 1 ≤ no ∧ no ≤ ls.length + 1
  swap
  · rw [if_neg hno] at hr
    cases hr
    rw [Volume.cut_of_not (by omega), ← hf, Function.update_eq_self]
    exact ⟨rfl, fun q _ => rfl, ls, es, h⟩
  rw [if_pos hno] at hr
  cases hr
  obtain ⟨k, rfl⟩ : ∃ k : ℕ, no = (k + 1 : ℕ) := ⟨(no - 1).toNat, by omega⟩
  have hlt : k < (ls ++ [es]).length := by
    rw [List.length_append, List.length_singleton]
    omega
  have htake : (ls ++ [es]).take k ++ [(ls ++ [es])[k]] = (ls ++ [es]).take (k + 1) :=
    List.take_append_getElem hlt
  have hpre : (ls ++ [es]).take k ++ [(ls ++ [es])[k]] <+: ls ++ [es] := by
    rw [htake]
    exact List.take_prefix _ _
  have himage' := himage.truncate hpre
  rw [Int.toNat_natCast, ← htake]
  generalize hcut : f.truncate (g.chainEnd 0 ((ls ++ [es]).take k ++ [(ls ++ [es])[k]])) = f' at *
  have hfile : ((Function.update fs name (some f')) name).getD .empty = f' := by
    rw [Function.update_self, Option.getD_some]
  have hbytes : ∀ a < g.chainEnd 0 ((ls ++ [es]).take k ++ [(ls ++ [es])[k]]),
      f'.byte a = f.byte a := by
    intro a ha
    rw [← hcut, ByteFile.byte_truncate, if_pos ha]
  refine ⟨rfl, fun q hq => Function.update_of_ne hq _ _, (ls ++ [es]).take k, (ls ++ [es])[k],
    h.of_kept (k := (ls ++ [es]).take k ++ [(ls ++ [es])[k]]) (hfile.symm ▸ himage')
      (List.concat_ne_nil _ _) (fun a ha => ?_) ?_ ?_⟩
  · rw [hfile, hf, Option.getD_some]
    exact hbytes a ha
  · rw [Volume.layers_cut, h.layers, take_chainLayers, ← htake]
    · refine (chainLayers_congr fun a _ ha => ?_).symm
      rw [Fs.byteOf, Fs.byteOf, hfile, hf, Option.getD_some]
      exact hbytes a ha
    · rw [Volume.layers, List.length_append, List.length_singleton, hlen]
      omega
  · rw [Volume.cut]
    split
    · split
      · rfl
      · rfl
    · rfl

end IsVolume

/-- **Where there is no volume** the calls on one return -1, and change no contents. -/
theorem step_of_empty {W W' : World} {op : WorldOp} {r : Answer} (hop : Shelf.NeedsVolume name op)
    (hempty : W.file name = .empty) (hr : W.step cfg op = .ok (W', r)) :
    r = .returned (-1) ∧ W'.sessions = W.sessions ∧ ∀ q, W'.file q = W.file q := by
  have hsame : ∀ f, W.fs name = some f → ∀ q,
      (Function.update W.fs name (some f) q).getD .empty = W.file q := by
    rintro f hf q
    rw [← hf, Function.update_eq_self]
    rfl
  cases op with
  | updateBaseImage p base =>
    obtain rfl : p = name := hop
    rw [World.step, updateBaseImage] at hr
    rw [World.file] at hempty
    rcases hf : W.fs p with _ | f
    · rw [hf] at hr
      cases hr
      exact ⟨rfl, rfl, fun _ => rfl⟩
    · rw [hf, Option.getD_some] at hempty
      simp only [hf, hempty, readFirstSuper_empty] at hr
      cases hr
      exact ⟨rfl, rfl, fun _ => rfl⟩
  | snapshot p =>
    obtain rfl : p = name := hop
    rw [World.step, snapshot, onImage] at hr
    rw [World.file] at hempty
    rcases hf : W.fs p with _ | f
    · rw [hf] at hr
      cases hr
      exact ⟨rfl, rfl, fun _ => rfl⟩
    · rw [hf, Option.getD_some] at hempty
      simp only [hf, snapshotFile, hempty, readFirstSuper_empty] at hr
      cases hr
      exact ⟨rfl, rfl, hsame _ (hempty ▸ hf)⟩
  | rollbackSnapshot p no =>
    obtain rfl : p = name := hop
    rw [World.step, rollbackSnapshot, onImage] at hr
    rw [World.file] at hempty
    rcases hf : W.fs p with _ | f
    · rw [hf] at hr
      cases hr
      exact ⟨rfl, rfl, fun _ => rfl⟩
    · rw [hf, Option.getD_some] at hempty
      simp only [hf, rollbackFile, hempty, readFirstSuper_empty] at hr
      cases hr
      exact ⟨rfl, rfl, hsame _ (hempty ▸ hf)⟩
  | newImage p blockSize maxSize base => exact hop.elim
  | fmmap p length offset => exact hop.elim
  | guest p op => exact hop.elim
  | fmunmap p => exact hop.elim

end Pcow
