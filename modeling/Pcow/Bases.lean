import Pcow.Build

/-!
# Base images

An image may name another one as its base, whose layers `fmmap` maps below its own. The
walk over the layers of the base (`Session.baseLoop`) maps its first layer twice, which
leaves the same pages as mapping each layer once (`Geometry.run_walkBindings`). With one
level of base, or none, the range is the overlay of all layers of both images
(`fmmap_overlay`). The walk reads structs that it has freed, which are taken to have kept
their contents here; `Pcow.Freed` has what comes of it where they have not.
-/

namespace Pcow

variable {cfg : Config} {g gb : Geometry cfg} {f : ByteFile} {fs : Fs} {fd name : Path}
  {es : List ℕ} {ls lb : List (List ℕ)} {length offset : ℕ}

/-! ### What a base maps -/

section Keeps

variable {s t : Super} {n : ℕ} {P : Pte Path → Prop} {l : List (MapOp Path)}

theorem keeps_readonlyMaps {L : List Super} (h : ∀ s ∈ L, ∀ o, P ⟨s.fd, o, false⟩)
    (hr : Session.readonlyMaps cfg f L = .ok l) : PageTable.Keeps P l := by
  induction L generalizing l with
  | nil =>
    cases hr
    exact PageTable.keeps_nil
  | cons s L ih =>
    rw [Session.readonlyMaps] at hr
    rcases hm : doReadonlyFmmap cfg f s with e | m
    · rw [hm] at hr
      cases hr
    rw [hm] at hr
    obtain ⟨m', hrest, rfl⟩ := map_eq_ok hr
    obtain ⟨hs, hL⟩ := List.forall_mem_cons.mp h
    exact (keeps_doReadonlyFmmap hs hm).append (ih hL hrest)

theorem keeps_baseLoop (hs : ∀ o, P ⟨s.fd, o, false⟩) (ht : ∀ o, P ⟨t.fd, o, false⟩)
    (hr : Session.baseLoop cfg f n s t = .ok l) : PageTable.Keeps P l := by
  induction n generalizing s t l with
  | zero => cases hr
  | succ n ih =>
    rw [Session.baseLoop] at hr
    rcases hm : doReadonlyFmmap cfg f s with e | m
    · rw [hm] at hr
      cases hr
    rw [hm] at hr
    simp only at hr
    rcases hnext : readNextSuper cfg f t with e | _ | t'
    · rw [hnext] at hr
      cases hr
    · rw [hnext] at hr
      obtain ⟨m', hlast, rfl⟩ := map_eq_ok hr
      exact (keeps_doReadonlyFmmap hs hm).append (keeps_doReadonlyFmmap ht hlast)
    · rw [hnext] at hr
      obtain ⟨m', hrest, rfl⟩ := map_eq_ok hr
      refine (keeps_doReadonlyFmmap hs hm).append (ih ht (fun o => ?_) hrest)
      rw [readNextSuper_fd hnext]
      exact ht o

theorem keeps_doBaseFmmap (hs : ∀ o, P ⟨s.fd, o, false⟩)
    (hr : Session.doBaseFmmap cfg f n s = .ok l) : PageTable.Keeps P l := by
  induction n generalizing s l with
  | zero => cases hr
  | succ n ih =>
    have hafter : ∀ {m : List (MapOp Path)}, PageTable.Keeps P m →
        (Session.baseLoop cfg f (f.size + 1) s s).map (m ++ ·) = .ok l → PageTable.Keeps P l := by
      intro m hm hr
      obtain ⟨m', hloop, rfl⟩ := map_eq_ok hr
      exact hm.append (keeps_baseLoop hs hs hloop)
    rw [Session.doBaseFmmap] at hr
    split_ifs at hr
    · exact hafter PageTable.keeps_nil hr
    rcases hread : readFirstSuper cfg f s.fd 0 with e | _ | b
    · simp only [hread] at hr
      cases hr
    · simp only [hread] at hr
      exact hafter PageTable.keeps_nil hr
    · simp only [hread] at hr
      rcases hdeep : Session.doBaseFmmap cfg f n b with e | m
      · rw [hdeep] at hr
        cases hr
      · rw [hdeep] at hr
        refine hafter (ih (fun o => ?_) hdeep) hr
        rw [readFirstSuper_fd hread]
        exact hs o

/-- Opening the base changes the contents of no file. -/
theorem getD_update_getD (fs : Fs) (name q : Path) :
    (Function.update fs name (some ((fs name).getD .empty)) q).getD .empty =
      (fs q).getD .empty := by
  rcases eq_or_ne q name with rfl | hq
  · rw [Function.update_self]
    rfl
  · rw [Function.update_of_ne hq]

/-- **The base is mapped read-only**, whatever is in its file. -/
theorem keeps_baseMaps {fs' : Fs} (hP : ∀ o, P ⟨name, o, false⟩)
    (hr : Session.baseMaps cfg fs name = .ok (fs', l)) :
    PageTable.Keeps P l ∧ ∀ q, (fs' q).getD .empty = (fs q).getD .empty := by
  rw [Session.baseMaps] at hr
  split_ifs at hr
  · cases hr
    exact ⟨PageTable.keeps_nil, fun _ => rfl⟩
  simp only at hr
  rcases hread : readFirstSuper cfg ((fs name).getD .empty) name 0 with e | _ | s
  · rw [hread] at hr
    cases hr
  · rw [hread] at hr
    cases hr
    exact ⟨PageTable.keeps_nil, getD_update_getD fs name⟩
  · rw [hread] at hr
    obtain ⟨m, hmaps, hm⟩ := map_eq_ok hr
    cases hm
    refine ⟨keeps_doBaseFmmap (fun o => ?_) hmaps, getD_update_getD fs name⟩
    rw [readFirstSuper_fd hread]
    exact hP o

end Keeps

/-! ### One level of base -/

/-- **The image names no base, or an image without a base of its own**, with the parameters
`gb` and the layers `lb`. A name under which there is no image counts as no base. -/
def HasBase (fs : Fs) (name : Path) (gb : Geometry cfg) (lb : List (List ℕ)) : Prop :=
  (name = [] ∧ lb = []) ∨
  (name ≠ [] ∧ readFirstSuper cfg ((fs name).getD .empty) name 0 = .ok none ∧ lb = []) ∨
  (name ≠ [] ∧ lb ≠ [] ∧ IsChain gb ((fs name).getD .empty) 0 lb ∧
    ((fs name).getD .empty).size < 2 ^ 63 ∧ baseImageName ((fs name).getD .empty) 0 = [])

/-- The bindings `do_base_fmmap` maps, in the order of its calls. -/
def Geometry.walkBindings (g : Geometry cfg) (fd : Path) (ls : List (List ℕ)) :
    List (ℕ × Path × ℕ) :=
  g.bindings fd 0 (ls.headD []) ++ g.chainBindings fd 0 ls

theorem Geometry.lastOf_walkBindings (b : ℕ) :
    PageTable.lastOf (g.walkBindings fd ls) b = PageTable.lastOf (g.chainBindings fd 0 ls) b := by
  rw [Geometry.walkBindings, PageTable.lastOf_append]
  rcases ls with _ | ⟨e, l⟩
  · rfl
  · have hcons : g.chainBindings fd 0 (e :: l) =
        g.bindings fd 0 e ++ g.chainBindings fd (g.endOff 0 e.length) l := rfl
    rw [hcons, PageTable.lastOf_append, List.headD_cons, Option.or_assoc, Option.or_self]

theorem Geometry.run_readonlyCalls (t : PageTable Path) (l : List (ℕ × Path × ℕ)) :
    PageTable.run (l.flatMap (readonlyCalls g.blockSize)) t =
      PageTable.overlay g.blockSize l false t :=
  PageTable.run_blocks_readonly g.blockSize_pos

/-- **Mapping the first layer twice makes no difference.** -/
theorem Geometry.run_walkBindings (t : PageTable Path) :
    PageTable.run ((g.walkBindings fd ls).flatMap (readonlyCalls g.blockSize)) t =
      PageTable.run ((g.chainBindings fd 0 ls).flatMap (readonlyCalls g.blockSize)) t := by
  rw [Geometry.run_readonlyCalls, Geometry.run_readonlyCalls]
  funext p
  rw [PageTable.overlay, PageTable.overlay, Geometry.lastOf_walkBindings]

/-- **A base without a base is mapped.** -/
theorem HasBase.baseMaps (h : HasBase fs name gb lb) :
    ∃ fs', Session.baseMaps cfg fs name =
        .ok (fs', (gb.walkBindings name lb).flatMap (readonlyCalls gb.blockSize)) ∧
      ∀ p, (fs' p).getD .empty = (fs p).getD .empty := by
  rcases h with ⟨rfl, rfl⟩ | ⟨hne, hread, rfl⟩ | ⟨hne, hlb, hchain, hsz, hname⟩
  · exact ⟨fs, if_pos rfl, fun _ => rfl⟩
  · refine ⟨Function.update fs name (some ((fs name).getD .empty)), ?_, getD_update_getD fs name⟩
    rw [Session.baseMaps, if_neg hne]
    simp only
    rw [hread]
    rfl
  · obtain ⟨e, l, rfl⟩ := List.exists_cons_of_ne_nil hlb
    have hlen := hchain.layers.chainEnd_le hlb
    rw [List.length_cons] at hlen
    refine ⟨Function.update fs name (some ((fs name).getD .empty)), ?_, getD_update_getD fs name⟩
    rw [Session.baseMaps, if_neg hne]
    simp only
    rw [hchain.layers.1.readFirstSuper hsz name]
    simp only
    rw [hchain.doBaseFmmap name hsz hname _ (by omega)]
    rfl

/-- Where the block sizes agree, the base is one that the overlay takes. -/
theorem HasBase.baseIs (h : HasBase fs name gb lb) (hbs : gb.blockSize = g.blockSize) :
    BaseIs g fs name (gb.chainBindings name 0 lb) := by
  rcases h with ⟨rfl, rfl⟩ | ⟨hne, hread, rfl⟩ | ⟨hne, hlb, hchain, hsz, -⟩
  · exact Or.inl ⟨rfl, rfl⟩
  · exact Or.inr (Or.inl ⟨hne, hread, rfl⟩)
  · exact Or.inr (Or.inr ⟨hne, gb, hbs, lb, hlb, hchain, hsz, rfl⟩)

/-- A page of the overlay, as the last binding of its block gives it. -/
theorem place_lastOf {n p : ℕ} (base : List (ℕ × Path × ℕ)) :
    place n (g.top fd (g.chainEnd 0 ls) es) (g.lowBindings base fd ls) (fun _ => none)
        (p * pageSize) =
      (PageTable.lastOf (g.imageBindings base fd ls es) (p * pageSize / n)).map fun y =>
        ⟨y.1, y.2 + p * pageSize % n, decide (p * pageSize / n ∈ es)⟩ := by
  have hcop : Copied (fun _ => none) (p * pageSize / n) (p * pageSize % n) := by
    intro mv hmv
    cases hmv
  rw [Geometry.imageBindings_eq, PageTable.lastOf_append]
  change _ = ((g.top fd (g.chainEnd 0 ls) es (p * pageSize / n)).or
    (g.lowBindings base fd ls (p * pageSize / n))).map _
  rw [place]
  rcases htop : g.top fd (g.chainEnd 0 ls) es (p * pageSize / n) with _ | y
  · have hnot := Geometry.top_eq_none.mp htop
    rw [Option.none_or, decide_eq_false hnot]
    rfl
  · have hmem : p * pageSize / n ∈ es := by
      by_contra hnot
      rw [Geometry.top_eq_none.mpr hnot] at htop
      cases htop
    rw [Option.some_or, decide_eq_true hmem]
    simp only
    rw [if_pos hcop]
    rfl

/-- **`fmmap` maps the overlay of the layers.** For every image without a base, or with a
base of the same block size that has none, and every length and offset `fmmap` accepts, each
block with an entry in some layer maps to the data block of its last entry, the layers of the
base coming first, and is writable exactly if the last layer has an entry for it; a block
without an entry stays in the area `uf_monitor` watches. The walk of `do_base_fmmap` leaves
what mapping each layer of the base once does. -/
theorem fmmap_overlay (g gb : Geometry cfg) (fs : Fs) (fd : Path) (ls lb : List (List ℕ))
    (es : List ℕ) (length offset : ℕ) (h : IsChain g ((fs fd).getD .empty) 0 (ls ++ [es]))
    (hf : ((fs fd).getD .empty).size < 2 ^ 63)
    (hbase : HasBase fs (baseImageName ((fs fd).getD .empty) 0) gb lb)
    (hbs : gb.blockSize = g.blockSize) (hlen : g.LengthOk length offset) :
    ∃ ses, Session.fmmap cfg fs fd length offset = .ok (some ses) ∧
      (∀ p, ses.pages p = (PageTable.lastOf
          (gb.chainBindings (baseImageName ((fs fd).getD .empty) 0) 0 lb ++
            g.chainBindings fd 0 (ls ++ [es])) (p * pageSize / g.blockSize)).map fun y =>
        ⟨y.1, y.2 + p * pageSize % g.blockSize, decide (p * pageSize / g.blockSize ∈ es)⟩) ∧
      (lb ≠ [] → ∃ s L m m',
        let name := baseImageName ((fs fd).getD .empty) 0
        let fb := (fs name).getD .empty
        readFirstSuper cfg fb name 0 = .ok (some s) ∧ supers cfg fb name = .ok L ∧
          Session.doBaseFmmap cfg fb (fb.size + 1) s = .ok m ∧
          Session.readonlyMaps cfg fb L = .ok m' ∧
          ∀ t, PageTable.run m t = PageTable.run m' t) := by
  obtain ⟨fs', hmaps, -⟩ := hbase.baseMaps
  obtain ⟨ses, hses⟩ := h.exists_fmmap rfl hf hlen hmaps
  have hopened := h.fmmap rfl hf (hbase.baseIs hbs) hses
  refine ⟨ses, hses, fun p => ?_, fun hne => ?_⟩
  · rw [hopened.pages, place_lastOf]
    rfl
  · rcases hbase with ⟨-, hnil⟩ | ⟨-, -, hnil⟩ | ⟨-, -, hchain, hsz, hname⟩
    · exact absurd hnil hne
    · exact absurd hnil hne
    · obtain ⟨e, l, rfl⟩ := List.exists_cons_of_ne_nil hne
      have hcnt := hchain.layers.chainEnd_le hne
      rw [List.length_cons] at hcnt
      exact ⟨_, _, _, _, hchain.layers.1.readFirstSuper hsz _, hchain.supers hne hsz _,
        hchain.doBaseFmmap _ hsz hname _ (by omega), hchain.layers.readonlyMaps hsz,
        @Geometry.run_walkBindings cfg gb _ (e :: l)⟩

/-- An image with one block over a base of two layers. -/
theorem fmmap_overlay_two : ∃ (fs : Fs) (ses : Session),
    baseImageName ((fs [1]).getD .empty) 0 = [2] ∧
      Session.fmmap .shipped fs [1] (8192 * 4) 0 = .ok (some ses) ∧
      ses.pages 0 = some ⟨[2], 16384, false⟩ ∧ ses.pages 2 = some ⟨[2], 40960, false⟩ ∧
      ses.pages 5 = none ∧ ses.pages 7 = some ⟨[1], 20480, true⟩ := by
  obtain ⟨f, himage, -, -⟩ := exists_image (Geometry.twoPages .shipped) [] [3] (by decide)
    (by decide) (by decide) (by decide)
  obtain ⟨f', himage', hname⟩ := himage.exists_name (show (2 : UInt8) ≠ 0 by decide)
  obtain ⟨fb, hbase, hzero, -⟩ := exists_image (Geometry.twoPages .shipped) [[0]] [1] (by decide)
    (by decide) (by decide) (by decide)
  have hhas : HasBase (fun p => some (if p = [1] then f' else fb)) [2]
      (Geometry.twoPages .shipped) ([[0]] ++ [[1]]) :=
    Or.inr (Or.inr ⟨by decide, by decide, hbase.isChain, hbase.size_lt, baseImageName_eq_nil hzero⟩)
  rw [← hname] at hhas
  obtain ⟨ses, hses, hpages, -⟩ := fmmap_overlay (Geometry.twoPages .shipped) _
    (fun p => some (if p = [1] then f' else fb)) [1] [] _ [3] (8192 * 4) 0 himage'.isChain
    himage'.size_lt hhas rfl (Geometry.lengthOk_of_pages (by decide) (by decide))
  have hbind : ∀ p, ses.pages p = (PageTable.lastOf
      ((Geometry.twoPages .shipped).chainBindings [2] 0 [[0], [1]] ++
        (Geometry.twoPages .shipped).chainBindings [1] 0 [[3]]) (p * pageSize / 8192)).map
      fun y => ⟨y.1, y.2 + p * pageSize % 8192, decide (p * pageSize / 8192 ∈ [3])⟩ := by
    intro p
    rw [hpages, ← hname]
    rfl
  refine ⟨fun p => some (if p = [1] then f' else fb), ses, hname, hses, ?_, ?_, ?_, ?_⟩
  · rw [hbind]
    rfl
  · rw [hbind]
    rfl
  · rw [hbind]
    rfl
  · rw [hbind]
    rfl

end Pcow
