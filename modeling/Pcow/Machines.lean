import Pcow.Volumes

/-!
# Sessions as open volumes

An image with a session on it is a volume, too (`IsOpen`). Its frozen layers are those of the file;
the layer on top has, at the blocks with an entry, what the guest sees there, which for an
incomplete block is not what its data block holds; and what the range shows is the volume over the
layers of its base (`IsOpen.shows_eq`). `fmmap` makes this of a closed image (`IsVolume.fmmap`), a
step of the machine makes an access of the volume (`IsOpen.step`), and `fmunmap` leaves a closed
image with the same layers if no block is incomplete (`IsOpen.fmunmap`).

All of this depends on two files only, that of the image and that of its base (`IsOpen.on`).
-/

namespace Pcow

open LayerStack

variable {cfg : Config} {g : Geometry cfg} {fs fs' : Fs} {name : Path} {v : ℕ} {es es' : List ℕ}
  {ls : List (List ℕ)} {low : ℕ → Option (Path × ℕ)} {ses ses' : Session}

/-! ### Sessions on files that others change -/

/-- **A session is in order** as long as the files that it maps stay as they are. -/
theorem Session.Inv.on (h : ses.Inv g ls es low) (hfile : (fs ses.s.fd).getD .empty = ses.file)
    (hlow : ∀ b p o, low b = some (p, o) → (fs p).getD .empty = (ses.fs p).getD .empty) :
    (ses.on fs).Inv g ls es low := by
  have hf : (ses.on fs).file = ses.file := hfile
  refine ⟨⟨⟨h.core.page_dvd, hf ▸ h.core.image, h.core.super, hf ▸ h.core.ring, fun b p o hb => ?_,
    h.core.pages⟩, h.length_le, h.tables, fun i ce hce => ?_⟩, h.lists, h.plain⟩
  · rcases h.core.below b p o hb with hown | ⟨hne, hle⟩
    · exact Or.inl hown
    · refine Or.inr ⟨hne, ?_⟩
      rw [← hlow b p o hb] at hle
      exact hle
  · rw [hf]
    exact h.entry i ce hce

/-- And it shows what it showed. -/
theorem Session.Inv.view_on (h : ses.Inv g ls es low) (hfile : (fs ses.s.fd).getD .empty = ses.file)
    (hlow : ∀ b p o, low b = some (p, o) → (fs p).getD .empty = (ses.fs p).getD .empty) :
    (ses.on fs).view = ses.view := by
  funext v
  have hplace : (ses.on fs).placeOf g ls es low ((ses.on fs).cow.movedOf g.blockSize) v =
      ses.placeOf g ls es low (ses.cow.movedOf g.blockSize) v := rfl
  rw [(h.on hfile hlow).core.view_eq, h.core.view_eq, hplace]
  rcases hp : ses.placeOf g ls es low (ses.cow.movedOf g.blockSize) v with _ | e
  · rfl
  · rw [Option.map_some, Option.map_some, Option.getD_some, Option.getD_some]
    change fs.byteOf e.file e.off = ses.fs.byteOf e.file e.off
    rcases place_eq_some hp with ⟨-, -, htop, -⟩ | ⟨-, -, hl, -⟩
    · obtain ⟨i, -, -, hy⟩ := Geometry.top_eq_some htop
      rw [Prod.mk.injEq] at hy
      rw [hy.1, Fs.byteOf, hfile]
      rfl
    · rw [Fs.byteOf, hlow _ _ _ hl, Fs.byteOf]

/-! ### An image that is open -/

/-- **The open image is the volume `w`**, over the layers `under` of its base and with a range of
`len` bytes; `base` are the bindings its base contributes. -/
structure IsOpen (g : Geometry cfg) (ses : Session) (name : Path) (ls : List (List ℕ)) (es : List ℕ)
    (base : List (ℕ × Path × ℕ)) (under : List (Layer ℕ UInt8)) (w : Volume) (len : ℕ) : Prop where
  inv : ses.Inv g ls es (g.lowBindings base name ls)
  fd : ses.s.fd = name
  lt : g.blockSize < 2 ^ 30
  blockSize : w.blockSize = g.blockSize
  maxBlockNum : w.maxBlockNum = g.maxBlockNum
  base_eq : w.base = baseImageName ses.file 0
  frozen : w.frozen = chainLayers g ses.fs name 0 ls
  top : w.top = fun v => if v / g.blockSize ∈ es then some (ses.view v) else none
  under_eq : ∀ v, look under v = bindingLayer ses.fs g.blockSize base v
  base_mem : ∀ x ∈ base, x.2.1 = w.base ∧ w.base ≠ [] ∧ x.2.1 ≠ name
  fmmapLength : ses.s.fmmapLength = len
  globalLength : len = w.rangeLength ses.globalLength

namespace IsOpen

variable {base : List (ℕ × Path × ℕ)} {under : List (Layer ℕ UInt8)} {w : Volume} {len : ℕ}

/-- Below the layer on top are the bindings that are mapped read-only. -/
theorem look_low (h : IsOpen g ses name ls es base under w len) (v : ℕ) :
    look (under ++ w.frozen) v =
      bindingLayer ses.fs g.blockSize (base ++ g.chainBindings name 0 ls) v := by
  rw [look_append, h.frozen, look_chainLayers, h.under_eq, bindingLayer_append]

/-- **There is nothing at an offset** if its block has no entry, and no layer below has it. -/
theorem look_eq_none_iff (h : IsOpen g ses name ls es base under w len) (v : ℕ) :
    look (under ++ w.layers) v = none ↔
      v / g.blockSize ∉ es ∧ g.lowBindings base name ls (v / g.blockSize) = none := by
  rw [Volume.layers, ← List.append_assoc, look_concat, Option.or_eq_none_iff, h.top, h.look_low,
    bindingLayer, Option.map_eq_none_iff, Geometry.lowBindings]
  simp only [ite_eq_right_iff, reduceCtorEq, imp_false]

/-- **The guest sees what the volume shows.** -/
theorem shows_eq (h : IsOpen g ses name ls es base under w len) : ses.view = w.shows under := by
  funext v
  rw [Volume.shows_eq]
  by_cases hv : v / g.blockSize ∈ es
  · refine (read_concat_of_some ?_).symm
    rw [h.top]
    exact if_pos hv
  · rw [read_concat_of_none (by rw [h.top]; exact if_neg hv), LayerStack.read, h.look_low,
      h.inv.core.view_eq,
      Session.placeOf, place_of_none (Geometry.top_eq_none.mpr hv), lowerPlace, bindingLayer,
      Geometry.lowBindings, Option.map_map]
    rfl

/-- The session depends on the files of the image and of its base. -/
theorem on (h : IsOpen g ses name ls es base under w len)
    (hfile : (fs name).getD .empty = (ses.fs name).getD .empty)
    (hbase : w.base ≠ [] → (fs w.base).getD .empty = (ses.fs w.base).getD .empty) :
    IsOpen g (ses.on fs) name ls es base under w len := by
  have hown : (fs ses.s.fd).getD .empty = ses.file := by
    rw [Session.file, h.fd]
    exact hfile
  have hlow : ∀ b p o, g.lowBindings base name ls b = some (p, o) →
      (fs p).getD .empty = (ses.fs p).getD .empty := by
    intro b p o hb
    rcases List.mem_append.mp (PageTable.mem_of_lastOf hb) with hm | hm
    · obtain ⟨rfl, hne, -⟩ := h.base_mem _ hm
      exact hbase hne
    · obtain ⟨rfl, -⟩ := Geometry.mem_chainBindings hm
      exact hfile
  refine ⟨h.inv.on hown hlow, h.fd, h.lt, h.blockSize, h.maxBlockNum, ?_, ?_, ?_, fun v => ?_,
    h.base_mem,
    h.fmmapLength, h.globalLength⟩
  · rw [h.base_eq]
    exact congrArg (baseImageName · 0) hown.symm
  · rw [h.frozen]
    exact (chainLayers_congr fun a _ _ => congrArg (ByteFile.byte · a) hfile).symm
  · rw [h.inv.view_on hown hlow]
    exact h.top
  · rw [h.under_eq]
    refine congrFun (bindingLayer_congr g.blockSize_pos fun x hx a _ _ => ?_).symm v
    obtain ⟨hp, hne, -⟩ := h.base_mem x hx
    rw [hp]
    exact congrArg (ByteFile.byte · a) (hbase hne)

/-! ### Steps of a machine -/

/-- What a step leaves, with another layer on top. -/
theorem next (h : IsOpen g ses name ls es base under w len)
    (hinv : ses'.Inv g ls es' (g.lowBindings base name ls)) (henv : ses.Env ses')
    {t : Layer ℕ UInt8}
    (ht : t = fun v => if v / g.blockSize ∈ es' then some (ses'.view v) else none) :
    IsOpen g ses' name ls es' base under { w with top := t } len := by
  have hfd := henv.fd.trans h.fd
  have hbytes : ∀ a, KeptByte (g.chainEnd 0 ls) a →
      ses'.fs.byteOf name a = ses.fs.byteOf name a := by
    intro a ha
    have hkept := henv.kept a (h.inv.core.super.myOff ▸ ha)
    rw [Session.file, hfd, Session.file, h.fd] at hkept
    exact hkept
  refine ⟨hinv, hfd, h.lt, h.blockSize, h.maxBlockNum, ?_, ?_, ht, fun v => ?_, h.base_mem,
    henv.fmmapLength.trans h.fmmapLength, ?_⟩
  · rw [baseImageName_congr fun a ha => henv.kept a (Or.inr ha)]
    exact h.base_eq
  · exact h.frozen.trans (chainLayers_congr fun a _ ha => hbytes a (Or.inl ha)).symm
  · rw [h.under_eq]
    refine congrFun (bindingLayer_congr g.blockSize_pos fun x hx a _ _ => ?_).symm v
    obtain ⟨-, -, hne⟩ := h.base_mem x hx
    rw [Fs.byteOf, henv.files _ (h.fd.symm ▸ hne), Fs.byteOf]
  · rw [henv.globalLength]
    exact h.globalLength

/-- Offsets a block before the end of the range are within reach. -/
theorem inReach (h : IsOpen g ses name ls es base under w len) (hv : v + w.blockSize ≤ len) :
    ses.InReach v := by
  have hlen : len = g.mapLength ses.globalLength := by
    rw [Geometry.mapLength, ← h.blockSize, ← h.maxBlockNum]
    exact h.globalLength
  refine h.inv.inReach (h.fmmapLength.trans hlen) rfl ?_
  rw [← hlen, ← h.blockSize]
  exact hv

/-- The layer on top after it has taken over a block. -/
theorem top_fill (h : IsOpen g ses name ls es base under w len) (v : ℕ) :
    (w.fill (w.shows under) v).top = fun a =>
      if a / g.blockSize ∈ es ∨
        a / g.blockSize = v / g.blockSize then some (ses.view a) else none := by
  funext a
  simp only [Volume.fill, own, h.blockSize, h.top, ← h.shows_eq]
  by_cases ha : a / g.blockSize = v / g.blockSize
  · rw [if_pos ha, if_pos (Or.inr ha)]
  · rw [if_neg ha]
    simp only [ha, or_false]

/-- **A step of the machine is an access of the volume.** -/
theorem step {op : GuestOp} {ev : Event} (h : IsOpen g ses name ls es base under w len)
    (hin : op.Within (· < ses.s.fmmapLength)) (hok : ses.StepOk cfg op)
    (hr : ses.step cfg op = .ok (ses', ev)) :
    (∀ q, q ≠ name → ses'.fs q = ses.fs q) ∧ ∃ w',
      IsOpen g ses' name ls (grow g.blockSize (g.lowBindings base name ls) es ev) base
        under w' len ∧
        w.Access under len op ev w' := by
  have hinv := h.inv.entries_step hin hok hr
  rcases h.inv.step hin hok with ⟨ses₁, ev₁, es₁, hr₁, hs⟩ | ⟨err, hr₁, -⟩
  swap
  · rw [hr] at hr₁
    cases hr₁
  rw [hr] at hr₁
  cases hr₁
  refine ⟨fun q hq => hs.env.files q (h.fd.symm ▸ hq), ?_⟩
  have hkeep : ∀ {es'}, ses'.Inv g ls es' (g.lowBindings base name ls) → es' = es →
      ses'.view = ses.view → IsOpen g ses' name ls es' base under w len := by
    rintro es' hinv' rfl hview
    refine h.next hinv' hs.env ?_
    rw [hview]
    exact h.top
  have hshows := h.shows_eq
  cases op with
  | load v n n' =>
    obtain ⟨r, rfl, -⟩ := Session.step_load hr
    rcases r with _ | x
    · refine ⟨w, hkeep hinv rfl hs.view, .noLoad v n n' ?_⟩
      by_contra hle
      exact hs.done (h.inReach (not_lt.mp hle)) rfl
    obtain rfl : x = w.shows under v := hs.ok.trans (congrFun hshows v)
    refine ⟨_, ?_, .load v n n'⟩
    by_cases hlook : look (under ++ w.layers) v = none
    · obtain ⟨hnot, hlow⟩ := (h.look_eq_none_iff v).mp hlook
      rw [if_pos hlook]
      refine h.next hinv hs.env ((h.top_fill v).trans ?_)
      rw [grow, if_neg (not_or.mpr ⟨hnot, not_not.mpr hlow⟩), hs.view]
      simp only [List.mem_append, List.mem_singleton, Flat.apply]
    · have hhas : v / g.blockSize ∈ es ∨ g.lowBindings base name ls (v / g.blockSize) ≠ none := by
        by_contra hno
        obtain ⟨h₁, h₂⟩ := not_or.mp hno
        exact hlook ((h.look_eq_none_iff v).mpr ⟨h₁, not_not.mp h₂⟩)
      rw [if_neg hlook]
      exact hkeep hinv (if_pos hhas) hs.view
  | store v x n n' =>
    obtain ⟨r, rfl, -⟩ := Session.step_store hr
    rcases r with _ | _
    · refine ⟨w, hkeep hinv rfl hs.view, .noStore v x n n' ?_⟩
      by_contra hle
      exact Bool.false_ne_true (hs.done (h.inReach (not_lt.mp hle)))
    refine ⟨_, ?_, .store v x n n'⟩
    refine h.next hinv hs.env ?_
    funext a
    have hmem : a / g.blockSize ∈ grow g.blockSize (g.lowBindings base name ls) es
      (.stored v x true) ↔
        a / g.blockSize ∈ es ∨ a / g.blockSize = v / g.blockSize := by
      rw [mem_grow]
      refine or_congr Iff.rfl ⟨?_, fun heq => Or.inl ⟨v, x, rfl, heq.symm⟩⟩
      rintro (⟨_, _, heq, hb⟩ | ⟨_, _, heq, -⟩)
      · cases heq
        exact hb.symm
      · cases heq
    simp only [hmem, hs.view, Flat.apply]
    by_cases ha : a = v
    · subst ha
      rw [Function.update_self, Function.update_self, if_pos (Or.inr rfl)]
    · rw [Function.update_of_ne ha, Function.update_of_ne ha]
      exact congrFun (h.top_fill v) a
  | tick =>
    obtain ⟨rfl, -⟩ := Session.step_tick hr
    exact ⟨w, hkeep hinv rfl hs.view, .tick⟩

/-! ### Opening and closing -/

/-- **`fmunmap` leaves the volume as it is**, closed, if no block is incomplete. -/
theorem fmunmap (h : IsOpen g ses name ls es base under w len) (hall : ses.AllComplete)
    (cfg' : Config) : ses.fmunmap cfg' = ses.fs ∧ IsVolume g ses.fs name ls es w := by
  have hfile : (ses.fs name).getD .empty = ses.file := by rw [Session.file, h.fd]
  refine ⟨hall.fmunmap cfg', hfile ▸ h.inv.core.image, h.inv.core.page_dvd, h.lt, h.blockSize,
    h.maxBlockNum, hfile ▸ h.base_eq, ?_⟩
  rw [chainLayers_concat, Volume.layers, h.frozen, h.top]
  congr 2
  funext v
  have htop : g.top name (g.chainEnd 0 ls) es (v / g.blockSize) = none ↔ v / g.blockSize ∉ es :=
    Geometry.top_eq_none
  rw [bindingLayer]
  by_cases hv : v / g.blockSize ∈ es
  · obtain ⟨y, hy⟩ := Option.ne_none_iff_exists'.mp (mt htop.mp (not_not.mpr hv))
    have hcop : Copied (ses.cow.movedOf g.blockSize) (v / g.blockSize) (v % g.blockSize) := by
      intro mv hmv
      rw [hall.movedOf] at hmv
      cases hmv
    rw [if_pos hv, ← Geometry.top, hy, h.inv.core.view_eq, Session.placeOf, place, h.fd, hy]
    simp only [if_pos hcop, Option.map_some, Option.getD_some]
  · rw [if_neg hv, ← Geometry.top, htop.mpr hv, Option.map_none]

end IsOpen

/-- A base that is mapped has no base. -/
theorem baseImageName_of_baseMaps {g₀ : Geometry cfg} {f : ByteFile} {x : Fs × List (MapOp Path)}
    (h : IsImage g₀ f ls es) (hfile : (fs name).getD .empty = f) (hne : name ≠ [])
    (hr : Session.baseMaps cfg fs name = .ok x) : baseImageName f 0 = [] := by
  by_contra hbad
  obtain ⟨e, l, -, hread⟩ := h.readFirstSuper name
  have hend := doBaseFmmap_endless (superOf g₀ name 0 e.length) hread rfl hbad (f.size + 1)
  rw [Session.baseMaps, if_neg hne] at hr
  simp only [hfile, hread, hend] at hr
  cases hr

/-- **`fmmap` opens the volume**, over what its base contributes. -/
theorem IsVolume.fmmap {base : List (ℕ × Path × ℕ)} {under : List (Layer ℕ UInt8)} {w : Volume}
    {length offset : ℕ} (h : IsVolume g fs name ls es w) (hbase : BaseIs g fs w.base base)
    (hunder : ∀ v, look under v = bindingLayer fs g.blockSize base v)
    (hmem : ∀ x ∈ base, x.2.1 = w.base ∧ w.base ≠ [])
    (hr : Session.fmmap cfg fs name length offset = .ok (some ses)) :
    (∀ p, (ses.fs p).getD .empty = (fs p).getD .empty) ∧
      IsOpen g ses name ls es base under w (w.rangeLength length) ∧
      w.rangeLength length ≤ regLen ∧ offset ≤ w.rangeLength length ∧
      ∃ x, Session.baseMaps cfg fs w.base = .ok x := by
  rw [h.base] at hbase
  have hopened := h.image.isChain.fmmap rfl h.image.size_lt hbase hr
  obtain ⟨hlen, x, hmaps, -⟩ := h.image.isChain.fmmap_ok rfl h.image.size_lt hr
  have hbytes : ∀ p a, ses.fs.byteOf p a = fs.byteOf p a := fun p a => by
    rw [Fs.byteOf, hopened.files, Fs.byteOf]
  refine ⟨hopened.files,
    ⟨hopened.inv h.dvd h.image, hopened.fd_eq, h.lt, h.blockSize, h.maxBlockNum, ?_,
    ?_, ?_, fun v => ?_, fun y hy => ?_, ?_, ?_⟩, ?_, ?_, x, h.base ▸ hmaps⟩
  · rw [Session.file, hopened.fd_eq, hopened.files]
    exact h.base
  · exact h.split.1.trans (chainLayers_congr fun a _ _ => hbytes name a).symm
  · funext v
    have htop : g.top name (g.chainEnd 0 ls) es (v / g.blockSize) = none ↔ v / g.blockSize ∉ es :=
      Geometry.top_eq_none
    rw [h.split.2, bindingLayer, ← Geometry.top]
    by_cases hv : v / g.blockSize ∈ es
    · obtain ⟨y, hy⟩ := Option.ne_none_iff_exists'.mp (mt htop.mp (not_not.mpr hv))
      rw [if_pos hv, hy, Option.map_some, hopened.view h.dvd, overlayByte,
        Geometry.imageBindings_eq,
        PageTable.lastOf_append, ← Geometry.top, hy]
      rfl
    · rw [if_neg hv, htop.mpr hv, Option.map_none]
  · rw [hunder]
    exact (congrFun (bindingLayer_congr g.blockSize_pos fun x _ a _ _ => hbytes _ a) v).symm
  · obtain ⟨h₁, h₂⟩ := hmem y hy
    exact ⟨h₁, h₂, (hopened.base_mem y hy).1⟩
  · rw [hopened.fmmapLength, h.rangeLength]
  · rw [hopened.globalLength]
  · rw [h.rangeLength]
    exact hlen.le
  · rw [h.rangeLength]
    exact hlen.offset_le

/-- **`fmmap` refuses** a range that is too long, or an offset outside of it. -/
theorem IsVolume.fmmap_none {w : Volume} {length offset : ℕ} (h : IsVolume g fs name ls es w)
    (hr : Session.fmmap cfg fs name length offset = .ok none) :
    regLen < w.rangeLength length ∨ w.rangeLength length < offset := by
  rw [h.rangeLength]
  rw [h.image.isChain.fmmap_eq rfl h.image.size_lt] at hr
  split at hr
  · rename_i hle
    exact Or.inl hle
  split at hr
  · rename_i hoff
    exact Or.inr hoff
  split at hr
  · cases hr
  · rcases hm : Session.baseMaps cfg fs (baseImageName ((fs name).getD .empty) 0) with e | x
    · rw [hm] at hr
      cases hr
    · rw [hm] at hr
      cases hr

end Pcow
