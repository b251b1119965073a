import Pcow.Machines

/-!
# A system of images is a shelf

The files and sessions of a system are a shelf (`Shelved`) if each name stands for what the shelf
has under it (`Stands`): nothing, a closed volume or an open one. An operation changes the file and
the session of the image it is about and of no other (`Shelved.update`): what a session maps of a
base is there as long as nobody changes the base, and that is what `World.Admits` asks for. So every
step of a system is a step of the shelf, with the same answer (`Shelved.step`), and every run is a
run (`Shelved.run`), however the calls of the tool and the steps of the machines are interleaved.
-/

namespace Pcow

open LayerStack

variable {cfg : Config} {W W' : World} {sh sh' : Shelf} {name q : Path} {op : WorldOp} {r : Answer}

/-- **What stands under a name.** -/
inductive Stands (cfg : Config) (W : World) (sh : Shelf) (name : Path) : Prop
  /-- No image. -/
  | missing (hses : W.sessions name = none) (hopen : sh.opened name = none)
      (hnone : sh.volumes name = none) (hfile : W.file name = .empty) : Stands cfg W sh name
  /-- A closed image. -/
  | closed (hses : W.sessions name = none) (hopen : sh.opened name = none) {w : Volume}
      (hw : sh.volumes name = some w) {g : Geometry cfg} {ls : List (List ℕ)} {es : List ℕ}
      (hvolume : IsVolume g W.fs name ls es w) : Stands cfg W sh name
  /-- An open image, whose base is not open. -/
  | opened {ses : Session} (hses : W.sessions name = some ses) {len : ℕ}
      (hopen : sh.opened name = some len) {w : Volume} (hw : sh.volumes name = some w)
      {g : Geometry cfg} {ls : List (List ℕ)} {es : List ℕ} {base : List (ℕ × Path × ℕ)}
      (hvolume : IsOpen g (ses.on W.fs) name ls es base (sh.under w.base) w len)
      (hbase : w.base = [] ∨ W.sessions w.base = none) : Stands cfg W sh name

/-- **The system is the shelf.** -/
def Shelved (cfg : Config) (W : World) (sh : Shelf) : Prop := ∀ name, Stands cfg W sh name

/-! ### What others do -/

/-- The base of an open volume is the one its file names. -/
theorem Stands.baseOf {ses : Session} {w : Volume} (h : Stands cfg W sh name)
    (hses : W.sessions name = some ses) (hw : sh.volumes name = some w) :
    W.baseOf name = w.base := by
  cases h with
  | missing hnone => rw [hnone] at hses; cases hses
  | closed hnone => rw [hnone] at hses; cases hses
  | opened hses' hopen hw' hvolume hbase =>
    rw [hw] at hw'
    cases hw'
    rw [hvolume.base_eq, World.baseOf, World.file, Session.file, hvolume.fd]
    rfl

/-- **A name stands for the same** as long as nobody changes its image, nor the base if it is
open. -/
theorem Stands.frame (h : Stands cfg W sh q) (hses : W'.sessions q = W.sessions q)
    (hfile : W'.file q = W.file q) (hvol : sh'.volumes q = sh.volumes q)
    (hopen : sh'.opened q = sh.opened q)
    (hbase : W.sessions q ≠ none → W.baseOf q ≠ [] → W'.file (W.baseOf q) = W.file (W.baseOf q) ∧
      sh'.volumes (W.baseOf q) = sh.volumes (W.baseOf q) ∧
      W'.sessions (W.baseOf q) = W.sessions (W.baseOf q)) : Stands cfg W' sh' q := by
  have hstands := h
  cases h with
  | missing hs ho hn hf =>
      exact .missing (hses.trans hs) (hopen.trans ho) (hvol.trans hn) (hfile.trans hf)
  | closed hs ho hw hvolume =>
    exact .closed (hses.trans hs) (hopen.trans ho) (hvol.trans hw) (hvolume.congr hfile)
  | @opened ses hs len ho w hw g ls es base hvolume hb =>
    have hname := hstands.baseOf hs hw
    rw [hname] at hbase
    replace hbase := hbase (by rw [hs]; simp)
    have hon : IsOpen g (ses.on W'.fs) q ls es base (sh.under w.base) w len :=
      hvolume.on hfile fun hne => (hbase hne).1
    have hunder : sh'.under w.base = sh.under w.base := by
      rw [Shelf.under, Shelf.under]
      split_ifs with hnil
      · rfl
      · rw [(hbase hnil).2.1]
    refine .opened (hses.trans hs) (hopen.trans ho) (hvol.trans hw) (hunder ▸ hon) ?_
    rcases eq_or_ne w.base [] with hnil | hne
    · exact Or.inl hnil
    · exact Or.inr ((hbase hne).2.2.trans (hb.resolve_left hne))

/-- An image that is open is nobody's base. -/
theorem Shelved.not_base (h : Shelved cfg W sh) (hopen : W.sessions name ≠ none)
    (hq : W.sessions q ≠ none) : W.baseOf q = [] ∨ W.baseOf q ≠ name := by
  obtain ⟨ses, hses⟩ := Option.ne_none_iff_exists'.mp hq
  have hstands := h q
  cases h q with
  | missing hs => exact absurd hs hq
  | closed hs => exact absurd hs hq
  | opened hs ho hw hvolume hb =>
    rw [hstands.baseOf hs hw]
    refine hb.imp_right fun hnone heq => hopen ?_
    rw [← heq]
    exact hnone

/-- **An operation on one image**: the others are what they were. -/
theorem Shelved.update (h : Shelved cfg W sh) (hname : Stands cfg W' sh' name)
    (hW : ∀ q, q ≠ name → W'.sessions q = W.sessions q ∧ W'.file q = W.file q)
    (hsh : ∀ q, q ≠ name → sh'.volumes q = sh.volumes q ∧ sh'.opened q = sh.opened q)
    (hfree : ∀ q, q ≠ name → W.sessions q ≠ none → W.baseOf q = [] ∨ W.baseOf q ≠ name) :
    Shelved cfg W' sh' := by
  intro q
  by_cases hq : q = name
  · rw [hq]
    exact hname
  · refine (h q).frame (hW q hq).1 (hW q hq).2 (hsh q hq).1 (hsh q hq).2 fun hses hne => ?_
    have hb := (hfree q hq hses).resolve_left hne
    exact ⟨(hW _ hb).2, (hsh _ hb).1, (hW _ hb).1⟩

/-- The same for an operation on a free image. -/
theorem Shelved.update_free (h : Shelved cfg W sh) (hfree : W.Free name)
    (hname : Stands cfg W' sh' name) (hses : W'.sessions = W.sessions)
    (hfiles : ∀ q, q ≠ name → W'.fs q = W.fs q)
    (hsh : ∀ q, q ≠ name → sh'.volumes q = sh.volumes q ∧ sh'.opened q = sh.opened q) :
    Shelved cfg W' sh' := by
  refine h.update hname (fun q hq => ⟨congrFun hses q, ?_⟩) hsh fun q _ => hfree.2 q
  rw [World.file, World.file, hfiles q hq]

theorem Shelf.put_of_ne {w : Volume} (q : Path) (hq : q ≠ name) :
    (sh.put name w).volumes q = sh.volumes q ∧ (sh.put name w).opened q = sh.opened q :=
  ⟨Function.update_of_ne hq _ _, rfl⟩

@[simp] theorem Shelf.volumes_put {w : Volume} : (sh.put name w).volumes name = some w :=
  Function.update_self _ _ _

/-- The system after a change of contents that nobody sees. -/
theorem Shelved.of_files (h : Shelved cfg W sh) (hses : W'.sessions = W.sessions)
    (hfiles : ∀ q, W'.file q = W.file q) : Shelved cfg W' sh := fun q =>
  (h q).frame (congrFun hses q) (hfiles q) rfl rfl fun _ _ =>
    ⟨hfiles _, rfl, congrFun hses _⟩

/-! ### Calls of the tool -/

theorem Shelved.newImage {blockSize : ℤ} {maxSize : ℕ} {base : Option CString}
    (h : Shelved cfg W sh) (hadm : W.Admits cfg (.newImage name blockSize maxSize base))
    (hr : W.step cfg (.newImage name blockSize maxSize base) = .ok (W', r)) :
    ∃ sh', sh.Step (.newImage name blockSize maxSize base) r sh' ∧ Shelved cfg W' sh' := by
  obtain ⟨hfree, hlen⟩ := hadm
  obtain ⟨⟨fs', rc⟩, hnew, hW⟩ := map_eq_ok hr
  cases hW
  cases h name with
  | missing hses hopen hnone hfile =>
    obtain ⟨rfl, hother, g, hbs, hmax, hvolume⟩ := isVolume_newImage hfile hlen hnew
    exact ⟨_, .create hnone hbs hmax, h.update_free hfree
      (.closed hses hopen Shelf.volumes_put hvolume) rfl hother Shelf.put_of_ne⟩
  | closed hses hopen hw hvolume =>
    obtain ⟨rfl, rfl⟩ := hvolume.newImage hnew
    exact ⟨sh, .taken hw, h⟩
  | opened hses =>
    rw [hfree.1] at hses
    cases hses

/-- **The calls on an image that has to be there.** -/
theorem Shelved.manage (h : Shelved cfg W sh) (hop : Shelf.NeedsVolume name op)
    (hadm : W.Admits cfg op) (hr : W.step cfg op = .ok (W', r)) :
    ∃ sh', sh.Step op r sh' ∧ Shelved cfg W' sh' := by
  have hfree : W.Free name := by
    cases op with
    | updateBaseImage p base => exact hop ▸ hadm.1
    | snapshot p => exact hop ▸ hadm
    | rollbackSnapshot p no => exact hop ▸ hadm
    | newImage p blockSize maxSize base => exact hop.elim
    | fmmap p length offset => exact hop.elim
    | guest p op => exact hop.elim
    | fmunmap p => exact hop.elim
  cases h name with
  | missing hses hopen hnone hfile =>
    obtain ⟨rfl, hs, hfiles⟩ := step_of_empty hop hfile hr
    exact ⟨sh, .missing hop hnone, h.of_files hs hfiles⟩
  | closed hses hopen hw hvolume =>
    cases op with
    | updateBaseImage p base =>
      obtain rfl : p = name := hop
      obtain ⟨⟨fs', rc⟩, hx, hW⟩ := map_eq_ok hr
      cases hW
      obtain ⟨rfl, hother, hvolume'⟩ := hvolume.updateBaseImage hadm.2 hx
      exact ⟨_, .rebase hw, h.update_free hfree (.closed hses hopen Shelf.volumes_put hvolume') rfl
        hother Shelf.put_of_ne⟩
    | snapshot p =>
      obtain rfl : p = name := hop
      obtain ⟨⟨fs', rc⟩, hx, hW⟩ := map_eq_ok hr
      cases hW
      obtain ⟨rfl, hother, hvolume'⟩ := hvolume.snapshot hx
      exact ⟨_, .freeze hw, h.update_free hfree (.closed hses hopen Shelf.volumes_put hvolume') rfl
        hother Shelf.put_of_ne⟩
    | rollbackSnapshot p no =>
      obtain rfl : p = name := hop
      obtain ⟨⟨fs', rc⟩, hx, hW⟩ := map_eq_ok hr
      cases hW
      obtain ⟨rfl, hother, ls', es', hvolume'⟩ := hvolume.rollbackSnapshot hx
      exact ⟨_, .cut hw, h.update_free hfree (.closed hses hopen Shelf.volumes_put hvolume') rfl
        hother Shelf.put_of_ne⟩
    | newImage p blockSize maxSize base => exact hop.elim
    | fmmap p length offset => exact hop.elim
    | guest p op => exact hop.elim
    | fmunmap p => exact hop.elim
  | opened hses =>
    rw [hfree.1] at hses
    cases hses

/-! ### Sessions -/

/-- **What the base of a closed image contributes** are the layers of the volume under its name. -/
theorem Shelved.baseIs (h : Shelved cfg W sh) {g : Geometry cfg} {ls : List (List ℕ)} {es : List ℕ}
    {w : Volume} (hvolume : IsVolume g W.fs name ls es w) (hok : W.BaseOk cfg name) :
    ∃ base, BaseIs g W.fs w.base base ∧
      (∀ v, look (sh.under w.base) v = bindingLayer W.fs g.blockSize base v) ∧
      ∀ x ∈ base, x.2.1 = w.base ∧ w.base ≠ [] := by
  have hname : W.baseOf name = w.base := hvolume.base.symm
  rw [World.BaseOk, hname] at hok
  rcases eq_or_ne w.base [] with hnil | hne
  · refine ⟨[], Or.inl ⟨hnil, rfl⟩, fun v => ?_, fun x hx => by cases hx⟩
    rw [Shelf.under, if_pos hnil]
    rfl
  obtain ⟨hses, hread⟩ := hok.resolve_left hne
  cases h w.base with
  | missing hs ho hn hf =>
    refine ⟨[], Or.inr (Or.inl ⟨hne, ?_, rfl⟩), fun v => ?_, fun x hx => by cases hx⟩
    · rw [World.file] at hf
      rw [hf]
      exact readFirstSuper_empty
    · rw [Shelf.under, if_neg hne, hn]
      rfl
  | @closed hs ho w₀ hw₀ g₀ ls₀ es₀ hvol₀ =>
    have hbs : g₀.blockSize = g.blockSize := by
      rcases hread with hread | hload
      · obtain ⟨s, hs⟩ := hvol₀.readFirstSuper
        rw [World.file, hs] at hread
        cases hread
      · rw [World.file, World.file, hvol₀.loadInt, hvolume.loadInt] at hload
        exact_mod_cast hload
    refine ⟨_, Or.inr (Or.inr ⟨hne, g₀, hbs, ls₀ ++ [es₀], List.concat_ne_nil _ _,
      hvol₀.image.isChain,
      hvol₀.image.size_lt, rfl⟩), fun v => ?_, fun x hx => ⟨(Geometry.mem_chainBindings hx).1, hne⟩⟩
    rw [Shelf.under, if_neg hne, hw₀, Option.map_some, Option.getD_some, hvol₀.layers,
      look_chainLayers, hbs]
  | opened hs =>
    rw [hses] at hs
    cases hs

theorem Shelved.fmmap {length offset : ℕ} (h : Shelved cfg W sh)
    (hadm : W.Admits cfg (.fmmap name length offset))
    (hr : W.step cfg (.fmmap name length offset) = .ok (W', r)) :
    ∃ sh', sh.Step (.fmmap name length offset) r sh' ∧ Shelved cfg W' sh' := by
  obtain ⟨hfree, hok⟩ := hadm
  rcases World.step_fmmap hr with ⟨hmap, rfl, rfl⟩ | ⟨ses, hmap, rfl, rfl⟩
  · refine ⟨sh, .refused fun w hw => ?_, h⟩
    cases h name with
    | missing hs ho hn => rw [hn] at hw; cases hw
    | closed hs ho hw' hvolume =>
      rw [hw] at hw'
      cases hw'
      exact hvolume.fmmap_none hmap
    | opened hs => rw [hfree.1] at hs; cases hs
  cases h name with
  | missing hs ho hn hf =>
    rw [World.file] at hf
    rw [Session.fmmap, Session.fmmapWith] at hmap
    simp only [hf, readFirstSuper_empty] at hmap
    cases hmap
  | @closed hs ho w hw g ls es hvolume =>
    obtain ⟨base, hbase, hunder, hmem⟩ := h.baseIs hvolume hok
    obtain ⟨hfiles, hopen, hlen, hoff, x, hmaps⟩ := hvolume.fmmap hbase hunder hmem hmap
    have hne : w.base = [] ∨ w.base ≠ name := by
      have hne := hvolume.image.isChain.name_ne rfl hvolume.image.size_lt (hvolume.base ▸ hmaps)
      rwa [← hvolume.base] at hne
    have hname : W.baseOf name = w.base := hvolume.base.symm
    have hclosed : w.base = [] ∨ W.sessions w.base = none := by
      rw [World.BaseOk, hname] at hok
      exact hok.imp_right And.left
    have hstands : Stands cfg ⟨ses.fs, Function.update W.sessions name (some ses)⟩
        { sh with opened := Function.update sh.opened name (some (w.rangeLength length)) }
        name := by
      refine .opened (Function.update_self _ _ _) (Function.update_self _ _ _) hw hopen ?_
      rcases eq_or_ne w.base [] with hnil | hnil
      · exact Or.inl hnil
      · exact Or.inr ((Function.update_of_ne (hne.resolve_left hnil) _ _).trans
          (hclosed.resolve_left hnil))
    refine ⟨_, .opens hw hlen hoff fun w₀ hnil hw₀ => ?_, h.update hstands
      (fun q hq => ⟨Function.update_of_ne hq _ _, hfiles q⟩)
      (fun q hq => ⟨rfl, Function.update_of_ne hq _ _⟩) fun q _ => hfree.2 q⟩
    -- the walk over a base that has a base does not come to an end
    cases h w.base with
    | missing hs ho hn => rw [hn] at hw₀; cases hw₀
    | closed hs ho hw₁ hvol₀ =>
      rw [hw₀] at hw₁
      cases hw₁
      rw [hvol₀.base]
      exact baseImageName_of_baseMaps hvol₀.image rfl hnil hmaps
    | opened hs =>
      rw [hclosed.resolve_left hnil] at hs
      cases hs
  | opened hs =>
    rw [hfree.1] at hs
    cases hs

theorem Volume.Access.base {under : List (Layer ℕ UInt8)} {len : ℕ} {w w' : Volume} {op : GuestOp}
    {ev : Event} (h : w.Access under len op ev w') : w'.base = w.base := by
  cases h with
  | load v n n' =>
    split_ifs
    · rfl
    · rfl
  | noLoad v n n' h => rfl
  | store v x n n' => rfl
  | noStore v x n n' h => rfl
  | tick => rfl

theorem Shelved.guest {op : GuestOp} (h : Shelved cfg W sh) (hadm : W.Admits cfg (.guest name op))
    (hr : W.step cfg (.guest name op) = .ok (W', r)) :
    ∃ sh', sh.Step (.guest name op) r sh' ∧ Shelved cfg W' sh' := by
  have hstands := h name
  obtain ⟨ses₁, ses', ev, hses, hin, hstep, rfl, rfl⟩ := World.step_guest hr
  cases h name with
  | missing hs => rw [hs] at hses; cases hses
  | closed hs => rw [hs] at hses; cases hses
  | @opened ses hs len ho w hw g ls es base hvolume hb =>
    obtain rfl := Option.some.inj (hs.symm.trans hses)
    obtain ⟨hother, w', hvolume', haccess⟩ := hvolume.step hin (hadm ses hs) hstep
    have hsome : W.sessions name ≠ none := by
      rw [hs]
      exact Option.some_ne_none _
    have hne : w.base = [] ∨ w.base ≠ name := by
      have hnot := h.not_base hsome hsome
      rwa [hstands.baseOf hs hw] at hnot
    have hunder : (sh.put name w').under w'.base = sh.under w.base := by
      rw [haccess.base, Shelf.under, Shelf.under]
      split_ifs with hnil
      · rfl
      · rw [(Shelf.put_of_ne _ (hne.resolve_left hnil)).1]
    refine ⟨_, .guest ho hw haccess, h.update (.opened (Function.update_self _ _ _) ho
      Shelf.volumes_put (hunder.symm ▸ hvolume') ?_)
        (fun q hq => ⟨Function.update_of_ne hq _ _, ?_⟩)
      Shelf.put_of_ne fun q _ => h.not_base hsome⟩
    · rw [haccess.base]
      rcases eq_or_ne w.base [] with hnil | hnil
      · exact Or.inl hnil
      · exact Or.inr ((Function.update_of_ne (hne.resolve_left hnil) _ _).trans
          (hb.resolve_left hnil))
    · exact congrArg (fun f => Option.getD f .empty) (hother q hq)

theorem Shelved.fmunmap (h : Shelved cfg W sh) (hadm : W.Admits cfg (.fmunmap name))
    (hr : W.step cfg (.fmunmap name) = .ok (W', r)) :
    ∃ sh', sh.Step (.fmunmap name) r sh' ∧ Shelved cfg W' sh' := by
  obtain ⟨ses₁, hses, rfl, rfl⟩ := World.step_fmunmap hr
  cases h name with
  | missing hs => rw [hs] at hses; cases hses
  | closed hs => rw [hs] at hses; cases hses
  | @opened ses hs len ho w hw g ls es base hvolume hb =>
    obtain rfl := Option.some.inj (hs.symm.trans hses)
    obtain ⟨hfs, hvolume'⟩ := hvolume.fmunmap (hadm ses hs) cfg
    have hsome : W.sessions name ≠ none := by
      rw [hs]
      exact Option.some_ne_none _
    refine ⟨_, .closes ho,
      h.update (.closed (Function.update_self _ _ _) (Function.update_self _ _ _)
      hw (hfs.symm ▸ hvolume')) (fun q hq => ⟨Function.update_of_ne hq _ _, ?_⟩)
      (fun q hq => ⟨rfl, Function.update_of_ne hq _ _⟩) fun q _ => h.not_base hsome⟩
    rw [World.file, hfs]
    rfl

/-! ### Runs -/

/-- **A step of the system is a step of the shelf.** -/
theorem Shelved.step (h : Shelved cfg W sh) (hadm : W.Admits cfg op)
    (hr : W.step cfg op = .ok (W', r)) : ∃ sh', sh.Step op r sh' ∧ Shelved cfg W' sh' := by
  cases op with
  | newImage name blockSize maxSize base => exact h.newImage hadm hr
  | updateBaseImage name base =>
    exact h.manage (show Shelf.NeedsVolume name (.updateBaseImage name base) from rfl) hadm hr
  | snapshot name => exact h.manage (show Shelf.NeedsVolume name (.snapshot name) from rfl) hadm hr
  | rollbackSnapshot name no =>
    exact h.manage (show Shelf.NeedsVolume name (.rollbackSnapshot name no) from rfl) hadm hr
  | fmmap name length offset => exact h.fmmap hadm hr
  | guest name op => exact h.guest hadm hr
  | fmunmap name => exact h.fmunmap hadm hr

/-- **A run of the system is a run of the shelf.** -/
theorem Shelved.run {ops : List WorldOp} {rs : List Answer} (h : Shelved cfg W sh)
    (hadm : W.Along cfg (World.Admits cfg) ops) (hr : W.run cfg ops = .ok (W', rs)) :
    ∃ sh', Shelf.Run sh ops rs sh' ∧ Shelved cfg W' sh' := by
  induction ops generalizing W sh rs with
  | nil =>
    cases hr
    exact ⟨sh, .nil sh, h⟩
  | cons op ops ih =>
    obtain ⟨W₁, r, rs', hstep, hrest, rfl⟩ := World.run_cons hr
    obtain ⟨sh₁, hsh, h₁⟩ := h.step hadm.1 hstep
    obtain ⟨sh₂, hrun, h₂⟩ := ih h₁ (hadm.2 W₁ r hstep) hrest
    exact ⟨sh₂, .cons hsh hrun, h₂⟩

/-- Nothing is an empty shelf. -/
theorem shelved_init : Shelved cfg .init .init := fun _ => .missing rfl rfl rfl rfl

/-- The states of runs in which images are used as they are to be. -/
def World.Reachable (cfg : Config) (W : World) : Prop :=
  ∃ ops rs, World.init.Along cfg (World.Admits cfg) ops ∧ World.init.run cfg ops = .ok (W, rs)

theorem World.Reachable.shelved (h : W.Reachable cfg) : ∃ sh, Shelved cfg W sh := by
  obtain ⟨ops, rs, hadm, hrun⟩ := h
  obtain ⟨sh, -, hsh⟩ := shelved_init.run hadm hrun
  exact ⟨sh, hsh⟩

/-- **A machine sees what the volume shows.** -/
theorem Shelved.view {ses : Session} (h : Shelved cfg W sh) (hses : W.sessions name = some ses) :
    ∃ w, sh.volumes name = some w ∧ w.base = W.baseOf name ∧ (ses.on W.fs).view = sh.shows w := by
  have hstands := h name
  cases h name with
  | missing hs => rw [hs] at hses; cases hses
  | closed hs => rw [hs] at hses; cases hses
  | opened hs ho hw hvolume hb =>
    obtain rfl := Option.some.inj (hses.symm.trans hs)
    exact ⟨_, hw, (hstands.baseOf hses hw).symm, hvolume.shows_eq⟩

end Pcow
