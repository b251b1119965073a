import Pcow.Freed
import Pcow.Shelved

/-!
# Operations that return

`World.Ready` are the conditions on the state under which an operation returns: the block size of
a new image is one that can be mapped, the file has room for a new layer, the range is made of
whole pages, the image that is opened has no base, and a machine that makes a step has its image
open and finds room for the block it needs. There are no others. In a system of images that are
used as they are to be, no call runs into a fault, an assertion or an endless walk
(`Shelved.progress`), since every file is empty or an image, whatever state a machine has it in.

An image over a base is opened only if the structs that `do_base_fmmap` frees keep their contents
(`kept`), and if the base has none.
-/

namespace Pcow

variable {kept : Bool} {cfg : Config} {W W' : World} {sh : Shelf} {name q : Path} {op : WorldOp}
  {r : Answer}

namespace World

/-- The length of the range that `fmmap` makes, as it computes it. -/
def rangeLength (s : Super) (length : ℕ) : ℕ :=
  if length = 0 then u64 (u64 s.blockSize * s.maxBlockNum) else length

/-- The image names no base, or one that is not formatted. -/
def NoBase (cfg : Config) (W : World) (name : Path) : Prop :=
  W.baseOf name = [] ∨
    readFirstSuper cfg (W.file (W.baseOf name)) (W.baseOf name) 0 = .ok none

/-- **The operation is ready**, where structs that are freed keep their contents or not. -/
def Ready (kept : Bool) (cfg : Config) (W : World) : WorldOp → Prop
  | .newImage name blockSize _ _ =>
    (∃ s, readFirstSuper cfg (W.file name) name 0 = .ok (some s)) ∨ BlockSizeOk blockSize
  | .snapshot name => ∀ s, readLastSuper cfg (W.file name) name = .ok (some s) →
    (s.endOff (W.file name) : ℤ) + 2 * s.blockSize < 2 ^ 63
  | .fmmap name length _ =>
    (∀ s, readFirstSuper cfg (W.file name) name 0 = .ok (some s) →
      0 < rangeLength s length ∧ pageSize ∣ rangeLength s length) ∧
    (W.NoBase cfg name ∨ kept = true ∧ W.baseOf (W.baseOf name) = [])
  | .guest name op => ∃ ses, W.sessions name = some ses ∧ op.Within (· < ses.s.fmmapLength) ∧
    (ses.on W.fs).HasRoom cfg op
  | .fmunmap name => W.sessions name ≠ none
  | _ => True

end World

/-! ### What is read of a file -/

/-- **Every file of a system is empty or an image**, also while a machine has it open. -/
theorem Stands.image (h : Stands cfg W sh q) : W.file q = .empty ∨
    ∃ (g : Geometry cfg) (ls : List (List ℕ)) (es : List ℕ),
      IsImage g (W.file q) ls es ∧ pageSize ∣ g.blockSize := by
  cases h with
  | missing hses hopen hnone hfile => exact Or.inl hfile
  | closed hses hopen hw hvolume => exact Or.inr ⟨_, _, _, hvolume.image, hvolume.dvd⟩
  | opened hses hopen hw hvolume hbase =>
    have himage := hvolume.inv.core.image
    rw [Session.file, hvolume.fd] at himage
    exact Or.inr ⟨_, _, _, himage, hvolume.inv.core.page_dvd⟩

/-- **Reading the first super block comes to an end** in every file. -/
theorem Stands.readFirstSuper (h : Stands cfg W sh q) :
    ∃ x, Pcow.readFirstSuper cfg (W.file q) q 0 = .ok x := by
  rcases h.image with hempty | ⟨g, ls, es, himage, -⟩
  · rw [hempty]
    exact ⟨none, readFirstSuper_empty⟩
  · obtain ⟨e, l, -, hs⟩ := himage.readFirstSuper q
    exact ⟨_, hs⟩

/-- The base of an image is mapped where it has no base. -/
theorem Shelved.exists_baseMaps (h : Shelved cfg W sh) (hclosed : q = [] ∨ W.sessions q = none)
    (hname : (q = [] ∨ Pcow.readFirstSuper cfg (W.file q) q 0 = .ok none) ∨ W.baseOf q = []) :
    ∃ x, Session.baseMaps cfg W.fs q = .ok x := by
  rcases hname with hnone | hname
  · obtain ⟨x, hx⟩ := baseMapsOn_false_iff.mpr hnone
    exact ⟨x, (baseMapsOn_eq hnone).symm.trans hx⟩
  rw [Session.baseMaps]
  rcases eq_or_ne q [] with hnil | hne
  · rw [if_pos hnil]
    exact ⟨_, rfl⟩
  rw [if_neg hne]
  simp only
  cases h q with
  | missing hs ho hn hf =>
    rw [World.file] at hf
    rw [hf, readFirstSuper_empty]
    exact ⟨_, rfl⟩
  | @closed hs ho w hw g ls es hvolume =>
    obtain ⟨e, l, hel, hread⟩ := hvolume.image.readFirstSuper q
    have hchain := hvolume.image.isChain
    have hlen := hchain.layers.chainEnd_le (by simp)
    rw [hel] at hchain hlen
    rw [List.length_cons] at hlen
    have hmap := hchain.doBaseFmmap q hvolume.image.size_lt hname
      ((W.fs q).getD .empty).size (by omega)
    rw [hread]
    simp only [hmap]
    exact ⟨_, rfl⟩
  | opened hs =>
    rw [hclosed.resolve_left hne] at hs
    cases hs

/-! ### Progress -/

section Progress

variable {blockSize : ℤ} {maxSize length offset : ℕ} {base : Option CString}

theorem Shelved.exists_newImage (h : Shelved cfg W sh)
    (hadm : W.Admits cfg (.newImage name blockSize maxSize base))
    (hready : W.Ready kept cfg (.newImage name blockSize maxSize base)) :
    ∃ x, W.step cfg (.newImage name blockSize maxSize base) = .ok x := by
  have hfiles : ∀ p, ((Function.update W.fs name (some ((W.fs name).getD .empty))) p).getD .empty =
      W.file p := by
    intro p
    by_cases hp : p = name
    · rw [hp, Function.update_self, Option.getD_some, World.file]
    · rw [Function.update_of_ne hp, World.file]
  have hcheck : ∃ x, checkBase cfg
    (Function.update W.fs name (some ((W.fs name).getD .empty))) base =
      .ok x := by
    rcases base with _ | b
    · exact ⟨_, rfl⟩
    · rw [checkBase]
      rcases hf : Function.update W.fs name (some ((W.fs name).getD .empty)) b.chars with _ | fb
      · exact ⟨_, rfl⟩
      · have hfile := hfiles b.chars
        rw [hf, Option.getD_some] at hfile
        obtain ⟨x, hx⟩ := (h b.chars).readFirstSuper
        rw [← hfile] at hx
        exact ⟨x, hx⟩
  rw [World.step]
  cases h name with
  | missing hs ho hn hf =>
    rcases hready with ⟨s, hs⟩ | ⟨n, hpos, hlt, hbs⟩
    · rw [hf, readFirstSuper_empty] at hs
      cases hs
    · obtain ⟨x, hx⟩ := hcheck
      rw [World.file] at hf
      obtain ⟨fs', hnew⟩ :=
        newImage_returns W.fs name maxSize (by rw [hf]; exact readFirstSuper_empty)
        hx (by rw [hf]; decide) hpos hlt hbs
      rw [hnew]
      exact ⟨_, rfl⟩
  | closed hs ho hw hvolume =>
    obtain ⟨s, hs⟩ := hvolume.readFirstSuper
    rw [Pcow.newImage]
    simp only [hs]
    exact ⟨_, rfl⟩
  | opened hs =>
    rw [hadm.1.1] at hs
    cases hs

theorem Shelved.exists_snapshot (h : Shelved cfg W sh) (hadm : W.Admits cfg (.snapshot name))
    (hready : W.Ready kept cfg (.snapshot name)) : ∃ x, W.step cfg (.snapshot name) = .ok x := by
  cases h name with
  | missing hs ho hn hf =>
    rw [World.step, snapshot, onImage]
    rw [World.file] at hf
    rcases hfile : W.fs name with _ | f
    · exact ⟨_, rfl⟩
    · rw [hfile, Option.getD_some] at hf
      simp only [snapshotFile, hf, readFirstSuper_empty]
      exact ⟨_, rfl⟩
  | @closed hs ho w hw g ls es hvolume =>
    obtain ⟨f, hf⟩ := hvolume.exists_file
    have himage := hvolume.image
    rw [World.Ready, World.file, hf, Option.getD_some] at hready
    rw [hf, Option.getD_some] at himage
    have hroom := hready _ (himage.readLastSuper name)
    rw [himage.last.endOff himage.size_lt superOf_is,
      show (superOf g name (g.chainEnd 0 ls) es.length).blockSize = g.blockSize from rfl] at hroom
    obtain ⟨f', hsnap⟩ := himage.exists_snapshotFile name hvolume.dvd hvolume.lt
      (by omega)
    rw [World.step, snapshot, onImage, hf]
    simp only [hsnap]
    exact ⟨_, rfl⟩
  | opened hs =>
    rw [hadm.1] at hs
    cases hs

theorem Shelved.exists_fmmap (h : Shelved cfg W sh)
    (hadm : W.Admits cfg (.fmmap name length offset))
    (hready : W.Ready kept cfg (.fmmap name length offset)) :
    ∃ x, W.step cfg (.fmmap name length offset) = .ok x := by
  obtain ⟨hfree, hok⟩ := hadm
  obtain ⟨hlen, hbase⟩ := hready
  rw [World.step]
  cases h name with
  | missing hs ho hn hf =>
    rw [World.file] at hf
    rw [Session.fmmap, Session.fmmapWith]
    simp only [hf, readFirstSuper_empty]
    exact ⟨_, rfl⟩
  | @closed hs ho w hw g ls es hvolume =>
    obtain ⟨e, l, -, hread⟩ := hvolume.image.readFirstSuper name
    have hrange : World.rangeLength (superOf g name 0 e.length) length = g.mapLength length := by
      have hlt := g.blockSize_lt
      rw [World.rangeLength, Geometry.mapLength]
      split_ifs
      · change u64 ((u64 (g.blockSize : ℤ) : ℕ) * g.maxBlockNum) = _
        rw [u64_natCast (by omega)]
      · rfl
    have hpages := hlen _ hread
    rw [hrange] at hpages
    obtain ⟨x, hmaps⟩ := h.exists_baseMaps (hok.imp_right And.left) (hbase.imp_right And.right)
    rw [hvolume.image.isChain.fmmap_eq rfl hvolume.image.size_lt]
    split_ifs with h₁ h₂ h₃
    · exact ⟨_, rfl⟩
    · exact ⟨_, rfl⟩
    · exact absurd h₃ (not_or.mpr ⟨by omega, not_not.mpr hpages.2⟩)
    · rw [World.baseOf, World.file] at hmaps
      rw [hmaps]
      exact ⟨_, rfl⟩
  | opened hs =>
    rw [hfree.1] at hs
    cases hs

/-- **`fmmap` does not depend on what is freed**, where it is ready to be called. -/
theorem Shelved.fmmapOn_eq (h : Shelved cfg W sh)
    (hbase : W.NoBase cfg name ∨ kept = true ∧ W.baseOf (W.baseOf name) = []) :
    fmmapOn kept cfg W.fs name length offset = Session.fmmap cfg W.fs name length offset := by
  rcases hbase with hnone | ⟨rfl, -⟩
  swap
  · rw [fmmapOn_true]
  rcases (h name).image with hempty | ⟨g, ls, es, himage, -⟩
  · rw [World.file] at hempty
    rw [fmmapOn, Session.fmmap, Session.fmmapWith, Session.fmmapWith]
    simp only [hempty, readFirstSuper_empty]
  · exact himage.isChain.fmmapOn_eq himage.size_lt hnone

/-- **An operation that is ready returns**, in every state that images used as they are to be
have. -/
theorem Shelved.progress (h : Shelved cfg W sh) (hadm : W.Admits cfg op)
    (hready : W.Ready kept cfg op) : ∃ x, W.step cfg op = .ok x := by
  cases op with
  | newImage name blockSize maxSize base => exact h.exists_newImage hadm hready
  | updateBaseImage name base =>
    rw [World.step, updateBaseImage]
    rcases hf : W.fs name with _ | f
    · exact ⟨_, rfl⟩
    · obtain ⟨x, hx⟩ := (h name).readFirstSuper
      rw [World.file, hf, Option.getD_some] at hx
      simp only [hx]
      rcases x with _ | s
      · exact ⟨_, rfl⟩
      · exact ⟨_, rfl⟩
  | snapshot name => exact h.exists_snapshot hadm hready
  | rollbackSnapshot name no =>
    rw [World.step, rollbackSnapshot, onImage]
    rcases hf : W.fs name with _ | f
    · exact ⟨_, rfl⟩
    cases h name with
    | missing hs ho hn hfile =>
      rw [World.file, hf, Option.getD_some] at hfile
      simp only [rollbackFile, hfile, readFirstSuper_empty]
      exact ⟨_, rfl⟩
    | closed hs ho hw hvolume =>
      have himage := hvolume.image
      rw [hf, Option.getD_some] at himage
      simp only [himage.rollbackFile no]
      exact ⟨_, rfl⟩
    | opened hs =>
      rw [hadm.1] at hs
      cases hs
  | fmmap name length offset => exact h.exists_fmmap hadm hready
  | guest name op =>
    obtain ⟨ses, hses, hin, hroom⟩ := hready
    cases h name with
    | missing hs => rw [hs] at hses; cases hses
    | closed hs => rw [hs] at hses; cases hses
    | opened hs ho hw hvolume hb =>
      obtain rfl := Option.some.inj (hses.symm.trans hs)
      rw [World.step, hses]
      simp only [if_pos hin]
      rcases hvolume.inv.step hin (hadm _ hses) with ⟨ses', ev, es', hr, -⟩ | ⟨err, hr, hno⟩
      · rw [hr]
        exact ⟨_, rfl⟩
      · exact absurd hroom hno
  | fmunmap name =>
    obtain ⟨ses, hses⟩ := Option.ne_none_iff_exists'.mp hready
    rw [World.step, hses]
    exact ⟨_, rfl⟩

end Progress

/-! ### Runs step by step -/

theorem Shelved.exists_next (h : Shelved cfg W sh) (hadm : W.Admits cfg op)
    (hready : W.Ready kept cfg op) : ∃ W' r sh', W.step cfg op = .ok (W', r) ∧ sh.Step op r sh' ∧
    Shelved cfg W' sh' := by
  obtain ⟨⟨W', r⟩, hr⟩ := h.progress hadm hready
  obtain ⟨sh', hstep, h'⟩ := h.step hadm hr
  exact ⟨W', r, sh', hr, hstep, h'⟩

theorem World.runs_nil : W.Along cfg (World.Admits cfg) [] ∧ W.run cfg [] = .ok (W, []) :=
  ⟨trivial, rfl⟩

/-- One more step at the start of a run. -/
theorem World.runs_cons {W₁ : World} {ops : List WorldOp} {rs : List Answer}
    (hadm : W.Admits cfg op) (hr : W.step cfg op = .ok (W₁, r))
    (h : W₁.Along cfg (World.Admits cfg) ops ∧ W₁.run cfg ops = .ok (W', rs)) :
    W.Along cfg (World.Admits cfg) (op :: ops) ∧ W.run cfg (op :: ops) = .ok (W', r :: rs) := by
  refine ⟨⟨hadm, fun W₂ r₂ hr₂ => ?_⟩, ?_⟩
  · rw [hr] at hr₂
    cases hr₂
    exact h.1
  · rw [World.run, hr]
    simp only [h.2]
    rfl

/-- One more step at the end of a run. -/
theorem World.runs_concat {W₁ : World} {ops : List WorldOp} {rs : List Answer}
    (h : W.Along cfg (World.Admits cfg) ops ∧ W.run cfg ops = .ok (W₁, rs))
    (hadm : W₁.Admits cfg op) (hr : W₁.step cfg op = .ok (W', r)) :
    W.Along cfg (World.Admits cfg) (ops ++ [op]) ∧ W.run cfg (ops ++ [op]) =
      .ok (W', rs ++ [r]) := by
  induction ops generalizing W rs with
  | nil =>
    obtain ⟨-, hrun⟩ := h
    cases hrun
    exact World.runs_cons hadm hr World.runs_nil
  | cons op' ops ih =>
    obtain ⟨⟨hadm', halong⟩, hrun⟩ := h
    obtain ⟨W₂, r₂, rs', hstep, hrest, rfl⟩ := World.run_cons hrun
    exact World.runs_cons hadm' hstep (ih ⟨halong _ _ hstep, hrest⟩)

theorem World.reachable_init : World.init.Reachable cfg := ⟨[], [], World.runs_nil⟩

theorem World.Reachable.next (h : W.Reachable cfg) (hadm : W.Admits cfg op)
    (hr : W.step cfg op = .ok (W', r)) : W'.Reachable cfg := by
  obtain ⟨ops, rs, hrun⟩ := h
  exact ⟨_, _, World.runs_concat hrun hadm hr⟩

/-- What `fmmap` returns. -/
theorem World.exists_fmmap {length offset : ℕ}
    (hr : W.step cfg (.fmmap name length offset) = .ok (W', .mapped)) :
    ∃ ses, Session.fmmap cfg W.fs name length offset = .ok (some ses) := by
  rcases World.step_fmmap hr with ⟨-, -, hfailed⟩ | ⟨ses, hmap, -, -⟩
  · cases hfailed
  · exact ⟨ses, hmap⟩

/-- The sessions are those on the volumes that are open. -/
theorem Stands.sessions_eq_none_iff (h : Stands cfg W sh q) :
    W.sessions q = none ↔ sh.opened q = none := by
  cases h with
  | missing hs ho => simp [hs, ho]
  | closed hs ho => simp [hs, ho]
  | opened hs ho => simp [hs, ho]

theorem Stands.exists_session {len : ℕ} (h : Stands cfg W sh q) (hopen : sh.opened q = some len) :
    ∃ ses, W.sessions q = some ses ∧ ses.s.fmmapLength = len := by
  cases h with
  | missing hs ho => rw [ho] at hopen; cases hopen
  | closed hs ho => rw [ho] at hopen; cases hopen
  | opened hs ho hw hvolume =>
    rw [hopen] at ho
    cases ho
    exact ⟨_, hs, hvolume.fmmapLength⟩

/-- The base of a volume is the one its file names. -/
theorem Stands.base_eq {w : Volume} (h : Stands cfg W sh q) (hw : sh.volumes q = some w) :
    w.base = W.baseOf q := by
  have hstands := h
  cases h with
  | missing hs ho hn => rw [hn] at hw; cases hw
  | closed hs ho hw' hvolume =>
    rw [hw] at hw'
    cases hw'
    exact hvolume.base
  | opened hs ho hw' => exact (hstands.baseOf hs hw).symm

/-- **An image is free** if its volume is not open, nor the base of one that is. -/
theorem Shelved.free (h : Shelved cfg W sh) (hopen : sh.opened name = none)
    (hbase : ∀ q w, sh.opened q ≠ none → sh.volumes q = some w → w.base = [] ∨ w.base ≠ name) :
    W.Free name := by
  refine ⟨(h name).sessions_eq_none_iff.mpr hopen, fun q hq => ?_⟩
  have hstands := h q
  cases h q with
  | missing hs => exact absurd hs hq
  | closed hs => exact absurd hs hq
  | opened hs ho hw =>
    rw [← hstands.base_eq hw]
    exact hbase q _ (by rw [ho]; simp) hw

/-- Every image is free while none is open. -/
theorem Shelved.free_of_closed (h : Shelved cfg W sh) (hopen : ∀ q, sh.opened q = none)
    (name : Path) : W.Free name :=
  h.free (hopen name) fun q _ hq => absurd (hopen q) hq

/-- The same for a name beside the only volume that is open. -/
theorem Shelved.free_beside {len : ℕ} {w : Volume} (h : Shelved cfg W sh) (hne : name ≠ q)
    (hopen : sh.opened = Function.update (fun _ => none) q (some len))
    (hw : sh.volumes q = some w) (hbase : w.base = [] ∨ w.base ≠ name) : W.Free name := by
  refine h.free (by rw [hopen, Function.update_of_ne hne]) fun p w' hp hw' => ?_
  obtain rfl : p = q := by
    by_contra hpq
    rw [hopen, Function.update_of_ne hpq] at hp
    exact hp rfl
  obtain rfl := Option.some.inj (hw.symm.trans hw')
  exact hbase

/-! ### Small images -/

section Small

variable {g : Geometry cfg} {fs : Fs} {ls : List (List ℕ)} {es : List ℕ} {w : Volume} {len : ℕ}

/-- Layers without anything in them are layers without entries. -/
theorem eq_nil_of_chainLayers {off : ℕ}
    (h : ∀ l ∈ chainLayers g fs name off ls, l = LayerStack.empty) : ∀ es ∈ ls, es = [] := by
  induction ls generalizing off with
  | nil => exact fun es hes => absurd hes List.not_mem_nil
  | cons e ls ih =>
    rw [chainLayers, List.forall_mem_cons] at h
    refine List.forall_mem_cons.mpr ⟨List.eq_nil_iff_forall_not_mem.mpr fun b hb => ?_, ih h.2⟩
    have hat := congrFun h.1 (b * g.blockSize)
    rw [bindingLayer, Nat.mul_div_cancel b g.blockSize_pos] at hat
    have htop : g.top name off e b = none := Option.map_eq_none_iff.mp hat
    exact Geometry.top_eq_none.mp htop hb

/-- A layer without entries is four blocks long at most. -/
theorem Geometry.endOff_zero_le (off : ℕ) : g.endOff off 0 ≤ off + 4 * g.blockSize := by
  have hle : g.endOff off 0 ≤ g.blockAt off 4 := g.blockAt_mono off (by
    have := g.lastSeg_le (k := 0)
    rw [Geometry.blocks]
    omega)
  rw [Geometry.blockAt] at hle
  omega

theorem Geometry.chainEnd_le_of_nil (h : ∀ es ∈ ls, es = []) (off : ℕ) :
    g.chainEnd off ls ≤ off + ls.length * (4 * g.blockSize) := by
  induction ls generalizing off with
  | nil => exact Nat.le_add_right _ _
  | cons e ls ih =>
    obtain ⟨rfl, hrest⟩ := List.forall_mem_cons.mp h
    have hend := g.endOff_zero_le off
    have hle := ih hrest (g.endOff off 0)
    rw [Geometry.chainEnd, List.length_nil, List.length_cons, Nat.succ_mul]
    omega

/-- **The volume is new**: it has few layers, of small blocks, and nothing in any of them. -/
structure Volume.Fresh (w : Volume) : Prop where
  empty : ∀ l ∈ w.layers, l = LayerStack.empty
  length_le : w.layers.length ≤ 2 ^ 10
  blockSize_le : w.blockSize ≤ 2 ^ 20

theorem Geometry.endOff_le_of_nil (h : ∀ es ∈ ls, es = []) (hlen : ls.length < 2 ^ 10)
    (hbs : g.blockSize ≤ 2 ^ 20) : g.endOff (g.chainEnd 0 ls) 0 ≤ 2 ^ 32 := by
  have h₁ := g.endOff_zero_le (g.chainEnd 0 ls)
  have h₂ := g.chainEnd_le_of_nil h 0
  have h₃ : (ls.length + 1) * (4 * g.blockSize) ≤ 2 ^ 10 * (4 * 2 ^ 20) :=
    Nat.mul_le_mul (by omega) (by omega)
  rw [Nat.succ_mul] at h₃
  omega

theorem IsVolume.eq_nil (h : IsVolume g fs name ls es w) (hfresh : w.Fresh) :
    (∀ e ∈ ls, e = []) ∧ es = [] ∧ ls.length < 2 ^ 10 := by
  obtain ⟨hlayers, hlen, -⟩ := hfresh
  rw [h.layers] at hlayers hlen
  have hnil := eq_nil_of_chainLayers hlayers
  rw [length_chainLayers, List.length_append, List.length_singleton] at hlen
  exact ⟨fun e he => hnil e (List.mem_append_left _ he),
    hnil es (List.mem_append_right _ List.mem_cons_self), by omega⟩

theorem IsOpen.eq_nil {ses : Session} {under : List (LayerStack.Layer ℕ UInt8)}
    {low : List (ℕ × Path × ℕ)} (h : IsOpen g ses name ls es low under w len) (hfresh : w.Fresh) :
    (∀ e ∈ ls, e = []) ∧ es = [] ∧ ls.length < 2 ^ 10 := by
  obtain ⟨hlayers, hlen, -⟩ := hfresh
  rw [Volume.layers, h.frozen] at hlayers hlen
  refine ⟨eq_nil_of_chainLayers fun l hl => hlayers l (List.mem_append_left _ hl),
    List.eq_nil_iff_forall_not_mem.mpr fun b hb => ?_, ?_⟩
  · have htop := hlayers w.top (List.mem_append_right _ List.mem_cons_self)
    have hat := congrFun (h.top.symm.trans htop) (b * g.blockSize)
    rw [Nat.mul_div_cancel b g.blockSize_pos, if_pos hb] at hat
    cases hat
  · rw [List.length_append, length_chainLayers, List.length_singleton] at hlen
    omega

theorem Volume.fresh_new {base : Option CString} : (Volume.new 4096 262144 base).Fresh :=
  ⟨fun _ hl => List.mem_singleton.mp hl, Nat.one_le_two_pow, show 4096 ≤ 2 ^ 20 by norm_num⟩

theorem Volume.Fresh.freeze (h : w.Fresh) (hlt : w.layers.length < 2 ^ 10) : w.freeze.Fresh := by
  refine ⟨fun l hl => ?_, ?_, h.blockSize_le⟩
  · rw [Volume.layers_freeze] at hl
    rcases List.mem_append.mp hl with hl | hl
    · exact h.empty l hl
    · exact List.mem_singleton.mp hl
  · rw [Volume.layers_freeze, List.length_append, List.length_singleton]
    omega

/-- **`new_image` makes a volume** of blocks of 4 KB where there is none. -/
theorem Shelved.exists_created (h : Shelved cfg W sh) (name : Path) (base : Option CString)
    (hfree : W.Free name) (hnone : sh.volumes name = none)
    (hbase : ∀ b ∈ base, b.chars.length < 48) :
    ∃ W', W.Admits cfg (.newImage name 4 1 base) ∧
      W.step cfg (.newImage name 4 1 base) = .ok (W', .returned 0) ∧
      Shelved cfg W' (sh.put name (.new 4096 262144 base)) := by
  have hready : W.Ready false cfg (.newImage name 4 1 base) :=
    Or.inr ⟨1, by norm_num, by norm_num, rfl⟩
  have hadm : W.Admits cfg (.newImage name 4 1 base) := ⟨hfree, hbase⟩
  obtain ⟨W', r, sh', hr, hstep, h'⟩ := h.exists_next hadm hready
  cases hstep with
  | taken hw =>
    rw [hnone] at hw
    cases hw
  | @create _ _ m _ n _ _ hn hm =>
    have h₁ : i32 (4 * 1024) = 4096 := by decide
    obtain rfl : n = 4096 := by
      rw [h₁] at hn
      exact_mod_cast hn
    obtain rfl : m = 262144 := hm.trans (by decide)
    exact ⟨W', hadm, hr, h'⟩
  | missing hop => exact hop.elim

/-- **`fmmap` opens a volume** over a base that is not open and has no base. -/
theorem Shelved.exists_opened (h : Shelved cfg W sh) (name : Path) (hfree : W.Free name)
    (hw : sh.volumes name = some w)
    (hbase : w.base = [] ∨ sh.opened w.base = none ∧
      ∃ w₀, sh.volumes w.base = some w₀ ∧ w₀.base = [] ∧ w₀.blockSize = w.blockSize) :
    ∃ W', W.Admits cfg (.fmmap name 8192 0) ∧ W.step cfg (.fmmap name 8192 0) = .ok (W', .mapped) ∧
      Shelved cfg W' { sh with opened := Function.update sh.opened name (some 8192) } := by
  have hname := (h name).base_eq hw
  have hok : W.BaseOk cfg name := by
    rw [World.BaseOk, ← hname]
    rcases hbase with hnil | ⟨hclosed, w₀, hw₀, -, hbs⟩
    · exact Or.inl hnil
    refine Or.inr ⟨(h w.base).sessions_eq_none_iff.mpr hclosed, Or.inr ?_⟩
    cases h name with
    | missing hs ho hn => rw [hn] at hw; cases hw
    | opened hs => rw [hfree.1] at hs; cases hs
    | closed hs ho hw' hvolume =>
      obtain rfl := Option.some.inj (hw.symm.trans hw')
      cases h w.base with
      | missing hs ho hn => rw [hn] at hw₀; cases hw₀
      | opened hs ho => rw [hclosed] at ho; cases ho
      | closed hs ho hw₁ hvolume₀ =>
        obtain rfl := Option.some.inj (hw₀.symm.trans hw₁)
        rw [World.file, World.file, hvolume₀.loadInt, hvolume.loadInt, ← hvolume.blockSize,
          ← hvolume₀.blockSize, hbs]
  have hready : W.Ready true cfg (.fmmap name 8192 0) := by
    refine ⟨fun s _ => ⟨?_, ?_⟩, ?_⟩
    · rw [World.rangeLength, if_neg (by norm_num)]
      norm_num
    · rw [World.rangeLength, if_neg (by norm_num)]
      exact ⟨2, rfl⟩
    · rw [World.NoBase, ← hname]
      rcases hbase with hnil | ⟨-, w₀, hw₀, hnil, -⟩
      · exact Or.inl (Or.inl hnil)
      · exact Or.inr ⟨rfl, by rw [← (h w.base).base_eq hw₀, hnil]⟩
  have hadm : W.Admits cfg (.fmmap name 8192 0) := ⟨hfree, hok⟩
  obtain ⟨W', r, sh', hr, hstep, h'⟩ := h.exists_next hadm hready
  cases hstep with
  | opens hw' hlen hoff hb =>
    obtain rfl := Option.some.inj (hw.symm.trans hw')
    exact ⟨W', hadm, hr, h'⟩
  | refused hno =>
    have hlen : w.rangeLength 8192 = 8192 := if_neg (by norm_num)
    have hno' := hno w hw
    rw [hlen] at hno'
    norm_num at hno'
  | missing hop => exact hop.elim

/-- **`snapshot` freezes a new volume.** -/
theorem Shelved.exists_frozen (h : Shelved cfg W sh) (name : Path) (hfree : W.Free name)
    (hw : sh.volumes name = some w) (hfresh : w.Fresh) :
    ∃ W', W.step cfg (.snapshot name) = .ok (W', .returned 0) ∧
      Shelved cfg W' (sh.put name w.freeze) := by
  have hready : W.Ready false cfg (.snapshot name) := by
    intro s hs
    cases h name with
    | missing hs' ho hn => rw [hn] at hw; cases hw
    | opened hs' => rw [hfree.1] at hs'; cases hs'
    | @closed hs' ho w' hw' g ls es hvolume =>
      obtain rfl := Option.some.inj (hw.symm.trans hw')
      obtain ⟨hnil, rfl, hlen⟩ := hvolume.eq_nil hfresh
      have hbs : g.blockSize ≤ 2 ^ 20 := hvolume.blockSize ▸ hfresh.blockSize_le
      have hend := Geometry.endOff_le_of_nil hnil hlen hbs
      rw [World.file, hvolume.image.readLastSuper name] at hs
      cases hs
      have hat : (superOf g name (g.chainEnd 0 ls) 0).blockSize = g.blockSize := rfl
      rw [World.file, hvolume.image.last.endOff hvolume.image.size_lt superOf_is,
        List.length_nil, hat]
      omega
  obtain ⟨W', r, sh', hr, hstep, h'⟩ :=
    h.exists_next (show W.Admits cfg (.snapshot name) from hfree) hready
  cases hstep with
  | freeze hw' =>
    obtain rfl := Option.some.inj (hw.symm.trans hw')
    exact ⟨W', hr, h'⟩
  | missing hop hnone =>
    obtain rfl := hop
    rw [hw] at hnone
    cases hnone

/-- **A machine stores a byte** in a new volume, where blocks are copied whole and are not allocated
ahead. -/
theorem Shelved.exists_stored (h : Shelved ⟨false, false⟩ W sh) (name : Path) (v : ℕ) (x : UInt8)
    (hopen : sh.opened name = some len) (hw : sh.volumes name = some w)
    (hfresh : w.Fresh) (hmax : 1 ≤ w.maxBlockNum) (hpos : 0 < w.blockSize)
    (hv : v + w.blockSize ≤ len) :
    ∃ W', W.Admits ⟨false, false⟩ (.guest name (.store v x 0 0)) ∧
      W.step ⟨false, false⟩ (.guest name (.store v x 0 0)) = .ok (W', .event (.stored v x true)) ∧
      Shelved ⟨false, false⟩ W' (sh.put name ((w.fill (sh.shows w) v).put v x)) := by
  have hadm : W.Admits ⟨false, false⟩ (.guest name (.store v x 0 0)) := fun ses hses hfine =>
    Bool.noConfusion hfine
  have hready : W.Ready false ⟨false, false⟩ (.guest name (.store v x 0 0)) := by
    cases h name with
    | missing hs ho => rw [ho] at hopen; cases hopen
    | closed hs ho => rw [ho] at hopen; cases hopen
    | @opened ses hs len' ho w' hw' g ls es base hvolume hb =>
      obtain rfl := Option.some.inj (hopen.symm.trans ho)
      obtain rfl := Option.some.inj (hw.symm.trans hw')
      obtain ⟨hnil, rfl, hlen⟩ := hvolume.eq_nil hfresh
      have hs' := hvolume.inv.core.super
      have hbs : g.blockSize ≤ 2 ^ 20 := hvolume.blockSize ▸ hfresh.blockSize_le
      have hend := Geometry.endOff_le_of_nil hnil hlen hbs
      refine ⟨ses, hs, ?_, fun _ => ⟨?_, ?_, fun hpre => Bool.noConfusion hpre⟩⟩
      · change v < ses.s.fmmapLength
        rw [show ses.s.fmmapLength = len from hvolume.fmmapLength]
        omega
      · rw [hs'.toAllocNum, hs'.maxBlockNum, ← hvolume.maxBlockNum]
        exact_mod_cast hmax
      · rw [hs'.nextOff (by rw [List.length_nil]; omega), hs'.blockSize, List.length_nil,
          show maxPreNum = 5 from rfl]
        omega
  obtain ⟨W', r, sh', hr, hstep, h'⟩ := h.exists_next hadm hready
  cases hstep with
  | missing hop => exact hop.elim
  | guest ho hw' haccess =>
    obtain rfl := Option.some.inj (hopen.symm.trans ho)
    obtain rfl := Option.some.inj (hw.symm.trans hw')
    cases haccess with
    | store => exact ⟨W', hadm, hr, h'⟩
    | noStore _ _ _ _ hlt => omega

/-- **It closes its volume.** -/
theorem Shelved.exists_closed (h : Shelved ⟨false, false⟩ W sh) (name : Path)
    (hopen : sh.opened name = some len) :
    ∃ W', W.Admits ⟨false, false⟩ (.fmunmap name) ∧
      W.step ⟨false, false⟩ (.fmunmap name) = .ok (W', .returned 0) ∧
      Shelved ⟨false, false⟩ W' { sh with opened := Function.update sh.opened name none } := by
  have hadm : W.Admits ⟨false, false⟩ (.fmunmap name) := by
    intro ses hses
    cases h name with
    | missing hs => rw [hs] at hses; cases hses
    | closed hs => rw [hs] at hses; cases hses
    | opened hs ho hw hvolume =>
      obtain rfl := Option.some.inj (hses.symm.trans hs)
      exact fun i _ => hvolume.inv.plain rfl i
  obtain ⟨ses, hses, -⟩ := (h name).exists_session hopen
  obtain ⟨W', r, sh', hr, hstep, h'⟩ := h.exists_next hadm
    (show W.Ready false _ (.fmunmap name) by rw [World.Ready, hses]; simp)
  cases hstep with
  | closes => exact ⟨W', hadm, hr, h'⟩
  | missing hop => exact hop.elim

/-- **`rollback_snapshot` cuts a volume.** -/
theorem Shelved.exists_cut (h : Shelved cfg W sh) (name : Path) (no : ℤ) (hfree : W.Free name)
    (hw : sh.volumes name = some w) :
    ∃ W', W.step cfg (.rollbackSnapshot name no) = .ok (W', .returned 0) ∧
      Shelved cfg W' (sh.put name (w.cut no)) := by
  obtain ⟨W', r, sh', hr, hstep, h'⟩ :=
    h.exists_next (show W.Admits cfg (.rollbackSnapshot name no) from hfree)
      (show W.Ready false cfg (.rollbackSnapshot name no) from trivial)
  cases hstep with
  | cut hw' =>
    obtain rfl := Option.some.inj (hw.symm.trans hw')
    exact ⟨W', hr, h'⟩
  | missing hop hnone =>
    obtain rfl := hop
    rw [hw] at hnone
    cases hnone

/-- **`update_base_image` gives a volume another base.** -/
theorem Shelved.exists_rebased (h : Shelved cfg W sh) (name : Path) (base : CString)
    (hfree : W.Free name) (hlen : base.chars.length < 48) (hw : sh.volumes name = some w) :
    ∃ W', W.Admits cfg (.updateBaseImage name base) ∧
      W.step cfg (.updateBaseImage name base) = .ok (W', .returned 0) ∧
      Shelved cfg W' (sh.put name { w with base := base.chars }) := by
  have hadm : W.Admits cfg (.updateBaseImage name base) := ⟨hfree, hlen⟩
  obtain ⟨W', r, sh', hr, hstep, h'⟩ :=
    h.exists_next hadm (show W.Ready false cfg (.updateBaseImage name base) from trivial)
  cases hstep with
  | rebase hw' =>
    obtain rfl := Option.some.inj (hw.symm.trans hw')
    exact ⟨W', hadm, hr, h'⟩
  | missing hop hnone =>
    obtain rfl := hop
    rw [hw] at hnone
    cases hnone

/-- **A session that stores a byte** in a new volume without a base, and is closed again. -/
theorem Shelved.exists_written (h : Shelved ⟨false, false⟩ W sh) (hW : W.Reachable ⟨false, false⟩)
    (hclosed : sh.opened = fun _ => none) (name : Path) (v : ℕ) (x : UInt8)
    (hw : sh.volumes name = some w) (hbase : w.base = []) (hfresh : w.Fresh)
    (hmax : 1 ≤ w.maxBlockNum)
    (hpos : 0 < w.blockSize) (hv : v + w.blockSize ≤ 8192) :
    ∃ W', W'.Reachable ⟨false, false⟩ ∧ Shelved ⟨false, false⟩ W'
      (Shelf.put ⟨sh.volumes, fun _ => none⟩ name ((w.fill (sh.shows w) v).put v x)) := by
  obtain ⟨W₁, ha₁, hr₁, h₁⟩ := h.exists_opened name (h.free_of_closed (congrFun hclosed) _) hw
    (Or.inl hbase)
  obtain ⟨W₂, ha₂, hr₂, h₂⟩ :=
    h₁.exists_stored name v x (Function.update_self _ _ _) hw hfresh hmax hpos
    hv
  obtain ⟨W₃, ha₃, hr₃, h₃⟩ := h₂.exists_closed name (Function.update_self _ _ _)
  refine ⟨W₃, ((hW.next ha₁ hr₁).next ha₂ hr₂).next ha₃ hr₃, ?_⟩
  have hopen : Function.update (Function.update sh.opened name (some 8192)) name none = fun _ =>
      none := by
    rw [Function.update_idem, hclosed, Function.update_eq_self_iff.mpr rfl]
  have hshelf := h₃
  rw [Shelf.put] at hshelf ⊢
  simp only [hopen] at hshelf
  exact hshelf

end Small

/-! ### The system -/

/-- **The system does what it is for.** Every run, in which calls of the tool and the steps of any
number of machines are interleaved in any way and images are used as they are to be, is a run of a
shelf of volumes with the same answers: the return values of the calls, the ranges that are mapped
or refused, and the bytes that are loaded. In its end each machine sees what the volume it has open
shows, the layers of its image over those of the base. -/
theorem world_refines (cfg : Config) (ops : List WorldOp) (W : World) (rs : List Answer)
    (hadm : World.init.Along cfg (World.Admits cfg) ops)
    (hrun : World.init.run cfg ops = .ok (W, rs)) :
    ∃ sh, Shelf.Run .init ops rs sh ∧ Shelved cfg W sh ∧
      ∀ name ses, W.sessions name = some ses →
        ∃ w, sh.volumes name = some w ∧ (ses.on W.fs).view = sh.shows w := by
  obtain ⟨sh, hsh, hshelved⟩ := shelved_init.run hadm hrun
  refine ⟨sh, hsh, hshelved, fun name ses hses => ?_⟩
  obtain ⟨w, hw, -, hview⟩ := hshelved.view hses
  exact ⟨w, hw, hview⟩

theorem CString.one_ne_zero (c : UInt8) (hc : c ∈ [1]) : c ≠ 0 := by
  rw [List.mem_singleton.mp hc]
  decide

/-- The name of an image in memory. -/
def CString.one : CString := ⟨[1], fun _ => 0, CString.one_ne_zero⟩

/-- An image, a clone of it, and a machine on the clone that stores a byte. -/
theorem world_refines_store : ∃ W sh,
    World.init.run ⟨false, false⟩ [.newImage [1] 4 1 none, .newImage [2] 4 1 (some .one),
        .fmmap [2] 8192 0, .guest [2] (.store 5 7 0 0)] =
      .ok (W, [.returned 0, .returned 0, .mapped, .event (.stored 5 7 true)]) ∧
    Shelf.Run .init [.newImage [1] 4 1 none, .newImage [2] 4 1 (some .one),
        .fmmap [2] 8192 0, .guest [2] (.store 5 7 0 0)]
      [.returned 0, .returned 0, .mapped, .event (.stored 5 7 true)] sh ∧
    ∃ ses w, W.sessions [2] = some ses ∧ sh.volumes [2] = some w ∧
      (ses.on W.fs).view = sh.shows w := by
  have h₀ : Shelved ⟨false, false⟩ .init .init := shelved_init
  obtain ⟨W₁, ha₁, hr₁, h₁⟩ := h₀.exists_created [1] none
    (h₀.free_of_closed (fun _ => rfl) _) rfl (by simp)
  obtain ⟨W₂, ha₂, hr₂, h₂⟩ := h₁.exists_created [2] (some .one)
    (h₁.free_of_closed (fun _ => rfl) _) rfl (by decide)
  obtain ⟨W₃, ha₃, hr₃, h₃⟩ := h₂.exists_opened [2] (h₂.free_of_closed (fun _ => rfl) _) rfl
    (Or.inr ⟨rfl, _, rfl, rfl, rfl⟩)
  obtain ⟨W₄, ha₄, hr₄, h₄⟩ := h₃.exists_stored [2] 5 7 rfl rfl Volume.fresh_new (by decide)
    (by decide) (by decide)
  obtain ⟨hadm, hrun⟩ := World.runs_cons ha₁ hr₁ (World.runs_cons ha₂ hr₂ (World.runs_cons ha₃ hr₃
    (World.runs_cons ha₄ hr₄ World.runs_nil)))
  obtain ⟨sh, hsh, hshelved, hview⟩ := world_refines _ _ _ _ hadm hrun
  obtain ⟨ses, hses, -⟩ := (h₄ [2]).exists_session rfl
  obtain ⟨w, hw, hshows⟩ := hview _ _ hses
  exact ⟨W₄, sh, hrun, hsh, ses, w, hses, hw, hshows⟩

/-- **No operation gets stuck.** In every state that is reached by using images as they are to be,
every operation that is ready returns: reading a file that another process has written, in whatever
state, never ends in a fault, an assertion or an endless walk. What `fmmap` makes of the structs it
has freed is what is modelled: without a base it reads none of them. -/
theorem world_progress (kept : Bool) (cfg : Config) (W : World) (op : WorldOp)
    (hW : W.Reachable cfg) (hadm : W.Admits cfg op) (hready : W.Ready kept cfg op) :
    (∃ x, W.step cfg op = .ok x) ∧ ∀ name length offset, op = .fmmap name length offset →
      fmmapOn kept cfg W.fs name length offset = Session.fmmap cfg W.fs name length offset := by
  obtain ⟨sh, hsh⟩ := hW.shelved
  refine ⟨hsh.progress hadm hready, ?_⟩
  rintro name length offset rfl
  exact hsh.fmmapOn_eq hready.2

/-- A new image is opened, whatever becomes of structs that are freed. -/
theorem world_progress_fmmap : ∃ (W : World) (x : World × Answer), W.Reachable .shipped ∧
    W.step .shipped (.fmmap [1] 8192 0) = .ok x ∧
      fmmapOn false .shipped W.fs [1] 8192 0 = Session.fmmap .shipped W.fs [1] 8192 0 := by
  have h₀ : Shelved .shipped .init .init := shelved_init
  obtain ⟨W₁, ha₁, hr₁, h₁⟩ := h₀.exists_created [1] none
    (h₀.free_of_closed (fun _ => rfl) _) rfl (by simp)
  have hbase : W₁.baseOf [1] = [] := ((h₁ [1]).base_eq rfl).symm
  have hready : W₁.Ready false .shipped (.fmmap [1] 8192 0) := by
    refine ⟨fun s _ => ?_, Or.inl (Or.inl hbase)⟩
    rw [World.rangeLength, if_neg (by norm_num)]
    exact ⟨by norm_num, 2, rfl⟩
  obtain ⟨⟨x, hx⟩, heq⟩ := world_progress false .shipped W₁ (.fmmap [1] 8192 0)
    (World.reachable_init.next ha₁ hr₁) ⟨h₁.free_of_closed (fun _ => rfl) _, Or.inl hbase⟩ hready
  exact ⟨W₁, x, World.reachable_init.next ha₁ hr₁, hx, heq [1] 8192 0 rfl⟩

end Pcow
