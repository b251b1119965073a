import Pcow.Tenants

/-!
# The builds agree

The two switches of `config.h` choose how a block is copied, as a whole or unit by unit as it is
written to, and where a block comes from, the ring of a thread or the fault handler itself. They
change the format of the entries, the order of the blocks in a file and what a session keeps in
memory. What an image shows they do not change: a shelf has no switches, and what is done on it
determines what comes of it (`Shelf.Run.unique`). So two builds on which the same is done give the
same answers and show the same (`builds_agree`).
-/

namespace Pcow

open LayerStack

/-- **The operation comes to an end.** Accesses at the end of a range may not. -/
def Answer.Done : Answer → Prop
  | .event ev => Flat.Done ev
  | _ => True

theorem Volume.Access.unique {under : List (Layer ℕ UInt8)} {len : ℕ} {w w₁ w₂ : Volume}
    {op : GuestOp}
    {ev ev' : Event} (h : w.Access under len op ev w₁) (h' : w.Access under len op ev' w₂)
    (hdone : Flat.Done ev) (hdone' : Flat.Done ev') : ev' = ev ∧ w₂ = w₁ := by
  cases h with
  | load v n n' =>
    cases h' with
    | load => exact ⟨rfl, rfl⟩
    | noLoad => exact absurd rfl hdone'
  | noLoad => exact absurd rfl hdone
  | store v x n n' =>
    cases h' with
    | store => exact ⟨rfl, rfl⟩
    | noStore => cases hdone'
  | noStore => cases hdone
  | tick =>
    cases h' with
    | tick => exact ⟨rfl, rfl⟩

namespace Shelf

variable {sh sh₁ sh₂ : Shelf} {op : WorldOp} {ops : List WorldOp} {r r' : Answer}
  {rs rs' : List Answer}
  {name : Path} {w w' : Volume}

theorem volume_unique (h : sh.volumes name = some w) (h' : sh.volumes name = some w') : w' = w :=
  Option.some.inj (h'.symm.trans h)

/-- A name does not both have a volume and have none. -/
theorem not_missing {P : Prop} (h : sh.volumes name = some w)
    (h' : sh.volumes name = none) : P := by
  rw [h] at h'
  cases h'

/-- **An operation has one result** if it comes to an end. -/
theorem Step.unique (h : Step sh op r sh₁) (h' : Step sh op r' sh₂) (hdone : r.Done)
    (hdone' : r'.Done) : r' = r ∧ sh₂ = sh₁ := by
  cases h with
  | create hnone hn hm =>
    cases h' with
    | create hnone' hn' hm' =>
      obtain rfl := Nat.cast_injective (hn.trans hn'.symm)
      obtain rfl := hm.trans hm'.symm
      exact ⟨rfl, rfl⟩
    | taken hw => exact not_missing hw hnone
    | missing hop => exact hop.elim
  | taken hw =>
    cases h' with
    | create hnone => exact not_missing hw hnone
    | taken => exact ⟨rfl, rfl⟩
    | missing hop => exact hop.elim
  | missing hop hnone =>
    cases h' with
    | create => exact hop.elim
    | taken => exact hop.elim
    | missing => exact ⟨rfl, rfl⟩
    | rebase hw => exact not_missing hw (hop ▸ hnone)
    | freeze hw => exact not_missing hw (hop ▸ hnone)
    | cut hw => exact not_missing hw (hop ▸ hnone)
    | opens => exact hop.elim
    | refused => exact hop.elim
    | guest => exact hop.elim
    | closes => exact hop.elim
  | rebase hw =>
    cases h' with
    | missing hop hnone => exact not_missing hw (hop ▸ hnone)
    | rebase hw' =>
      obtain rfl := volume_unique hw hw'
      exact ⟨rfl, rfl⟩
  | freeze hw =>
    cases h' with
    | missing hop hnone => exact not_missing hw (hop ▸ hnone)
    | freeze hw' =>
      obtain rfl := volume_unique hw hw'
      exact ⟨rfl, rfl⟩
  | cut hw =>
    cases h' with
    | missing hop hnone => exact not_missing hw (hop ▸ hnone)
    | cut hw' =>
      obtain rfl := volume_unique hw hw'
      exact ⟨rfl, rfl⟩
  | opens hw hlen hoff =>
    cases h' with
    | missing hop => exact hop.elim
    | opens hw' =>
      obtain rfl := volume_unique hw hw'
      exact ⟨rfl, rfl⟩
    | refused hno =>
      rcases hno _ hw with hlt | hlt
      · exact absurd hlen (not_le.mpr hlt)
      · exact absurd hoff (not_le.mpr hlt)
  | refused hno =>
    cases h' with
    | missing hop => exact hop.elim
    | opens hw hlen hoff =>
      rcases hno _ hw with hlt | hlt
      · exact absurd hlen (not_le.mpr hlt)
      · exact absurd hoff (not_le.mpr hlt)
    | refused => exact ⟨rfl, rfl⟩
  | guest hopen hw haccess =>
    cases h' with
    | missing hop => exact hop.elim
    | guest hopen' hw' haccess' =>
      obtain rfl := volume_unique hw hw'
      obtain rfl := Option.some.inj (hopen'.symm.trans hopen)
      obtain ⟨rfl, rfl⟩ := haccess.unique haccess' hdone hdone'
      exact ⟨rfl, rfl⟩
  | closes hopen =>
    cases h' with
    | missing hop => exact hop.elim
    | closes => exact ⟨rfl, rfl⟩

/-- **So has a run.** -/
theorem Run.unique (h : Run sh ops rs sh₁) (h' : Run sh ops rs' sh₂) (hdone : ∀ r ∈ rs, r.Done)
    (hdone' : ∀ r ∈ rs', r.Done) : rs' = rs ∧ sh₂ = sh₁ := by
  induction h generalizing rs' with
  | nil =>
    cases h'
    exact ⟨rfl, rfl⟩
  | cons hstep hrun ih =>
    cases h' with
    | cons hstep' hrun' =>
      rw [List.forall_mem_cons] at hdone hdone'
      obtain ⟨rfl, rfl⟩ := hstep.unique hstep' hdone.1 hdone'.1
      obtain ⟨rfl, rfl⟩ := ih hrun' hdone.2 hdone'.2
      exact ⟨rfl, rfl⟩

end Shelf

/-- **A machine opens a new volume without a base and stores a byte**, in any build. -/
theorem Shelved.exists_first_store {cfg : Config} {W : World} {sh : Shelf} {w : Volume}
    (h : Shelved cfg W sh) (name : Path) (v : ℕ) (x : UInt8) (hfree : W.Free name)
    (hw : sh.volumes name = some w) (hbase : w.base = []) (hfresh : w.Fresh)
    (hmax : 2 ≤ w.maxBlockNum)
    (hpos : 0 < w.blockSize) (hv : v + w.blockSize ≤ 8192) :
    ∃ W₁ W₂, W.Admits cfg (.fmmap name 8192 0) ∧ W.step cfg (.fmmap name 8192 0) =
      .ok (W₁, .mapped) ∧
      W₁.Admits cfg (.guest name (.store v x 0 0)) ∧
      W₁.step cfg (.guest name (.store v x 0 0)) = .ok (W₂, .event (.stored v x true)) ∧
      (W₂.sessions name).isSome := by
  obtain ⟨W₁, ha₁, hr₁, h₁⟩ := h.exists_opened name hfree hw (Or.inl hbase)
  obtain ⟨-, -, hfailed⟩ | ⟨ses, hmap, rfl, -⟩ := World.step_fmmap hr₁
  · cases hfailed
  have hses : Function.update W.sessions name (some ses) name = some ses :=
    Function.update_self _ _ _
  obtain ⟨hin, hmissing, hroom⟩ : v < ses.s.fmmapLength ∧ ses.pages (v / pageSize) = none ∧
      ses.Room cfg := by
    cases h name with
    | missing hs ho hn => exact Shelf.not_missing hw hn
    | opened hs => rw [hfree.1] at hs; cases hs
    | @closed hs ho w' hw' g ls es hvolume =>
      obtain rfl := Shelf.volume_unique hw hw'
      obtain ⟨hnil, rfl, hlen⟩ := hvolume.eq_nil hfresh
      have hopened := hvolume.image.isChain.fmmap rfl hvolume.image.size_lt
        (Or.inl ⟨hvolume.base ▸ hbase, rfl⟩) hmap
      have hlook : look (chainLayers g W.fs name 0 ls) (v / pageSize * pageSize) = none :=
        look_chainLayers_eq_none.mpr fun e he => by
          rw [hnil e he]
          exact List.not_mem_nil
      have hlow : g.lowBindings [] name ls (v / pageSize * pageSize / g.blockSize) = none :=
        Option.map_eq_none_iff.mp (look_chainLayers.symm.trans hlook)
      have hbs : g.blockSize ≤ 2 ^ 20 := hvolume.blockSize ▸ hfresh.blockSize_le
      have hend := Geometry.endOff_le_of_nil hnil hlen hbs
      have hneed := g.need_le 0
      refine ⟨?_, ?_, hopened.room ?_ ?_⟩
      · rw [hopened.fmmapLength]
        change v < 8192
        omega
      · rw [hopened.pages, place_of_none (Geometry.top_eq_none.mpr List.not_mem_nil),
          lowerPlace, hlow]
        rfl
      · rw [List.length_nil, Geometry.cap, ← hvolume.maxBlockNum]
        omega
      · rw [List.length_nil, show maxPreNum = 5 from rfl]
        omega
  have hadm : World.Admits cfg ⟨ses.fs, Function.update W.sessions name (some ses)⟩
      (.guest name (.store v x 0 0)) := by
    intro ses' hses' _ hcow
    obtain rfl := Option.some.inj (hses.symm.trans hses')
    obtain ⟨-, e, he, -⟩ := hcow
    rw [show (ses.on ses.fs).pages = ses.pages from rfl, hmissing] at he
    cases he
  obtain ⟨W₂, r, sh₂, hr₂, hstep, h₂⟩ :=
    h₁.exists_next hadm (show World.Ready false cfg _ _ from ⟨ses, hses, hin, fun _ => hroom⟩)
  cases hstep with
  | missing hop => exact hop.elim
  | guest hopen hw' haccess =>
    obtain rfl := Shelf.volume_unique hw hw'
    obtain rfl := Option.some.inj
      ((Function.update_self name (some 8192) sh.opened).symm.trans hopen)
    cases haccess with
    | noStore _ _ _ _ hlt => omega
    | store =>
      refine ⟨_, W₂, ha₁, hr₁, hadm, hr₂, ?_⟩
      obtain ⟨ses₂, hses₂, -⟩ := (h₂ name).exists_session hopen
      rw [hses₂]
      rfl

/-- **The builds agree.** Where the same calls of the tool and steps of machines are made in the
same order on two builds, each using its images as they are to be and each coming to an end, all
answers are the same, the same images are open in the end, and every machine sees the same on
both. -/
theorem builds_agree (cfg cfg' : Config) (ops : List WorldOp) (W W' : World) (rs rs' : List Answer)
    (hadm : World.init.Along cfg (World.Admits cfg) ops)
    (hadm' : World.init.Along cfg' (World.Admits cfg') ops)
    (hrun : World.init.run cfg ops = .ok (W, rs)) (hrun' : World.init.run cfg' ops = .ok (W', rs'))
    (hdone : ∀ r ∈ rs, r.Done) (hdone' : ∀ r ∈ rs', r.Done) :
    rs' = rs ∧ ∀ name, (W'.sessions name = none ↔ W.sessions name = none) ∧
      ∀ ses ses', W.sessions name = some ses → W'.sessions name = some ses' →
        (ses'.on W'.fs).view = (ses.on W.fs).view := by
  obtain ⟨sh, hsh, hshelved⟩ := shelved_init.run hadm hrun
  obtain ⟨sh', hsh', hshelved'⟩ := shelved_init.run hadm' hrun'
  obtain ⟨rfl, rfl⟩ := hsh.unique hsh' hdone hdone'
  refine ⟨rfl, fun name => ⟨?_, fun ses ses' hses hses' => ?_⟩⟩
  · rw [(hshelved name).sessions_eq_none_iff, (hshelved' name).sessions_eq_none_iff]
  · obtain ⟨w, hw, -, hview⟩ := hshelved.view hses
    obtain ⟨w', hw', -, hview'⟩ := hshelved'.view hses'
    rw [hview, hview', Shelf.volume_unique hw hw']

/-- The shipped build and the plain one, with a byte stored on a new image. -/
theorem builds_agree_store : ∃ (W W' : World) (ses ses' : Session),
    World.init.run .shipped [.newImage [1] 4 1 none, .fmmap [1] 8192 0,
      .guest [1] (.store 5 7 0 0)] =
      .ok (W, [.returned 0, .mapped, .event (.stored 5 7 true)]) ∧
    World.init.run ⟨false, false⟩
        [.newImage [1] 4 1 none, .fmmap [1] 8192 0, .guest [1] (.store 5 7 0 0)] =
      .ok (W', [.returned 0, .mapped, .event (.stored 5 7 true)]) ∧
    W.sessions [1] = some ses ∧ W'.sessions [1] = some ses' ∧
    (ses'.on W'.fs).view = (ses.on W.fs).view := by
  have hruns : ∀ cfg : Config, ∃ (W : World) (ses : Session),
    (World.init.Along cfg (World.Admits cfg)
      [.newImage [1] 4 1 none, .fmmap [1] 8192 0, .guest [1] (.store 5 7 0 0)] ∧
    World.init.run cfg [.newImage [1] 4 1 none, .fmmap [1] 8192 0, .guest [1] (.store 5 7 0 0)] =
      .ok (W, [.returned 0, .mapped, .event (.stored 5 7 true)])) ∧ W.sessions [1] = some ses := by
    intro cfg
    have h₀ : Shelved cfg .init .init := shelved_init
    obtain ⟨W₁, ha₁, hr₁, h₁⟩ := h₀.exists_created [1] none
      (h₀.free_of_closed (fun _ => rfl) _) rfl (by simp)
    obtain ⟨W₂, W₃, ha₂, hr₂, ha₃, hr₃, hses⟩ := h₁.exists_first_store [1] 5 7
      (h₁.free_of_closed (fun _ => rfl) _) rfl rfl Volume.fresh_new (by decide) (by decide)
      (by decide)
    obtain ⟨ses, hses⟩ := Option.isSome_iff_exists.mp hses
    exact ⟨W₃, ses, World.runs_cons ha₁ hr₁ (World.runs_cons ha₂ hr₂ (World.runs_cons ha₃ hr₃
      World.runs_nil)), hses⟩
  obtain ⟨W, ses, ⟨hadm, hrun⟩, hses⟩ := hruns .shipped
  obtain ⟨W', ses', ⟨hadm', hrun'⟩, hses'⟩ := hruns ⟨false, false⟩
  have hdone : ∀ r ∈ ([.returned 0, .mapped, .event (.stored 5 7 true)] : List Answer), r.Done := by
    simp [Answer.Done, Flat.Done]
  obtain ⟨-, hsame⟩ := builds_agree _ _ _ W W' _ _ hadm hadm' hrun hrun' hdone hdone
  exact ⟨W, W', ses, ses', hrun, hrun', hses, hses', (hsame [1]).2 ses ses' hses hses'⟩

end Pcow
