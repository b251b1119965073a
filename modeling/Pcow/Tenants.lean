import Pcow.Ready

/-!
# What the users of an image can rely on

On a shelf an operation does one of few things to a volume (`Shelf.Step.effect`): the operations on
other volumes leave it alone, snapshots and rollbacks change the number of its layers, and accesses
change the layer on top. So for a machine whose image is neither rolled back nor given another base,
and whose base nobody changes, the others are not there: its accesses are those of a byte array of
its own (`machine_is_flat`), in every interleaving with any number of other machines and calls of
the tool. A rollback shows what the image showed when the snapshot was made, whatever was done to
the image since (`rollback_shows_snapshot`), and a clone begins as what its base showed when it was
made and then goes its own way (`clone_shows_base`).
-/

namespace Pcow

open LayerStack

variable {sh sh' : Shelf} {op : WorldOp} {r : Answer} {p b name : Path} {w w' : Volume}
  {keep : ℤ → Prop}

/-! ### What an operation does to a volume -/

/-- The events of the machine on the image `p` in an operation. -/
def eventsOn (p : Path) : WorldOp → Answer → List Event
  | .guest q _, .event ev => if q = p then [ev] else []
  | _, _ => []

/-- The events of the machine on the image `p` in a run. -/
def eventsOf (p : Path) : List WorldOp → List Answer → List Event
  | op :: ops, r :: rs => eventsOn p op r ++ eventsOf p ops rs
  | _, _ => []

/-- **The operation spares the image `p`** over the base `b`: it does not write to the base, nor
make it or roll it back; it does not give the image another base, and rolls it back to numbers in
`keep` only. Anything may be done to other images. -/
def WorldOp.Spares (p b : Path) (keep : ℤ → Prop) : WorldOp → Prop
  | .newImage q _ _ _ => b = [] ∨ q ≠ b
  | .updateBaseImage q _ => q ≠ p
  | .rollbackSnapshot q no => (b = [] ∨ q ≠ b) ∧ (q = p → keep no)
  | .guest q _ => b = [] ∨ q ≠ b
  | _ => True

/-- What a volume shows depends on what is found in the layers below it. -/
theorem Volume.shows_congr {under under' : List (Layer ℕ UInt8)}
    (h : ∀ v, look under' v = look under v) : w.shows under' = w.shows under := by
  funext v
  rw [shows, LayerStack.read, look_append, h, ← look_append, shows, LayerStack.read]

theorem Volume.base_cut {no : ℤ} : (w.cut no).base = w.base := by
  rw [cut]
  split_ifs
  · split
    · rfl
    · rfl
  · rfl

namespace Shelf

/-- The layers of a base after a change of another volume. -/
theorem under_put_of_ne (hb : b = [] ∨ name ≠ b) : (sh.put name w).under b = sh.under b := by
  rw [under, under]
  split_ifs with hnil
  · rfl
  · rw [(put_of_ne _ (Ne.symm (hb.resolve_left hnil))).1]

/-- The layers of a base after a change of its own volume that adds nothing. -/
theorem look_under_put (hw : sh.volumes name = some w)
    (h : ∀ v, look w'.layers v = look w.layers v) (v : ℕ) :
    look ((sh.put name w').under b) v = look (sh.under b) v := by
  by_cases hb : name = b
  · subst hb
    rw [under, under]
    split_ifs with hnil
    · rfl
    · rw [volumes_put, hw, Option.map_some, Option.map_some, Option.getD_some, Option.getD_some]
      exact h v
  · rw [under_put_of_ne (Or.inr hb)]

/-- **Nothing is found anew in the base** after an operation that spares it. -/
theorem Step.look_under (h : sh.Step op r sh') (hspares : op.Spares p b keep) (v : ℕ) :
    look (sh'.under b) v = look (sh.under b) v := by
  cases h with
  | create hnone => rw [under_put_of_ne hspares]
  | taken => rfl
  | missing => rfl
  | rebase hw =>
    refine look_under_put hw (fun v => ?_) v
    rfl
  | freeze hw =>
    refine look_under_put hw (fun v => ?_) v
    rw [Volume.layers_freeze, look_concat]
    rfl
  | cut hw => rw [under_put_of_ne hspares.1]
  | opens => rfl
  | refused => rfl
  | guest _ hw => rw [under_put_of_ne hspares]
  | closes => rfl

/-- **What an operation does to a volume** that it spares. -/
inductive Effect (under : List (Layer ℕ UInt8)) (keep : ℤ → Prop) (w : Volume) :
    List Event → Volume → Prop
  /-- Nothing. -/
  | none : Effect under keep w [] w
  /-- The layer on top is frozen. -/
  | freeze : Effect under keep w [] w.freeze
  /-- Layers are taken off. -/
  | cut {no : ℤ} (hno : keep no) : Effect under keep w [] (w.cut no)
  /-- The machine makes a step. -/
  | access {len : ℕ} {op : GuestOp} {ev : Event} {w' : Volume} (h : w.Access under len op ev w') :
      Effect under keep w [ev] w'

theorem Step.effect (h : sh.Step op r sh') (hw : sh.volumes p = some w)
    (hspares : op.Spares p w.base keep) :
    ∃ w', sh'.volumes p = some w' ∧ Effect (sh.under w.base) keep w (eventsOn p op r) w' := by
  cases h with
  | @create name _ _ _ _ _ hnone =>
    refine ⟨w, ?_, .none⟩
    rw [(put_of_ne p ?_).1, hw]
    rintro rfl
    rw [hw] at hnone
    cases hnone
  | taken => exact ⟨w, hw, .none⟩
  | missing hop =>
    cases op with
    | guest q op => exact hop.elim
    | _ => exact ⟨w, hw, .none⟩
  | rebase => exact ⟨w, (put_of_ne p (Ne.symm hspares)).1.trans hw, .none⟩
  | @freeze name w₁ hw₁ =>
    by_cases hp : p = name
    · subst hp
      obtain rfl := Option.some.inj (hw.symm.trans hw₁)
      exact ⟨_, volumes_put, .freeze⟩
    · exact ⟨w, (put_of_ne p hp).1.trans hw, .none⟩
  | @cut name no w₁ hw₁ =>
    by_cases hp : p = name
    · subst hp
      obtain rfl := Option.some.inj (hw.symm.trans hw₁)
      exact ⟨_, volumes_put, .cut (hspares.2 rfl)⟩
    · exact ⟨w, (put_of_ne p hp).1.trans hw, .none⟩
  | opens => exact ⟨w, hw, .none⟩
  | refused => exact ⟨w, hw, .none⟩
  | @guest name gop ev len w₁ w' hopen hw₁ haccess =>
    by_cases hp : p = name
    · subst hp
      obtain rfl := Option.some.inj (hw.symm.trans hw₁)
      refine ⟨_, volumes_put, ?_⟩
      rw [eventsOn, if_pos rfl]
      exact .access haccess
    · refine ⟨w, (put_of_ne p hp).1.trans hw, ?_⟩
      rw [eventsOn, if_neg (Ne.symm hp)]
      exact .none
  | closes => exact ⟨w, hw, .none⟩

theorem Effect.base {under : List (Layer ℕ UInt8)} {evs : List Event}
    (h : Effect under keep w evs w') : w'.base = w.base := by
  cases h with
  | none => rfl
  | freeze => rfl
  | cut hno => exact Volume.base_cut
  | access h => exact h.base

/-- **Without rollbacks it makes events of the byte array the volume shows.** -/
theorem Effect.flat {under : List (Layer ℕ UInt8)} {evs : List Event}
    (h : Effect under (fun _ => False) w evs w') :
    Flat.Correct (w.shows under) evs ∧ w'.shows under = Flat.after (w.shows under) evs := by
  cases h with
  | none => exact ⟨trivial, rfl⟩
  | freeze => exact ⟨trivial, Volume.shows_freeze⟩
  | cut hno => exact hno.elim
  | access h => exact ⟨⟨h.shows.1, trivial⟩, h.shows.2⟩

/-- **It changes the stack of layers**, and keeps the layers below the numbers it may be rolled back
to. -/
theorem Effect.change {under : List (Layer ℕ UInt8)} {evs : List Event} {k : ℕ}
    (h : Effect under (fun no => (k : ℤ) < no) w evs w') (hk : k < w.layers.length) :
    Change w.layers w'.layers ∧ k < w'.layers.length := by
  cases h with
  | none => exact ⟨.refl _, hk⟩
  | freeze =>
    refine ⟨.freeze _, ?_⟩
    rw [Volume.layers_freeze, List.length_append]
    omega
  | @cut no hno =>
    obtain ⟨n, rfl⟩ : ∃ n : ℕ, no = (n + 1 : ℕ) := ⟨(no - 1).toNat, by omega⟩
    by_cases hn : n < w.layers.length
    · rw [Volume.layers_cut hn, List.length_take]
      exact ⟨.cut _ _, by omega⟩
    · rw [Volume.layers, List.length_append, List.length_singleton] at hn
      rw [Volume.cut_of_not (by omega)]
      exact ⟨.refl _, hk⟩
  | @access len gop ev _ h =>
    have htop : ∃ t, w' = { w with top := t } := by
      cases h with
      | load v n n' =>
        split_ifs
        · exact ⟨_, rfl⟩
        · exact ⟨_, rfl⟩
      | noLoad v n n' h => exact ⟨_, rfl⟩
      | store v x n n' => exact ⟨_, rfl⟩
      | noStore v x n n' h => exact ⟨_, rfl⟩
      | tick => exact ⟨_, rfl⟩
    obtain ⟨t, rfl⟩ := htop
    refine ⟨.top _ _ _, ?_⟩
    rw [Volume.layers, List.length_append, List.length_singleton] at hk ⊢
    exact hk

/-! ### Runs -/

variable {ops : List WorldOp} {rs : List Answer}

/-- **A run is a run of a byte array for each volume** it spares without rollbacks. -/
theorem Run.flat (h : Run sh ops rs sh') (hw : sh.volumes p = some w)
    (hspares : ∀ op ∈ ops, op.Spares p w.base fun _ => False) :
    ∃ w', sh'.volumes p = some w' ∧ w'.base = w.base ∧
      Flat.Correct (sh.shows w) (eventsOf p ops rs) ∧
      sh'.shows w' = Flat.after (sh.shows w) (eventsOf p ops rs) := by
  induction h generalizing w with
  | nil => exact ⟨w, hw, rfl, trivial, rfl⟩
  | @cons sh sh₁ sh₂ op ops r rs hstep hrun ih =>
    have hop := hspares op List.mem_cons_self
    obtain ⟨w₁, hw₁, heffect⟩ := hstep.effect hw hop
    have hbase := heffect.base
    have hunder : sh₁.shows w₁ = w₁.shows (sh.under w.base) := by
      rw [Shelf.shows, hbase]
      exact Volume.shows_congr (hstep.look_under hop)
    obtain ⟨hok, hafter⟩ := heffect.flat
    obtain ⟨w₂, hw₂, hbase₂, hok₂, hafter₂⟩ := ih hw₁ fun op' hop' => by
      rw [hbase]
      exact hspares op' (List.mem_cons_of_mem op hop')
    rw [hunder, hafter] at hok₂ hafter₂
    refine ⟨w₂, hw₂, hbase₂.trans hbase, hok.append hok₂, ?_⟩
    rw [eventsOf, Flat.after_append]
    exact hafter₂

/-- **A run is a history of the layers of a volume** that stays above a height, if it is not rolled
back to a number that low; and what is found in its base stays. -/
theorem Run.changes {k : ℕ} (h : Run sh ops rs sh') (hw : sh.volumes p = some w)
    (hspares : ∀ op ∈ ops, op.Spares p w.base fun no => (k : ℤ) < no) (hk : k < w.layers.length) :
    ∃ w', sh'.volumes p = some w' ∧ w'.base = w.base ∧
      Relation.ReflTransGen (fun L M => Change L M ∧ k < M.length) w.layers w'.layers ∧
      ∀ v, look (sh'.under w.base) v = look (sh.under w.base) v := by
  induction h generalizing w with
  | nil => exact ⟨w, hw, rfl, .refl, fun _ => rfl⟩
  | @cons sh sh₁ sh₂ op ops r rs hstep hrun ih =>
    have hop := hspares op List.mem_cons_self
    obtain ⟨w₁, hw₁, heffect⟩ := hstep.effect hw hop
    have hbase := heffect.base
    have hchange := heffect.change hk
    obtain ⟨w₂, hw₂, hbase₂, hchanges, hlook⟩ := ih hw₁ (fun op' hop' => by
      rw [hbase]
      exact hspares op' (List.mem_cons_of_mem op hop')) hchange.2
    rw [hbase] at hlook
    exact ⟨w₂, hw₂, hbase₂.trans hbase, .head hchange hchanges,
      fun v => (hlook v).trans (hstep.look_under hop v)⟩

/-- **A run keeps the layers of a volume** below the numbers it may be rolled back to. -/
theorem Run.take_layers {k : ℕ} (h : Run sh ops rs sh') (hw : sh.volumes p = some w)
    (hspares : ∀ op ∈ ops, op.Spares p w.base fun no => (k : ℤ) < no) (hk : k < w.layers.length) :
    ∃ w', sh'.volumes p = some w' ∧ w'.base = w.base ∧ k < w'.layers.length ∧
      w'.layers.take k = w.layers.take k ∧
      ∀ v, look (sh'.under w.base) v = look (sh.under w.base) v := by
  obtain ⟨w', hw', hbase, hchanges, hlook⟩ := h.changes hw hspares hk
  obtain ⟨hk', htake⟩ := take_of_changes hchanges hk
  exact ⟨w', hw', hbase, hk', htake, hlook⟩

/-- **A run of two parts.** -/
theorem Run.append_inv {ops' : List WorldOp} (h : Run sh (ops ++ ops') rs sh') :
    ∃ sh₁ rs₁ rs₂, Run sh ops rs₁ sh₁ ∧ Run sh₁ ops' rs₂ sh' ∧ rs = rs₁ ++ rs₂ := by
  induction ops generalizing sh rs with
  | nil => exact ⟨sh, [], rs, .nil sh, h, rfl⟩
  | cons op ops ih =>
    rw [List.cons_append] at h
    cases h with
    | cons hstep hrun =>
      obtain ⟨sh₁, rs₁, rs₂, h₁, h₂, rfl⟩ := ih hrun
      exact ⟨sh₁, _ :: rs₁, rs₂, .cons hstep h₁, h₂, rfl⟩

/-- **A rollback takes a volume back to its state before the snapshot.** -/
theorem Run.rollback {k : ℕ}
    (h : Run sh (.snapshot p :: (ops ++ [.rollbackSnapshot p k])) rs sh')
    (hw : sh.volumes p = some w) (hk : w.layers.length = k) (hne : w.base = [] ∨ p ≠ w.base)
    (hspares : ∀ op ∈ ops, op.Spares p w.base fun no => (k : ℤ) < no) :
    ∃ w', sh'.volumes p = some w' ∧ sh'.shows w' = sh.shows w := by
  obtain ⟨n, rfl⟩ : ∃ n, k = n + 1 := ⟨w.frozen.length, by rw [← hk, Volume.layers]; simp⟩
  cases h with
  | @cons _ sh₁ _ _ _ r rs hstep hrest =>
  obtain rfl : sh₁ = sh.put p w.freeze := by
    cases hstep with
    | missing hop hnone =>
      obtain rfl := hop
      rw [hw] at hnone
      cases hnone
    | freeze hw' =>
      obtain rfl := Option.some.inj (hw.symm.trans hw')
      rfl
  obtain ⟨sh₂, rs₁, rs₂, hops, hcut, rfl⟩ := hrest.append_inv
  have hlen : n + 1 < w.freeze.layers.length := by
    rw [Volume.layers_freeze, List.length_append, hk, List.length_singleton]
    omega
  obtain ⟨w₂, hw₂, hbase, hlt, htake, hlook⟩ := hops.take_layers volumes_put hspares hlen
  have hunder : (sh.put p w.freeze).under w.freeze.base = sh.under w.base := under_put_of_ne hne
  rw [hunder] at hlook
  replace hlook : ∀ v, look (sh₂.under w.base) v = look (sh.under w.base) v := hlook
  have htop : w.freeze.layers.take (n + 1) = w.layers := by
    rw [Volume.layers_freeze, ← hk, List.take_left]
  cases hcut with
  | cons hstep hnil =>
  cases hnil
  cases hstep with
  | missing hop hnone =>
    obtain rfl := hop
    rw [hw₂] at hnone
    cases hnone
  | cut hw₃ =>
    obtain rfl := Option.some.inj (hw₂.symm.trans hw₃)
    have hlayers : (w₂.cut (n + 1 : ℕ)).layers = w.layers := by
      rw [Volume.layers_cut (by omega), htake, htop]
    refine ⟨_, volumes_put, ?_⟩
    have hb : (w₂.cut (n + 1 : ℕ)).base = w.base := Volume.base_cut.trans hbase
    rw [shows, shows, hb, under_put_of_ne hne, Volume.shows_congr hlook, Volume.shows, hlayers,
      Volume.shows]

/-- **A clone begins as its base**, and goes its own way. -/
theorem Run.clone {blockSize : ℤ} {maxSize : ℕ} {c : CString}
    (h : Run sh (.newImage p blockSize maxSize (some c) :: ops) (.returned 0 :: rs) sh')
    (hw : sh.volumes c.chars = some w) (hbase : w.base = []) (hc : c.chars ≠ [])
    (hspares : ∀ op ∈ ops, op.Spares p c.chars fun _ => False) :
    ∃ w', sh'.volumes p = some w' ∧ Flat.Correct (sh.shows w) (eventsOf p ops rs) ∧
      sh'.shows w' = Flat.after (sh.shows w) (eventsOf p ops rs) := by
  generalize hr : Answer.returned 0 = r at h
  cases h with
  | cons hstep hrest =>
  cases hstep with
  | taken hw' => cases hr
  | missing hop => exact hop.elim
  | @create _ _ m _ n _ hnone hn hm =>
    have hne : p ≠ c.chars := by
      rintro rfl
      rw [hw] at hnone
      cases hnone
    have hshows : (sh.put p (.new n m (some c))).shows (.new n m (some c)) = sh.shows w := by
      have hunder : (sh.put p (.new n m (some c))).under c.chars = w.layers := by
        rw [under_put_of_ne (Or.inr hne), under, if_neg hc, hw, Option.map_some, Option.getD_some]
      have hown : (Volume.new n m (some c)).layers = [empty] := rfl
      have hname : (Volume.new n m (some c)).base = c.chars := rfl
      rw [shows, hname, hunder, Volume.shows, hown, read_concat_empty, shows, hbase, under,
        if_pos rfl,
        Volume.shows, List.nil_append]
    obtain ⟨w', hw', -, hok, hafter⟩ := hrest.flat volumes_put hspares
    rw [hshows] at hok hafter
    exact ⟨w', hw', hok, hafter⟩

end Shelf

/-! ### Machines -/

variable {cfg : Config} {W W' : World} {ses : Session} {ops : List WorldOp} {rs : List Answer}

/-- **What a session shows that is opened now.** The base of its image, if there is one, has
none. -/
theorem Shelved.view_of_fmmap {length offset : ℕ} (h : Shelved cfg W sh)
    (hadm : W.Admits cfg (.fmmap p length offset))
    (hmap : Session.fmmap cfg W.fs p length offset = .ok (some ses)) :
    ∃ w, sh.volumes p = some w ∧ ses.view = sh.shows w ∧
      ∀ w₀, w.base ≠ [] → sh.volumes w.base = some w₀ → w₀.base = [] := by
  obtain ⟨sh', hstep, h'⟩ := h.fmmap hadm (by rw [World.step, hmap])
  obtain ⟨w, hw, -, hview⟩ := h'.view (Function.update_self _ _ _)
  cases hstep with
  | opens hw' hlen hoff hbase =>
    obtain rfl := Option.some.inj (hw.symm.trans hw')
    exact ⟨w, hw, hview, hbase⟩

/-- So the image is not its own base. -/
theorem Shelf.ne_base (hw : sh.volumes p = some w)
    (hbase : ∀ w₀, w.base ≠ [] → sh.volumes w.base = some w₀ → w₀.base = []) :
    w.base = [] ∨ p ≠ w.base :=
  or_iff_not_imp_left.mpr fun hne hp => hne (hbase w hne (hp ▸ hw))

/-- **A machine has its image to itself.** Whatever the calls of the tool and the other machines do
in between, in any order, the accesses to an image are those of a byte array, the one its machine
shows at the start: each load that comes to an end returns the byte last stored, through sessions
closed and opened again and through snapshots, as long as no operation rolls the image back, gives
it another base, or makes, rolls back or writes to the base it has. -/
theorem machine_is_flat (cfg : Config) (W W' : World) (p : Path) (ses : Session)
    (ops : List WorldOp) (rs : List Answer) (hW : W.Reachable cfg) (hses : W.sessions p = some ses)
    (hadm : W.Along cfg (World.Admits cfg) ops) (hrun : W.run cfg ops = .ok (W', rs))
    (hspares : ∀ op ∈ ops, op.Spares p (W.baseOf p) fun _ => False) :
    Flat.Correct (ses.on W.fs).view (eventsOf p ops rs) ∧
      ∀ ses', W'.sessions p = some ses' →
        (ses'.on W'.fs).view = Flat.after (ses.on W.fs).view (eventsOf p ops rs) := by
  obtain ⟨sh, hsh⟩ := hW.shelved
  obtain ⟨w, hw, hbase, hview⟩ := hsh.view hses
  obtain ⟨sh', hrun', hsh'⟩ := hsh.run hadm hrun
  rw [← hbase] at hspares
  obtain ⟨w', hw', -, hok, hafter⟩ := hrun'.flat hw hspares
  rw [hview]
  refine ⟨hok, fun ses' hses' => ?_⟩
  obtain ⟨w₁, hw₁, -, hview'⟩ := hsh'.view hses'
  obtain rfl := Option.some.inj (hw'.symm.trans hw₁)
  rw [hview', hafter]

/-- A clone is made of the image and frozen while its machine stores a byte. -/
theorem machine_is_flat_store : ∃ (W W' : World) (ses ses' : Session),
    W.Reachable ⟨false, false⟩ ∧ W.sessions [1] = some ses ∧ W'.sessions [1] = some ses' ∧
    W.run ⟨false, false⟩
      [.newImage [2] 4 1 (some .one), .guest [1] (.store 5 7 0 0), .snapshot [2]] =
      .ok (W', [.returned 0, .event (.stored 5 7 true), .returned 0]) ∧
    (ses'.on W'.fs).view = Function.update (ses.on W.fs).view 5 7 := by
  have h₀ : Shelved ⟨false, false⟩ .init .init := shelved_init
  obtain ⟨W₁, ha₁, hr₁, h₁⟩ := h₀.exists_created [1] none
    (h₀.free_of_closed (fun _ => rfl) _) rfl (by simp)
  obtain ⟨W₂, ha₂, hr₂, h₂⟩ := h₁.exists_opened [1] (h₁.free_of_closed (fun _ => rfl) _) rfl
    (Or.inl rfl)
  have hW := (World.reachable_init.next ha₁ hr₁).next ha₂ hr₂
  obtain ⟨ses, hses, -⟩ := (h₂ [1]).exists_session rfl
  obtain ⟨W₃, ha₃, hr₃, h₃⟩ := h₂.exists_created [2] (some .one)
    (h₂.free_beside (by decide) rfl rfl (Or.inl rfl)) rfl (by decide)
  obtain ⟨W₄, ha₄, hr₄, h₄⟩ := h₃.exists_stored [1] 5 7 rfl rfl Volume.fresh_new (by decide)
    (by decide) (by decide)
  have hfree : W₄.Free [2] := h₄.free_beside (by decide) rfl rfl (Or.inl rfl)
  obtain ⟨W₅, hr₅, h₅⟩ := h₄.exists_frozen [2] hfree rfl Volume.fresh_new
  obtain ⟨ses', hses', -⟩ := (h₅ [1]).exists_session rfl
  obtain ⟨hadm, hrun⟩ := World.runs_cons ha₃ hr₃ (World.runs_cons ha₄ hr₄
    (World.runs_cons (show W₄.Admits _ (.snapshot [2]) from hfree) hr₅ World.runs_nil))
  have hbase : W₂.baseOf [1] = [] := ((h₂ [1]).base_eq rfl).symm
  obtain ⟨-, hafter⟩ := machine_is_flat _ W₂ W₅ [1] ses _ _ hW hses hadm hrun (by
    rw [hbase]
    simp [WorldOp.Spares])
  exact ⟨W₂, W₅, ses, ses', hW, hses, hses', hrun, hafter ses' hses'⟩

/-! ### Rollbacks -/

/-- The number of layers is that of the super blocks. -/
theorem Stands.length_layers {L : List Super} (h : Stands cfg W sh p) (hw : sh.volumes p = some w)
    (hclosed : W.sessions p = none) (hL : supers cfg (W.file p) p = .ok L) :
    w.layers.length = L.length := by
  cases h with
  | missing hs ho hn => rw [hn] at hw; cases hw
  | closed hs ho hw' hvolume =>
    rw [hw] at hw'
    cases hw'
    rw [World.file, hvolume.image.supers p] at hL
    cases hL
    rw [hvolume.layers, length_chainLayers, length_supersOf]
  | opened hs =>
    rw [hclosed] at hs
    cases hs

theorem Stands.exists_supers (h : Stands cfg W sh p) (hw : sh.volumes p = some w)
    (hclosed : W.sessions p = none) :
    ∃ L, supers cfg (W.file p) p = .ok L ∧ L.length = w.layers.length := by
  have hstands := h
  cases h with
  | missing hs ho hn => rw [hn] at hw; cases hw
  | closed hs ho hw' hvolume =>
    have hL := hvolume.image.supers p
    exact ⟨_, hL, (hstands.length_layers hw hclosed hL).symm⟩
  | opened hs =>
    rw [hclosed] at hs
    cases hs

/-- **A rollback shows what the image showed when the snapshot was made.** After a snapshot, and
whatever is then done, to this image and to others, a rollback to the layer that was on top brings
back what a session showed before it, as long as no operation in between rolls the image back as
far, gives it another base, or changes what the base shows. -/
theorem rollback_shows_snapshot (cfg : Config) (W₁ W₂ : World) (p : Path) (L : List Super)
    (ops : List WorldOp) (rs : List Answer) (len₁ off₁ len₂ off₂ : ℕ) (ses₁ ses₂ : Session)
    (hW : W₁.Reachable cfg) (hL : supers cfg (W₁.file p) p = .ok L)
    (hadm₁ : W₁.Admits cfg (.fmmap p len₁ off₁))
    (hmap₁ : Session.fmmap cfg W₁.fs p len₁ off₁ = .ok (some ses₁))
    (hadm : W₁.Along cfg (World.Admits cfg)
      (.snapshot p :: (ops ++ [.rollbackSnapshot p L.length])))
    (hrun : W₁.run cfg (.snapshot p :: (ops ++ [.rollbackSnapshot p L.length])) = .ok (W₂, rs))
    (hspares : ∀ op ∈ ops, op.Spares p (W₁.baseOf p) fun no => (L.length : ℤ) < no)
    (hadm₂ : W₂.Admits cfg (.fmmap p len₂ off₂))
    (hmap₂ : Session.fmmap cfg W₂.fs p len₂ off₂ = .ok (some ses₂)) : ses₂.view = ses₁.view := by
  obtain ⟨sh₁, hsh₁⟩ := hW.shelved
  obtain ⟨w₁, hw₁, hview₁, hne⟩ := hsh₁.view_of_fmmap hadm₁ hmap₁
  replace hne := Shelf.ne_base hw₁ hne
  have hlen := (hsh₁ p).length_layers hw₁ hadm₁.1.1 hL
  rw [← (hsh₁ p).base_eq hw₁] at hspares
  obtain ⟨sh₂, hrun', hsh₂⟩ := hsh₁.run hadm hrun
  obtain ⟨w₂, hw₂, hview₂, -⟩ := hsh₂.view_of_fmmap hadm₂ hmap₂
  obtain ⟨w', hw', hshows⟩ := hrun'.rollback hw₁ hlen hne hspares
  obtain rfl := Option.some.inj (hw₂.symm.trans hw')
  rw [hview₂, hshows, hview₁]

/-- A byte is stored after the snapshot, and gone after the rollback. -/
theorem rollback_shows_snapshot_store : ∃ (W₁ W₂ : World) (ses₁ ses₂ : Session),
    Session.fmmap ⟨false, false⟩ W₁.fs [1] 8192 0 = .ok (some ses₁) ∧
    W₁.run ⟨false, false⟩
      [.snapshot [1], .fmmap [1] 8192 0, .guest [1] (.store 5 7 0 0), .fmunmap [1],
        .rollbackSnapshot [1] 1] =
      .ok (W₂, [.returned 0, .mapped, .event (.stored 5 7 true), .returned 0, .returned 0]) ∧
    Session.fmmap ⟨false, false⟩ W₂.fs [1] 8192 0 = .ok (some ses₂) ∧ ses₂.view = ses₁.view := by
  have h₀ : Shelved ⟨false, false⟩ .init .init := shelved_init
  obtain ⟨W₁, ha₁, hr₁, h₁⟩ := h₀.exists_created [1] none
    (h₀.free_of_closed (fun _ => rfl) _) rfl (by simp)
  have hW := World.reachable_init.next ha₁ hr₁
  have hfree₁ : W₁.Free [1] := h₁.free_of_closed (fun _ => rfl) _
  obtain ⟨_, hpeek₁, hmap₁, -⟩ := h₁.exists_opened [1] hfree₁ rfl (Or.inl rfl)
  obtain ⟨ses₁, hses₁⟩ := World.exists_fmmap hmap₁
  obtain ⟨L, hL, hlen⟩ := (h₁ [1]).exists_supers rfl hfree₁.1
  -- the run
  obtain ⟨W₂, hr₂, h₂⟩ := h₁.exists_frozen [1] hfree₁ rfl Volume.fresh_new
  obtain ⟨W₃, ha₃, hr₃, h₃⟩ := h₂.exists_opened [1] (h₂.free_of_closed (fun _ => rfl) _) rfl
    (Or.inl rfl)
  obtain ⟨W₄, ha₄, hr₄, h₄⟩ := h₃.exists_stored [1] 5 7 rfl rfl
    (Volume.fresh_new.freeze (by decide)) (by decide) (by decide) (by decide)
  obtain ⟨W₅, ha₅, hr₅, h₅⟩ := h₄.exists_closed [1] rfl
  have hopen₅ : ∀ q : Path,
      Function.update (Function.update (fun _ => (none : Option ℕ)) [1] (some 8192)) [1] none q =
        none := by
    intro q
    rw [Function.update_idem, Function.update_eq_self_iff.mpr rfl]
  have hfree₅ : W₅.Free [1] := h₅.free_of_closed hopen₅ _
  obtain ⟨W₆, hr₆, h₆⟩ := h₅.exists_cut [1] 1 hfree₅ rfl
  obtain ⟨_, hpeek₂, hmap₂, -⟩ := h₆.exists_opened [1] (h₆.free_of_closed hopen₅ _) rfl (Or.inl rfl)
  obtain ⟨ses₂, hses₂⟩ := World.exists_fmmap hmap₂
  obtain ⟨hadm, hrun⟩ := World.runs_cons (show W₁.Admits _ (.snapshot [1]) from hfree₁) hr₂
    (World.runs_cons ha₃ hr₃ (World.runs_cons ha₄ hr₄ (World.runs_cons ha₅ hr₅ (World.runs_cons
      (show W₅.Admits _ (.rollbackSnapshot [1] 1) from hfree₅) hr₆ World.runs_nil))))
  have hone : L.length = 1 := hlen
  have hbase : W₁.baseOf [1] = [] := ((h₁ [1]).base_eq rfl).symm
  refine ⟨W₁, W₆, ses₁, ses₂, hses₁, hrun, hses₂, ?_⟩
  refine rollback_shows_snapshot _ W₁ W₆ [1] L [.fmmap [1] 8192 0, .guest [1] (.store 5 7 0 0),
    .fmunmap [1]] [.returned 0, .mapped, .event (.stored 5 7 true), .returned 0, .returned 0]
    8192 0 8192 0 ses₁ ses₂ hW hL hpeek₁ hses₁ ?_ ?_ ?_ hpeek₂ hses₂
  · rw [hone]
    exact hadm
  · rw [hone]
    exact hrun
  · rw [hbase]
    simp [WorldOp.Spares]

/-! ### Clones -/

/-- **A clone shows what its base showed when it was made**, changed by its own machine and by
nobody else, as long as no operation rolls it back, gives it another base, or makes, rolls back or
writes to the base it has. -/
theorem clone_shows_base (cfg : Config) (W W' : World) (p : Path) (blockSize : ℤ) (maxSize : ℕ)
    (c : CString) (ops : List WorldOp) (rs : List Answer) (len₀ off₀ : ℕ) (ses₀ : Session)
    (hW : W.Reachable cfg) (hc : c.chars ≠ []) (hbase : W.baseOf c.chars = [])
    (hadm₀ : W.Admits cfg (.fmmap c.chars len₀ off₀))
    (hmap₀ : Session.fmmap cfg W.fs c.chars len₀ off₀ = .ok (some ses₀))
    (hadm : W.Along cfg (World.Admits cfg) (.newImage p blockSize maxSize (some c) :: ops))
    (hrun : W.run cfg (.newImage p blockSize maxSize (some c) :: ops) = .ok (W', .returned 0 :: rs))
    (hspares : ∀ op ∈ ops, op.Spares p c.chars fun _ => False) :
    Flat.Correct ses₀.view (eventsOf p ops rs) ∧
      ∀ len off ses, W'.Admits cfg (.fmmap p len off) →
        Session.fmmap cfg W'.fs p len off = .ok (some ses) →
        ses.view = Flat.after ses₀.view (eventsOf p ops rs) := by
  obtain ⟨sh, hsh⟩ := hW.shelved
  obtain ⟨w, hw, hview, -⟩ := hsh.view_of_fmmap hadm₀ hmap₀
  have hnil : w.base = [] := ((hsh c.chars).base_eq hw).trans hbase
  obtain ⟨sh', hrun', hsh'⟩ := hsh.run hadm hrun
  obtain ⟨w', hw', hok, hafter⟩ := hrun'.clone hw hnil hc hspares
  rw [hview]
  refine ⟨hok, fun len off ses hadm' hmap => ?_⟩
  obtain ⟨w₁, hw₁, hview', -⟩ := hsh'.view_of_fmmap hadm' hmap
  obtain rfl := Option.some.inj (hw'.symm.trans hw₁)
  rw [hview', hafter]

/-- A clone of an image with a byte in it, and a machine that stores another. -/
theorem clone_shows_base_store : ∃ (W W' : World) (ses₀ ses : Session),
    Session.fmmap ⟨false, false⟩ W.fs [1] 8192 0 = .ok (some ses₀) ∧ ses₀.view 5 = 7 ∧
    W.run ⟨false, false⟩ [.newImage [2] 4 1 (some .one), .fmmap [2] 8192 0,
        .guest [2] (.store 6 8 0 0), .fmunmap [2]] =
      .ok (W', [.returned 0, .mapped, .event (.stored 6 8 true), .returned 0]) ∧
    Session.fmmap ⟨false, false⟩ W'.fs [2] 8192 0 = .ok (some ses) ∧
    ses.view = Function.update ses₀.view 6 8 := by
  have h₀ : Shelved ⟨false, false⟩ .init .init := shelved_init
  obtain ⟨W₁, ha₁, hr₁, h₁⟩ := h₀.exists_created [1] none
    (h₀.free_of_closed (fun _ => rfl) _) rfl (by simp)
  obtain ⟨W, hW, h⟩ := h₁.exists_written (World.reachable_init.next ha₁ hr₁) rfl [1] 5 7 rfl rfl
    Volume.fresh_new (by decide) (by decide) (by decide)
  obtain ⟨_, hpeek₀, hmap₀, -⟩ :=
    h.exists_opened [1] (h.free_of_closed (fun _ => rfl) _) rfl (Or.inl rfl)
  obtain ⟨ses₀, hses₀⟩ := World.exists_fmmap hmap₀
  obtain ⟨w₀, hw₀, hview₀, -⟩ := h.view_of_fmmap hpeek₀ hses₀
  -- the run
  obtain ⟨W₅, ha₅, hr₅, h₅⟩ :=
    h.exists_created [2] (some .one) (h.free_of_closed (fun _ => rfl) _) rfl
    (by decide)
  obtain ⟨W₆, ha₆, hr₆, h₆⟩ := h₅.exists_opened [2] (h₅.free_of_closed (fun _ => rfl) _) rfl
    (Or.inr ⟨rfl, _, rfl, rfl, rfl⟩)
  obtain ⟨W₇, ha₇, hr₇, h₇⟩ := h₆.exists_stored [2] 6 8 rfl rfl Volume.fresh_new (by decide)
    (by decide) (by decide)
  obtain ⟨W', ha₈, hr₈, h₈⟩ := h₇.exists_closed [2] rfl
  have hopen : ∀ q : Path,
      Function.update (Function.update (fun _ => (none : Option ℕ)) [2] (some 8192)) [2] none q =
        none := by
    intro q
    rw [Function.update_idem, Function.update_eq_self_iff.mpr rfl]
  obtain ⟨_, hpeek, hmap, -⟩ := h₈.exists_opened [2] (h₈.free_of_closed hopen _) rfl
    (Or.inr ⟨hopen [1], _, rfl, rfl, rfl⟩)
  obtain ⟨ses, hses⟩ := World.exists_fmmap hmap
  obtain ⟨hadm, hrun⟩ := World.runs_cons ha₅ hr₅ (World.runs_cons ha₆ hr₆ (World.runs_cons ha₇ hr₇
    (World.runs_cons ha₈ hr₈ World.runs_nil)))
  have hbase : W.baseOf [1] = [] := ((h [1]).base_eq rfl).symm
  obtain ⟨-, hafter⟩ := clone_shows_base _ W W' [2] 4 1 .one _ _ 8192 0 ses₀ hW (by decide) hbase
    hpeek₀ hses₀ hadm hrun (by simp [WorldOp.Spares, CString.one])
  refine ⟨W, W', ses₀, ses, hses₀, ?_, hrun, hses, hafter 8192 0 ses hpeek hses⟩
  obtain rfl : _ = w₀ := Option.some.inj hw₀
  rw [hview₀, Shelf.shows, Volume.shows_put, Function.update_self]

/-! ### Other bases -/

/-- **The image has a block of its own** at an offset: one of its layers has an entry for it. -/
def World.Owns (cfg : Config) (W : World) (p : Path) (v : ℕ) : Prop :=
  ∃ R, readBack cfg (W.file p) p = .ok R ∧ ∃ x ∈ R, ∃ b ∈ x.2, (v : ℤ) / x.1.blockSize = (b : ℕ)

theorem mem_zip_supersOf {g : Geometry cfg} {fd : Path} {off : ℕ} {ls : List (List ℕ)}
    {es : List ℕ} :
    (∃ x ∈ (supersOf g fd off ls).zip ls, x.1.blockSize = g.blockSize ∧ x.2 = es) ↔ es ∈ ls := by
  induction ls generalizing off with
  | nil => simp [supersOf]
  | cons e ls ih =>
    rw [supersOf, List.zip_cons_cons, List.exists_mem_cons_iff, ih, List.mem_cons]
    refine or_congr ⟨fun h => h.2.symm, fun h => ⟨rfl, h.symm⟩⟩ Iff.rfl

theorem blockSize_of_mem_zip {g : Geometry cfg} {fd : Path} {off : ℕ} {ls : List (List ℕ)}
    {x : Super × List ℕ} (h : x ∈ (supersOf g fd off ls).zip ls) : x.1.blockSize = g.blockSize := by
  induction ls generalizing off with
  | nil => cases h
  | cons e ls ih =>
    rw [supersOf, List.zip_cons_cons, List.mem_cons] at h
    rcases h with rfl | h
    · rfl
    · exact ih h

/-- These are the offsets at which the layers of the volume have something. -/
theorem Stands.owns_iff {v : ℕ} (h : Stands cfg W sh p) (hw : sh.volumes p = some w)
    (hclosed : W.sessions p = none) : W.Owns cfg p v ↔ look w.layers v ≠ none := by
  cases h with
  | missing hs ho hn => rw [hn] at hw; cases hw
  | @closed hs ho w' hw' g ls es hvolume =>
    obtain rfl := Option.some.inj (hw.symm.trans hw')
    have hread : readBack cfg (W.file p) p = .ok ((supersOf g p 0 (ls ++ [es])).zip (ls ++ [es])) :=
      hvolume.image.isChain.readBack (by simp) hvolume.image.size_lt p
    rw [hvolume.layers, Ne, look_chainLayers_eq_none]
    push Not
    constructor
    · rintro ⟨R, hR, x, hx, b, hb, hv⟩
      obtain rfl := Except.ok.inj (hread.symm.trans hR)
      rw [blockSize_of_mem_zip hx] at hv
      refine ⟨x.2, (List.of_mem_zip hx).2, ?_⟩
      rwa [show v / g.blockSize = b by exact_mod_cast hv]
    · rintro ⟨e, he, hv⟩
      obtain ⟨x, hx, hbs, rfl⟩ := mem_zip_supersOf.mpr he
      exact ⟨_, hread, x, hx, _, hv, by rw [hbs]; push_cast; rfl⟩
  | opened hs =>
    rw [hclosed] at hs
    cases hs

/-- **Another base shows where the image has no block of its own**, and nowhere else. What a session
shows after `update_base_image` is what it showed before in the blocks of the image, and in the
others what a session on the new base shows, or zeros without a base. -/
theorem rebase_shows_base (cfg : Config) (W W' : World) (p : Path) (c : CString)
    (len off len' off' : ℕ) (ses ses' : Session) (hW : W.Reachable cfg)
    (hpeek : W.Admits cfg (.fmmap p len off))
    (hmap : Session.fmmap cfg W.fs p len off = .ok (some ses))
    (hadm : W.Admits cfg (.updateBaseImage p c))
    (hr : W.step cfg (.updateBaseImage p c) = .ok (W', .returned 0))
    (hpeek' : W'.Admits cfg (.fmmap p len' off'))
    (hmap' : Session.fmmap cfg W'.fs p len' off' = .ok (some ses')) (v : ℕ) :
    (W.Owns cfg p v → ses'.view v = ses.view v) ∧
      (¬W.Owns cfg p v → (c.chars = [] → ses'.view v = 0) ∧
        ∀ len₀ off₀ ses₀, c.chars ≠ [] → W.Admits cfg (.fmmap c.chars len₀ off₀) →
          Session.fmmap cfg W.fs c.chars len₀ off₀ = .ok (some ses₀) →
          ses'.view v = ses₀.view v) := by
  obtain ⟨sh, hsh⟩ := hW.shelved
  obtain ⟨w, hw, hview, -⟩ := hsh.view_of_fmmap hpeek hmap
  obtain ⟨sh', hstep, hsh'⟩ := hsh.step hadm hr
  obtain ⟨w', hw', hview', hbase⟩ := hsh'.view_of_fmmap hpeek' hmap'
  have hne := Shelf.ne_base hw' hbase
  generalize hrc : Answer.returned 0 = rc at hstep
  cases hstep with
  | missing hop hnone => cases hrc
  | rebase hw₁ =>
    obtain rfl := Option.some.inj (hw.symm.trans hw₁)
    obtain rfl := Option.some.inj (Shelf.volumes_put.symm.trans hw')
    have hshows : ses'.view v = ((look w.layers v).or (look (sh.under c.chars) v)).getD 0 := by
      rw [hview', Shelf.shows, Volume.shows, LayerStack.read, look_append,
        Shelf.under_put_of_ne hne]
      rfl
    rw [(hsh p).owns_iff hw hpeek.1.1, hshows, hview, not_not]
    refine ⟨fun hown => ?_, fun hown => ?_⟩
    · obtain ⟨x, hx⟩ := Option.ne_none_iff_exists'.mp hown
      rw [Shelf.shows, Volume.shows, LayerStack.read, look_append, hx]
      rfl
    rw [hown, Option.none_or]
    refine ⟨fun hnil => ?_, fun len₀ off₀ ses₀ hnil hpeek₀ hmap₀ => ?_⟩
    · rw [Shelf.under, if_pos hnil]
      rfl
    · obtain ⟨w₀, hw₀, hview₀, -⟩ := hsh.view_of_fmmap hpeek₀ hmap₀
      have hbase₀ : w₀.base = [] := by
        refine hbase w₀ hnil ?_
        rw [(Shelf.put_of_ne _ (Ne.symm (hne.resolve_left hnil))).1]
        exact hw₀
      rw [hview₀, Shelf.shows, hbase₀, Shelf.under, if_neg hnil, Shelf.under, if_pos rfl, hw₀]
      rfl

/-- An image with a byte in its second block is put over one with a byte in its first. -/
theorem rebase_shows_base_store : ∃ (W W' : World) (ses' : Session),
    W.Reachable ⟨false, false⟩ ∧
    W.step ⟨false, false⟩ (.updateBaseImage [2] .one) = .ok (W', .returned 0) ∧
    Session.fmmap ⟨false, false⟩ W'.fs [2] 8192 0 = .ok (some ses') ∧
    ses'.view 5 = 7 ∧ ses'.view 4096 = 8 := by
  have h₀ : Shelved ⟨false, false⟩ .init .init := shelved_init
  obtain ⟨W₁, ha₁, hr₁, h₁⟩ := h₀.exists_created [1] none
    (h₀.free_of_closed (fun _ => rfl) _) rfl (by simp)
  obtain ⟨W₂, hW₂, h₂⟩ := h₁.exists_written (World.reachable_init.next ha₁ hr₁) rfl [1] 5 7 rfl rfl
    Volume.fresh_new (by decide) (by decide) (by decide)
  obtain ⟨W₃, ha₃, hr₃, h₃⟩ := h₂.exists_created [2] none (h₂.free_of_closed (fun _ => rfl) _) rfl
    (by simp)
  obtain ⟨W, hW, h⟩ := h₃.exists_written (hW₂.next ha₃ hr₃) rfl [2] 4096 8 rfl rfl Volume.fresh_new
    (by decide) (by decide) (by decide)
  have hfree : ∀ q, W.Free q := h.free_of_closed fun _ => rfl
  -- what the image and the base show
  obtain ⟨_, hpeek, hmap, -⟩ := h.exists_opened [2] (hfree _) rfl (Or.inl rfl)
  obtain ⟨ses, hses⟩ := World.exists_fmmap hmap
  obtain ⟨w, hw, hview, -⟩ := h.view_of_fmmap hpeek hses
  obtain ⟨_, hpeek₀, hmap₀, -⟩ := h.exists_opened [1] (hfree _) rfl (Or.inl rfl)
  obtain ⟨ses₀, hses₀⟩ := World.exists_fmmap hmap₀
  obtain ⟨w₀, hw₀, hview₀, -⟩ := h.view_of_fmmap hpeek₀ hses₀
  obtain rfl : _ = w := Option.some.inj hw
  obtain rfl : _ = w₀ := Option.some.inj hw₀
  obtain ⟨W', hadm, hr, h'⟩ := h.exists_rebased [2] .one (hfree _) (by decide) hw
  obtain ⟨_, hpeek', hmap', -⟩ := h'.exists_opened [2] (h'.free_of_closed (fun _ => rfl) _) rfl
    (Or.inr ⟨rfl, _, hw₀, rfl, rfl⟩)
  obtain ⟨ses', hses'⟩ := World.exists_fmmap hmap'
  have hshows := rebase_shows_base _ W W' [2] .one 8192 0 8192 0 ses ses' hW hpeek hses hadm
    hr hpeek'
    hses'
  refine ⟨W, W', ses', hW, hr, hses', ?_, ?_⟩
  · have hown : ¬W.Owns ⟨false, false⟩ [2] 5 := by
      rw [(h [2]).owns_iff hw (hfree _).1, not_not]
      rfl
    rw [((hshows 5).2 hown).2 8192 0 ses₀ (by decide) hpeek₀ hses₀, hview₀, Shelf.shows,
      Volume.shows_put, Function.update_self]
  · have hown : W.Owns ⟨false, false⟩ [2] 4096 := by
      rw [(h [2]).owns_iff hw (hfree _).1]
      exact Option.some_ne_none 8
    rw [(hshows 4096).1 hown, hview, Shelf.shows, Volume.shows_put, Function.update_self]

end Pcow
