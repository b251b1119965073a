import Pcow.Flat
import Pcow.Frame
import Pcow.ReadBack

/-!
# The entries a session makes

What a session leaves in the last layer follows from what happened in it. A block is given an
entry when the guest first stores to it, and when it first loads from it and no layer has it
(`grow`); nothing else allocates. So the entries that are read back after a run are a function
of its events (`entries_of_run`), whatever the allocator thread did in between, and whether blocks
are copied whole or unit by unit.
-/

namespace Pcow

variable {cfg : Config} {g : Geometry cfg} {v : ℕ} {es es' : List ℕ} {ls : List (List ℕ)}
  {low : ℕ → Option (Path × ℕ)}

/-- **The entries of the last layer after an event**, in blocks of size `n` over the bindings
`low` of the layers below. -/
def grow (n : ℕ) (low : ℕ → Option (Path × ℕ)) (es : List ℕ) : Event → List ℕ
  | .loaded v (some _) => if v / n ∈ es ∨ low (v / n) ≠ none then es else es ++ [v / n]
  | .stored v _ true => if v / n ∈ es then es else es ++ [v / n]
  | _ => es

theorem Grows.eq_append {b : ℕ} (h : Grows b es es') (hnot : b ∉ es) (hmem : b ∈ es') :
    es' = es ++ [b] := by
  rcases h with rfl | ⟨-, rfl⟩
  · exact absurd hmem hnot
  · rfl

theorem Grows.eq_self {b : ℕ} (h : Grows b es es') (hmem : b ∈ es) : es' = es := by
  rcases h with rfl | ⟨hnot, -⟩
  · rfl
  · exact absurd hmem hnot

namespace Session

variable {ses ses' : Session} {n n' : ℕ} {write : Bool} {op : GuestOp} {ops : List GuestOp}
  {ev : Event} {evs : List Event}

/-- The entries are those that are read back. -/
theorem Inv.layerEntries (h : ses.Inv g ls es low) : layerEntries cfg ses.file ses.s = .ok es :=
  h.core.image.last.layerEntries h.core.image.size_lt h.core.super

/-- A writable page belongs to a block with an entry. -/
theorem Inv.mem_of_writable (h : ses.Inv g ls es low) {e : Pte Path}
    (hp : ses.pages (v / pageSize) = some e) (hw : e.writable = true) : v / g.blockSize ∈ es := by
  have hplace := h.core.placeOf_eq v
  rw [hp, Option.map_some] at hplace
  rcases h.core.place_cases hplace with ⟨hw', -⟩ | ⟨-, -, -, i, hi, hb, -⟩
  · rw [hw] at hw'
    cases hw'
  · exact hb ▸ List.getElem_mem hi

/-- **A fault that is served makes the page writable**; one that is refused changes nothing. -/
theorem Inv.fault_cases (h : ses.Inv g ls es low) (hv : v < ses.s.fmmapLength)
    (hcow : ses.CowOk cfg v write) {ops : List FileOp}
    (hr : ses.fault cfg n n' v write = .ok (ses', ops)) :
    ses' = ses ∨ ∃ e, ses'.pages (v / pageSize) = some e ∧ e.writable = true := by
  have hz := h.core.super.blockSize
  have hu := h.core.super.u64_blockSize
  rw [Session.fault] at hr
  rcases hp : ses.pages (v / pageSize) with _ | e
  · rw [hp] at hr
    obtain ⟨es', -, -, -, hmap⟩ := h.ufMonitor hv hp hr
    by_cases hle : v / g.blockSize * g.blockSize ≤ u64 ((ses.s.fmmapLength : ℤ) - g.blockSize)
    · exact Or.inr (hmap hle)
    · have hout : ses.ufMonitor cfg n n' v = .ok (ses, []) := by
        rw [hz] at hu
        simp only [Session.ufMonitor, hz, hu, div_page h.core.page_dvd, if_neg hle]
      rw [hout] at hr
      cases hr
      exact Or.inl rfl
  · rw [hp] at hr
    simp only at hr
    split_ifs at hr with hprot
    · rw [Bool.and_eq_true, Bool.not_eq_true'] at hprot
      obtain ⟨rfl, hw⟩ := hprot
      by_cases hout : v ≤ u64 ((ses.globalLength : ℤ) - g.blockSize)
      · rcases hcfg : cfg.finegrainedCow with _ | _
        · have heq : ses.cowHandler cfg n n' v =
              ses.copyPlain cfg n n' (v / g.blockSize * g.blockSize) := by
            rw [Session.cowHandler, hz, if_neg (by omega)]
            simp only [hcfg, Bool.false_eq_true, if_false, ← hz, hu]
          rw [heq] at hr
          rcases h.copyPlain (n := n) hcfg hv hp hw with ⟨ses₁, ops₁, hr₁, -, -, -, -, hpage⟩ |
            ⟨err, -, hr₁⟩
          · rw [hr] at hr₁
            cases hr₁
            exact Or.inr hpage
          · rw [hr] at hr₁
            cases hr₁
        · obtain ⟨hbs, hmeta⟩ := hcow hcfg ⟨rfl, e, hp, hw⟩ (by rw [hz]; exact hout)
          rw [hz] at hbs
          rcases h.cowHandler (n := n) hcfg (by omega) hv hp hw hout hmeta with
            ⟨ses₁, ops₁, hr₁, -, -, -, -, hpage⟩ | ⟨err, -, -, hr₁⟩
          · rw [hr] at hr₁
            cases hr₁
            exact Or.inr hpage
          · rw [hr] at hr₁
            cases hr₁
      · rw [Session.cowHandler, hz, if_pos (by omega)] at hr
        cases hr
        exact Or.inl rfl
    · cases hr
      exact Or.inl rfl

/-- What a load does to the entries. -/
theorem Inv.entries_load (h : ses.Inv g ls es low) (hv : v < ses.s.fmmapLength)
    {r : Option UInt8} (hr : ses.load cfg n n' v = .ok (ses', r)) :
    ses'.Inv g ls (grow g.blockSize low es (.loaded v r)) low := by
  obtain ⟨ops, hf, hnone⟩ := load_ok hr
  have hcow : ses.CowOk cfg v false := fun _ hc => absurd hc.1 (by decide)
  rcases h.fault hv hcow n n' with ⟨ses₁, ops₁, es', hf₁, hgrow, hinv, -⟩ | ⟨err, -, -, hf₁⟩
  swap
  · rw [hf] at hf₁
    cases hf₁
  rw [hf] at hf₁
  cases hf₁
  rcases hp : ses.pages (v / pageSize) with _ | e
  · -- the page is missing: no layer has the block
    obtain ⟨hnot, hlow, -⟩ := h.missing hp
    rcases h.fault_cases hv hcow hf with rfl | ⟨e, he, hw⟩
    · obtain rfl : r = none := hnone.mpr hp
      exact h
    · obtain ⟨x, rfl⟩ : ∃ x, r = some x := Option.ne_none_iff_exists'.mp fun hr => by
        rw [hnone.mp hr] at he
        cases he
      rw [grow, if_neg (by simp [hnot, hlow]), ← hgrow.eq_append hnot (hinv.mem_of_writable he hw)]
      exact hinv
  · -- there is no fault, and the block has an entry, in the last layer or below it
    rw [Session.fault, hp] at hf
    cases hf
    obtain ⟨x, rfl⟩ : ∃ x, r = some x := Option.ne_none_iff_exists'.mp fun hr => by
      rw [hnone.mp hr] at hp
      cases hp
    rw [grow, if_pos ?_]
    · exact h
    · have hplace := h.core.placeOf_eq v
      rw [hp, Option.map_some] at hplace
      rcases place_eq_some hplace with ⟨-, -, htop, -⟩ | ⟨-, -, hlow, -⟩
      · left
        by_contra hnot
        rw [Geometry.top_eq_none.mpr hnot] at htop
        cases htop
      · right
        rw [hlow]
        exact Option.some_ne_none _

/-- What a store does to the entries. -/
theorem Inv.entries_store (h : ses.Inv g ls es low) (hv : v < ses.s.fmmapLength)
    (hcow : ses.CowOk cfg v true) {x : UInt8} {r : Bool}
    (hr : ses.store cfg n n' v x = .ok (ses', r)) :
    ses'.Inv g ls (grow g.blockSize low es (.stored v x r)) low := by
  rcases h.store hv hcow n n' x with ⟨ses₁, r₁, es', hr₁, hgrow, hinv, -⟩ | ⟨err, -, -, hr₁⟩
  swap
  · rw [hr] at hr₁
    cases hr₁
  rw [hr] at hr₁
  cases hr₁
  rcases r with _ | _
  · obtain ⟨⟨ops, hf⟩, hprot⟩ := store_refused hr
    rcases h.fault_cases hv hcow hf with rfl | ⟨e, he, hw⟩
    · exact h
    · rw [hprot e he] at hw
      cases hw
  · obtain ⟨e, he, hw⟩ := store_writable hr
    have hmem := hinv.mem_of_writable he hw
    rw [grow]
    split_ifs with hin
    · rw [← hgrow.eq_self hin]
      exact hinv
    · rw [← hgrow.eq_append hin hmem]
      exact hinv

/-- **What a step of a run does to the entries.** -/
theorem Inv.entries_step (h : ses.Inv g ls es low) (hin : op.Within (· < ses.s.fmmapLength))
    (hok : ses.StepOk cfg op) (hr : ses.step cfg op = .ok (ses', ev)) :
    ses'.Inv g ls (grow g.blockSize low es ev) low := by
  cases op with
  | load v n n' =>
    obtain ⟨r, rfl, hl⟩ := step_load hr
    exact h.entries_load hin hl
  | store v x n n' =>
    obtain ⟨r, rfl, hs⟩ := step_store hr
    exact h.entries_store hin hok hs
  | tick =>
    obtain ⟨rfl, htick⟩ := step_tick hr
    rcases h.tick with ⟨ses₁, ht, hinv, -⟩ | ⟨ht, -⟩
    · rw [ht] at htick
      cases htick
      exact hinv
    · rw [ht] at htick
      cases htick

/-- **What a run does to the entries.** -/
theorem Inv.entries_run (h : ses.Inv g ls es low)
    (hin : ∀ op ∈ ops, op.Within (· < ses.s.fmmapLength)) (hok : ses.Along cfg (StepOk cfg) ops)
    (hr : ses.run cfg ops = .ok (ses', evs)) :
    ses'.Inv g ls (evs.foldl (grow g.blockSize low) es) low := by
  induction ops generalizing ses es evs with
  | nil =>
    cases hr
    exact h
  | cons op ops ih =>
    obtain ⟨ses₁, ev, evs', hstep, hrest, rfl⟩ := run_cons hr
    have hop := hin op List.mem_cons_self
    have hlen : ses₁.s.fmmapLength = ses.s.fmmapLength := by
      rcases h.step hop hok.1 with ⟨ses', ev', es', hr', hs⟩ | ⟨err, hr', -⟩
      · rw [hstep] at hr'
        cases hr'
        exact hs.env.fmmapLength
      · rw [hstep] at hr'
        cases hr'
    rw [List.foldl_cons]
    refine ih (h.entries_step hop hok.1 hstep) (fun op' hop' => ?_) (hok.2 ses₁ ev hstep) hrest
    rw [hlen]
    exact hin op' (List.mem_cons_of_mem op hop')

end Session

/-! ### Which blocks have entries -/

/-- The event is a store to the block, or a load from it where no layer below has it. -/
def Needs (n : ℕ) (low : ℕ → Option (Path × ℕ)) (b : ℕ) (ev : Event) : Prop :=
  (∃ v x, ev = .stored v x true ∧ v / n = b) ∨
    ∃ v x, ev = .loaded v (some x) ∧ v / n = b ∧ low b = none

theorem mem_grow {n b : ℕ} {ev : Event} : b ∈ grow n low es ev ↔ b ∈ es ∨ Needs n low b ev := by
  rcases ev with ⟨v, _ | x⟩ | ⟨v, x, _ | _⟩ | _
  · simp [grow, Needs]
  · simp only [grow, Needs, reduceCtorEq, Event.loaded.injEq, Option.some.injEq, false_and,
      exists_false, false_or]
    split_ifs with h
    · refine ⟨Or.inl, ?_⟩
      rintro (hb | ⟨_, _, ⟨rfl, -⟩, rfl, hlow⟩)
      · exact hb
      · exact h.resolve_right (not_not.mpr hlow)
    · obtain ⟨-, hlow⟩ := not_or.mp h
      rw [List.mem_append, List.mem_singleton]
      refine or_congr Iff.rfl ⟨?_, ?_⟩
      · rintro rfl
        exact ⟨v, x, ⟨rfl, rfl⟩, rfl, not_not.mp hlow⟩
      · rintro ⟨_, _, ⟨rfl, -⟩, rfl, -⟩
        rfl
  · simp [grow, Needs]
  · simp only [grow, Needs, reduceCtorEq, Event.stored.injEq, false_and, exists_false, or_false]
    split_ifs with h
    · refine ⟨Or.inl, ?_⟩
      rintro (hb | ⟨_, _, ⟨rfl, -⟩, rfl⟩)
      · exact hb
      · exact h
    · rw [List.mem_append, List.mem_singleton]
      refine or_congr Iff.rfl ⟨?_, ?_⟩
      · rintro rfl
        exact ⟨v, x, ⟨rfl, rfl, trivial⟩, rfl⟩
      · rintro ⟨_, _, ⟨rfl, -⟩, rfl⟩
        rfl
  · simp [grow, Needs]

theorem mem_foldl_grow {n b : ℕ} {evs : List Event} :
    b ∈ evs.foldl (grow n low) es ↔ b ∈ es ∨ ∃ ev ∈ evs, Needs n low b ev := by
  induction evs generalizing es with
  | nil => simp
  | cons ev evs ih =>
    rw [List.foldl_cons, ih, mem_grow, or_assoc]
    simp

/-- **A session gives entries to the blocks that need them, and to no others.** After every run of a
session on an image the entries read back of the last layer are those it had, followed by those that
the events of the run call for, in their order (`grow`): a block has one exactly if it had one, or
the guest stored to it, or the guest loaded from it and no layer below has it. -/
theorem entries_of_run {fs : Fs} {fd : Path} {base : List (ℕ × Path × ℕ)} {length offset : ℕ}
    {ses ses' : Session} {ops : List GuestOp} {evs : List Event}
    (himage : IsImage g ((fs fd).getD .empty) ls es)
    (hbase : BaseIs g fs (baseImageName ((fs fd).getD .empty) 0) base)
    (hdvd : pageSize ∣ g.blockSize)
    (hopen : Session.fmmap cfg fs fd length offset = .ok (some ses))
    (hin : ∀ op ∈ ops, op.Within (· < ses.s.fmmapLength))
    (hok : ses.Along cfg (Session.StepOk cfg) ops) (hrun : ses.run cfg ops = .ok (ses', evs)) :
    layerEntries cfg ses'.file ses'.s =
        .ok (evs.foldl (grow g.blockSize (g.lowBindings base fd ls)) es) ∧
      ∀ b, b ∈ evs.foldl (grow g.blockSize (g.lowBindings base fd ls)) es ↔
        b ∈ es ∨ ∃ ev ∈ evs, Needs g.blockSize (g.lowBindings base fd ls) b ev := by
  have hopened := himage.isChain.fmmap rfl himage.size_lt hbase hopen
  have hinv := (hopened.inv hdvd himage).entries_run hin hok hrun
  exact ⟨hinv.layerEntries, fun _ => mem_foldl_grow⟩

/-- A store to a block of a frozen layer. -/
theorem entries_of_run_store : ∃ (fs : Fs) (ses ses' : Session),
    IsImage (Geometry.twoPages .shipped) ((fs [1]).getD .empty) [[0]] [] ∧
      Session.fmmap .shipped fs [1] (8192 * 2) 0 = .ok (some ses) ∧
      ses.run .shipped [.store 5 1 0 0] = .ok (ses', [.stored 5 1 true]) ∧
      layerEntries .shipped ses'.file ses'.s = .ok [0] := by
  obtain ⟨f, ses, himage, hname, -, hopen, hopened, hroom, -⟩ := exists_session .shipped 0
  have hinv := hopened.inv (by decide) himage
  have hreach : ses.InReach 5 :=
    hinv.inReach hopened.fmmapLength hopened.globalLength (by decide)
  have hok : ses.StepOk .shipped (.store 5 1 0 0) := fun _ _ _ => by
    refine ⟨?_, fun _ => hopened.super.metaNOk⟩
    rw [hopened.super.blockSize]
    decide
  rcases hinv.step
      (show (GuestOp.store 5 1 0 0).Within (· < ses.s.fmmapLength) from hreach.1) hok
      with ⟨ses', ev, es', hstep, hs⟩ | ⟨err, -, hno⟩
  swap
  · exact absurd (fun _ => hroom) hno
  obtain rfl : ev = .stored 5 1 true := by
    have hdone := hs.done hreach
    obtain ⟨r, rfl, -⟩ := Session.step_store hstep
    rw [show r = true from hdone]
  have hrun : ses.run .shipped [.store 5 1 0 0] = .ok (ses', [.stored 5 1 true]) := by
    rw [Session.run, hstep]
    rfl
  have hbase : BaseIs (Geometry.twoPages .shipped) (fun _ => some f) (baseImageName f 0) [] :=
    Or.inl ⟨baseImageName_eq_nil hname, rfl⟩
  have halong : ses.Along .shipped (Session.StepOk .shipped) [.store 5 1 0 0] :=
    ⟨hok, fun _ _ _ => trivial⟩
  obtain ⟨hentries, -⟩ := entries_of_run himage hbase (by decide) hopen
    (fun op hop => by rw [List.mem_singleton.mp hop]; exact hreach.1) halong hrun
  exact ⟨fun _ => some f, ses, ses', himage, hopen, hrun, hentries⟩

end Pcow
