import Mathlib.Data.List.Pairwise
import Mathlib.Logic.Relation

/-!
# Loops that step through states

A loop that takes one step after the other, where a step fails, stops the loop, or goes on to the
next state. A loop ends well if it stops or fails in a way that is admitted, and the ranks of the
states it has visited increase.

Where the states stand for simpler ones, and it is known of these where a step from them crashes
and where it leads, `Simulates.endsWell_iff` says in terms of the simpler ones whether the loop ends
well: no state that can be reached crashes, and every step leads up. Ranks are bounded, so that a
loop that only goes up comes to an end.
-/

namespace Stepping

variable {σ ξ ε : Type*} {step : σ → Except ε (Option σ)} {good : ε → Prop} {rank : σ → ℕ} {s t : σ}

/-- The states that the loop visits in at most `n` steps, and how it ends; `none` if it has not. -/
def visit (step : σ → Except ε (Option σ)) : ℕ → σ → List σ × Option (Except ε Unit)
  | 0, s => ([s], none)
  | n + 1, s =>
    match step s with
    | .error e => ([s], some (.error e))
    | .ok none => ([s], some (.ok ()))
    | .ok (some t) => (s :: (visit step n t).1, (visit step n t).2)

/-- The loop stops, or fails in a way that is admitted. -/
def GoodEnd (good : ε → Prop) : Option (Except ε Unit) → Prop
  | some (.ok ()) => True
  | some (.error e) => good e
  | none => False

/-- The loop from `s` on ends well, and visits states of increasing rank. -/
def EndsWell (step : σ → Except ε (Option σ)) (good : ε → Prop) (rank : σ → ℕ) (s : σ) : Prop :=
  ∃ n, GoodEnd good (visit step n s).2 ∧ ((visit step n s).1.map rank).Pairwise (· < ·)

/-! ### One step -/

theorem endsWell_of_none (h : step s = .ok none) : EndsWell step good rank s := by
  refine ⟨1, ?_, ?_⟩
  · rw [visit, h]
    trivial
  · rw [visit, h]
    exact List.pairwise_singleton _ _

theorem endsWell_of_error {e : ε} (h : step s = .error e) : EndsWell step good rank s ↔ good e := by
  constructor
  · rintro ⟨n, hgood, -⟩
    rcases n with _ | n
    · exact hgood.elim
    · rw [visit, h] at hgood
      exact hgood
  · intro he
    refine ⟨1, ?_, ?_⟩
    · rw [visit, h]
      exact he
    · rw [visit, h]
      exact List.pairwise_singleton _ _

theorem visit_head {n : ℕ} : ∃ l, (visit step n s).1 = s :: l := by
  rcases n with _ | n
  · exact ⟨[], rfl⟩
  · rw [visit]
    rcases step s with e | _ | t
    · exact ⟨[], rfl⟩
    · exact ⟨[], rfl⟩
    · exact ⟨_, rfl⟩

theorem endsWell_of_some (h : step s = .ok (some t)) :
    EndsWell step good rank s ↔ rank s < rank t ∧ EndsWell step good rank t := by
  have hvisit : ∀ n, visit step (n + 1) s = (s :: (visit step n t).1, (visit step n t).2) := by
    intro n
    rw [visit, h]
  constructor
  · rintro ⟨n, hgood, hsorted⟩
    rcases n with _ | n
    · exact hgood.elim
    rw [hvisit] at hgood hsorted
    obtain ⟨l, hl⟩ := @visit_head σ ε step t n
    rw [List.map_cons, List.pairwise_cons] at hsorted
    refine ⟨hsorted.1 _ ?_, n, hgood, hsorted.2⟩
    rw [hl]
    exact List.mem_cons_self
  · rintro ⟨hlt, n, hgood, hsorted⟩
    refine ⟨n + 1, ?_, ?_⟩
    · rw [hvisit]
      exact hgood
    · rw [hvisit, List.map_cons, List.pairwise_cons]
      refine ⟨fun o ho => ?_, hsorted⟩
      obtain ⟨l, hl⟩ := @visit_head σ ε step t n
      rw [hl, List.map_cons] at ho hsorted
      rcases List.mem_cons.mp ho with rfl | ho
      · exact hlt
      · exact Nat.lt_trans hlt ((List.pairwise_cons.mp hsorted).1 o ho)

/-! ### Whole loops -/

/-- **What the steps are, in terms of simpler states**: from `x`, the step crashes, leads to `y`, or
is the last one. -/
structure Simulates (step : σ → Except ε (Option σ)) (good : ε → Prop) (rank : σ → ℕ)
    (Is : ξ → σ → Prop) (Crash : ξ → Prop) (Leads : ξ → ξ → Prop) (off : ξ → ℕ) (bound : ℕ) :
    Prop where
  rank_eq : ∀ {x s}, Is x s → rank s = off x
  crash : ∀ {x s}, Is x s → Crash x → ∃ e, step s = .error e ∧ ¬good e
  leads : ∀ {x y s}, Is x s → Leads x y → ∃ t, step s = .ok (some t) ∧ Is y t
  ends : ∀ {x s}, Is x s → ¬Crash x → (∀ y, ¬Leads x y) →
    step s = .ok none ∨ ∃ e, step s = .error e ∧ good e
  lt_bound : ∀ {x y}, Leads x y → off y < bound

variable {Is : ξ → σ → Prop} {Crash : ξ → Prop} {Leads : ξ → ξ → Prop} {off : ξ → ℕ} {bound : ℕ}
  {x : ξ}

/-- A step of a loop that ends well. -/
theorem Simulates.of_endsWell (h : Simulates step good rank Is Crash Leads off bound) (hs : Is x s)
    (hwell : EndsWell step good rank s) :
    ¬Crash x ∧ ∀ y, Leads x y → off x < off y ∧ ∃ t, Is y t ∧ EndsWell step good rank t := by
  constructor
  · intro hcrash
    obtain ⟨e, he, hbad⟩ := h.crash hs hcrash
    exact hbad ((endsWell_of_error he).mp hwell)
  · intro y hy
    obtain ⟨t, ht, hty⟩ := h.leads hs hy
    obtain ⟨hlt, hwell'⟩ := (endsWell_of_some ht).mp hwell
    rw [h.rank_eq hs, h.rank_eq hty] at hlt
    exact ⟨hlt, t, hty, hwell'⟩

/-- **Which loops end well.** The induction for the way back is on what is left up to the bound. -/
theorem Simulates.endsWell_iff (h : Simulates step good rank Is Crash Leads off bound)
    (hs : Is x s) : EndsWell step good rank s ↔
      ∀ y, Relation.ReflTransGen Leads x y → ¬Crash y ∧ ∀ z, Leads y z → off y < off z := by
  constructor
  · intro hwell y hy
    have hreached : ∃ t, Is y t ∧ EndsWell step good rank t := by
      induction hy with
      | refl => exact ⟨s, hs, hwell⟩
      | tail _ hlead ih =>
        obtain ⟨t, ht, hwell'⟩ := ih
        exact ((h.of_endsWell ht hwell').2 _ hlead).2
    obtain ⟨t, ht, hwell'⟩ := hreached
    obtain ⟨hcrash, hlead⟩ := h.of_endsWell ht hwell'
    exact ⟨hcrash, fun z hz => (hlead z hz).1⟩
  · intro hall
    induction hn : bound - off x using Nat.strongRecOn generalizing x s with
    | _ n ih =>
      obtain ⟨hcrash, hup⟩ := hall x .refl
      by_cases hlead : ∃ y, Leads x y
      · obtain ⟨y, hy⟩ := hlead
        obtain ⟨t, ht, hty⟩ := h.leads hs hy
        have hlt := hup y hy
        have hbound := h.lt_bound hy
        refine (endsWell_of_some ht).mpr ⟨?_, ih _ (by omega) hty (fun z hz => ?_) rfl⟩
        · rwa [h.rank_eq hs, h.rank_eq hty]
        · exact hall z (.head hy hz)
      · rcases h.ends hs hcrash (not_exists.mp hlead) with hnone | ⟨e, he, hgood⟩
        · exact endsWell_of_none hnone
        · exact (endsWell_of_error he).mpr hgood

end Stepping
