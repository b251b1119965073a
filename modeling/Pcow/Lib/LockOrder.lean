import Mathlib.Data.List.Basic
import Mathlib.Logic.Function.Basic
import Mathlib.Logic.Relation
import Mathlib.Order.WellFounded

/-!
# Locks taken in order

Programs as far as they lock and unlock: what else a statement does is left out, and a branch may go
either way. A program is structured as its source is, with loops that are left by `brk` and
functions that are left by `ret`, from any depth.

Any number of threads run such programs. A thread has a list of what it is still to do (`Item`) and
the list of the locks it holds. `Stmt.wp` says from which locks on a statement takes only locks of a
higher rank than all it holds, and which it holds wherever it is left. If the functions that threads
enter are so from no lock on, every reachable state is so (`Ordered.run`). Then a thread that has
left its function holds no lock (`Ordered.held_eq_nil`), and no threads wait for each other
(`Ordered.not_deadlocked`).
-/

namespace LockOrder

/-- A statement, over locks `L` and names of functions `F`. -/
inductive Stmt (L F : Type*)
  | lock (l : L)
  | unlock (l : L)
  /-- Whatever neither locks nor unlocks. -/
  | skip
  /-- The process ends here. -/
  | exit
  | seq (a b : Stmt L F)
  /-- A branch, which goes either way. -/
  | ite (a b : Stmt L F)
  /-- A loop that only `brk` and `ret` leave. -/
  | loop (a : Stmt L F)
  | brk
  | ret
  /-- A call of the function `f`, with its body. -/
  | call (f : F) (a : Stmt L F)

/-- A list of statements. -/
def Stmt.block {L F : Type*} : List (Stmt L F) → Stmt L F
  | [] => .skip
  | s :: l => .seq s (block l)

/-- What a thread is to do next: a statement, one more iteration of a loop, or the return from a
function. -/
inductive Item (L F : Type*)
  | stmt (s : Stmt L F)
  | again (a : Stmt L F)
  | fin (f : F)

/-- The threads: what each is to do, and the locks it holds. -/
structure State (T L F : Type*) where
  cont : T → List (Item L F)
  held : T → List L

/-- No thread has begun. -/
def State.init {T L F : Type*} : State T L F := ⟨fun _ => [], fun _ => []⟩

variable {T L F : Type*}

/-- The steps of a thread that are no matter of locks. -/
inductive Local : List (Item L F) → List (Item L F) → Prop
  | skip {K : List (Item L F)} : Local (.stmt .skip :: K) K
  | seq {a b : Stmt L F} {K : List (Item L F)} :
      Local (.stmt (.seq a b) :: K) (.stmt a :: .stmt b :: K)
  | left {a b : Stmt L F} {K : List (Item L F)} : Local (.stmt (.ite a b) :: K) (.stmt a :: K)
  | right {a b : Stmt L F} {K : List (Item L F)} : Local (.stmt (.ite a b) :: K) (.stmt b :: K)
  | loop {a : Stmt L F} {K : List (Item L F)} :
      Local (.stmt (.loop a) :: K) (.stmt a :: .again a :: K)
  | again {a : Stmt L F} {K : List (Item L F)} : Local (.again a :: K) (.stmt a :: .again a :: K)
  -- `brk` drops what is left of the iteration, and `ret` what is left of the function
  | brk_stmt {s : Stmt L F} {K : List (Item L F)} :
      Local (.stmt .brk :: .stmt s :: K) (.stmt .brk :: K)
  | brk_again {a : Stmt L F} {K : List (Item L F)} : Local (.stmt .brk :: .again a :: K) K
  | ret_stmt {s : Stmt L F} {K : List (Item L F)} :
      Local (.stmt .ret :: .stmt s :: K) (.stmt .ret :: K)
  | ret_again {a : Stmt L F} {K : List (Item L F)} :
      Local (.stmt .ret :: .again a :: K) (.stmt .ret :: K)
  | ret_fin {f : F} {K : List (Item L F)} : Local (.stmt .ret :: .fin f :: K) (.fin f :: K)
  | call {f : F} {a : Stmt L F} {K : List (Item L F)} :
      Local (.stmt (.call f a) :: K) (.stmt a :: .fin f :: K)
  | fin {f : F} {K : List (Item L F)} : Local (.fin f :: K) K

/-- A step of a thread. A thread outside enters one of its functions; a lock is taken when no thread
holds it. -/
inductive Step [DecidableEq T] [DecidableEq L] (entries : T → F → Stmt L F → Prop) :
    State T L F → State T L F → Prop
  | enter {st : State T L F} (t : T) (f : F) (s : Stmt L F) : entries t f s → st.cont t = [] →
      Step entries st { st with cont := Function.update st.cont t [.stmt s, .fin f] }
  | inner {st : State T L F} (t : T) (K : List (Item L F)) : Local (st.cont t) K →
      Step entries st { st with cont := Function.update st.cont t K }
  | lock {st : State T L F} (t : T) (l : L) (K : List (Item L F)) :
      st.cont t = .stmt (.lock l) :: K → (∀ u, l ∉ st.held u) →
      Step entries st ⟨Function.update st.cont t K, Function.update st.held t (l :: st.held t)⟩
  | unlock {st : State T L F} (t : T) (l : L) (K : List (Item L F)) :
      st.cont t = .stmt (.unlock l) :: K →
      Step entries st ⟨Function.update st.cont t K, Function.update st.held t ((st.held t).erase l)⟩

/-- A thread is at the door of a lock. -/
def State.WaitsFor (st : State T L F) (t : T) (l : L) : Prop :=
  ∃ K, st.cont t = .stmt (.lock l) :: K

/-- **A deadlock**: each of some threads waits for a lock that one of them holds. -/
def State.Deadlocked (st : State T L F) : Prop :=
  ∃ S : Set T, S.Nonempty ∧ ∀ t ∈ S, ∃ l, st.WaitsFor t l ∧ ∃ u ∈ S, l ∈ st.held u

/-! ### The locks a statement runs from and to -/

/-- What is required of the locks held where a statement is left: at its end, by `brk`, by `ret`. -/
structure Posts (L : Type*) where
  normal : List L → Prop
  brk : List L → Prop
  ret : List L → Prop

section Wp

variable {α : Type*} [Preorder α] [DecidableEq L] (rank : L → α) (E : F → List L → Prop)

/-- The requirements at the end of a function: its own, and what follows. -/
def Posts.call (E : F → List L → Prop) (f : F) (P : Posts L) : Posts L :=
  ⟨fun H => E f H ∧ P.normal H, fun _ => False, fun H => E f H ∧ P.normal H⟩

/-- **The locks a statement may start from**, so that it takes locks in order, gives back only what
it holds, and meets the requirements wherever it is left. `E` is required at the end of each
function. -/
def Stmt.wp : Stmt L F → Posts L → List L → Prop
  | .lock l, P, H => (∀ k ∈ H, rank k < rank l) ∧ P.normal (l :: H)
  | .unlock l, P, H => l ∈ H ∧ P.normal (H.erase l)
  | .skip, P, H => P.normal H
  | .exit, _, _ => True
  | .seq a b, P, H => a.wp { P with normal := b.wp P } H
  | .ite a b, P, H => a.wp P H ∧ b.wp P H
  | .loop a, P, H => ∃ I : List L → Prop, I H ∧ ∀ H', I H' → a.wp ⟨I, P.normal, P.ret⟩ H'
  | .brk, P, H => P.brk H
  | .ret, P, H => P.ret H
  | .call f a, P, H => a.wp (P.call E f) H

/-- What follows imposes its requirements. At the end of all no lock is held. -/
def after : List (Item L F) → Posts L
  | [] => ⟨fun H => H = [], fun _ => False, fun _ => False⟩
  | .stmt s :: K => { after K with normal := s.wp rank E (after K) }
  | .again a :: K =>
    { after K with normal := (Stmt.loop a).wp rank E (after K), brk := (after K).normal }
  | .fin f :: K => (after K).call E f

variable {rank E}

/-- The requirements `P` are at least those of `Q`. -/
structure Posts.Stronger (P Q : Posts L) : Prop where
  normal : ∀ H, P.normal H → Q.normal H
  brk : ∀ H, P.brk H → Q.brk H
  ret : ∀ H, P.ret H → Q.ret H

/-- Weaker requirements hold from where stronger ones do. -/
theorem Stmt.wp_mono {s : Stmt L F} {P Q : Posts L} {H : List L} (h : s.wp rank E P H)
    (hPQ : P.Stronger Q) : s.wp rank E Q H := by
  induction s generalizing P Q H with
  | lock l => exact ⟨h.1, hPQ.normal _ h.2⟩
  | unlock l => exact ⟨h.1, hPQ.normal _ h.2⟩
  | skip => exact hPQ.normal _ h
  | exit => trivial
  | seq a b iha ihb =>
    have ha : a.wp rank E { P with normal := b.wp rank E P } H := h
    exact iha ha ⟨fun H hH => ihb hH hPQ, hPQ.brk, hPQ.ret⟩
  | ite a b iha ihb => exact ⟨iha h.1 hPQ, ihb h.2 hPQ⟩
  | loop a iha =>
    obtain ⟨I, hI, hbody⟩ := h
    exact ⟨I, hI, fun H' hH' => iha (hbody H' hH') ⟨fun _ => id, hPQ.normal, hPQ.ret⟩⟩
  | brk => exact hPQ.brk _ h
  | ret => exact hPQ.ret _ h
  | call f a iha =>
    have ha : a.wp rank E (P.call E f) H := h
    exact iha ha ⟨fun H hH => ⟨hH.1, hPQ.normal _ hH.2⟩, fun _ => id,
      fun H hH => ⟨hH.1, hPQ.normal _ hH.2⟩⟩

/-- A loop, from its invariant: an iteration may start from where the loop may. -/
theorem Stmt.wp_loop {a : Stmt L F} {P : Posts L} {H : List L} (h : (Stmt.loop a).wp rank E P H) :
    a.wp rank E ⟨(Stmt.loop a).wp rank E P, P.normal, P.ret⟩ H := by
  obtain ⟨I, hI, hbody⟩ := h
  exact wp_mono (hbody H hI) ⟨fun H' hH' => ⟨I, hH', hbody⟩, fun _ => id, fun _ => id⟩

/-- **A step that is no matter of locks** leaves the requirements met. -/
theorem Local.normal {K K' : List (Item L F)} {H : List L} (h : Local K K')
    (hK : (after rank E K).normal H) :
    (after rank E K').normal H := by
  cases h with
  | skip => exact hK
  | seq => exact hK
  | left => exact hK.1
  | right => exact hK.2
  | loop => exact Stmt.wp_loop hK
  | again => exact Stmt.wp_loop hK
  | brk_stmt => exact hK
  | brk_again => exact hK
  | ret_stmt => exact hK
  | ret_again => exact hK
  | ret_fin => exact hK
  | call => exact hK
  | fin => exact hK.2

end Wp

/-! ### Runs -/

section Last

variable {K K' : List (Item L F)} {x y : Item L F} {f : F}

theorem getLast?_of_cons (h : (x :: K).getLast? = some (.fin f)) (hx : x ≠ .fin f) :
    K.getLast? = some (.fin f) := by
  rcases K with _ | ⟨z, K⟩
  · exact absurd (Option.some.inj h) hx
  · rwa [List.getLast?_cons_cons] at h

theorem getLast?_cons_of (h : K.getLast? = some y) : (x :: K).getLast? = some y := by
  rcases K with _ | ⟨z, K⟩
  · cases h
  · rwa [List.getLast?_cons_cons]

/-- What a thread does last stays the return from the function it has entered. -/
theorem Local.getLast? (h : Local K K') (hK : K.getLast? = some (.fin f)) :
    K' = [] ∨ K'.getLast? = some (.fin f) := by
  cases h with
  | skip => exact Or.inr (getLast?_of_cons hK (by simp))
  | seq => exact Or.inr (getLast?_cons_of (getLast?_cons_of (getLast?_of_cons hK (by simp))))
  | left => exact Or.inr (getLast?_cons_of (getLast?_of_cons hK (by simp)))
  | right => exact Or.inr (getLast?_cons_of (getLast?_of_cons hK (by simp)))
  | loop => exact Or.inr (getLast?_cons_of (getLast?_cons_of (getLast?_of_cons hK (by simp))))
  | again => exact Or.inr (getLast?_cons_of hK)
  | brk_stmt =>
    exact Or.inr (getLast?_cons_of (getLast?_of_cons (getLast?_of_cons hK (by simp)) (by simp)))
  | brk_again => exact Or.inr (getLast?_of_cons (getLast?_of_cons hK (by simp)) (by simp))
  | ret_stmt =>
    exact Or.inr (getLast?_cons_of (getLast?_of_cons (getLast?_of_cons hK (by simp)) (by simp)))
  | ret_again =>
    exact Or.inr (getLast?_cons_of (getLast?_of_cons (getLast?_of_cons hK (by simp)) (by simp)))
  | ret_fin => exact Or.inr (getLast?_of_cons hK (by simp))
  | call => exact Or.inr (getLast?_cons_of (getLast?_cons_of (getLast?_of_cons hK (by simp))))
  | fin =>
    rcases K' with _ | ⟨z, K'⟩
    · exact Or.inl rfl
    · rw [List.getLast?_cons_cons] at hK
      exact Or.inr hK

end Last

section Run

variable {α : Type*} [Preorder α] [DecidableEq L] {rank : L → α} {E : F → List L → Prop}
  {entries : T → F → Stmt L F → Prop} {st st' : State T L F} {t : T}

variable (rank E entries) in
/-- **The invariant**: each thread holds locks from which it can go on, and is outside or in one of
its functions. -/
structure Ordered (st : State T L F) : Prop where
  posts : ∀ t, (after rank E (st.cont t)).normal (st.held t)
  inside : ∀ t, st.cont t = [] ∨ ∃ f s, entries t f s ∧ (st.cont t).getLast? = some (.fin f)

theorem Ordered.init : Ordered rank E entries State.init where
  posts _ := rfl
  inside _ := Or.inl rfl

/-- Steps of one thread that are no matter of locks. -/
theorem Step.inners [DecidableEq T] {K : List (Item L F)}
    (h : Relation.ReflTransGen Local (st.cont t) K) :
    Relation.ReflTransGen (Step entries) st { st with cont := Function.update st.cont t K } := by
  induction h with
  | refl => rw [Function.update_eq_self]
  | @tail K K' _ hlocal ih =>
    have hstep : Step entries { st with cont := Function.update st.cont t K }
        { st with cont := Function.update (Function.update st.cont t K) t K' } := by
      refine .inner t K' ?_
      change Local (Function.update st.cont t K t) K'
      rwa [Function.update_self]
    rw [Function.update_idem] at hstep
    exact ih.tail hstep

/-- One thread moves, from locks from which it can go on to such locks. -/
theorem Ordered.update [DecidableEq T] (h : Ordered rank E entries st) {K : List (Item L F)}
    {H : List L}
    (hafter : (after rank E K).normal H)
    (hinside : K = [] ∨ ∃ f s, entries t f s ∧ K.getLast? = some (.fin f)) :
    Ordered rank E entries ⟨Function.update st.cont t K, Function.update st.held t H⟩ where
  posts u := by
    rcases eq_or_ne u t with rfl | hne
    · simp only [Function.update_self]
      exact hafter
    · simp only [Function.update_of_ne hne]
      exact h.posts u
  inside u := by
    rcases eq_or_ne u t with rfl | hne
    · simp only [Function.update_self]
      exact hinside
    · simp only [Function.update_of_ne hne]
      exact h.inside u

/-- A thread at a statement is in one of its functions, and still is with the statement done. -/
theorem Ordered.inside_tail (h : Ordered rank E entries st) {s : Stmt L F} {K : List (Item L F)}
    (hK : st.cont t = .stmt s :: K) : ∃ f s, entries t f s ∧ K.getLast? = some (.fin f) := by
  rcases h.inside t with hnil | ⟨f, s', hentry, hlast⟩
  · rw [hK] at hnil
    cases hnil
  · rw [hK] at hlast
    exact ⟨f, s', hentry, getLast?_of_cons hlast (by simp)⟩

/-- A step keeps the invariant. -/
theorem Ordered.step [DecidableEq T] (h : Ordered rank E entries st)
    (hentries : ∀ t f s, entries t f s → (after rank E [.stmt s, .fin f]).normal [])
    (hstep : Step entries st st') : Ordered rank E entries st' := by
  have hposts := h.posts
  cases hstep with
  | enter t f s hentry hnil =>
    have hheld : st.held t = [] := by
      have hnone := hposts t
      rw [hnil] at hnone
      exact hnone
    rw [← Function.update_eq_self t st.held, hheld]
    exact h.update (hentries t f s hentry) (Or.inr ⟨f, s, hentry, rfl⟩)
  | inner t K hlocal =>
    rw [← Function.update_eq_self t st.held]
    refine h.update (hlocal.normal (hposts t)) ?_
    rcases h.inside t with hnil | ⟨f, s, hentry, hlast⟩
    · rw [hnil] at hlocal
      cases hlocal
    · exact (hlocal.getLast? hlast).imp_right fun hlast' => ⟨f, s, hentry, hlast'⟩
  | lock t l K hK hfree =>
    have hlock := hposts t
    rw [hK] at hlock
    exact h.update hlock.2 (Or.inr (h.inside_tail hK))
  | unlock t l K hK =>
    have hunlock := hposts t
    rw [hK] at hunlock
    exact h.update hunlock.2 (Or.inr (h.inside_tail hK))

theorem Ordered.run [DecidableEq T]
    (hentries : ∀ t f s, entries t f s → (after rank E [.stmt s, .fin f]).normal [])
    (hrun : Relation.ReflTransGen (Step entries) .init st) : Ordered rank E entries st := by
  induction hrun with
  | refl => exact .init
  | tail _ hstep ih => exact ih.step hentries hstep

/-- A thread that is in none of its functions holds no lock. -/
theorem Ordered.held_eq_nil (h : Ordered rank E entries st)
    (hout : ∀ f s, entries t f s → .fin f ∉ st.cont t) : st.held t = [] := by
  have hposts := h.posts t
  rcases h.inside t with hnil | ⟨f, s, hentry, hlast⟩
  · rw [hnil] at hposts
    exact hposts
  · exact absurd (List.mem_of_getLast? hlast) (hout f s hentry)

/-- What is required at the end of a function. -/
theorem Ordered.fin {f : F} {K : List (Item L F)} (h : Ordered rank E entries st)
    (hK : st.cont t = .fin f :: K) : E f (st.held t) := by
  have hposts := h.posts t
  rw [hK] at hposts
  exact hposts.1

/-- The lock that a thread waits for is of a higher rank than those it holds. -/
theorem Ordered.rank_lt {l : L} (h : Ordered rank E entries st) (hwait : st.WaitsFor t l) :
    ∀ k ∈ st.held t, rank k < rank l := by
  obtain ⟨K, hK⟩ := hwait
  have hposts := h.posts t
  rw [hK] at hposts
  exact hposts.1

/-- **No threads wait for each other.** The lock that one waits for is held by another, which waits
for one of a higher rank. -/
theorem Ordered.not_deadlocked [WellFoundedGT α] (h : Ordered rank E entries st) :
    ¬st.Deadlocked := by
  rintro ⟨S, ⟨t, ht⟩, hS⟩
  have hno : ∀ r : α, ∀ u ∈ S, ∀ l, l ∈ st.held u → rank l ≠ r := by
    intro r
    induction r using WellFoundedGT.induction with
    | ind r ih =>
      rintro u hu l hl rfl
      obtain ⟨l', hwait, w, hw, hl'⟩ := hS u hu
      exact ih (rank l') (h.rank_lt hwait l hl) w hw l' hl' rfl
  obtain ⟨l, -, u, hu, hl⟩ := hS t ht
  exact hno _ u hu l hl rfl

end Run

end LockOrder
