import Mathlib.Data.List.Induction
import Mathlib.Logic.Function.Basic
import Mathlib.Logic.Relation
import Mathlib.Order.Lattice

/-!
# Stacks of layers

A layer has values at some places. Of a stack of layers the last one that has a value at a place
wins (`look`), and where none has the stack reads as a default (`read`).

Copy on write works on the layer on top alone. It first takes over some places, with the values the
stack reads as there (`own`), which nobody sees (`read_own`); then a value is put at one of them,
which changes what the stack reads as at that place (`read_put`). A snapshot puts an empty layer on
top, which is not seen either (`read_concat_empty`), and going back takes layers off. What is below
the top stays through all of this as long as nothing is taken off below it (`Change.take`), so that
going back to a height shows what was there (`take_of_changes`).
-/

namespace LayerStack

variable {α β : Type*}

/-- A layer: its values, at the places where it has one. -/
abbrev Layer (α β : Type*) := α → Option β

/-- The layer without values. -/
def empty : Layer α β := fun _ => none

@[simp] theorem empty_apply (a : α) : (empty : Layer α β) a = none := rfl

/-- **The value of a stack at a place**: that of the last layer that has one. -/
def look (L : List (Layer α β)) (a : α) : Option β := L.foldl (fun r l => (l a).or r) none

@[simp] theorem look_nil (a : α) : look ([] : List (Layer α β)) a = none := rfl

@[simp] theorem look_concat (L : List (Layer α β)) (l : Layer α β) (a : α) :
    look (L ++ [l]) a = (l a).or (look L a) := by
  rw [look, List.foldl_append]
  rfl

/-- **The upper part of a stack wins.** -/
theorem look_append (L M : List (Layer α β)) (a : α) :
    look (L ++ M) a = (look M a).or (look L a) := by
  induction M using List.reverseRecOn with
  | nil => simp
  | append_singleton M l ih =>
      rw [← List.append_assoc, look_concat, ih, look_concat, Option.or_assoc]

@[simp] theorem look_singleton (l : Layer α β) (a : α) : look [l] a = l a := by
  rw [← List.nil_append [l], look_concat, look_nil, Option.or_none]

theorem look_cons (l : Layer α β) (L : List (Layer α β)) (a : α) :
    look (l :: L) a = (look L a).or (l a) := by
  rw [← List.singleton_append, look_append, look_singleton]

/-- What a stack reads as, with a default where it has no value. -/
def read (d : β) (L : List (Layer α β)) (a : α) : β := (look L a).getD d

section Read

variable {d : β} {L : List (Layer α β)} {l : Layer α β} {a : α}

theorem read_concat_of_some {x : β} (h : l a = some x) : read d (L ++ [l]) a = x := by
  rw [read, look_concat, h, Option.some_or, Option.getD_some]

theorem read_concat_of_none (h : l a = none) : read d (L ++ [l]) a = read d L a := by
  rw [read, look_concat, h, Option.none_or, read]

/-- **A snapshot is not seen.** -/
@[simp] theorem read_concat_empty : read d (L ++ [empty]) = read d L := by
  funext a
  exact read_concat_of_none rfl

/-- The layer after it has taken over the places of `P`, with the values of `m`. -/
def own (P : α → Prop) [DecidablePred P] (m : α → β) (l : Layer α β) : Layer α β :=
  fun a => if P a then some (m a) else l a

/-- **Taking over places is not seen**, with the values the stack reads as. -/
theorem read_own (P : α → Prop) [DecidablePred P] :
    read d (L ++ [own P (read d (L ++ [l])) l]) = read d (L ++ [l]) := by
  funext a
  by_cases h : P a
  · exact read_concat_of_some (if_pos h)
  · rw [read, look_concat, own, if_neg h, read, look_concat]

/-- **Putting a value at a place** changes what the stack reads as there, and nowhere else. -/
theorem read_put [DecidableEq α] (a : α) (x : β) :
    read d (L ++ [Function.update l a (some x)]) = Function.update (read d (L ++ [l])) a x := by
  funext b
  by_cases h : b = a
  · subst h
    rw [Function.update_self]
    exact read_concat_of_some (Function.update_self _ _ _)
  · rw [Function.update_of_ne h, read, look_concat, Function.update_of_ne h, read, look_concat]

end Read

/-! ### Histories of a stack -/

/-- **One change of a stack**: of the layer on top, by a new one on top of it, or by taking off what
is above a height. -/
inductive Change : List (Layer α β) → List (Layer α β) → Prop
  /-- Nothing changes. -/
  | refl (L : List (Layer α β)) : Change L L
  /-- The layer on top changes. -/
  | top (L : List (Layer α β)) (l l' : Layer α β) : Change (L ++ [l]) (L ++ [l'])
  /-- An empty layer is put on top. -/
  | freeze (L : List (Layer α β)) : Change L (L ++ [empty])
  /-- The layers above a height are taken off. -/
  | cut (L : List (Layer α β)) (n : ℕ) : Change L (L.take n)

section History

variable {L M : List (Layer α β)} {k : ℕ}

/-- **A change keeps what is below the top**, before and after it. -/
theorem Change.take (h : Change L M) (hL : k < L.length) (hM : k < M.length) :
    M.take k = L.take k := by
  cases h with
  | refl => rfl
  | top L l l' =>
    rw [List.length_append, List.length_singleton] at hL
    rw [List.take_append_of_le_length (by omega), List.take_append_of_le_length (by omega)]
  | freeze => rw [List.take_append_of_le_length hL.le]
  | cut _ n =>
    rw [List.length_take] at hM
    rw [List.take_take, min_eq_left (by omega)]

/-- **Every history keeps it** that never goes down to it. -/
theorem take_of_changes (h : Relation.ReflTransGen (fun L M => Change L M ∧ k < M.length) L M)
    (hL : k < L.length) : k < M.length ∧ M.take k = L.take k := by
  induction h with
  | refl => exact ⟨hL, rfl⟩
  | tail _ hstep ih =>
    obtain ⟨hchange, hlen⟩ := hstep
    exact ⟨hlen, (hchange.take ih.1 hlen).trans ih.2⟩

end History

end LayerStack
