import Mathlib.Data.List.Basic

/-!
# A heap of cells

Cells are allocated one after the other, and no address is given out twice. A read of a cell that
has been freed is a use after free: what it finds is not settled by the language, and
`Heap.free` has both outcomes that matter to a program that makes one, the old contents
(`kept`) and none.
-/

/-- The cells by their addresses; a cell without contents has been freed. -/
abbrev Heap (α : Type*) := List (Option α)

namespace Heap

variable {α : Type*} {h h' h'' : Heap α} {a : α} {p : ℕ}

/-- The contents of a cell, if it has any. -/
def load (h : Heap α) (p : ℕ) : Option α := h[p]?.join

/-- Allocate a cell for `a`. -/
def malloc (h : Heap α) (a : α) : Heap α × ℕ := (h ++ [some a], h.length)

/-- Free a cell, whose contents stay in place or not. -/
def free (kept : Bool) (h : Heap α) (p : ℕ) : Heap α := if kept then h else h.set p none

@[simp] theorem free_true : free true h p = h := rfl

/-- A cell with contents is one that was allocated. -/
theorem lt_of_load (hp : h.load p = some a) : p < h.length := by
  by_contra hle
  rw [load, List.getElem?_eq_none (by omega)] at hp
  cases hp

@[simp] theorem load_malloc_self : (h.malloc a).1.load (h.malloc a).2 = some a := by
  rw [malloc, load, List.getElem?_concat_length]
  rfl

/-- The cells of `h` are still there in `h'`, with their contents. -/
def Sub (h h' : Heap α) : Prop := ∀ p a, h.load p = some a → h'.load p = some a

theorem Sub.rfl : h.Sub h := fun _ _ hp => hp

theorem Sub.trans (hsub : h.Sub h') (hsub' : h'.Sub h'') : h.Sub h'' :=
  fun p a hp => hsub' p a (hsub p a hp)

/-- Allocation leaves the other cells alone. -/
theorem sub_malloc : h.Sub (h.malloc a).1 := by
  intro p b hp
  rw [← hp, malloc, load, List.getElem?_append_left (lt_of_load hp), load]

/-- **A freed cell that does not keep its contents has none.** -/
@[simp] theorem load_free_self : (free false h p).load p = none := by
  rw [free, load, if_neg Bool.false_ne_true, List.getElem?_set_self']
  rcases h[p]? with _ | a <;> rfl

end Heap
