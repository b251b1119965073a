import Mathlib.Data.List.Nodup
import Mathlib.Logic.Function.Basic

/-!
# Singly linked lists

Nodes in a memory, each with a value and a pointer to the next one. A list is known by a node that
comes before its entries, so that every entry is the successor of a node: `Chain m p l` says that
the nodes `l` follow the node `p`, and that the last of them has no successor.

`scan` is the loop that looks at one successor after the other until one has a property. It comes to
its end where the fuel exceeds the number of nodes (`Chain.scan_eq`).
-/

namespace LinkedList

/-- A node. -/
structure Node (α : Type*) where
  /-- The value. -/
  val : α
  /-- The pointer to the next node, if there is one. -/
  next : Option ℕ

variable {α : Type*} {m m' : ℕ → Node α} {p q a : ℕ} {l : List ℕ}

/-- The nodes `l` follow the node `p`. -/
inductive Chain (m : ℕ → Node α) : ℕ → List ℕ → Prop
  | nil {p : ℕ} : (m p).next = none → Chain m p []
  | cons {p q : ℕ} {l : List ℕ} : (m p).next = some q → Chain m q l → Chain m p (q :: l)

/-- A chain is a matter of its own pointers. -/
theorem Chain.congr (h : Chain m p l) (hm : ∀ a ∈ p :: l, (m' a).next = (m a).next) :
    Chain m' p l := by
  induction h with
  | nil hp =>
    refine .nil ?_
    rw [hm _ List.mem_cons_self, hp]
  | cons hp _ ih =>
    refine .cons ?_ (ih fun a ha => hm a (List.mem_cons_of_mem _ ha))
    rw [hm _ List.mem_cons_self, hp]

/-- A node has one chain. -/
theorem Chain.unique {l' : List ℕ} (h : Chain m p l) (h' : Chain m p l') : l = l' := by
  induction h generalizing l' with
  | nil hp =>
    cases h' with
    | nil _ => rfl
    | cons hp' _ =>
      rw [hp] at hp'
      cases hp'
  | cons hp _ ih =>
    cases h' with
    | nil hp' =>
      rw [hp] at hp'
      cases hp'
    | cons hp' h' =>
      rw [hp] at hp'
      cases hp'
      rw [ih h']

/-- **A new node at the end.** The memory agrees with the old one on the pointers of the chain but
for the last, which is to the new node. -/
theorem Chain.append (h : Chain m p l) (hnodup : (p :: l).Nodup)
    (hlast : (m' ((p :: l).getLast (List.cons_ne_nil p l))).next = some a)
    (hm : ∀ b ∈ p :: l, b ≠ (p :: l).getLast (List.cons_ne_nil p l) → (m' b).next = (m b).next)
    (ha : (m' a).next = none) : Chain m' p (l ++ [a]) := by
  induction h with
  | nil _ => exact .cons hlast (.nil ha)
  | @cons p q l hp h ih =>
    rw [List.getLast_cons (List.cons_ne_nil q l)] at hlast hm
    have hmem : (q :: l).getLast (List.cons_ne_nil q l) ∈ q :: l := List.getLast_mem _
    refine .cons ?_ (ih hnodup.of_cons hlast fun b hb => hm b (List.mem_cons_of_mem _ hb))
    rw [hm p List.mem_cons_self, hp]
    rintro rfl
    exact (List.nodup_cons.mp hnodup).1 hmem

/-- The list without its first entry, which takes the place of the node before it. -/
theorem Chain.tail (h : Chain m p (q :: l)) : Chain m q l := by
  cases h with
  | cons _ h => exact h

/-- **The loop**: it looks at the successor of `p`, and ends there if this has the property;
otherwise it goes on from it. The result is whether one was found, and the node the loop has come
to. -/
def scan (P : α → Prop) [DecidablePred P] (m : ℕ → Node α) : ℕ → ℕ → Option (Bool × ℕ)
  | 0, _ => none
  | fuel + 1, p => match (m p).next with
    | none => some (false, p)
    | some q => if P (m q).val then some (true, p) else scan P m fuel q

/-- More fuel does not change the result. -/
theorem scan_mono {P : α → Prop} [DecidablePred P] {fuel fuel' : ℕ} {r : Bool × ℕ}
    (h : scan P m fuel p = some r) (hle : fuel ≤ fuel') : scan P m fuel' p = some r := by
  induction fuel generalizing p fuel' with
  | zero => cases h
  | succ fuel ih =>
    obtain ⟨fuel', rfl⟩ := Nat.exists_eq_add_one_of_ne_zero (Nat.ne_of_gt (Nat.zero_lt_of_lt hle))
    rw [scan] at h ⊢
    rcases hnext : (m p).next with _ | q
    · rwa [hnext] at h
    · rw [hnext] at h
      dsimp only at h ⊢
      by_cases hq : P (m q).val
      · rwa [if_pos hq] at h ⊢
      · rw [if_neg hq] at h ⊢
        exact ih h (Nat.le_of_succ_le_succ hle)

/-- **The loop comes to its end**: at the last node if no entry has the property. -/
theorem Chain.scan_eq {P : α → Prop} [DecidablePred P] (h : Chain m p l) {fuel : ℕ}
    (hfuel : l.length < fuel) :
    ((∃ a ∈ l, P (m a).val) → ∃ r, scan P m fuel p = some (true, r)) ∧
      ((∀ a ∈ l, ¬P (m a).val) →
        scan P m fuel p = some (false, (p :: l).getLast (List.cons_ne_nil p l))) := by
  induction h generalizing fuel with
  | nil hp =>
    obtain ⟨fuel, rfl⟩ := Nat.exists_eq_add_one_of_ne_zero (Nat.ne_of_gt hfuel)
    refine ⟨fun ⟨a, ha, _⟩ => absurd ha List.not_mem_nil, fun _ => ?_⟩
    rw [scan, hp]
    rfl
  | @cons p q l hp _ ih =>
    obtain ⟨fuel, rfl⟩ := Nat.exists_eq_add_one_of_ne_zero (Nat.ne_of_gt (Nat.zero_lt_of_lt hfuel))
    obtain ⟨hfound, hnone⟩ := @ih fuel (Nat.lt_of_succ_lt_succ hfuel)
    rw [scan, hp]
    constructor
    · rintro ⟨a, ha, hP⟩
      by_cases hq : P (m q).val
      · exact ⟨p, if_pos hq⟩
      · rcases List.mem_cons.mp ha with rfl | ha
        · exact absurd hP hq
        · obtain ⟨r, hr⟩ := hfound ⟨a, ha, hP⟩
          exact ⟨r, (if_neg hq).trans hr⟩
    · intro hno
      rw [List.getLast_cons (List.cons_ne_nil q l)]
      refine (if_neg (hno q List.mem_cons_self)).trans ?_
      exact hnone fun a ha => hno a (List.mem_cons_of_mem _ ha)

end LinkedList
