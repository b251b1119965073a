import Mathlib.Algebra.Order.Ring.Nat
import Mathlib.Data.List.Basic
import Mathlib.Data.List.Induction
import Mathlib.Data.Nat.Notation

/-!
# Page tables

The mappings of a range of virtual memory, page by page: a page is either not
mapped, or it maps a page of some file with or without write access.
`MapOp` is one system call on the range and `PageTable.apply` what it leaves.

Virtual addresses are offsets into the range. Where every call maps a block of
one size, a multiple of the page size, at a multiple of it, a list of calls is a
list of bindings of block numbers, and what it leaves is an overlay: the last
binding of a block decides where its pages go (`PageTable.run_blocks`,
`PageTable.run_blocks_readonly`).
-/

/-- The size of a page. -/
abbrev pageSize : ℕ := 4096

/-- What a mapped page maps. -/
@[ext] structure Pte (φ : Type) where
  /-- The file. -/
  file : φ
  /-- The offset in the file of the page. -/
  off : ℕ
  /-- Whether the page may be written to. -/
  writable : Bool
deriving DecidableEq

/-- The mappings of a range: `none` where nothing is mapped. -/
abbrev PageTable (φ : Type) := ℕ → Option (Pte φ)

/-- One call on the range. -/
inductive MapOp (φ : Type)
  /-- `mmap` with `MAP_FIXED`: map `len` bytes of `file` from `off` on at `voff`. -/
  | mmap (voff len : ℕ) (file : φ) (off : ℕ) (writable : Bool) : MapOp φ
  /-- `mprotect`: set the write access of `len` bytes at `voff`. -/
  | mprotect (voff len : ℕ) (writable : Bool) : MapOp φ
  /-- `mremap` with `MREMAP_FIXED`: move a writable mapping of `len` bytes of
  `file` from `off` on to `voff`. -/
  | mremap (voff len : ℕ) (file : φ) (off : ℕ) : MapOp φ
deriving DecidableEq

namespace PageTable

variable {φ : Type} {t : PageTable φ} {p voff len off : ℕ} {file : φ} {w : Bool}

/-- The page lies in the range of `len` bytes at `voff`. -/
def InRange (voff len p : ℕ) : Prop := voff ≤ p * pageSize ∧ p * pageSize < voff + len

instance (voff len p : ℕ) : Decidable (InRange voff len p) := inferInstanceAs (Decidable (_ ∧ _))

/-- Map a range of a file. -/
def mapRange (t : PageTable φ) (voff len : ℕ) (file : φ) (off : ℕ) (w : Bool) : PageTable φ :=
  fun p => if InRange voff len p then some ⟨file, off + (p * pageSize - voff), w⟩ else t p

/-- What one call leaves. -/
def apply (t : PageTable φ) : MapOp φ → PageTable φ
  | .mmap voff len file off w => t.mapRange voff len file off w
  | .mprotect voff len w => fun p =>
      if InRange voff len p then (t p).map fun e => { e with writable := w } else t p
  | .mremap voff len file off => t.mapRange voff len file off true

/-- What a list of calls leaves. -/
def run (l : List (MapOp φ)) (t : PageTable φ) : PageTable φ := l.foldl apply t

@[simp] theorem run_nil : run [] t = t := rfl

@[simp] theorem run_cons {o : MapOp φ} {l : List (MapOp φ)} :
    run (o :: l) t = run l (t.apply o) := rfl

@[simp] theorem run_append {l l' : List (MapOp φ)} : run (l ++ l') t = run l' (run l t) :=
  List.foldl_append

theorem mapRange_of_inRange (h : InRange voff len p) :
    t.mapRange voff len file off w p = some ⟨file, off + (p * pageSize - voff), w⟩ := if_pos h

theorem mapRange_of_not_inRange (h : ¬InRange voff len p) :
    t.mapRange voff len file off w p = t p := if_neg h

/-- Mapping a range and then taking away the write access. -/
theorem run_mmap_mprotect :
    run [.mmap voff len file off w, .mprotect voff len false] t =
      t.mapRange voff len file off false := by
  funext p
  by_cases h : InRange voff len p
  · simp only [run_cons, run_nil, apply, if_pos h, mapRange_of_inRange h, Option.map_some]
  · simp only [run_cons, run_nil, apply, if_neg h, mapRange_of_not_inRange h]

/-! ### Which pages are mapped -/

/-- The call maps the page. -/
def Maps (p : ℕ) : MapOp φ → Prop
  | .mmap voff len _ _ _ => InRange voff len p
  | .mprotect _ _ _ => False
  | .mremap voff len _ _ => InRange voff len p

theorem apply_ne_none {o : MapOp φ} : t.apply o p ≠ none ↔ t p ≠ none ∨ Maps p o := by
  cases o with
  | mmap voff len file off w =>
    by_cases h : InRange voff len p
    · simp [apply, Maps, mapRange, h]
    · simp [apply, Maps, mapRange, h]
  | mprotect voff len w =>
    by_cases h : InRange voff len p
    · simp [apply, Maps, h]
    · simp [apply, Maps, h]
  | mremap voff len file off =>
    by_cases h : InRange voff len p
    · simp [apply, Maps, mapRange, h]
    · simp [apply, Maps, mapRange, h]

/-- **A page is mapped if it was, or if one of the calls maps it**: no call takes a mapping
away. -/
theorem run_ne_none {l : List (MapOp φ)} :
    run l t p ≠ none ↔ t p ≠ none ∨ ∃ o ∈ l, Maps p o := by
  induction l generalizing t with
  | nil => simp
  | cons o l ih =>
    rw [run_cons, ih, apply_ne_none, or_assoc]
    simp

/-! ### Blocks -/

/-- The last binding of `b` in a list of bindings. -/
def lastOf {β : Type} (l : List (ℕ × β)) (b : ℕ) : Option β :=
  l.foldl (fun r x => if x.1 = b then some x.2 else r) none

theorem lastOf_concat {β : Type} {l : List (ℕ × β)} {x : ℕ × β} {b : ℕ} :
    lastOf (l ++ [x]) b = if x.1 = b then some x.2 else lastOf l b := by
  rw [lastOf, List.foldl_append]
  rfl

@[simp] theorem lastOf_nil {β : Type} {b : ℕ} : lastOf ([] : List (ℕ × β)) b = none := rfl

/-- Later bindings hide earlier ones. -/
theorem lastOf_append {β : Type} {l l' : List (ℕ × β)} {b : ℕ} :
    lastOf (l ++ l') b = (lastOf l' b).or (lastOf l b) := by
  induction l' using List.reverseRecOn with
  | nil => simp
  | append_singleton l' x ih =>
    rw [← List.append_assoc, lastOf_concat, lastOf_concat, ih]
    split
    · rfl
    · rfl

/-- A binding that is found is in the list. -/
theorem mem_of_lastOf {β : Type} {l : List (ℕ × β)} {b : ℕ} {y : β} (h : lastOf l b = some y) :
    (b, y) ∈ l := by
  induction l using List.reverseRecOn with
  | nil => cases h
  | append_singleton l x ih =>
    rw [lastOf_concat] at h
    split at h
    · rename_i hb
      cases h
      exact List.mem_append_right _ (by rw [← hb]; exact List.mem_singleton_self x)
    · exact List.mem_append_left _ (ih h)

theorem lastOf_eq_none_iff {β : Type} {l : List (ℕ × β)} {b : ℕ} :
    lastOf l b = none ↔ ∀ x ∈ l, x.1 ≠ b := by
  induction l using List.reverseRecOn with
  | nil => simp
  | append_singleton l x ih =>
    rw [lastOf_concat]
    split
    · rename_i hb
      simp only [reduceCtorEq, false_iff, not_forall]
      exact ⟨x, List.mem_append_right _ (List.mem_singleton_self x), not_not.mpr hb⟩
    · rename_i hb
      rw [ih]
      constructor
      · intro h y hy
        rcases List.mem_append.mp hy with hy | hy
        · exact h y hy
        · rw [List.mem_singleton.mp hy]
          exact hb
      · intro h y hy
        exact h y (List.mem_append_left _ hy)

section Blocks

variable {n b : ℕ}

/-- The pages of block `b` are those whose address lies in it. -/
theorem inRange_block (hn : 0 < n) : InRange (b * n) n p ↔ p * pageSize / n = b := by
  rw [InRange, Nat.div_eq_iff hn]
  constructor
  · rintro ⟨h₁, h₂⟩
    omega
  · rintro ⟨h₁, h₂⟩
    omega

/-- The offset of a page in its block. -/
theorem sub_block : p * pageSize - p * pageSize / n * n = p * pageSize % n := by
  have := Nat.div_add_mod (p * pageSize) n
  rw [Nat.mul_comm] at this
  omega

/-- Map block `b`. -/
theorem mapRange_block (hn : 0 < n) : t.mapRange (b * n) n file off w p =
    if p * pageSize / n = b then some ⟨file, off + p * pageSize % n, w⟩ else t p := by
  rw [mapRange]
  by_cases h : p * pageSize / n = b
  · rw [if_pos ((inRange_block hn).mpr h), if_pos h, ← h, sub_block]
  · rw [if_neg fun hr => h ((inRange_block hn).mp hr), if_neg h]

/-- **The overlay** of bindings of blocks over a page table. -/
def overlay (n : ℕ) (l : List (ℕ × φ × ℕ)) (w : Bool) (t : PageTable φ) : PageTable φ := fun p =>
  match lastOf l (p * pageSize / n) with
  | some (file, off) => some ⟨file, off + p * pageSize % n, w⟩
  | none => t p

theorem overlay_concat (hn : 0 < n) {l : List (ℕ × φ × ℕ)} :
    overlay n (l ++ [(b, file, off)]) w t =
      (overlay n l w t).mapRange (b * n) n file off w := by
  funext p
  rw [mapRange_block hn, overlay, lastOf_concat]
  by_cases h : p * pageSize / n = b
  · rw [if_pos h.symm, if_pos h]
  · rw [if_neg (Ne.symm h), if_neg h, overlay]

/-- **Mapping blocks one after the other leaves their overlay.** -/
theorem run_blocks (hn : 0 < n) {l : List (ℕ × φ × ℕ)} :
    run (l.flatMap fun x => [.mmap (x.1 * n) n x.2.1 x.2.2 true]) t = overlay n l true t := by
  induction l using List.reverseRecOn with
  | nil => rfl
  | append_singleton l x ih =>
    rw [List.flatMap_append, run_append, ih, overlay_concat hn]
    rfl

/-- The same, where each block is made read-only right after it was mapped. -/
theorem run_blocks_readonly (hn : 0 < n) {l : List (ℕ × φ × ℕ)} :
    run (l.flatMap fun x => [.mmap (x.1 * n) n x.2.1 x.2.2 true, .mprotect (x.1 * n) n false]) t =
      overlay n l false t := by
  induction l using List.reverseRecOn with
  | nil => rfl
  | append_singleton l x ih =>
    rw [List.flatMap_append, run_append, ih, overlay_concat hn, List.flatMap_singleton,
      run_mmap_mprotect]

/-- A page of an overlay is that of a binding, or comes from below. -/
theorem overlay_eq_some {l : List (ℕ × φ × ℕ)} {e : Pte φ} (h : overlay n l w t p = some e) :
    (∃ x ∈ l, x.1 = p * pageSize / n ∧ e = ⟨x.2.1, x.2.2 + p * pageSize % n, w⟩) ∨
      t p = some e := by
  rw [overlay] at h
  rcases hl : lastOf l (p * pageSize / n) with _ | y
  · rw [hl] at h
    exact Or.inr h
  · rw [hl] at h
    cases h
    exact Or.inl ⟨_, mem_of_lastOf hl, rfl, rfl⟩

end Blocks

/-! ### What holds of every mapping -/

section All

variable {P : Pte φ → Prop} {l l' : List (MapOp φ)}

/-- Every page that is mapped is as `P` says. -/
def All (P : Pte φ → Prop) (t : PageTable φ) : Prop := ∀ p e, t p = some e → P e

theorem all_empty : All P fun _ => none := by
  intro p e h
  cases h

theorem All.mapRange (h : All P t) (hP : ∀ o, P ⟨file, o, w⟩) :
    All P (t.mapRange voff len file off w) := by
  intro p e he
  rw [PageTable.mapRange] at he
  split_ifs at he
  · cases he
    exact hP _
  · exact h p e he

/-- **The calls keep `P`** of every page. -/
def Keeps (P : Pte φ → Prop) (l : List (MapOp φ)) : Prop := ∀ t, All P t → All P (run l t)

theorem keeps_nil : Keeps P [] := fun _ h => h

theorem Keeps.append (h : Keeps P l) (h' : Keeps P l') : Keeps P (l ++ l') := by
  intro t ht
  rw [run_append]
  exact h' _ (h t ht)

theorem Keeps.flatMap {α : Type} {xs : List α} {F : α → List (MapOp φ)}
    (h : ∀ x, Keeps P (F x)) : Keeps P (xs.flatMap F) := by
  induction xs with
  | nil => exact keeps_nil
  | cons x xs ih => exact (h x).append ih

theorem keeps_mmap (hP : ∀ o, P ⟨file, o, w⟩) : Keeps P [.mmap voff len file off w] :=
  fun _ ht => ht.mapRange hP

/-- A mapping whose write access is taken away at once. -/
theorem keeps_mmap_mprotect (hP : ∀ o, P ⟨file, o, false⟩) :
    Keeps P [.mmap voff len file off w, .mprotect voff len false] := by
  intro t ht
  rw [run_mmap_mprotect]
  exact ht.mapRange hP

end All

end PageTable
