import Mathlib.Algebra.Order.Ring.Nat
import Mathlib.Data.List.Basic
import Mathlib.Data.List.Perm.Subperm
import Mathlib.Data.Nat.Notation

/-!
# Tilings of a range

A list of offsets tiles a range if the intervals of one length at these offsets are
aligned to that length, do not overlap, and cover the range and nothing else. Two tilings
of adjacent ranges are one tiling of both (`Tiles.append`), the order of the offsets does
not matter (`Tiles.perm`), and consecutive intervals are a tiling (`tiles_range`). So a list of
blocks numbered from a start tiles the range it covers as soon as the numbers are those
below a bound, each of them once (`tiles_of_nodup`).
-/

/-- **The intervals of length `n` at the offsets `l` tile the range** from `lo` to `hi`. -/
structure Tiles (n lo hi : ℕ) (l : List ℕ) : Prop where
  dvd : ∀ x ∈ l, n ∣ x
  disjoint : l.Pairwise fun x y => x + n ≤ y ∨ y + n ≤ x
  cover : ∀ a, (lo ≤ a ∧ a < hi) ↔ ∃ x ∈ l, x ≤ a ∧ a < x + n

variable {n lo mid hi k : ℕ} {l l' : List ℕ}

theorem tiles_nil : Tiles n lo lo [] where
  dvd := by simp
  disjoint := List.Pairwise.nil
  cover a := by simp

/-- An interval of a tiling lies in the range. -/
theorem Tiles.mem (h : Tiles n lo hi l) (hn : 0 < n) {x : ℕ} (hx : x ∈ l) :
    lo ≤ x ∧ x + n ≤ hi := by
  have h₁ := (h.cover x).mpr ⟨x, hx, le_rfl, by omega⟩
  have h₂ := (h.cover (x + n - 1)).mpr ⟨x, hx, by omega, by omega⟩
  omega

/-- The order of the offsets does not matter. -/
theorem Tiles.perm (h : Tiles n lo hi l) (hperm : l.Perm l') : Tiles n lo hi l' where
  dvd x hx := h.dvd x (hperm.mem_iff.mpr hx)
  disjoint := hperm.pairwise h.disjoint fun hxy => hxy.symm
  cover a := by
    rw [h.cover a]
    simp only [hperm.mem_iff]

/-- **Two tilings of adjacent ranges.** -/
theorem Tiles.append (h : Tiles n lo mid l) (h' : Tiles n mid hi l') (hn : 0 < n)
    (hlo : lo ≤ mid) (hhi : mid ≤ hi) : Tiles n lo hi (l ++ l') where
  dvd x hx := by
    rcases List.mem_append.mp hx with hx | hx
    · exact h.dvd x hx
    · exact h'.dvd x hx
  disjoint := by
    refine List.pairwise_append.mpr ⟨h.disjoint, h'.disjoint, fun x hx y hy => ?_⟩
    have h₁ := h.mem hn hx
    have h₂ := h'.mem hn hy
    omega
  cover a := by
    constructor
    · intro ha
      by_cases hmid : a < mid
      · obtain ⟨x, hx, hxa⟩ := (h.cover a).mp ⟨ha.1, hmid⟩
        exact ⟨x, List.mem_append_left _ hx, hxa⟩
      · obtain ⟨x, hx, hxa⟩ := (h'.cover a).mp ⟨by omega, ha.2⟩
        exact ⟨x, List.mem_append_right _ hx, hxa⟩
    · rintro ⟨x, hx, hxa⟩
      rcases List.mem_append.mp hx with hx | hx
      · have := (h.cover a).mpr ⟨x, hx, hxa⟩
        omega
      · have := (h'.cover a).mpr ⟨x, hx, hxa⟩
        omega

theorem tiles_singleton (hdvd : n ∣ lo) : Tiles n lo (lo + n) [lo] where
  dvd x hx := by
    rw [List.mem_singleton.mp hx]
    exact hdvd
  disjoint := List.pairwise_singleton _ _
  cover a := by simp

/-- Consecutive intervals. -/
theorem tiles_range (hn : 0 < n) (hdvd : n ∣ lo) (k : ℕ) :
    Tiles n lo (lo + n * k) ((List.range k).map fun q => lo + n * q) := by
  induction k with
  | zero => exact tiles_nil
  | succ k ih =>
    rw [List.range_succ, List.map_append, List.map_singleton, Nat.mul_succ, ← Nat.add_assoc]
    have hlast := tiles_singleton (Nat.dvd_add hdvd (dvd_mul_right n k))
    exact ih.append hlast hn (Nat.le_add_right _ _) (Nat.le_add_right _ _)

/-- **Intervals numbered from `lo` tile the range** if their numbers are those below `k`, each
once. -/
theorem tiles_of_nodup (hn : 0 < n) (hdvd : n ∣ lo) (hnodup : l.Nodup) (hlt : ∀ q ∈ l, q < k)
    (hlen : k ≤ l.length) : Tiles n lo (lo + n * k) (l.map fun q => lo + n * q) := by
  have hsub : l ⊆ List.range k := fun q hq => List.mem_range.mpr (hlt q hq)
  have hperm : l.Perm (List.range k) :=
    (List.subperm_of_subset hnodup hsub).perm_of_length_le (by rwa [List.length_range])
  exact (tiles_range hn hdvd k).perm (hperm.symm.map _)
