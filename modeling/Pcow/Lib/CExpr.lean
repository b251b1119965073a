import Mathlib.Algebra.Order.Ring.Nat
import Mathlib.Algebra.Ring.Int.Defs
import Mathlib.Tactic.Common

/-!
# Integer expressions of C

An expression is evaluated in the type that the usual arithmetic conversions give it: the operands
of an operator are converted to a common type, and what the operator computes is cut to that type.
`CExpr.eval` is the value that comes out, and `CExpr.math` the value on paper, where nothing is ever
cut.

The two agree if no conversion and no operation leaves the range of its type (`CExpr.Exact`): there
is no truncation, no overflow and no unsigned number below zero on the way. `CExpr.Computes` is
both, the expression being exact and its value, with a rule for each operator on values that are not
negative.
-/

/-- The integer types of a 64-bit machine. -/
inductive CType
  | int | uint | long | ulong
deriving DecidableEq

namespace CType

/-- The least value of a type. -/
def min : CType → ℤ
  | int => -2 ^ 31
  | uint => 0
  | long => -2 ^ 63
  | ulong => 0

/-- The first number that is too large for a type. -/
def sup : CType → ℕ
  | int => 2 ^ 31
  | uint => 2 ^ 32
  | long => 2 ^ 63
  | ulong => 2 ^ 64

/-- The value is one of the type. -/
def Fits (t : CType) (z : ℤ) : Prop := t.min ≤ z ∧ z < t.sup

instance (t : CType) (z : ℤ) : Decidable (t.Fits z) := inferInstanceAs (Decidable (_ ∧ _))

/-- A value converted to a type: the one of the type that differs by a multiple of the number of its
values. -/
def wrap (t : CType) (z : ℤ) : ℤ := (z - t.min) % (t.sup - t.min) + t.min

/-- The type of an operation on operands of two types. -/
def join : CType → CType → CType
  | ulong, _ | _, ulong => ulong
  | long, _ | _, long => long
  | uint, _ | _, uint => uint
  | int, int => int

variable {t : CType} {z : ℤ}

theorem Fits.wrap_eq (h : t.Fits z) : t.wrap z = z := by
  obtain ⟨h₁, h₂⟩ := h
  rw [wrap, Int.emod_eq_of_lt (by omega) (by omega)]
  omega

theorem fits_natCast {n : ℕ} (h : n < t.sup) : t.Fits n := by
  have hmin : t.min ≤ 0 := by
    cases t <;> decide
  exact ⟨by omega, by omega⟩

end CType

/-- The operators. -/
inductive COp
  | add | sub | mul | div
deriving DecidableEq

/-- What an operator computes on paper. Division drops the remainder. -/
def COp.math : COp → ℤ → ℤ → ℤ
  | add, x, y => x + y
  | sub, x, y => x - y
  | mul, x, y => x * y
  | div, x, y => x.tdiv y

/-- An expression; the variables have their values. -/
inductive CExpr
  | val (t : CType) (z : ℤ)
  | cast (t : CType) (e : CExpr)
  | bin (o : COp) (a b : CExpr)

namespace CExpr

instance : Add CExpr := ⟨bin .add⟩

instance : Sub CExpr := ⟨bin .sub⟩

instance : Mul CExpr := ⟨bin .mul⟩

instance : Div CExpr := ⟨bin .div⟩

/-- The type of an expression. -/
def type : CExpr → CType
  | val t _ => t
  | cast t _ => t
  | bin _ a b => a.type.join b.type

/-- **The value on paper.** -/
def math : CExpr → ℤ
  | val _ z => z
  | cast _ e => e.math
  | bin o a b => o.math a.math b.math

/-- **The value that is computed.** -/
def eval : CExpr → ℤ
  | val t z => t.wrap z
  | cast t e => t.wrap e.eval
  | bin o a b =>
    (a.type.join b.type).wrap (o.math ((a.type.join b.type).wrap a.eval)
      ((a.type.join b.type).wrap b.eval))

/-- **Nothing is cut on the way**: each value fits into its type, each operand into the common type
and each result as well. -/
def Exact : CExpr → Prop
  | val t z => t.Fits z
  | cast t e => e.Exact ∧ t.Fits e.math
  | bin o a b => a.Exact ∧ b.Exact ∧ (a.type.join b.type).Fits a.math ∧
      (a.type.join b.type).Fits b.math ∧ (a.type.join b.type).Fits (o.math a.math b.math)

/-- **Then what is computed is the value on paper.** -/
theorem Exact.eval_eq {e : CExpr} (h : e.Exact) : e.eval = e.math := by
  induction e with
  | val t z => exact CType.Fits.wrap_eq h
  | cast t e ih =>
    obtain ⟨he, hfits⟩ := h
    rw [eval, ih he, hfits.wrap_eq]
    rfl
  | bin o a b iha ihb =>
    obtain ⟨ha, hb, hfa, hfb, hfits⟩ := h
    rw [eval, iha ha, ihb hb, hfa.wrap_eq, hfb.wrap_eq, hfits.wrap_eq]
    rfl

/-- **The expression computes a value**: nothing is cut, and what is computed is the value, as it is
on paper. -/
structure Computes (e : CExpr) (z : ℤ) : Prop where
  exact : e.Exact
  eval : e.eval = z
  math : e.math = z

variable {a b e : CExpr} {x y : ℕ} {t : CType} {o : COp}

theorem Exact.computes {z : ℤ} (h : e.Exact) (hz : e.math = z) : e.Computes z :=
  ⟨h, h.eval_eq.trans hz, hz⟩

theorem computes_val (h : x < t.sup) : (val t x).Computes x :=
  Exact.computes (CType.fits_natCast h) rfl

theorem Computes.cast (h : e.Computes x) (hx : x < t.sup) : (e.cast t).Computes x := by
  refine Exact.computes ⟨h.exact, ?_⟩ h.math
  rw [h.math]
  exact CType.fits_natCast hx

/-- An operator whose operands and result fit into the common type. -/
theorem Computes.bin {z : ℕ} (ha : a.Computes x) (hb : b.Computes y) (ht : a.type.join b.type = t)
    (hx : x < t.sup) (hy : y < t.sup) (hz : z < t.sup) (ho : o.math x y = z) :
    (bin o a b).Computes z := by
  have hmath : (CExpr.bin o a b).math = z := by
    rw [CExpr.math, ha.math, hb.math, ho]
  refine Exact.computes ⟨ha.exact, hb.exact, ?_⟩ hmath
  rw [ht, ha.math, hb.math, ho]
  exact ⟨CType.fits_natCast hx, CType.fits_natCast hy, CType.fits_natCast hz⟩

theorem Computes.add (ha : a.Computes x) (hb : b.Computes y) (ht : a.type.join b.type = t)
    (h : x + y < t.sup) : (a + b).Computes (x + y : ℕ) :=
  ha.bin hb ht (by omega) (by omega) h (by rw [COp.math]; omega)

theorem Computes.mul (ha : a.Computes x) (hb : b.Computes y) (ht : a.type.join b.type = t)
    (hx : x < t.sup) (hy : y < t.sup) (h : x * y < t.sup) : (a * b).Computes (x * y : ℕ) :=
  ha.bin hb ht hx hy h (Int.natCast_mul x y).symm

/-- A difference is exact if it is not below zero. -/
theorem Computes.sub (ha : a.Computes x) (hb : b.Computes y) (ht : a.type.join b.type = t)
    (hle : y ≤ x) (h : x < t.sup) : (a - b).Computes (x - y : ℕ) :=
  ha.bin hb ht h (by omega) (by omega) (by rw [COp.math]; omega)

theorem Computes.div (ha : a.Computes x) (hb : b.Computes y) (ht : a.type.join b.type = t)
    (hx : x < t.sup) (hy : y < t.sup) : (a / b).Computes (x / y : ℕ) :=
  ha.bin hb ht hx hy (Nat.lt_of_le_of_lt (Nat.div_le_self x y) hx) (Int.ofNat_tdiv x y).symm

end CExpr
