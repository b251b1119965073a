import Mathlib.Algebra.Order.Ring.Nat
import Mathlib.Data.Int.ModEq
import Mathlib.Data.Nat.Bitwise
import Mathlib.Tactic.Ring
import Mathlib.Tactic.Linarith

/-!
# Byte-addressed files

A file is a size and a byte at every offset, all bytes from the size on being
zero. The last clause is carried by the structure (`ByteFile.zero_of_size_le`),
so two things hold without a side condition: growing a file exposes zeros, and
two files of one size with the same bytes are equal.

Fixed-width integers are written least significant byte first
(`ByteFile.store`) and read back with `ByteFile.load`. The three facts a program
on such a file needs are that a load sees the last store to its range
(`ByteFile.load_store_prefix`), that it does not see a store elsewhere
(`ByteFile.load_store_disjoint`), and that it only depends on the bytes of its
range (`ByteFile.load_congr`).

The conversions between machine integers of C (`i32`, `u32`, `u64`) are those of
a two's complement machine: each keeps the value modulo the width.
-/

/-! ### Machine integers -/

/-- The `int` with the low 32 bits of `z`. -/
def i32 (z : ℤ) : ℤ := Int.bmod z (2 ^ 32)

/-- The `unsigned int` with the low 32 bits of `z`. -/
def u32 (z : ℤ) : ℕ := (z % 2 ^ 32).toNat

/-- The `unsigned long` with the low 64 bits of `z`. -/
def u64 (z : ℤ) : ℕ := (z % 2 ^ 64).toNat

theorem i32_of_range {z : ℤ} (h₁ : -2 ^ 31 ≤ z) (h₂ : z < 2 ^ 31) : i32 z = z := by
  rw [i32, Int.bmod_eq_of_le_mul_two] <;> omega

theorem i32_range (z : ℤ) : -2 ^ 31 ≤ i32 z ∧ i32 z < 2 ^ 31 := by
  have h₁ := Int.le_bmod (x := z) (m := 2 ^ 32) (by norm_num)
  have h₂ := Int.bmod_lt (x := z) (m := 2 ^ 32) (by norm_num)
  rw [i32]
  omega

theorem u32_of_range {z : ℤ} (h₁ : 0 ≤ z) (h₂ : z < 2 ^ 32) : (u32 z : ℤ) = z := by
  rw [u32, Int.emod_eq_of_lt h₁ h₂]
  omega

theorem u64_of_range {z : ℤ} (h₁ : 0 ≤ z) (h₂ : z < 2 ^ 64) : (u64 z : ℤ) = z := by
  rw [u64, Int.emod_eq_of_lt h₁ h₂]
  omega

/-- On a natural number below the width the conversion to `unsigned long` does
nothing. -/
theorem u64_natCast {n : ℕ} (h : n < 2 ^ 64) : u64 (n : ℤ) = n := by
  have := u64_of_range (Int.natCast_nonneg n) (by omega)
  omega

theorem i32_u32 (z : ℤ) : i32 (u32 z : ℤ) = i32 z := by
  have h : ((u32 z : ℕ) : ℤ) = z % 2 ^ 32 := by
    rw [u32]
    have := Int.emod_nonneg z (show (2 : ℤ) ^ 32 ≠ 0 by norm_num)
    omega
  rw [h, i32, i32, show ((2 : ℤ) ^ 32) = ((2 ^ 32 : ℕ) : ℤ) by norm_num, Int.emod_bmod]

theorem i32_u64 (z : ℤ) : i32 (u64 z : ℤ) = i32 z := by
  rw [i32, i32, u64]
  have h : ((z % 2 ^ 64).toNat : ℤ) = z % 2 ^ 64 :=
    Int.toNat_of_nonneg (Int.emod_nonneg _ (by norm_num))
  rw [h, Int.bmod_def, Int.bmod_def]
  have : z % 2 ^ 64 % (2 ^ 32 : ℕ) = z % (2 ^ 32 : ℕ) := by norm_num
  rw [this]

/-- A sum of two conversions is that of their sum. -/
theorem i32_add (y z : ℤ) : i32 (i32 y + z) = i32 (y + z) := Int.bmod_add_bmod

theorem u32_lt (z : ℤ) : u32 z < 2 ^ 32 := by
  have := Int.emod_lt_of_pos z (show (0 : ℤ) < 2 ^ 32 by norm_num)
  rw [u32]
  omega

/-! ### Files -/

/-- A file: its size and its bytes, which are zero from the size on. -/
@[ext] structure ByteFile where
  /-- The size in bytes. -/
  size : ℕ
  /-- The byte at each offset. -/
  byte : ℕ → UInt8
  /-- Past the end there is nothing but zeros. -/
  zero_of_size_le : ∀ a, size ≤ a → byte a = 0

namespace ByteFile

variable {f g : ByteFile} {a b w w' v n : ℕ}

/-- The file of size zero. -/
def empty : ByteFile := ⟨0, fun _ => 0, fun _ _ => rfl⟩

instance : Inhabited ByteFile := ⟨empty⟩

/-- Reserve the range of `n` bytes at `a`: the file grows to hold it, what was
there stays. -/
def reserve (f : ByteFile) (a n : ℕ) : ByteFile where
  size := max f.size (a + n)
  byte := f.byte
  zero_of_size_le x hx := f.zero_of_size_le x (le_trans (le_max_left _ _) hx)

/-- Cut or extend the file to `n` bytes. -/
def truncate (f : ByteFile) (n : ℕ) : ByteFile where
  size := n
  byte x := if x < n then f.byte x else 0
  zero_of_size_le x hx := if_neg (by omega)

/-- Store the `w` low bytes of `v` at offset `a`, the least significant first.
Bytes that would fall past the end are dropped. -/
def store (f : ByteFile) (a w v : ℕ) : ByteFile where
  size := f.size
  byte x := if a ≤ x ∧ x < a + w ∧ x < f.size then UInt8.ofNat (v / 256 ^ (x - a) % 256)
    else f.byte x
  zero_of_size_le x hx := by
    rw [if_neg (by omega)]
    exact f.zero_of_size_le x hx

/-- The `w`-byte number at offset `a`, least significant byte first. -/
def load (f : ByteFile) (a : ℕ) : ℕ → ℕ
  | 0 => 0
  | w + 1 => (f.byte a).toNat + 256 * f.load (a + 1) w

/-- The `int` at offset `a`. -/
def loadInt (f : ByteFile) (a : ℕ) : ℤ := i32 (f.load a 4)

/-- The page of offset `a` lies, at least in part, inside the file, so that an
access through a mapping does not raise `SIGBUS`. -/
def Backed (f : ByteFile) (a : ℕ) : Prop := a / 4096 * 4096 < f.size

instance (f : ByteFile) (a : ℕ) : Decidable (f.Backed a) := inferInstanceAs (Decidable (_ < _))

theorem backed_of_lt (h : a < f.size) : f.Backed a :=
  lt_of_le_of_lt (Nat.div_mul_le_self a 4096) h

theorem not_backed_of_le (h : f.size + 4096 ≤ a) : ¬f.Backed a := by
  have hmod := Nat.mod_lt a (show 0 < 4096 by norm_num)
  have hdiv := Nat.div_add_mod a 4096
  rw [Backed]
  omega

@[simp] theorem byte_empty : empty.byte a = 0 := rfl

@[simp] theorem size_reserve : (f.reserve a n).size = max f.size (a + n) := rfl

@[simp] theorem byte_reserve : (f.reserve a n).byte = f.byte := rfl

@[simp] theorem size_truncate : (f.truncate n).size = n := rfl

theorem byte_truncate : (f.truncate n).byte a = if a < n then f.byte a else 0 := rfl

@[simp] theorem size_store : (f.store a w v).size = f.size := rfl

theorem byte_store_of_mem {x : ℕ} (h₁ : a ≤ x) (h₂ : x < a + w) (h₃ : x < f.size) :
    (f.store a w v).byte x = UInt8.ofNat (v / 256 ^ (x - a) % 256) :=
  if_pos ⟨h₁, h₂, h₃⟩

theorem byte_store_of_notMem {x : ℕ} (h : x < a ∨ a + w ≤ x) :
    (f.store a w v).byte x = f.byte x :=
  if_neg (by omega)

/-! ### Loads -/

/-- **A load depends only on the bytes of its range.** -/
theorem load_congr (h : ∀ x, a ≤ x → x < a + w → f.byte x = g.byte x) :
    f.load a w = g.load a w := by
  induction w generalizing a with
  | zero => rfl
  | succ w ih =>
    rw [load, load, h a le_rfl (by omega), ih fun x h₁ h₂ => h x (by omega) (by omega)]

theorem load_lt : f.load a w < 256 ^ w := by
  induction w generalizing a with
  | zero => exact Nat.one_pos
  | succ w ih =>
    have hb : (f.byte a).toNat < 256 := (f.byte a).toNat_lt
    have := @ih (a + 1)
    rw [load, pow_succ]
    omega

/-- The low bytes of a load are a shorter load. -/
theorem load_mod (h : w ≤ w') : f.load a w' % 256 ^ w = f.load a w := by
  induction w generalizing a w' with
  | zero => rw [pow_zero, Nat.mod_one, load]
  | succ w ih =>
    obtain ⟨w', rfl⟩ : ∃ v, w' = v + 1 := ⟨w' - 1, by omega⟩
    have hb : (f.byte a).toNat < 256 := (f.byte a).toNat_lt
    rw [load, load, pow_succ', Nat.mod_mul, Nat.add_mul_mod_self_left, Nat.mod_eq_of_lt hb,
      Nat.add_mul_div_left _ _ (by norm_num), Nat.div_eq_of_lt hb, Nat.zero_add,
      ih (by omega)]

/-- Each byte of the range is a digit of the number loaded. -/
theorem load_digit {i : ℕ} (h : i < w) : f.load a w / 256 ^ i % 256 = (f.byte (a + i)).toNat := by
  induction i generalizing a w with
  | zero =>
    obtain ⟨w, rfl⟩ : ∃ v, w = v + 1 := ⟨w - 1, by omega⟩
    have hb : (f.byte a).toNat < 256 := (f.byte a).toNat_lt
    rw [pow_zero, Nat.div_one, load, Nat.add_mul_mod_self_left, Nat.mod_eq_of_lt hb, Nat.add_zero]
  | succ i ih =>
    obtain ⟨w, rfl⟩ : ∃ v, w = v + 1 := ⟨w - 1, by omega⟩
    have hb : (f.byte a).toNat < 256 := (f.byte a).toNat_lt
    rw [pow_succ', ← Nat.div_div_eq_div_mul, load, Nat.add_mul_div_left _ _ (by norm_num),
      Nat.div_eq_of_lt hb, Nat.zero_add, ih (by omega), show a + 1 + i = a + (i + 1) by omega]

/-- **A load sees the store to its range**: it returns the low bytes of the
value stored. -/
theorem load_store_prefix (hw : w ≤ w') (hs : a + w ≤ f.size) :
    (f.store a w' v).load a w = v % 256 ^ w := by
  have key : ∀ (w b v' : ℕ), a ≤ b → b + w ≤ a + w' → b + w ≤ f.size →
      v' = v / 256 ^ (b - a) → (f.store a w' v).load b w = v' % 256 ^ w := by
    intro w
    induction w with
    | zero =>
      intros
      rw [load, pow_zero, Nat.mod_one]
    | succ w ih =>
      intro b v' hab hbw hbs hv
      have hnext : v' / 256 = v / 256 ^ (b + 1 - a) := by
        rw [hv, Nat.div_div_eq_div_mul, ← pow_succ, show b - a + 1 = b + 1 - a by omega]
      have hbyte : ((f.store a w' v).byte b).toNat = v' % 256 := by
        rw [byte_store_of_mem hab (by omega) (by omega), ← hv, UInt8.toNat_ofNat']
        exact Nat.mod_eq_of_lt (Nat.mod_lt _ (by norm_num))
      rw [load, ih (b + 1) (v' / 256) (by omega) (by omega) (by omega) hnext, hbyte, pow_succ',
        Nat.mod_mul]
  exact key w a v le_rfl (by omega) hs (by simp)

/-- **A load does not see a store elsewhere.** -/
theorem load_store_disjoint (h : a + w ≤ b ∨ b + w' ≤ a) :
    (f.store b w' v).load a w = f.load a w :=
  load_congr fun _ h₁ h₂ => byte_store_of_notMem (by omega)

@[simp] theorem load_reserve : (f.reserve b n).load a w = f.load a w :=
  load_congr fun _ _ _ => rfl

theorem loadInt_congr (h : ∀ x, a ≤ x → x < a + 4 → f.byte x = g.byte x) :
    f.loadInt a = g.loadInt a := by
  rw [loadInt, loadInt, load_congr h]

/-- An `int` read back after it was stored. -/
theorem loadInt_store_self {z : ℤ} (hs : a + 4 ≤ f.size) (h₁ : -2 ^ 31 ≤ z) (h₂ : z < 2 ^ 31) :
    (f.store a 4 (u32 z)).loadInt a = z := by
  have hz : u32 z % 256 ^ 4 = u32 z := Nat.mod_eq_of_lt (u32_lt z)
  rw [loadInt, load_store_prefix le_rfl hs, hz, i32_u32, i32_of_range h₁ h₂]

/-- The same for a natural number. -/
theorem loadInt_store_nat (hs : a + 4 ≤ f.size) (hn : n < 2 ^ 31) :
    (f.store a 4 (u32 n)).loadInt a = n :=
  loadInt_store_self hs (by omega) (by omega)

theorem loadInt_store_disjoint (h : a + 4 ≤ b ∨ b + w' ≤ a) :
    (f.store b w' v).loadInt a = f.loadInt a := by
  rw [loadInt, loadInt, load_store_disjoint h]

@[simp] theorem loadInt_reserve : (f.reserve b n).loadInt a = f.loadInt a := by
  rw [loadInt, loadInt, load_reserve]

/-- Zero bytes load as zero. -/
theorem load_eq_zero (h : ∀ x, a ≤ x → x < a + w → f.byte x = 0) : f.load a w = 0 := by
  induction w generalizing a with
  | zero => rfl
  | succ w ih =>
    rw [load, h a le_rfl (by omega), ih fun x h₁ h₂ => h x (by omega) (by omega)]
    rfl

end ByteFile
