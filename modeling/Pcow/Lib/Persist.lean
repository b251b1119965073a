import Pcow.Lib.ByteFile

/-!
# Operations on a mapped file

A program that keeps its data in a mapped file issues stores, cache-line
flushes, fences and allocations. `FileOp` is one of them and `FileOp.run` is what
a list of them does to the file when all of them have taken effect: the contents
seen through the mapping, which is also the contents of the file if the program
stops right after the last one and nothing is lost.
-/

/-- One operation on a mapped file. -/
inductive FileOp
  /-- Store the `w` low bytes of `v` at offset `a`. -/
  | store (a w v : ℕ) : FileOp
  /-- Write back the cache line that holds offset `a`. -/
  | flush (a : ℕ) : FileOp
  /-- Wait for the write-backs issued so far. -/
  | fence : FileOp
  /-- Reserve `n` bytes at offset `a`. -/
  | fallocate (a n : ℕ) : FileOp
deriving DecidableEq

namespace FileOp

variable {f : ByteFile} {o : FileOp} {l l' : List FileOp}

/-- What one operation does to the contents. -/
def exec (f : ByteFile) : FileOp → ByteFile
  | store a w v => f.store a w v
  | flush _ => f
  | fence => f
  | fallocate a n => f.reserve a n

/-- What a list of operations does to the contents. -/
def run (l : List FileOp) (f : ByteFile) : ByteFile := l.foldl exec f

@[simp] theorem run_nil : run [] f = f := rfl

@[simp] theorem run_cons : run (o :: l) f = run l (exec f o) := rfl

@[simp] theorem run_append : run (l ++ l') f = run l' (run l f) := List.foldl_append

@[simp] theorem exec_store {a w v : ℕ} : exec f (store a w v) = f.store a w v := rfl

@[simp] theorem exec_flush {a : ℕ} : exec f (flush a) = f := rfl

@[simp] theorem exec_fence : exec f fence = f := rfl

@[simp] theorem exec_fallocate {a n : ℕ} : exec f (fallocate a n) = f.reserve a n := rfl

/-- The operation stores to the byte at `x`. -/
def Touches : FileOp → ℕ → Prop
  | store a w _, x => a ≤ x ∧ x < a + w
  | _, _ => False

theorem byte_exec_of_not_touches {x : ℕ} (h : ¬o.Touches x) : (exec f o).byte x = f.byte x := by
  cases o with
  | store a w v =>
    refine ByteFile.byte_store_of_notMem ?_
    simp only [Touches] at h
    omega
  | flush a => rfl
  | fence => rfl
  | fallocate a n => rfl

/-- **A byte that no operation stores to keeps its value.** -/
theorem byte_run_of_not_touches {x : ℕ} (h : ∀ o ∈ l, ¬o.Touches x) :
    (run l f).byte x = f.byte x := by
  induction l generalizing f with
  | nil => rfl
  | cons o l ih =>
    rw [run_cons, ih fun o' ho' => h o' (List.mem_cons_of_mem o ho'),
      byte_exec_of_not_touches (h o List.mem_cons_self)]

theorem size_le_size_exec : f.size ≤ (exec f o).size := by
  cases o with
  | store a w v => exact le_rfl
  | flush a => exact le_rfl
  | fence => exact le_rfl
  | fallocate a n => exact le_max_left _ _

/-- Operations never shrink the file. -/
theorem size_le_size_run : f.size ≤ (run l f).size := by
  induction l generalizing f with
  | nil => exact le_rfl
  | cons o l ih => exact le_trans size_le_size_exec ih

/-- **The bytes after a run depend on the bytes before it**, and not on the size of the file, as
long as every store is inside of it. -/
theorem byte_run_congr {f' : ByteFile} (hb : f.byte = f'.byte)
    (h : ∀ o ∈ l, ∀ x, o.Touches x → x < f.size ∧ x < f'.size) : (run l f).byte =
    (run l f').byte := by
  induction l generalizing f f' with
  | nil => exact hb
  | cons o l ih =>
    rw [run_cons, run_cons]
    refine ih ?_ fun o' ho' x hx => ?_
    · funext x
      cases o with
      | store a w v =>
        simp only [exec_store, ByteFile.store]
        by_cases hx : a ≤ x ∧ x < a + w
        · obtain ⟨h₁, h₂⟩ := h _ List.mem_cons_self x hx
          rw [if_pos ⟨hx.1, hx.2, h₁⟩, if_pos ⟨hx.1, hx.2, h₂⟩]
        · rw [if_neg fun hin => hx ⟨hin.1, hin.2.1⟩, if_neg fun hin => hx ⟨hin.1, hin.2.1⟩, hb]
      | flush a => exact congrFun hb x
      | fence => exact congrFun hb x
      | fallocate a n => exact congrFun hb x
    · obtain ⟨h₁, h₂⟩ := h o' (List.mem_cons_of_mem o ho') x hx
      exact ⟨lt_of_lt_of_le h₁ size_le_size_exec, lt_of_lt_of_le h₂ size_le_size_exec⟩

/-- The operation does not reserve space. -/
def InPlace : FileOp → Prop
  | fallocate _ _ => False
  | _ => True

/-- Only reserving space changes the size. -/
theorem size_run_of_inPlace (h : ∀ o ∈ l, o.InPlace) : (run l f).size = f.size := by
  induction l generalizing f with
  | nil => rfl
  | cons o l ih =>
    have ho := h o List.mem_cons_self
    have hsz : (exec f o).size = f.size := by
      cases o with
      | store a w v => rfl
      | flush a => rfl
      | fence => rfl
      | fallocate a n => exact ho.elim
    rw [run_cons, ih fun o' ho' => h o' (List.mem_cons_of_mem o ho'), hsz]

/-- Flushes and fences do not change the contents. -/
def IsBarrier : FileOp → Prop
  | flush _ => True
  | fence => True
  | _ => False

theorem run_of_barriers (h : ∀ o ∈ l, o.IsBarrier) : run l f = f := by
  induction l with
  | nil => rfl
  | cons o l ih =>
    have ho := h o List.mem_cons_self
    have hl := ih fun o' ho' => h o' (List.mem_cons_of_mem o ho')
    cases o with
    | store a w v => exact ho.elim
    | flush a => exact hl
    | fence => exact hl
    | fallocate a n => exact ho.elim

/-- **The states of a run with one decisive operation**: before it the run is a
run of what precedes, after it nothing changes any more. -/
theorem run_take_cases {post : List FileOp} (hpost : ∀ o ∈ post, o.IsBarrier) (j : ℕ) :
    (∃ i, run ((l ++ o :: post).take j) f = run (l.take i) f) ∨
      run ((l ++ o :: post).take j) f = run (l ++ [o]) f := by
  rcases Nat.lt_or_ge l.length j with hj | hj
  · right
    obtain ⟨i, rfl⟩ : ∃ i, j = l.length + (i + 1) := ⟨j - l.length - 1, by omega⟩
    rw [List.take_length_add_append, List.take_succ_cons, run_append, run_append, run_cons,
      run_of_barriers fun o' ho' => hpost o' (List.mem_of_mem_take ho')]
    rfl
  · exact Or.inl ⟨j, by rw [List.take_append_of_le_length hj]⟩

/-! ### Points of a run -/

/-- **The contents have a property at every point of a run**, before its first operation
and after each. -/
def Always (R : ByteFile → Prop) (l : List FileOp) (f : ByteFile) : Prop :=
  ∀ j, R (run (l.take j) f)

section Always

variable {R : ByteFile → Prop} {l' : List FileOp}

theorem Always.first (h : Always R l f) : R f := h 0

theorem Always.last (h : Always R l f) : R (run l f) := by
  have hl := h l.length
  rwa [List.take_length] at hl

/-- A run in two parts. -/
theorem Always.append (h : Always R l f) (h' : Always R l' (run l f)) : Always R (l ++ l') f := by
  intro j
  rw [List.take_append]
  rcases Nat.lt_or_ge j l.length with hj | hj
  · rw [Nat.sub_eq_zero_of_le hj.le, List.take_zero, List.append_nil]
    exact h j
  · rw [List.take_of_length_le hj, run_append]
    exact h' (j - l.length)

theorem always_nil (h : R f) : Always R [] f := fun j => by
  rw [List.take_nil]
  exact h

theorem always_singleton (h : R f) (h' : R (exec f o)) : Always R [o] f := by
  rintro (_ | j)
  · exact h
  · rw [List.take_succ_cons, List.take_nil]
    exact h'

theorem always_barriers (hl : ∀ o ∈ l, o.IsBarrier) (h : R f) : Always R l f := fun j => by
  rw [run_of_barriers fun o ho => hl o (List.mem_of_mem_take ho)]
  exact h

end Always

/-- The bytes of `src` from `i` on, `w` of them, as a number. -/
def word (src : ℕ → UInt8) (i : ℕ) : ℕ → ℕ
  | 0 => 0
  | w + 1 => (src i).toNat + 256 * word src (i + 1) w

/-- The stores that copy `n` bytes of `src` to offset `a`, in words of eight. -/
def memcpy (a n : ℕ) (src : ℕ → UInt8) : List FileOp :=
  (List.range (n / 8)).map fun i =>
    store (a + 8 * i) 8 (word src (8 * i) 8)

/-! ### Copying -/

variable {a n i j : ℕ} {src : ℕ → UInt8}

/-- Each byte of a word is a digit of it. -/
theorem word_digit {w : ℕ} (h : j < w) : word src i w / 256 ^ j % 256 = (src (i + j)).toNat := by
  induction j generalizing i w with
  | zero =>
    obtain ⟨w, rfl⟩ : ∃ v, w = v + 1 := ⟨w - 1, by omega⟩
    have hb : (src i).toNat < 256 := (src i).toNat_lt
    rw [pow_zero, Nat.div_one, word, Nat.add_mul_mod_self_left, Nat.mod_eq_of_lt hb, Nat.add_zero]
  | succ j ih =>
    obtain ⟨w, rfl⟩ : ∃ v, w = v + 1 := ⟨w - 1, by omega⟩
    have hb : (src i).toNat < 256 := (src i).toNat_lt
    rw [pow_succ', ← Nat.div_div_eq_div_mul, word, Nat.add_mul_div_left _ _ (by norm_num),
      Nat.div_eq_of_lt hb, Nat.zero_add, ih (by omega), show i + 1 + j = i + (j + 1) by omega]

/-- The copy stores to its range. -/
theorem touches_memcpy {x : ℕ} (ho : o ∈ memcpy a n src) (h : o.Touches x) :
    a ≤ x ∧ x < a + n := by
  rw [memcpy, List.mem_map] at ho
  obtain ⟨k, hk, rfl⟩ := ho
  rw [List.mem_range] at hk
  simp only [Touches] at h
  omega

theorem inPlace_memcpy (ho : o ∈ memcpy a n src) : o.InPlace := by
  rw [memcpy, List.mem_map] at ho
  obtain ⟨k, -, rfl⟩ := ho
  exact trivial

/-- **A copy, as far as it got**: the first words of the range hold the source,
everything else is as it was. -/
theorem byte_run_memcpy_take {x : ℕ} (hj : j ≤ n / 8) (hs : a + n ≤ f.size) :
    (run ((memcpy a n src).take j) f).byte x =
      if a ≤ x ∧ x < a + 8 * j then src (x - a) else f.byte x := by
  rw [memcpy, ← List.map_take, List.take_range, Nat.min_eq_left hj]
  induction j with
  | zero =>
    rw [if_neg (by omega)]
    rfl
  | succ j ih =>
    have hsz : (run ((List.range j).map fun i => store (a + 8 * i) 8 (word src (8 * i) 8))
        f).size = f.size := by
      refine size_run_of_inPlace fun o ho => ?_
      obtain ⟨k, -, rfl⟩ := List.mem_map.mp ho
      exact trivial
    rw [List.range_succ, List.map_append, run_append, List.map_singleton, run_cons, run_nil,
      exec_store]
    by_cases hx : a + 8 * j ≤ x ∧ x < a + 8 * j + 8
    · rw [ByteFile.byte_store_of_mem hx.1 hx.2 (by rw [hsz]; omega), if_pos (by omega),
        word_digit (by omega), show 8 * j + (x - (a + 8 * j)) = x - a by omega, UInt8.ofNat_toNat]
    · rw [ByteFile.byte_store_of_notMem (by omega), ih (by omega)]
      by_cases hx' : a ≤ x ∧ x < a + 8 * j
      · rw [if_pos hx', if_pos (by omega)]
      · rw [if_neg hx', if_neg (by omega)]

/-- **A copy of whole words copies.** -/
theorem byte_run_memcpy {x : ℕ} (hn : 8 ∣ n) (hs : a + n ≤ f.size) :
    (run (memcpy a n src) f).byte x = if a ≤ x ∧ x < a + n then src (x - a) else f.byte x := by
  have h : (run ((memcpy a n src).take (n / 8)) f).byte x =
      if a ≤ x ∧ x < a + 8 * (n / 8) then src (x - a) else f.byte x :=
    byte_run_memcpy_take (le_refl (n / 8)) hs
  have hlen : (memcpy a n src).length = n / 8 := by rw [memcpy, List.length_map, List.length_range]
  rwa [List.take_of_length_le (le_of_eq hlen), Nat.mul_div_cancel' hn] at h

end FileOp
