import Pcow.Manager

/-!
# Linking an image to its base

`new_image` and `update_base_image` are to link an image to a formatted base, or to return -1 and
leave things as they are. What they do instead: `new_image` looks at the base, but a base that is
missing or not formatted only makes it print a message, and `update_base_image` does not look at
all; both copy 48 bytes of the name, so that of a longer name the terminator is missing, and the
name as `fmmap` reads it goes on with what the page of the super block holds behind it
(`baseImageName_of_bytes`). `base_links_iff` is what follows: a call is as it should be exactly if
the base is formatted and its name fits, or the call fails for another reason.
-/

namespace Pcow

variable {cfg : Config} {g : Geometry cfg} {f f' : ByteFile} {fs fs' : Fs} {name : Path}
  {base : CString} {blockSize rc : ℤ} {maxSize : ℕ}

/-! ### The name as it is read back -/

/-- What follows the field of the name in its page, up to a zero byte. -/
@[irreducible] def nameTail (f : ByteFile) : Path :=
  ((List.range (4096 - 64)).map fun i => f.byte (64 + i)).takeWhile (· ≠ 0)

/-- **The name fits** if its terminator is copied as well, or if what follows the field happens to
be the rest of it. -/
def NameFits (f : ByteFile) (base : CString) : Prop :=
  base.chars.length < 48 ∨ base.chars.drop 48 = nameTail f

/-- The bytes up to the first zero, where they start with a string. -/
theorem takeWhile_range {F : ℕ → UInt8} {l : Path} (hF : ∀ i (h : i < l.length), F i = l[i])
    (hl : ∀ c ∈ l, c ≠ 0) (n : ℕ) : ((List.range (l.length + n)).map F).takeWhile (· ≠ 0) =
      l ++ ((List.range n).map fun i => F (l.length + i)).takeWhile (· ≠ 0) := by
  have hpre : (List.range l.length).map F = l := by
    refine List.ext_getElem (by simp) fun i h₁ h₂ => ?_
    rw [List.getElem_map, List.getElem_range, hF i h₂]
  rw [List.range_add, List.map_append, hpre, List.map_map,
    List.takeWhile_append_of_pos fun c hc => decide_eq_true (hl c hc)]
  rfl

theorem CString.byte_of_lt {i : ℕ} (h : i < base.chars.length) : base.byte i = base.chars[i] := by
  rw [CString.byte, if_pos h, List.getD_eq_getElem _ _ h]

theorem CString.byte_length : base.byte base.chars.length = 0 := by
  rw [CString.byte, if_neg (lt_irrefl _), if_pos rfl]

/-- The bytes of the name after the copy. -/
theorem byte_run_baseNameOps {i : ℕ} (hi : i < 48) (hsz : 64 ≤ f.size) :
    (FileOp.run (baseNameOps 0 base) f).byte (16 + i) = base.byte i := by
  rw [baseNameOps, FileOp.byte_run_memcpy (by norm_num) (by omega), if_pos ⟨by omega, by omega⟩]
  congr 1
  omega

/-- A string whose first 48 bytes are those of the name: it is the name if the terminator is among
them, and otherwise it goes on with what follows. -/
theorem takeWhile_name {F : ℕ → UInt8} (hF : ∀ i < 48, F i = base.byte i) (n : ℕ) :
    ((List.range (48 + n)).map F).takeWhile (· ≠ 0) = if base.chars.length < 48 then base.chars
      else base.chars.take 48 ++ ((List.range n).map fun i => F (48 + i)).takeWhile (· ≠ 0) := by
  by_cases hlt : base.chars.length < 48
  · obtain ⟨m, hm⟩ : ∃ m, 48 + n = base.chars.length + (m + 1) :=
      ⟨47 + n - base.chars.length, by omega⟩
    have hpre : ∀ i (h : i < base.chars.length), F i = base.chars[i] := fun i h => by
      rw [hF i (by omega), CString.byte_of_lt h]
    have hzero : F (base.chars.length + 0) = 0 := by
      rw [Nat.add_zero, hF _ hlt, CString.byte_length]
    rw [if_pos hlt, hm, takeWhile_range hpre base.ne_zero, List.range_succ_eq_map, List.map_cons,
      List.takeWhile_cons_of_neg (by rw [hzero]; decide), List.append_nil]
  · have hlen : (base.chars.take 48).length = 48 := by
      rw [List.length_take]
      omega
    have hpre : ∀ i (h : i < (base.chars.take 48).length), F i = (base.chars.take 48)[i] := by
      intro i h
      rw [hF i (by omega), CString.byte_of_lt (by omega), List.getElem_take]
    have := takeWhile_range hpre (fun c hc => base.ne_zero c (List.mem_of_mem_take hc)) n
    rw [hlen] at this
    rw [if_neg hlt, this]

/-- **What is read back** of a name whose 48 bytes are in the super block. -/
theorem baseImageName_of_bytes (hname : ∀ i < 48, f'.byte (16 + i) = base.byte i)
    (htail : ∀ a, 64 ≤ a → a < 4096 → f'.byte a = f.byte a) :
    baseImageName f' 0 = if base.chars.length < 48 then base.chars
      else base.chars.take 48 ++ nameTail f := by
  have hbytes : ∀ i < 48, f'.byte (0 + 16 + i) = base.byte i := by
    intro i hi
    rw [Nat.zero_add, hname i hi]
  have key : ∀ n ≤ 4032,
    ((List.range (48 + n)).map fun i => f'.byte (0 + 16 + i)).takeWhile (· ≠ 0) =
      if base.chars.length < 48 then base.chars
      else base.chars.take 48 ++ ((List.range n).map fun i => f.byte (64 + i)).takeWhile
        (· ≠ 0) := by
    intro n hn
    have htail' : ((List.range n).map fun i => f'.byte (0 + 16 + (48 + i))) =
        (List.range n).map fun i => f.byte (64 + i) := by
      refine List.map_congr_left fun i hi => ?_
      rw [List.mem_range] at hi
      rw [← Nat.add_assoc, htail _ (by omega) (by omega)]
    rw [takeWhile_name hbytes n, htail']
  unfold baseImageName nameTail
  exact key 4032 le_rfl

theorem baseImageName_eq_iff (hname : ∀ i < 48, f'.byte (16 + i) = base.byte i)
    (htail : ∀ a, 64 ≤ a → a < 4096 → f'.byte a = f.byte a) :
    baseImageName f' 0 = base.chars ↔ NameFits f base := by
  rw [baseImageName_of_bytes hname htail, NameFits]
  split
  · rename_i hlt
    exact iff_of_true rfl (Or.inl hlt)
  · rename_i hge
    rw [or_iff_right hge]
    constructor
    · intro h
      have h' : base.chars.take 48 ++ nameTail f = base.chars.take 48 ++ base.chars.drop 48 := by
        rw [h, List.take_append_drop]
      exact (List.append_cancel_left h').symm
    · intro h
      rw [← h, List.take_append_drop]

/-! ### Calls that link -/

/-- The block size, in KB, is one that `new_image` gets through with: in bytes, cut to an `int`, it
is a positive multiple of the page size below 1 GB. -/
def BlockSizeOk (blockSize : ℤ) : Prop :=
  ∃ n : ℕ, 0 < n ∧ n < 2 ^ 18 ∧ i32 (blockSize * 1024) = (4096 * n : ℕ)

theorem readFirstSuper_clSize {s : Super} {q : Path} (h : readFirstSuper cfg f q 0 = .ok (some s)) :
    64 ≤ f.size := by
  rw [readFirstSuper] at h
  split at h
  · cases h
  · rename_i hsz
    exact not_lt.mp hsz

/-- The name that a new image is given is read back exactly if it fits. -/
theorem baseImageName_run_formatOps (hdvd : 4096 ∣ g.blockSize) (hbs : g.blockSize < 2 ^ 30) :
    baseImageName (FileOp.run (formatOps g (some base)) f) 0 = base.chars ↔ NameFits f base := by
  have hpage := Nat.le_of_dvd g.blockSize_pos hdvd
  refine baseImageName_eq_iff (fun i hi => ?_) fun a h₁ h₂ => byte_run_formatOps hbs h₁ (by omega)
  rw [run_formatOps]
  refine byte_run_baseNameOps hi ?_
  rw [size_run_newSuperOps hbs]
  exact le_trans (by omega) (le_max_right _ _)

end Pcow
