import Pcow.Append

/-!
# Creating a layer

`new_super` puts an empty layer right after the last one of the image, or at the
start of the file if there is none. Its stores go to two cache lines, the first
of the new super block and the first of its meta block; what the file held
anywhere else stays.
-/

namespace Pcow

variable {cfg : Config} {g : Geometry cfg} {f : ByteFile} {fd : Path} {off : ℕ}
  {es : List ℕ} {ls : List (List ℕ)}

/-- The stores of `new_super` go to the first 16 bytes of the super block and to
the first eight of the meta block. -/
theorem touches_newSuperOps {o : FileOp} {a : ℕ} (hoff : off + g.blockSize < 2 ^ 64)
    (ho : o ∈ newSuperOps cfg off g.blockSize g.maxBlockNum) (h : o.Touches a) :
    off ≤ a ∧ a < off + 16 ∨ off + g.blockSize ≤ a ∧ a < off + g.blockSize + 8 := by
  have hu : u64 ((off : ℕ) + (g.blockSize : ℕ)) = off + g.blockSize := by
    rw [← Nat.cast_add, u64_natCast hoff]
  rw [newSuperOps, hu] at ho
  rcases List.mem_append.mp ho with ho | ho
  · rcases List.mem_append.mp ho with ho | ho
    · simp only [List.mem_cons, List.not_mem_nil, or_false] at ho
      rcases ho with rfl | rfl | rfl | rfl | rfl | rfl | rfl | rfl | rfl | rfl | rfl <;>
        simp only [FileOp.Touches, storeInt] at h
      all_goals omega
    · split at ho
      · rw [List.mem_singleton] at ho
        subst ho
        simp only [FileOp.Touches, storeInt] at h
        omega
      · simp at ho
  · simp only [List.mem_cons, List.not_mem_nil, or_false] at ho
    rcases ho with rfl | rfl <;> exact h.elim

theorem size_run_newSuperOps (hbs : g.blockSize < 2 ^ 30) :
    (FileOp.run (newSuperOps cfg off g.blockSize g.maxBlockNum) f).size =
      max f.size (off + 2 * g.blockSize) := by
  have hi : (i32 ((g.blockSize : ℤ) * 2)).toNat = 2 * g.blockSize := by
    rw [i32_of_range (by omega) (by omega)]
    omega
  rw [newSuperOps, hi]
  cases cfg.finegrainedCow <;> rfl

/-- What `new_super` writes into the first cache line of the super block. -/
theorem loads_run_newSuperOps (hbs : g.blockSize < 2 ^ 30) (hoff : off + g.blockSize < 2 ^ 64) :
    let f' := FileOp.run (newSuperOps cfg off g.blockSize g.maxBlockNum) f
    HasMagic f' off ∧ f'.loadInt off = g.blockSize ∧ f'.loadInt (off + 4) = g.maxBlockNum ∧
      f'.loadInt (off + 8) = 0 ∧ f'.loadInt (off + g.blockSize) = 0 := by
  intro f'
  have hu : u64 ((off : ℕ) + (g.blockSize : ℕ)) = off + g.blockSize := by
    rw [← Nat.cast_add, u64_natCast hoff]
  have hi : (i32 ((g.blockSize : ℤ) * 2)).toNat = 2 * g.blockSize := by
    rw [i32_of_range (by omega) (by omega)]
    omega
  have hent := g.entry_le
  have hmbn := g.maxBlockNum_lt
  have hmbn' := g.maxBlockNum_ge
  -- the file once the first cache line is written, and once the meta block is
  set f₁ := (f.reserve off (2 * g.blockSize)).store off 4 (u32 g.blockSize) with hf₁
  set f₂ := (f₁.store (off + 4) 4 (u32 g.maxBlockNum)).store (off + 8) 4 (u32 0) with hf₂
  set f₃ := (((f₂.store (off + 12) 1 0x4e).store (off + 13) 1 0x42).store (off + 14) 1
    0x4a).store (off + 15) 1 0x4c with hf₃
  set f₄ := f₃.store (off + g.blockSize) 4 (u32 0) with hf₄
  have hrun : f' = if cfg.finegrainedCow then f₄.store (off + g.blockSize + 4) 4 (u32 0)
      else f₄ := by
    simp only [f', newSuperOps, hu, hi]
    cases cfg.finegrainedCow <;> rfl
  have hbyte : ∀ a, a < off + g.blockSize → f'.byte a = f₃.byte a := by
    intro a ha
    rw [hrun]
    split
    · rw [ByteFile.byte_store_of_notMem (by omega), hf₄, ByteFile.byte_store_of_notMem (by omega)]
    · rw [hf₄, ByteFile.byte_store_of_notMem (by omega)]
  have hint : ∀ a, a + 4 ≤ off + 12 → f'.loadInt a = f₂.loadInt a := by
    intro a ha
    rw [ByteFile.loadInt_congr fun x h₁ h₂ => hbyte x (by omega), hf₃,
      ByteFile.loadInt_store_disjoint (by omega), ByteFile.loadInt_store_disjoint (by omega),
      ByteFile.loadInt_store_disjoint (by omega), ByteFile.loadInt_store_disjoint (by omega)]
  have hsz : off + 2 * g.blockSize ≤ (f.reserve off (2 * g.blockSize)).size := le_max_right _ _
  have hsz₁ : f₁.size = (f.reserve off (2 * g.blockSize)).size := rfl
  have hsz₂ : f₂.size = (f.reserve off (2 * g.blockSize)).size := rfl
  refine ⟨?_, ?_, ?_, ?_, ?_⟩
  · have hload : f'.load (off + 12) 4 = f₃.load (off + 12) 4 :=
      ByteFile.load_congr fun x h₁ h₂ => hbyte x (by omega)
    have h₀ : f₃.byte (off + 12) = 0x4e := by
      rw [hf₃, ByteFile.byte_store_of_notMem (by omega), ByteFile.byte_store_of_notMem (by omega),
        ByteFile.byte_store_of_notMem (by omega),
        ByteFile.byte_store_of_mem le_rfl (by omega) (by rw [hsz₂]; omega), Nat.sub_self]
      rfl
    have h₁ : f₃.byte (off + 12 + 1) = 0x42 := by
      rw [hf₃, ByteFile.byte_store_of_notMem (by omega), ByteFile.byte_store_of_notMem (by omega),
        ByteFile.byte_store_of_mem le_rfl (by omega) (by rw [ByteFile.size_store, hsz₂]; omega),
        Nat.sub_self]
      rfl
    have h₂ : f₃.byte (off + 12 + 1 + 1) = 0x4a := by
      rw [hf₃, ByteFile.byte_store_of_notMem (by omega),
        ByteFile.byte_store_of_mem le_rfl (by omega)
          (by simp only [ByteFile.size_store]; rw [hsz₂]; omega), Nat.sub_self]
      rfl
    have h₃ : f₃.byte (off + 12 + 1 + 1 + 1) = 0x4c := by
      rw [hf₃, ByteFile.byte_store_of_mem le_rfl (by omega)
          (by simp only [ByteFile.size_store]; rw [hsz₂]; omega), Nat.sub_self]
      rfl
    rw [HasMagic, hload]
    simp only [ByteFile.load, h₀, h₁, h₂, h₃]
    rfl
  · rw [hint off (by omega), hf₂, ByteFile.loadInt_store_disjoint (by omega),
      ByteFile.loadInt_store_disjoint (by omega), hf₁]
    exact ByteFile.loadInt_store_nat (by omega) (by omega)
  · rw [hint (off + 4) (by omega), hf₂, ByteFile.loadInt_store_disjoint (by omega)]
    exact ByteFile.loadInt_store_self (by omega) hmbn' hmbn
  · rw [hint (off + 8) (by omega), hf₂]
    exact ByteFile.loadInt_store_nat (n := 0) (by rw [ByteFile.size_store]; omega) (by norm_num)
  · have h₄ : f₄.loadInt (off + g.blockSize) = 0 := by
      rw [hf₄]
      exact ByteFile.loadInt_store_nat (n := 0)
        (by rw [hf₃]; simp only [ByteFile.size_store]; rw [hsz₂]; omega) (by norm_num)
    rw [hrun]
    split
    · rw [ByteFile.loadInt_store_disjoint (by omega), h₄]
    · exact h₄

/-- **`new_super` makes an empty layer.** -/
theorem isLayer_newSuperOps (hbs : g.blockSize < 2 ^ 30) (hoff : off + g.blockSize < 2 ^ 64) :
    IsLayer g (FileOp.run (newSuperOps cfg off g.blockSize g.maxBlockNum) f) off [] := by
  obtain ⟨h₁, h₂, h₃, h₄, h₅⟩ := loads_run_newSuperOps (f := f) hbs hoff
  refine ⟨h₁, h₂, h₃, ?_, ?_, ?_, ?_, Nat.zero_le _⟩
  · rw [h₄, List.length_nil, Geometry.lastSeg_zero]
    rfl
  · intro i hi
    rw [List.length_nil, Geometry.lastSeg_zero] at hi
    obtain rfl : i = 0 := by omega
    have : g.blockAt off (g.metaBlock 0) = off + g.blockSize := by
      rw [Geometry.metaBlock, Geometry.blockAt]
      ring
    rw [this, h₅, List.length_nil, Geometry.fill]
    simp
  · intro i hi
    simp at hi
  · rw [size_run_newSuperOps hbs, List.length_nil, Geometry.endOff, Geometry.blocks_zero,
      Geometry.blockAt, Nat.mul_comm]
    exact le_max_right _ _

end Pcow
