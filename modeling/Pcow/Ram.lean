import Pcow.Build
import Mathlib.Order.CompletePartialOrder
import Mathlib.Order.Interval.Set.Disjoint

/-!
# Memory of a guest

`qemu_ram_mmap` of `mmap-alloc.c`: memory for a guest, at an aligned address and with a guard page
behind it. It has the kernel map more than is needed, without access, has the image mapped over the
aligned part of that, and unmaps what is left before and behind.

The functions and macros for alignments that QEMU has elsewhere are a parameter (`AlignMacros`).

With the raw format the second mapping is made with `MAP_FIXED`, and so is where it is expected.
`fmmap` is handed the same flags, but does not use them for its own reservation. The place it asks
for is occupied by the first mapping, so the kernel chooses another one. The memory is then not
aligned, and what is unmapped behind it may belong to someone else (`qemuRamMmap_unmaps_foreign`).
`qemuRamMmap_pcow_iff` says when all is well.
-/

namespace Pcow

/-- A range of addresses. -/
structure Extent where
  start : ℕ
  len : ℕ
deriving DecidableEq

/-- The addresses of a range. -/
def Extent.addrs (e : Extent) : Set ℕ := Set.Ico e.start (e.start + e.len)

/-- A range is inside another. -/
def Extent.Inside (e e' : Extent) : Prop :=
  e'.start ≤ e.start ∧ e.start + e.len ≤ e'.start + e'.len

instance (e e' : Extent) : Decidable (e.Inside e') := inferInstanceAs (Decidable (_ ∧ _))

/-- The end of the addresses of a process. -/
def addrLimit : ℕ := 2 ^ 47

/-- What the kernel may answer to `mmap` without `MAP_FIXED`, where the addresses `occupied` are
mapped: a free range, which is the one asked for if that is free. -/
structure Grants (occupied : Set ℕ) (hint len addr : ℕ) : Prop where
  page : pageSize ∣ addr
  le : addr + len ≤ addrLimit
  free : Disjoint occupied (Extent.addrs ⟨addr, len⟩)
  hint : hint ≠ 0 → pageSize ∣ hint → hint + len ≤ addrLimit →
    Disjoint occupied (Extent.addrs ⟨hint, len⟩) → addr = hint

/-- The answers of the kernel in a call of `qemu_ram_mmap`. -/
structure Answers where
  /-- The first mapping, unless it fails. -/
  ptr : Option ℕ
  /-- Whether the mapping of a raw file succeeds. -/
  raw : Bool
  /-- The reservation of `fmmap`. -/
  addr : ℕ
  /-- The other ranges that `fmmap` has mapped: the blocks of the image, and its super blocks and
  meta blocks. -/
  inner : List Extent

/-- `MemoryBackendFileFormat`. -/
inductive Format
  | raw
  | pcow
deriving DecidableEq

/-- What QEMU has for alignments, which is not part of the patched files. `roundUp` is `ROUND_UP`,
and `HOST_PAGE_ALIGN` for the size of a page; both are in unsigned arithmetic and for powers of
two. -/
structure AlignMacros where
  isPowerOf2 : ℕ → Bool
  qemuAlignUp : ℕ → ℕ → ℕ
  roundUp : ℕ → ℕ → ℕ
  isPowerOf2_iff (n : ℕ) : isPowerOf2 n = true ↔ ∃ k, n = 2 ^ k
  qemuAlignUp_next (n m : ℕ) : 0 < m → n + m ≤ 2 ^ 64 →
    m ∣ qemuAlignUp n m ∧ n ≤ qemuAlignUp n m ∧ qemuAlignUp n m < n + m
  roundUp_next (n k : ℕ) : k < 64 → n + 2 ^ k ≤ 2 ^ 64 →
    2 ^ k ∣ roundUp n (2 ^ k) ∧ n ≤ roundUp n (2 ^ k) ∧ roundUp n (2 ^ k) < n + 2 ^ k
  /-- The sum wraps around. -/
  roundUp_wrap (n k : ℕ) : k < 64 → n < 2 ^ 64 → 2 ^ 64 < n + 2 ^ k → roundUp n (2 ^ k) = 0

/-- The result of `qemu_ram_mmap`, and what it has mapped and unmapped. -/
structure RamBlock where
  /-- The pointer; `none` is `MAP_FAILED`. -/
  ptr1 : Option ℕ
  /-- The ranges mapped. -/
  maps : List Extent
  /-- The ranges passed to `munmap`. -/
  unmaps : List Extent

/-- The end of `qemu_ram_mmap`: what is left around the memory is unmapped, but for a page behind
it. -/
def trim (size total ptr offset ptr1 : ℕ) : List Extent :=
  let rest := u64 (total - offset)
  (if offset > 0 then [⟨ptr, offset⟩] else []) ++
    (if rest > u64 (size + pageSize) then
      [⟨ptr1 + size + pageSize, u64 (rest - size - pageSize)⟩] else [])

/-- `qemu_ram_mmap`. -/
def qemuRamMmap (q : AlignMacros) (cfg : Config) (fs : Fs) (fd : Path) (size align : ℕ)
    (format : Format) (k : Answers) : Except Fault RamBlock :=
  let total := u64 (size + align)
  match k.ptr with
  | none => .ok ⟨none, [], []⟩
  | some ptr =>
    if q.isPowerOf2 align ∧ align ≥ pageSize then
      let offset := q.qemuAlignUp ptr align - ptr
      match format with
      | .raw =>
        if k.raw then
          .ok ⟨some (ptr + offset), [⟨ptr, total⟩, ⟨ptr + offset, size⟩],
            trim size total ptr offset (ptr + offset)⟩
        else .ok ⟨none, [⟨ptr, total⟩], [⟨ptr, total⟩]⟩
      | .pcow => (Session.fmmap cfg fs fd size 0).map fun
        | none => ⟨none, [⟨ptr, total⟩], [⟨ptr, total⟩]⟩
        | some ses => ⟨some k.addr, ⟨ptr, total⟩ :: ⟨k.addr, ses.s.fmmapLength⟩ :: k.inner,
            trim size total ptr offset k.addr⟩
    else .error .assertFailed

/-! ### The macros, in C -/

namespace AlignMacros

theorem isPowerOf2_and (n : ℕ) :
    (decide (n ≠ 0) && decide (n &&& (n - 1) = 0)) = true ↔ ∃ k, n = 2 ^ k := by
  rw [Bool.and_eq_true, decide_eq_true_eq, decide_eq_true_eq]
  exact Nat.ne_zero_and_sub_one_eq_zero_iff_isPowerOfTwo

theorem div_mul_next (n m : ℕ) (hm : 0 < m) :
    m ∣ (n + m - 1) / m * m ∧ n ≤ (n + m - 1) / m * m ∧ (n + m - 1) / m * m < n + m := by
  have h₁ := Nat.div_add_mod (n + m - 1) m
  have h₂ := Nat.mod_lt (n + m - 1) hm
  rw [Nat.mul_comm] at h₁
  refine ⟨Nat.dvd_mul_left _ _, ?_, ?_⟩
  · omega
  · omega

theorem u64_div_mul_next (n k : ℕ) (hle : n + 2 ^ k ≤ 2 ^ 64) :
    2 ^ k ∣ u64 ((n : ℤ) + (2 ^ k : ℕ) - 1) / 2 ^ k * 2 ^ k ∧
      n ≤ u64 ((n : ℤ) + (2 ^ k : ℕ) - 1) / 2 ^ k * 2 ^ k ∧
      u64 ((n : ℤ) + (2 ^ k : ℕ) - 1) / 2 ^ k * 2 ^ k < n + 2 ^ k := by
  have hpos : 0 < 2 ^ k := Nat.two_pow_pos k
  have hu : u64 ((n : ℤ) + (2 ^ k : ℕ) - 1) = n + 2 ^ k - 1 := by
    rw [show (n : ℤ) + (2 ^ k : ℕ) - 1 = ((n + 2 ^ k - 1 : ℕ) : ℤ) by omega, u64_natCast (by omega)]
  rw [hu]
  exact div_mul_next n _ hpos

theorem u64_div_mul_wrap (n k : ℕ) (hn : n < 2 ^ 64) (hlt : 2 ^ 64 < n + 2 ^ k) (hk : k < 64) :
    u64 ((n : ℤ) + (2 ^ k : ℕ) - 1) / 2 ^ k * 2 ^ k = 0 := by
  have hpow : 2 ^ k < 2 ^ 64 := Nat.pow_lt_pow_right (by norm_num) hk
  have hu : u64 ((n : ℤ) + (2 ^ k : ℕ) - 1) < 2 ^ k := by
    rw [u64]
    omega
  rw [Nat.div_eq_of_lt hu, Nat.zero_mul]

/-- The macros as QEMU has them. -/
def qemu : AlignMacros where
  isPowerOf2 n := n ≠ 0 && n &&& (n - 1) = 0
  qemuAlignUp n m := (n + m - 1) / m * m
  roundUp n m := u64 ((n : ℤ) + m - 1) / m * m
  isPowerOf2_iff n := isPowerOf2_and n
  qemuAlignUp_next n m hm _ := div_mul_next n m hm
  roundUp_next n k _ hle := u64_div_mul_next n k hle
  roundUp_wrap n k hk hn hlt := u64_div_mul_wrap n k hn hlt hk

end AlignMacros

/-! ### The length of the mapping -/

/-- The length that `fmmap` reserves; for length 0 that of all blocks of the image. -/
def reservedLength (cfg : Config) (fs : Fs) (fd : Path) (length : ℕ) : ℕ :=
  match readFirstSuper cfg ((fs fd).getD .empty) fd 0 with
  | .ok (some s) => if length = 0 then u64 (u64 s.blockSize * s.maxBlockNum) else length
  | _ => 0

variable {q : AlignMacros} {cfg : Config} {fs : Fs} {fd : Path} {size align : ℕ} {k : Answers}
  {occupied : Set ℕ}

/-- A call of `fmmap` that returns memory: its length. -/
theorem Session.fmmap_length {ses : Session}
    (hr : Session.fmmap cfg fs fd size 0 = .ok (some ses)) :
    ses.s.fmmapLength = reservedLength cfg fs fd size ∧ 0 < reservedLength cfg fs fd size ∧
      reservedLength cfg fs fd size ≤ regLen ∧
        (size ≠ 0 → reservedLength cfg fs fd size = size) := by
  rw [Session.fmmap, Session.fmmapWith] at hr
  rw [reservedLength]
  rcases hs : readFirstSuper cfg ((fs fd).getD .empty) fd 0 with e | _ | s
  · rw [hs] at hr
    cases hr
  · rw [hs] at hr
    cases hr
  rw [hs] at hr
  dsimp only at hr ⊢
  generalize hlen : (if size = 0 then u64 (u64 s.blockSize * s.maxBlockNum) else size) = len at hr ⊢
  split_ifs at hr with hreg _ hzero
  · cases hr
  · cases hr
  rcases hb : Session.baseMaps cfg fs (baseImageName ((fs fd).getD .empty) s.myOff)
    with e | ⟨fs', m₁⟩
  · rw [hb] at hr
    cases hr
  rw [hb] at hr
  dsimp only at hr
  rcases hc : superChain cfg ((fs fd).getD .empty) (((fs fd).getD .empty).size + 1) s with e | l
  · rw [hc] at hr
    cases hr
  rw [hc] at hr
  dsimp only at hr
  rcases hm : Session.readonlyMaps cfg ((fs fd).getD .empty) l.dropLast with e | m₂
  · rw [hm] at hr
    cases hr
  rw [hm] at hr
  dsimp only at hr
  rcases hw : doWritableFmmap cfg ((fs fd).getD .empty) (l.getLastD s) with e | m₃
  · rw [hw] at hr
    cases hr
  rw [hw] at hr
  cases hr
  refine ⟨rfl, Nat.pos_of_ne_zero fun h => hzero (Or.inl h), not_lt.mp hreg, fun hne => ?_⟩
  rw [← hlen, if_neg hne]

/-! ### Where the kernel places the mappings -/

section Trim

variable {total ptr offset ptr1 : ℕ}

/-- What is unmapped at the end: the part before the aligned address, and the part behind the memory
and its guard page. -/
theorem mem_trim (hoff : offset < align) (hpage : pageSize ≤ align) (hlt : size + align < 2 ^ 64)
    {u : Extent} : u ∈ trim size (size + align) ptr offset ptr1 ↔ (0 < offset ∧ u = ⟨ptr, offset⟩) ∨
      (pageSize < align - offset ∧ u = ⟨ptr1 + size + pageSize, align - offset - pageSize⟩) := by
  have hrest : u64 (((size + align : ℕ) : ℤ) - offset) = size + (align - offset) := by
    rw [u64]
    omega
  have hguard : u64 ((size : ℤ) + pageSize) = size + pageSize := by
    rw [← Nat.cast_add, u64_natCast (by omega)]
  have hlen : pageSize < align - offset →
    u64 (((size + (align - offset) : ℕ) : ℤ) - size - pageSize) =
      align - offset - pageSize := by
    intro hlt
    rw [u64]
    omega
  simp only [trim, hrest, hguard, gt_iff_lt, Nat.add_lt_add_iff_left, List.mem_append,
    List.mem_ite_nil_right, List.mem_singleton]
  refine or_congr Iff.rfl (and_congr_right fun hlt => ?_)
  rw [hlen hlt]

end Trim

/-- A power of two of 64 bits has its top bit as bound. -/
theorem le_of_isPowerOf2 (h : q.isPowerOf2 align = true) (hlt : align < 2 ^ 64) :
    align ≤ 2 ^ 63 := by
  obtain ⟨k, hk⟩ := (q.isPowerOf2_iff align).mp h
  rw [hk] at hlt ⊢
  exact Nat.pow_le_pow_right (by decide)
    (Nat.le_of_lt_succ ((Nat.pow_lt_pow_iff_right (by decide)).mp hlt))

/-- **Where the mappings have to be**, so that the memory is aligned and only own memory is
unmapped: the reservation at a multiple of the alignment, and either only the guard page is left
behind the aligned part, or the reservation ends at most a page below the first mapping, or the
whole image is mapped and reaches as far, or the range unmapped happens to be in another one that
`fmmap` has mapped. -/
def Answers.Fits (k : Answers) (q : AlignMacros) (size align len ptr : ℕ) : Prop :=
  align ∣ k.addr ∧
    (align - (q.qemuAlignUp ptr align - ptr) ≤ pageSize ∨
      (k.addr < ptr ∧ ptr ≤ k.addr + size + pageSize) ∨
      (size = 0 ∧ align - (q.qemuAlignUp ptr align - ptr) ≤ len) ∨
      ∃ m ∈ k.inner, Extent.Inside ⟨k.addr + size + pageSize,
        align - (q.qemuAlignUp ptr align - ptr) - pageSize⟩ m)

/-- A call with the format of this library that returns memory. -/
theorem qemuRamMmap_pcow {ptr r : ℕ} {b : RamBlock} (hptr : k.ptr = some ptr)
    (halign : align < 2 ^ 64)
    (hr : qemuRamMmap q cfg fs fd size align .pcow k = .ok b) (hb : b.ptr1 = some r) :
    pageSize ≤ align ∧ size + align < 2 ^ 64 ∧ r = k.addr ∧
      0 < reservedLength cfg fs fd size ∧ (size ≠ 0 → reservedLength cfg fs fd size = size) ∧
      b = ⟨some r, ⟨ptr, size + align⟩ :: ⟨k.addr, reservedLength cfg fs fd size⟩ :: k.inner,
        trim size (size + align) ptr (q.qemuAlignUp ptr align - ptr) r⟩ := by
  rw [qemuRamMmap, hptr] at hr
  dsimp only at hr
  split_ifs at hr with hassert
  obtain ⟨hpow, hpage⟩ := hassert
  rcases hmap : Session.fmmap cfg fs fd size 0 with e | _ | ses
  · rw [hmap] at hr
    cases hr
  · rw [hmap] at hr
    cases hr
    cases hb
  rw [hmap] at hr
  cases hr
  cases hb
  obtain ⟨hlen, hpos, hle, hsize⟩ := Session.fmmap_length hmap
  have htotal : size + align < 2 ^ 64 := by
    have := le_of_isPowerOf2 hpow halign
    have hreg : size ≤ regLen := by
      rcases Nat.eq_zero_or_pos size with rfl | hne
      · exact Nat.zero_le _
      · rwa [hsize hne.ne'] at hle
    rw [regLen] at hreg
    omega
  have hu : u64 ((size : ℤ) + align) = size + align := by rw [← Nat.cast_add, u64_natCast htotal]
  refine ⟨hpage, htotal, rfl, hpos, hsize, ?_⟩
  dsimp only
  rw [hlen, hu]

/-- **What `qemu_ram_mmap` unmaps.** With the format of this library, the memory is aligned and
every range passed to `munmap` is inside one mapped by the call exactly if the kernel has placed the
mappings so. -/
theorem qemuRamMmap_pcow_iff {ptr r : ℕ} {b : RamBlock} (hptr : k.ptr = some ptr)
    (halign : align < 2 ^ 64) (hfirst : Grants occupied 0 (u64 (size + align)) ptr)
    (hsecond : Grants (occupied ∪ Extent.addrs ⟨ptr, u64 (size + align)⟩) (q.qemuAlignUp ptr align)
      (reservedLength cfg fs fd size) k.addr)
    (hr : qemuRamMmap q cfg fs fd size align .pcow k = .ok b) (hb : b.ptr1 = some r) :
    (align ∣ r ∧ ∀ u ∈ b.unmaps, ∃ m ∈ b.maps, u.Inside m) ↔
      k.Fits q size align (reservedLength cfg fs fd size) ptr := by
  obtain ⟨hpage, htotal, rfl, hpos, hsize, rfl⟩ := qemuRamMmap_pcow hptr halign hr hb
  have hu : u64 ((size : ℤ) + align) = size + align := by rw [← Nat.cast_add, u64_natCast htotal]
  rw [hu] at hfirst hsecond
  have hlimit := hfirst.le
  rw [addrLimit] at hlimit
  obtain ⟨-, hle, hlt⟩ :=
    q.qemuAlignUp_next ptr align (Nat.lt_of_lt_of_le (by decide) hpage) (by omega)
  rw [Answers.Fits]
  generalize ho : q.qemuAlignUp ptr align - ptr = offset
  generalize reservedLength cfg fs fd size = len at *
  have hoff : offset < align := by omega
  have hapart : k.addr + len ≤ ptr ∨ ptr + (size + align) ≤ k.addr := by
    have hdisj := Set.Ico_disjoint_Ico.mp
      (Set.disjoint_of_subset_left Set.subset_union_right hsecond.free)
    dsimp only at hdisj
    omega
  refine and_congr_right fun _ => ⟨fun hall => ?_, fun hfits u hu => ?_⟩
  · rw [or_iff_not_imp_left, not_le]
    intro hmore
    obtain ⟨m, hm, hinside⟩ := hall _ ((mem_trim hoff hpage htotal).mpr (Or.inr ⟨hmore, rfl⟩))
    rcases List.mem_cons.mp hm with rfl | hm
    · obtain ⟨h₁, h₂⟩ := hinside
      dsimp only at h₁ h₂
      exact Or.inl ⟨by omega, h₁⟩
    rcases List.mem_cons.mp hm with rfl | hm
    · obtain ⟨-, h₂⟩ := hinside
      dsimp only at h₂
      have hzero : size = 0 := by
        by_contra hne
        rw [hsize hne] at h₂
        omega
      exact Or.inr (Or.inl ⟨hzero, by omega⟩)
    · exact Or.inr (Or.inr ⟨m, hm, hinside⟩)
  · rcases (mem_trim hoff hpage htotal).mp hu with ⟨-, rfl⟩ | ⟨hmore, rfl⟩
    · refine ⟨_, List.mem_cons_self, le_rfl, ?_⟩
      dsimp only
      omega
    rcases hfits with hno | ⟨h₁, h₂⟩ | ⟨rfl, hlen⟩ | ⟨m, hm, hinside⟩
    · exact absurd hmore (not_lt.mpr hno)
    · refine ⟨_, List.mem_cons_self, h₂, ?_⟩
      dsimp only
      omega
    · refine ⟨_, List.mem_cons_of_mem _ List.mem_cons_self, ?_, ?_⟩
      · dsimp only
        omega
      · dsimp only
        omega
    · exact ⟨m, List.mem_cons_of_mem _ (List.mem_cons_of_mem _ hm), hinside⟩

/-- With the raw format nothing depends on the kernel. -/
theorem qemuRamMmap_raw {ptr r : ℕ} {b : RamBlock} (hptr : k.ptr = some ptr)
    (htotal : ptr + (size + align) < 2 ^ 64)
    (hr : qemuRamMmap q cfg fs fd size align .raw k = .ok b)
    (hb : b.ptr1 = some r) : align ∣ r ∧ ∀ u ∈ b.unmaps, ∃ m ∈ b.maps, u.Inside m := by
  have hu : u64 ((size : ℤ) + align) = size + align := by
    rw [← Nat.cast_add, u64_natCast (by omega)]
  rw [qemuRamMmap, hptr, hu] at hr
  dsimp only at hr
  split_ifs at hr with hassert
  · cases hr
    cases hb
    obtain ⟨hdvd, hle, hlt⟩ :=
      q.qemuAlignUp_next ptr align (Nat.lt_of_lt_of_le (by decide) hassert.2) (by omega)
    refine ⟨?_, fun u hu => ⟨_, List.mem_cons_self, ?_⟩⟩
    · rw [Nat.add_sub_cancel' hle]
      exact hdvd
    · rcases (mem_trim (by omega) hassert.2 (by omega)).mp hu with ⟨-, rfl⟩ | ⟨hmore, rfl⟩
      · refine ⟨le_rfl, ?_⟩
        dsimp only
        omega
      · constructor
        · dsimp only
          omega
        · dsimp only
          omega
  · cases hr
    cases hb

/-- A call on an image that `fmmap` maps. -/
theorem exists_ram (k : Answers) {ptr : ℕ} (hptr : k.ptr = some ptr)
    (halign : q.isPowerOf2 align ∧ align ≥ pageSize) :
    ∃ f : ByteFile, reservedLength .shipped (fun _ => some f) [1] 16384 = 16384 ∧
      qemuRamMmap q .shipped (fun _ => some f) [1] 16384 align .pcow k =
        .ok ⟨some k.addr, ⟨ptr, u64 (16384 + align)⟩ :: ⟨k.addr, 16384⟩ :: k.inner,
          trim 16384 (u64 (16384 + align)) ptr (q.qemuAlignUp ptr align - ptr) k.addr⟩ := by
  obtain ⟨f, ses, -, -, -, hopen, -⟩ := exists_session .shipped 0
  obtain ⟨hlen, -, -, hsize⟩ := Session.fmmap_length hopen
  rw [hsize (by decide)] at hlen
  refine ⟨f, hsize (by decide), ?_⟩
  rw [qemuRamMmap, hptr]
  dsimp only
  rw [if_pos halign, hopen]
  dsimp only [Except.map]
  rw [hlen]
  rfl

/-- A hint inside the first mapping says nothing to the kernel, since it is occupied. -/
theorem Grants.of_hint {ptr total hint len addr : ℕ} (hpage : pageSize ∣ addr)
    (hle : addr + len ≤ addrLimit) (hfree : Disjoint occupied (Extent.addrs ⟨addr, len⟩))
    (hapart : addr + len ≤ ptr ∨ ptr + total ≤ addr) (hlen : 0 < len) (hhint : ptr ≤ hint)
    (hlt : hint < ptr + total) :
    Grants (occupied ∪ Extent.addrs ⟨ptr, total⟩) hint len addr where
  page := hpage
  le := hle
  free := by
    refine Set.disjoint_union_left.mpr ⟨hfree, Set.Ico_disjoint_Ico.mpr ?_⟩
    dsimp only
    omega
  hint _ _ _ hdisj := by
    have hmem : hint ∈ occupied ∪ Extent.addrs ⟨ptr, total⟩ := Or.inr ⟨hhint, hlt⟩
    exact absurd ⟨le_rfl, Nat.lt_add_of_pos_right hlen⟩ (Set.disjoint_left.mp hdisj hmem)

/-- **The kernel places the reservation above the first mapping**: the memory is not aligned, and a
page of someone else behind it is unmapped. -/
theorem qemuRamMmap_unmaps_foreign : ∃ (f : ByteFile) (occupied : Set ℕ) (k : Answers)
    (b : RamBlock)
    (ptr r : ℕ), k.ptr = some ptr ∧ Grants occupied 0 (u64 (16384 + (2 ^ 21 : ℕ))) ptr ∧
      Grants (occupied ∪ Extent.addrs ⟨ptr, u64 (16384 + (2 ^ 21 : ℕ))⟩)
        (AlignMacros.qemu.qemuAlignUp ptr (2 ^ 21))
        (reservedLength .shipped (fun _ => some f) [1] 16384) k.addr ∧
      qemuRamMmap .qemu .shipped (fun _ => some f) [1] 16384 (2 ^ 21) .pcow k = .ok b ∧
        b.ptr1 = some r ∧
      ¬2 ^ 21 ∣ r ∧ ∃ u ∈ b.unmaps, (∀ m ∈ b.maps, ¬u.Inside m) ∧ ∃ x ∈ occupied, x ∈ u.addrs := by
  obtain ⟨k, hk⟩ : ∃ k : Answers, k = ⟨some (2 ^ 40), true, 2 ^ 40 + 2 ^ 21 + 16384,
    [⟨2 ^ 40 + 2 ^ 21 + 16384, 8192⟩, ⟨2 ^ 32, 64⟩, ⟨2 ^ 32 + 4096, 8192⟩]⟩ := ⟨_, rfl⟩
  have hptr : k.ptr = some (2 ^ 40) := by rw [hk]
  have haddr : k.addr = 2 ^ 40 + 2 ^ 21 + 16384 := by rw [hk]
  obtain ⟨f, hlen, hr⟩ := @exists_ram .qemu (2 ^ 21) k _ hptr (by decide)
  refine ⟨f, Set.Ico (2 ^ 40 + 2 ^ 21 + 36864) (2 ^ 40 + 2 ^ 21 + 40960), k, _, 2 ^ 40,
    k.addr, hptr,
    ?_, ?_, hr, rfl, ?_, ?_⟩
  · refine ⟨by decide, by decide, Set.Ico_disjoint_Ico.mpr (by decide), fun h => absurd rfl h⟩
  · rw [hlen, haddr]
    refine .of_hint (by decide) (by decide) (Set.Ico_disjoint_Ico.mpr (by decide)) (by decide)
      (by decide) (by decide) (by decide)
  · rw [haddr]
    decide
  · refine ⟨⟨k.addr + 16384 + pageSize, 2 ^ 21 - pageSize⟩, ?_, ?_, 2 ^ 40 + 2 ^ 21 + 36864, ?_, ?_⟩
    · have htotal : u64 (16384 + ((2 ^ 21 : ℕ) : ℤ)) = 16384 + 2 ^ 21 := by decide
      have hoff : AlignMacros.qemu.qemuAlignUp (2 ^ 40) (2 ^ 21) - 2 ^ 40 = 0 := by decide
      rw [htotal, hoff]
      exact (mem_trim (by decide) (by decide) (by decide)).mpr (Or.inr ⟨by decide, rfl⟩)
    · rw [hk]
      decide
    · exact ⟨le_rfl, by decide⟩
    · rw [haddr]
      exact ⟨le_rfl, by decide⟩

/-- **The kernel places the reservation right below the first mapping**, at a multiple of the
alignment: all is well. -/
theorem qemuRamMmap_pcow_below : ∃ (f : ByteFile) (k : Answers) (b : RamBlock) (r : ℕ),
    qemuRamMmap .qemu .shipped (fun _ => some f) [1] 16384 8192 .pcow k = .ok b ∧ b.ptr1 = some r ∧
      8192 ∣ r ∧ (∀ u ∈ b.unmaps, ∃ m ∈ b.maps, u.Inside m) ∧ b.unmaps ≠ [] := by
  obtain ⟨k, hk⟩ : ∃ k : Answers, k = ⟨some (2 ^ 40), true, 2 ^ 40 - 16384, []⟩ := ⟨_, rfl⟩
  have hptr : k.ptr = some (2 ^ 40) := by rw [hk]
  have haddr : k.addr = 2 ^ 40 - 16384 := by rw [hk]
  obtain ⟨f, hlen, hr⟩ := @exists_ram .qemu 8192 k _ hptr (by decide)
  have hfirst : Grants ∅ 0 (u64 ((16384 : ℕ) + (8192 : ℕ))) (2 ^ 40) :=
    ⟨by decide, by decide, Set.empty_disjoint _, fun h => absurd rfl h⟩
  have hfits : k.Fits .qemu 16384 8192 (reservedLength .shipped (fun _ => some f) [1] 16384)
      (2 ^ 40) := by
    rw [Answers.Fits, haddr]
    exact ⟨by decide, Or.inr (Or.inl ⟨by decide, by decide⟩)⟩
  obtain ⟨halign, hunmaps⟩ := (qemuRamMmap_pcow_iff hptr (by decide) hfirst (by
    rw [hlen, haddr]
    exact .of_hint (by decide) (by decide) (Set.empty_disjoint _) (by decide) (by decide)
      (by decide)
      (by decide)) hr rfl).mpr hfits
  refine ⟨f, k, _, _, hr, rfl, halign, hunmaps, ?_⟩
  rw [hk]
  decide

end Pcow
