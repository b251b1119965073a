import Pcow.Ram
import Pcow.Ready

/-!
# The memory backend

How a virtual machine comes to have an image as its memory, in the functions of QEMU that are
patched for it. `file_backend_memory_alloc` takes the size of the image and makes a memory region of
it, `qemu_ram_alloc_from_fd` computes the size of the block of memory once more, from the file, and
`file_ram_alloc` rounds it up and has it mapped by `qemu_ram_mmap`. In a system of images the three
sizes are one, that of all blocks of the image, and the range that is mapped is that of a session
(`backend_memory`): what the guest has as its memory is the byte array of the image.

A file that is not formatted is not refused: `file_backend_memory_alloc` returns without an error,
and there is no memory. And `qemu_ram_mmap` may unmap at its end what `fmmap` has mapped for itself,
its super blocks and meta blocks: then there is memory, but no session (`RamBlock.Intact`).

Memory is not allocated ahead here: `mem_prealloc` is not set.
-/

namespace Pcow

/-! ### Setting up the memory -/

/-- What the functions look at besides their arguments, and what the kernel answers. -/
structure Host where
  xenEnabled : Bool
  kvmEnabled : Bool
  kvmHasSyncMmu : Bool
  /-- `phys_mem_alloc` is `qemu_anon_ram_alloc`. -/
  anonRamAlloc : Bool
  /-- The page size of the file system, if it is a hugetlbfs. -/
  hugePageSize : Option ℕ
  hugePageSize_pow : ∀ n ∈ hugePageSize, ∃ k < 64, n = 2 ^ k
  /-- The blocks of memory there are: their offsets and their lengths. -/
  ramBlocks : List (ℕ × ℕ)
  /-- `BITS_PER_LONG << TARGET_PAGE_BITS`. -/
  ramAlign : ℕ
  macros : AlignMacros
  kernel : Answers

/-- `qemu_fd_getpagesize`. -/
def Host.fdPageSize (h : Host) : ℕ := h.hugePageSize.getD pageSize

theorem Host.fdPageSize_pow (h : Host) : ∃ k < 64, h.fdPageSize = 2 ^ k := by
  rw [fdPageSize]
  rcases hp : h.hugePageSize with _ | n
  · exact ⟨12, by norm_num, by norm_num [pageSize]⟩
  · exact h.hugePageSize_pow n hp

theorem Host.fdPageSize_pos (h : Host) : 0 < h.fdPageSize ∧ h.fdPageSize < 2 ^ 64 := by
  obtain ⟨k, hk, heq⟩ := h.fdPageSize_pow
  rw [heq]
  exact ⟨Nat.two_pow_pos k, Nat.pow_lt_pow_right (by norm_num) hk⟩

/-- The errors that are set. -/
inductive RamError
  /-- `can't create backend with size 0`. -/
  | sizeZero
  /-- `mem-path property not set`. -/
  | noMemPath
  /-- `size (size=%ld) should not be set for a formated memory-backend-file`. -/
  | sizeSet (size : ℕ)
  /-- `unknow memory backend file format: %s`. -/
  | unknownFormat (formatName : Path)
  /-- `-mem-path not supported with Xen`. -/
  | xen
  /-- `host lacks kvm mmu notifiers, -mem-path unsupported`. -/
  | noSyncMmu
  /-- `-mem-path not supported with this accelerator`. -/
  | accelerator
  /-- `backing store %s size 0x%x does not match 'size' option 0x%x`. -/
  | fileSize (fileSize size : ℕ)
  /-- `alignment 0x%x must be multiples of page size 0x%zx`. -/
  | alignPage (align pageSize : ℕ)
  /-- `alignment 0x%x must be a power of two`. -/
  | alignPower (align : ℕ)
  /-- `memory size 0x%x must be equal to or larger than page size 0x%zx`. -/
  | memorySize (memory pageSize : ℕ)
  /-- `unable to map backing store for guest RAM`. -/
  | notMapped

/-- Two ranges share no address. -/
def Extent.Apart (e e' : Extent) : Prop := e.start + e.len ≤ e'.start ∨ e'.start + e'.len ≤ e.start

instance (e e' : Extent) : Decidable (e.Apart e') := inferInstanceAs (Decidable (_ ∨ _))

/-- **What `fmmap` has mapped is left alone** at the end of `qemu_ram_mmap`. -/
def RamBlock.Intact (b : RamBlock) : Prop := ∀ u ∈ b.unmaps, ∀ m ∈ b.maps.tail, u.Apart m

instance (b : RamBlock) : Decidable b.Intact := inferInstanceAs (Decidable (∀ u ∈ _, ∀ m ∈ _, _))

/-- A block of guest memory: the fields of a `RAMBlock` that are set here. -/
structure GuestRam where
  /-- Its place among the blocks. -/
  offset : ℕ
  pageSize : ℕ
  /-- The `align` of its memory region, as it is then. -/
  align : ℕ
  usedLength : ℕ
  maxLength : ℕ
  /-- `RAM_SHARED` is set. -/
  shared : Bool
  /-- The address of the memory. -/
  host : ℕ
  /-- What is mapped for it. -/
  mapped : RamBlock
  /-- The session, on a formatted image that is mapped shared, if its mappings are left alone. -/
  session : Option Session

/-- `file_ram_alloc`, for a block of `size` bytes that has no place yet. -/
def fileRamAlloc (cfg : Config) (h : Host) (fs : Fs) (fd : Path) (align size : ℕ)
    (share truncate : Bool) (format : Format) : Except Fault (Fs × Except RamError GuestRam) :=
  if align % h.fdPageSize ≠ 0 then .ok (fs, .error (.alignPage align h.fdPageSize))
  else if align ≠ 0 ∧ ¬h.macros.isPowerOf2 align then .ok (fs, .error (.alignPower align))
  else if size < h.fdPageSize then .ok (fs, .error (.memorySize size h.fdPageSize))
  else
    let align := max h.fdPageSize align
    let memory := h.macros.roundUp size h.fdPageSize
    let fs :=
      if truncate ∧ memory < 2 ^ 63 then
        Function.update fs fd (some (((fs fd).getD .empty).truncate memory))
      else fs
    match qemuRamMmap h.macros cfg fs fd memory align format h.kernel with
    | .error e => .error e
    | .ok b => match b.ptr1 with
      | none => .ok (fs, .error .notMapped)
      | some area => match format with
        | .raw => .ok (fs, .ok ⟨0, h.fdPageSize, align, size, size, share, area, b, none⟩)
        | .pcow => (Session.fmmap cfg fs fd memory 0).map fun ses =>
          ((ses.map Session.fs).getD fs,
            -- of a private mapping not all stores would reach the file
            .ok ⟨0, h.fdPageSize, align, size, size, share, area, b,
              if share ∧ b.Intact then ses else none⟩)

/-- `RAM_ADDR_MAX`. -/
def ramAddrMax : ℕ := 2 ^ 64 - 1

/-- `find_ram_offset`: the place in the smallest gap that is large enough. Where there are blocks
but no such gap, it aborts. -/
def findRamOffset (h : Host) (size : ℕ) : Except Fault ℕ :=
  if size = 0 then .error .assertFailed
  else if h.ramBlocks = [] then .ok 0
  else
    let best := h.ramBlocks.foldl (fun best block =>
      let candidate := h.macros.roundUp (u64 (block.1 + block.2)) h.ramAlign
      let next := h.ramBlocks.foldl (fun next nextBlock =>
        if nextBlock.1 ≥ candidate then min next nextBlock.1 else next) ramAddrMax
      if next - candidate ≥ size ∧ next - candidate < best.2 then (candidate, next - candidate)
      else best) (ramAddrMax, ramAddrMax)
    if best.1 = ramAddrMax then .error .assertFailed else .ok best.1

/-- `ram_block_add`, for a block that has its memory: it gets its place. Where there is no memory
yet it is allocated here, and only this can fail with an error. -/
def ramBlockAdd (h : Host) (b : GuestRam) : Except Fault GuestRam :=
  (findRamOffset h b.maxLength).map fun offset => { b with offset }

/-- What `qemu_ram_alloc_from_fd` returns. -/
inductive RamAlloc
  /-- A null pointer, and an error is set. -/
  | null (e : RamError) : RamAlloc
  /-- `MAP_FAILED`, which no caller compares with. -/
  | mapFailed : RamAlloc
  /-- A block. -/
  | block (b : GuestRam) : RamAlloc

/-- The end of `qemu_ram_alloc_from_fd`: the block is made. -/
def allocBlock (cfg : Config) (h : Host) (fs : Fs) (fd : Path) (align : ℕ) (share truncate : Bool)
    (format : Format) (size : ℕ) : Except Fault (Fs × RamAlloc) :=
  match fileRamAlloc cfg h fs fd align size share truncate format with
  | .error e => .error e
  | .ok (fs, .error e) => .ok (fs, .null e)
  | .ok (fs, .ok b) => (ramBlockAdd h b).map fun b => (fs, .block b)

/-- `qemu_ram_alloc_from_fd`. -/
def qemuRamAllocFromFd (cfg : Config) (h : Host) (fs : Fs) (fd : Path) (size align : ℕ)
    (share : Bool)
    (format : Format) : Except Fault (Fs × RamAlloc) :=
  let f := (fs fd).getD .empty
  let alloc := allocBlock cfg h fs fd align share (f.size = 0) format
  if h.xenEnabled then .ok (fs, .null .xen)
  else if h.kvmEnabled ∧ ¬h.kvmHasSyncMmu then .ok (fs, .null .noSyncMmu)
  else if ¬h.anonRamAlloc then .ok (fs, .null .accelerator)
  else match format with
    | .pcow => match readFirstSuper cfg f fd 0 with
      | .error e => .error e
      | .ok none => .ok (fs, .mapFailed)
      | .ok (some s) => alloc (u64 (u64 s.maxBlockNum * s.blockSize))
    | .raw =>
      let size := h.macros.roundUp size pageSize
      if f.size > 0 ∧ f.size < size then .ok (fs, .null (.fileSize f.size size))
      else alloc size

/-- `qemu_ram_alloc_from_file`. A file that it has created is removed on failure. -/
def qemuRamAllocFromFile (cfg : Config) (h : Host) (fs : Fs) (memPath : Path) (size align : ℕ)
    (share : Bool) (format : Format) : Except Fault (Fs × RamAlloc) :=
  (qemuRamAllocFromFd cfg h (Function.update fs memPath (some ((fs memPath).getD .empty)))
    memPath size
    align share format).map fun x =>
      match x.2 with
      | .null e => (if fs memPath = none then Function.update x.1 memPath none else x.1, .null e)
      | r => (x.1, r)

/-- A memory region: its fields that are set here. -/
structure MemoryRegion where
  size : ℕ
  /-- As it is given; the block has the one that is used. -/
  align : ℕ
  format : Format
  ramBlock : RamAlloc

/-- `memory_region_init_ram_from_file`. -/
def memoryRegionInitRamFromFile (cfg : Config) (h : Host) (fs : Fs) (size align : ℕ) (share : Bool)
    (path : Path) (format : Format) : Except Fault (Fs × MemoryRegion) :=
  (qemuRamAllocFromFile cfg h fs path size align share format).map fun x =>
    (x.1, ⟨size, align, format, x.2⟩)

/-- A `memory-backend-file`. -/
structure FileBackend where
  /-- The size, 0 if it is not set. -/
  size : ℕ
  memPath : Option Path
  align : ℕ
  share : Bool
  formatName : Option Path
  /-- Its memory region is there already. -/
  mrInited : Bool

/-- What comes of the allocation: an error, no region and no error, or a region. -/
inductive Allocated
  | error (e : RamError) : Allocated
  | nothing : Allocated
  | region (mr : MemoryRegion) : Allocated

/-- The size a formatted image has for the backend, `none` if it is not one. -/
def imageSize (cfg : Config) (f : ByteFile) (fd : Path) : Except Fault (Option ℕ) :=
  (readFirstSuper cfg f fd 0).map fun s => s.map fun s => u64 (u64 s.blockSize * s.maxBlockNum)

/-- The end of `file_backend_memory_alloc`. -/
def backendRegion (cfg : Config) (h : Host) (fs : Fs) (fb : FileBackend) (path : Path)
    (format : Format) : Except Fault (Fs × FileBackend × Allocated) :=
  if fb.mrInited then .ok (fs, fb, .nothing)
  else (memoryRegionInitRamFromFile cfg h fs fb.size fb.align fb.share path format).map fun x =>
    (x.1, fb, match x.2.ramBlock with
      | .null e => .error e
      | _ => .region x.2)

/-- The name of the format. -/
def pcowName : Path := [0x70, 0x63, 0x6f, 0x77]

/-- `file_backend_memory_alloc`. -/
def fileBackendMemoryAlloc (cfg : Config) (h : Host) (fs : Fs) (fb : FileBackend) :
    Except Fault (Fs × FileBackend × Allocated) :=
  if fb.size = 0 ∧ fb.formatName = none then .ok (fs, fb, .error .sizeZero)
  else match fb.memPath with
    | none => .ok (fs, fb, .error .noMemPath)
    | some path => match fb.formatName with
      | none => backendRegion cfg h fs fb path .raw
      | some name =>
        if fb.size ≠ 0 then .ok (fs, fb, .error (.sizeSet fb.size))
        else if name ≠ pcowName then .ok (fs, fb, .error (.unknownFormat name))
        else
          -- the file is created if it is missing, and stays
          let fs := Function.update fs path (some ((fs path).getD .empty))
          match imageSize cfg ((fs path).getD .empty) path with
          | .error e => .error e
          | .ok none => .ok (fs, fb, .nothing)
          | .ok (some size) => backendRegion cfg h fs { fb with size } path .pcow

/-! ### The sizes -/

variable {cfg : Config} {h : Host} {fs fs' : Fs} {fd p : Path} {n m align size : ℕ}
  {share : Bool} {b : GuestRam}

theorem AlignMacros.le_roundUp (q : AlignMacros) (hm : ∃ k < 64, m = 2 ^ k) (hle : n + m ≤ 2 ^ 64) :
    n ≤ q.roundUp n m := by
  obtain ⟨k, hk, rfl⟩ := hm
  exact (q.roundUp_next n k hk hle).2.1

/-- What is rounded already stays as it is. -/
theorem AlignMacros.roundUp_of_dvd (q : AlignMacros) (hm : ∃ k < 64, m = 2 ^ k) (hdvd : m ∣ n)
    (hle : n + m ≤ 2 ^ 64) : q.roundUp n m = n := by
  obtain ⟨k, hk, rfl⟩ := hm
  obtain ⟨hround, hge, hlt⟩ := q.roundUp_next n k hk hle
  have hdiff : 2 ^ k ∣ q.roundUp n (2 ^ k) - n := Nat.dvd_sub hround hdvd
  have hzero := Nat.eq_zero_of_dvd_of_lt hdiff (by omega)
  omega

theorem exists_pageSize_eq : ∃ k < 64, pageSize = 2 ^ k := ⟨12, by norm_num, by norm_num [pageSize]⟩

/-- A block that is made has the memory of `file_ram_alloc`. -/
theorem allocBlock_ok {truncate : Bool} {format : Format}
    (hr : allocBlock cfg h fs fd align share truncate format size = .ok (fs', .block b)) :
    ∃ b₀, fileRamAlloc cfg h fs fd align size share truncate format = .ok (fs', .ok b₀) ∧
      b = { b₀ with offset := b.offset } := by
  rw [allocBlock] at hr
  rcases hram : fileRamAlloc cfg h fs fd align size share truncate format with e | ⟨fs₁, e | b₀⟩
  · rw [hram] at hr
    cases hr
  · rw [hram] at hr
    cases hr
  · rw [hram] at hr
    obtain ⟨b₁, hadd, heq⟩ := map_eq_ok hr
    obtain ⟨o, -, rfl⟩ := map_eq_ok hadd
    cases heq
    exact ⟨b₀, rfl, rfl⟩

/-- **The memory of a block**: what `qemu_ram_mmap` maps, which for an image is a session. -/
theorem fileRamAlloc_ok {truncate : Bool} {format : Format} {b : GuestRam}
    (hr : fileRamAlloc cfg h fs fd align size share truncate format = .ok (fs', .ok b)) :
    h.fdPageSize ≤ size ∧ b.usedLength = size ∧ b.maxLength = size ∧
      b.align = max h.fdPageSize align ∧ b.mapped.ptr1 = some b.host ∧
      ∃ fs₁, (truncate = false → fs₁ = fs) ∧
        qemuRamMmap h.macros cfg fs₁ fd (h.macros.roundUp size h.fdPageSize) b.align format
          h.kernel = .ok b.mapped ∧
        (format = .pcow → ∃ ses,
          Session.fmmap cfg fs₁ fd (h.macros.roundUp size h.fdPageSize) 0 = .ok ses ∧
          fs' = (ses.map Session.fs).getD fs₁ ∧
          b.session = if share ∧ b.mapped.Intact then ses else none) := by
  rw [fileRamAlloc] at hr
  split_ifs at hr with halign hpower hsize
  · cases hr
  · cases hr
  · cases hr
  dsimp only at hr
  obtain ⟨fs₁, hfs₁⟩ : ∃ x, x = (if truncate = true ∧ h.macros.roundUp size h.fdPageSize < 2 ^ 63
      then Function.update fs fd (some (((fs fd).getD .empty).truncate
        (h.macros.roundUp size h.fdPageSize))) else fs) := ⟨_, rfl⟩
  rw [← hfs₁] at hr
  have hfs : truncate = false → fs₁ = fs := by
    rintro rfl
    rw [hfs₁, if_neg (by simp)]
  rcases hmap : qemuRamMmap h.macros cfg fs₁ fd (h.macros.roundUp size h.fdPageSize)
      (max h.fdPageSize align) format h.kernel with e | x
  · rw [hmap] at hr
    cases hr
  rw [hmap] at hr
  rcases hptr : x.ptr1 with _ | area
  · simp only [hptr] at hr
    cases hr
  simp only [hptr] at hr
  cases format with
  | raw =>
    cases hr
    exact ⟨not_lt.mp hsize, rfl, rfl, rfl, hptr, _, hfs, hmap, fun hpcow => by cases hpcow⟩
  | pcow =>
    obtain ⟨ses, hses, heq⟩ := map_eq_ok hr
    cases heq
    exact ⟨not_lt.mp hsize, rfl, rfl, rfl, hptr, fs₁, hfs, hmap, fun _ => ⟨ses, hses, rfl, rfl⟩⟩

/-- A block on a formatted image. -/
theorem allocBlock_pcow
    (hr : allocBlock cfg h fs fd align share false .pcow size = .ok (fs', .block b)) :
    ∃ ses, h.fdPageSize ≤ size ∧
      Session.fmmap cfg fs fd (h.macros.roundUp size h.fdPageSize) 0 = .ok (some ses) ∧
      fs' = ses.fs ∧ b.session = (if share ∧ b.mapped.Intact then some ses else none) ∧
      b.usedLength = size ∧ b.maxLength = size := by
  obtain ⟨b₀, hr, hb⟩ := allocBlock_ok hr
  obtain ⟨hsize, hused, hmax, -, hptr, fs₁, hfs, hmap, hpcow⟩ := fileRamAlloc_ok hr
  obtain rfl := hfs rfl
  obtain ⟨o, ho, hfs', hses⟩ := hpcow rfl
  -- `fmmap` has found an image, for `qemu_ram_mmap` gets an address from it
  obtain ⟨ses, rfl⟩ : ∃ ses, o = some ses := by
    refine Option.ne_none_iff_exists'.mp fun hnone => ?_
    rw [hnone] at ho
    rw [qemuRamMmap] at hmap
    rcases hk : h.kernel.ptr with _ | ptr
    · rw [hk] at hmap
      rw [← Except.ok.inj hmap] at hptr
      cases hptr
    · simp only [hk, ho, Except.map] at hmap
      split_ifs at hmap
      rw [← Except.ok.inj hmap] at hptr
      cases hptr
  rw [hb]
  exact ⟨ses, hsize, ho, hfs', hses, hused, hmax⟩

/-- What is mapped for a block. -/
theorem allocBlock_mapped {truncate : Bool} {format : Format}
    (hr : allocBlock cfg h fs fd align share truncate format size = .ok (fs', .block b)) :
    b.maxLength = size ∧ b.align = max h.fdPageSize align ∧ b.mapped.ptr1 = some b.host ∧
      ∃ fs₁, qemuRamMmap h.macros cfg fs₁ fd (h.macros.roundUp size h.fdPageSize) b.align format
        h.kernel = .ok b.mapped := by
  obtain ⟨b₀, hr, hb⟩ := allocBlock_ok hr
  obtain ⟨-, -, hmax, halign, hptr, fs₁, -, hmap, -⟩ := fileRamAlloc_ok hr
  rw [hb]
  exact ⟨hmax, halign, hptr, fs₁, hmap⟩

theorem u64_mul (x y : ℤ) : u64 (u64 x * y) = u64 (x * y) := by
  have hmod : (u64 x : ℤ) = x % 2 ^ 64 := Int.toNat_of_nonneg (Int.emod_nonneg _ (by norm_num))
  have hmul : (u64 x : ℤ) * y % 2 ^ 64 = x * y % 2 ^ 64 := by
    rw [hmod, Int.mul_emod, Int.emod_emod, ← Int.mul_emod]
  exact congrArg Int.toNat hmul

/-- The size that is computed for the block is the one that is computed for the backend. -/
theorem u64_size_comm (s : Super) : u64 (u64 s.maxBlockNum * s.blockSize) =
    u64 (u64 s.blockSize * s.maxBlockNum) := by
  rw [u64_mul, u64_mul, Int.mul_comm]

/-- On a formatted image an error is set, or there is a block. -/
theorem qemuRamAllocFromFd_pcow {s : Super} {r : RamAlloc}
    (hs : readFirstSuper cfg ((fs fd).getD .empty) fd 0 = .ok (some s))
    (hr : qemuRamAllocFromFd cfg h fs fd size align share .pcow = .ok (fs', r)) :
    (∃ e, r = .null e) ∨ ∃ b, r = .block b ∧
      allocBlock cfg h fs fd align share false .pcow (u64 (u64 s.blockSize * s.maxBlockNum)) =
        .ok (fs', .block b) := by
  have hsize := readFirstSuper_clSize hs
  have hne : ¬((fs fd).getD .empty).size = 0 := by omega
  simp only [qemuRamAllocFromFd, hs, hne, decide_false, u64_size_comm] at hr
  split_ifs at hr
  · cases hr
    exact Or.inl ⟨_, rfl⟩
  · cases hr
    exact Or.inl ⟨_, rfl⟩
  swap
  · cases hr
    exact Or.inl ⟨_, rfl⟩
  rw [allocBlock] at hr
  rcases hram : fileRamAlloc cfg h fs fd align (u64 (u64 s.blockSize * s.maxBlockNum)) share false
      .pcow with e | ⟨fs₁, e | b₀⟩
  · rw [hram] at hr
    cases hr
  · rw [hram] at hr
    cases hr
    exact Or.inl ⟨_, rfl⟩
  · rw [hram] at hr
    obtain ⟨b, hadd, heq⟩ := map_eq_ok hr
    cases heq
    refine Or.inr ⟨b, rfl, ?_⟩
    rw [allocBlock, hram]
    simp only [hadd]
    rfl

/-- The region of a backend on a formatted image. -/
theorem fileBackendMemoryAlloc_pcow {fb fb' : FileBackend} {mr : MemoryRegion}
    (hpath : fb.memPath = some p) (hformat : fb.formatName = some pcowName)
    (hr : fileBackendMemoryAlloc cfg h fs fb = .ok (fs', fb', .region mr)) :
    ∃ s, readFirstSuper cfg ((fs p).getD .empty) p 0 = .ok (some s) ∧
      mr.size = u64 (u64 s.blockSize * s.maxBlockNum) ∧ ∃ b, mr.ramBlock = .block b ∧
        allocBlock cfg h fs p fb.align fb.share false .pcow mr.size = .ok (fs', .block b) := by
  rw [fileBackendMemoryAlloc, hpath, hformat] at hr
  simp only [reduceCtorEq, and_false, if_false, ne_eq, not_true_eq_false, Function.update_self,
    Option.getD_some] at hr
  split_ifs at hr with hsize
  swap
  · cases hr
  rcases hs : readFirstSuper cfg ((fs p).getD .empty) p 0 with e | _ | s
  · simp only [imageSize, hs, Except.map] at hr
    cases hr
  · simp only [imageSize, hs, Except.map, Option.map_none] at hr
    cases hr
  simp only [imageSize, hs, Except.map, Option.map_some] at hr
  -- the file is there, or it would be empty
  have hfile : Function.update fs p (some ((fs p).getD .empty)) = fs := by
    rcases hf : fs p with _ | f
    · rw [hf, Option.getD_none, readFirstSuper_empty] at hs
      cases hs
    · rw [Option.getD_some, ← hf, Function.update_eq_self]
  rw [hfile, backendRegion] at hr
  split_ifs at hr with hinit
  · cases hr
  obtain ⟨x, hx, heq⟩ := map_eq_ok hr
  obtain ⟨y, hy, rfl⟩ := map_eq_ok hx
  obtain ⟨⟨fs₁, r⟩, hz, hzy⟩ := map_eq_ok hy
  rw [hfile] at hz
  rcases qemuRamAllocFromFd_pcow hs hz with ⟨e, rfl⟩ | ⟨b, rfl, hb⟩
  · cases hzy
    cases heq
  · cases hzy
    cases heq
    exact ⟨s, rfl, rfl, b, rfl, hb⟩

/-! ### The memory of a system -/

variable {W : World}

/-- **A file without an image is not refused**: there is no error and no region, and the file is
there then. -/
theorem fileBackendMemoryAlloc_of_empty {fb : FileBackend} (hnone : W.file p = .empty)
    (hpath : fb.memPath = some p) (hformat : fb.formatName = some pcowName) (hsize : fb.size = 0) :
    fileBackendMemoryAlloc cfg h W.fs fb =
      .ok (Function.update W.fs p (some .empty), fb, .nothing) := by
  rw [World.file] at hnone
  rw [fileBackendMemoryAlloc, hpath, hformat]
  simp only [reduceCtorEq, and_false, if_false, hsize, ne_eq, not_true_eq_false, hnone,
    Function.update_self, Option.getD_some, imageSize, readFirstSuper_empty, Except.map,
      Option.map_none]

/-- **The size of a range that is mapped** is that of all blocks, as it is. -/
theorem Geometry.size_eq {g : Geometry cfg}
    (h : u64 (u64 (g.blockSize : ℤ) * g.maxBlockNum) ≤ regLen) :
    (u64 (u64 (g.blockSize : ℤ) * g.maxBlockNum) : ℤ) = g.blockSize * g.maxBlockNum := by
  have hbs := g.blockSize_lt
  have hpos := g.blockSize_pos
  have h₁ := g.maxBlockNum_ge
  have h₂ := g.maxBlockNum_lt
  have hlow : -2 ^ 62 ≤ (g.blockSize : ℤ) * g.maxBlockNum := by nlinarith
  have hhigh : (g.blockSize : ℤ) * g.maxBlockNum < 2 ^ 62 := by nlinarith
  rw [u64_mul] at h ⊢
  generalize (g.blockSize : ℤ) * g.maxBlockNum = z at *
  rw [regLen] at h
  rw [u64] at h ⊢
  omega

theorem Geometry.pageSize_dvd_size {g : Geometry cfg} (hdvd : pageSize ∣ g.blockSize)
    (h : u64 (u64 (g.blockSize : ℤ) * g.maxBlockNum) ≤ regLen) :
    pageSize ∣ u64 (u64 (g.blockSize : ℤ) * g.maxBlockNum) := by
  have hdvd' : (pageSize : ℤ) ∣ u64 (u64 (g.blockSize : ℤ) * g.maxBlockNum) := by
    rw [Geometry.size_eq h]
    exact Dvd.dvd.mul_right (Int.natCast_dvd_natCast.mpr hdvd) _
  exact Int.natCast_dvd_natCast.mp hdvd'

/-- **The kernel has placed the mappings** so that what is unmapped at the end of `qemu_ram_mmap`
leaves those of `fmmap` alone. -/
def Answers.Clear (k : Answers) (q : AlignMacros) (size align : ℕ) : Prop :=
  ∀ ptr ∈ k.ptr, ∀ u ∈ trim size (u64 (size + align)) ptr (q.qemuAlignUp ptr align - ptr) k.addr,
    ∀ m ∈ ⟨k.addr, size⟩ :: k.inner, u.Apart m

/-- At a page boundary nothing but the guard page is left around the memory. -/
theorem trim_page (hdvd : pageSize ∣ n) (hle : n + pageSize ≤ 2 ^ 64) (q : AlignMacros) (m : ℕ) :
    trim size (u64 (size + pageSize)) n (q.qemuAlignUp n pageSize - n) m = [] := by
  obtain ⟨hup, hge, hlt⟩ := q.qemuAlignUp_next n pageSize (by decide) hle
  have hdiff := Nat.eq_zero_of_dvd_of_lt (Nat.dvd_sub hup hdvd) (by omega)
  have hu : u64 ((u64 ((size : ℤ) + pageSize) : ℕ) - ((0 : ℕ) : ℤ)) =
      u64 ((size : ℤ) + pageSize) := by
    rw [Nat.cast_zero, sub_zero, u64_natCast (by rw [u64]; omega)]
  rw [trim, hdiff, hu]
  simp

theorem Answers.clear_of_page {k : Answers} (hptr : ∀ ptr ∈ k.ptr, pageSize ∣ ptr ∧ ptr < addrLimit)
    (q : AlignMacros) (size : ℕ) : k.Clear q size pageSize := by
  intro ptr hmem u hu
  obtain ⟨hdvd, hlt⟩ := hptr ptr hmem
  rw [addrLimit] at hlt
  rw [trim_page hdvd (by rw [pageSize]; omega)] at hu
  cases hu

/-- **Memory that is aligned to pages is left alone**, wherever the kernel has placed it. -/
theorem RamBlock.intact_of_page {q : AlignMacros} {k : Answers} {x : RamBlock} {r : ℕ}
    (hptr : ∀ ptr ∈ k.ptr, pageSize ∣ ptr ∧ ptr < addrLimit)
    (hr : qemuRamMmap q cfg fs fd size pageSize .pcow k = .ok x) (hx : x.ptr1 = some r) :
    x.Intact := by
  rcases hk : k.ptr with _ | ptr
  · rw [qemuRamMmap, hk] at hr
    cases hr
    cases hx
  obtain ⟨hdvd, hlt⟩ := hptr ptr hk
  obtain ⟨-, htotal, -, -, -, rfl⟩ := qemuRamMmap_pcow hk (by decide) hr hx
  rw [addrLimit] at hlt
  have htrim := @trim_page ptr size hdvd (by rw [pageSize]; omega) q r
  rw [← Nat.cast_add, u64_natCast htotal] at htrim
  intro u hu
  rw [htrim] at hu
  cases hu

/-- The conditions under which a block of memory is made of a file, as they are without hugepages:
there is a place for it, too, and the kernel leaves the mappings alone. -/
structure Host.Allows (h : Host) (align size : ℕ) : Prop where
  xen : h.xenEnabled = false
  kvm : h.kvmEnabled = false ∨ h.kvmHasSyncMmu = true
  anonRamAlloc : h.anonRamAlloc = true
  hugePageSize : h.hugePageSize = none
  dvd : pageSize ∣ align
  power : align = 0 ∨ h.macros.isPowerOf2 align = true
  place : ∃ offset, findRamOffset h size = .ok offset
  ptr : h.kernel.ptr ≠ none
  clear : h.kernel.Clear h.macros size (max pageSize align)

/-- **The assertions of `qemu_ram_mmap` hold**: the alignment has been looked at. -/
theorem Host.Allows.max_align (ha : h.Allows align size) :
    h.macros.isPowerOf2 (max pageSize align) = true ∧ max pageSize align ≥ pageSize := by
  refine ⟨?_, le_max_left _ _⟩
  have hpage : h.macros.isPowerOf2 pageSize = true := by
    obtain ⟨k, -, hk⟩ := exists_pageSize_eq
    exact (h.macros.isPowerOf2_iff _).mpr ⟨k, hk⟩
  rcases ha.power with rfl | hpower
  · rwa [Nat.max_zero]
  rcases Nat.eq_zero_or_pos align with rfl | hpos
  · rwa [Nat.max_zero]
  · rw [max_eq_right (Nat.le_of_dvd hpos ha.dvd)]
    exact hpower

theorem exists_qemuRamMmap {ses : Session} (ha : h.Allows align size) (hpos : 0 < size)
    (hmap : Session.fmmap cfg fs fd size 0 = .ok (some ses)) :
    ∃ x, qemuRamMmap h.macros cfg fs fd size (max pageSize align) .pcow h.kernel = .ok x ∧
      x.ptr1 = some h.kernel.addr ∧ x.Intact := by
  obtain ⟨ptr, hptr⟩ := Option.ne_none_iff_exists'.mp ha.ptr
  obtain ⟨hlen, -, -, hsize⟩ := Session.fmmap_length hmap
  have hlen' : ses.s.fmmapLength = size := hlen.trans (hsize hpos.ne')
  rw [qemuRamMmap, hptr]
  simp only [if_pos ha.max_align, hmap]
  refine ⟨_, rfl, rfl, fun u hu m hm => ?_⟩
  refine ha.clear ptr hptr u hu m ?_
  rw [← hlen']
  exact hm

theorem exists_allocBlock {ses : Session} (share : Bool) (ha : h.Allows align size)
    (hdvd : pageSize ∣ size) (hpos : 0 < size) (hlt : size < 2 ^ 63)
    (hmap : Session.fmmap cfg fs fd size 0 = .ok (some ses)) :
    ∃ b, allocBlock cfg h fs fd align share false .pcow size = .ok (ses.fs, .block b) ∧
      b.session = (if share then some ses else none) := by
  have hfd : h.fdPageSize = pageSize := by rw [Host.fdPageSize, ha.hugePageSize, Option.getD_none]
  have hround : h.macros.roundUp size pageSize = size :=
    h.macros.roundUp_of_dvd exists_pageSize_eq hdvd (by rw [pageSize]; omega)
  have hpower : ¬(align ≠ 0 ∧ ¬h.macros.isPowerOf2 align = true) :=
    fun hno => hno.2 (ha.power.resolve_left hno.1)
  obtain ⟨x, hx, hptr, hintact⟩ := exists_qemuRamMmap ha hpos hmap
  obtain ⟨offset, hplace⟩ := ha.place
  rw [allocBlock, fileRamAlloc, hfd, if_neg (not_not.mpr (Nat.mod_eq_zero_of_dvd ha.dvd)),
    if_neg hpower, if_neg (not_lt.mpr (Nat.le_of_dvd hpos hdvd)), hround]
  simp only [Bool.false_eq_true, false_and, if_false, hx, hptr, hmap, Except.map, ramBlockAdd,
    hplace, hintact, and_true]
  exact ⟨_, rfl, rfl⟩

theorem exists_qemuRamAllocFromFd {ses : Session} {s : Super} (size : ℕ) (share : Bool)
    (ha : h.Allows align n) (hs : readFirstSuper cfg ((fs fd).getD .empty) fd 0 = .ok (some s))
    (hn : u64 (u64 s.blockSize * s.maxBlockNum) = n) (hdvd : pageSize ∣ n) (hpos : 0 < n)
    (hlt : n < 2 ^ 63) (hmap : Session.fmmap cfg fs fd n 0 = .ok (some ses)) :
    ∃ b, qemuRamAllocFromFd cfg h fs fd size align share .pcow = .ok (ses.fs, .block b) ∧
      b.session = (if share then some ses else none) := by
  have hsize := readFirstSuper_clSize hs
  have hne : ¬((fs fd).getD .empty).size = 0 := by omega
  have hkvm : ¬(h.kvmEnabled = true ∧ ¬h.kvmHasSyncMmu = true) := by
    rcases ha.kvm with hk | hk
    · rw [hk]
      exact fun hno => Bool.false_ne_true hno.1
    · exact fun hno => hno.2 hk
  obtain ⟨b, hb, hses⟩ := exists_allocBlock share ha hdvd hpos hlt hmap
  simp only [qemuRamAllocFromFd, hs, hne, decide_false, u64_size_comm, hn, hb, ha.xen,
    ha.anonRamAlloc,
    if_neg hkvm, Bool.false_eq_true, not_true_eq_false, if_false]
  exact ⟨b, rfl, hses⟩

/-- The size of a volume is the length of its whole range. -/
theorem IsVolume.imageSize {g : Geometry cfg} {ls : List (List ℕ)} {es : List ℕ} {w : Volume}
    (hv : IsVolume g fs p ls es w) :
    Pcow.imageSize cfg ((fs p).getD .empty) p = .ok (some (w.rangeLength 0)) := by
  obtain ⟨e, l, -, hread⟩ := hv.image.readFirstSuper p
  rw [Pcow.imageSize, hread, Volume.rangeLength, if_pos rfl, hv.blockSize, hv.maxBlockNum,
    ← u64_mul]
  rfl

/-- **A backend on an image that may be opened gets its region.** -/
theorem Shelved.exists_region {sh : Shelf} {fb : FileBackend} (hsh : Shelved cfg W sh)
    (hsize : imageSize cfg (W.file p) p = .ok (some n)) (hpos : 0 < n) (hle : n ≤ regLen)
    (hadm : W.Admits cfg (.fmmap p n 0)) (hbase : W.NoBase cfg p)
    (hallows : h.Allows fb.align n)
    (hfb : fb.size = 0 ∧ fb.memPath = some p ∧ fb.formatName = some pcowName ∧
      fb.mrInited = false) :
    ∃ fs' b, fileBackendMemoryAlloc cfg h W.fs fb =
        .ok (fs', { fb with size := n }, .region ⟨n, fb.align, .pcow, .block b⟩) ∧
      (fb.share = true → ∃ ses, b.session = some ses) := by
  obtain ⟨hzero, hpath, hformat, hinit⟩ := hfb
  obtain ⟨o, ho, heq⟩ := map_eq_ok hsize
  obtain ⟨s, rfl, hn⟩ := Option.map_eq_some_iff.mp heq
  obtain ⟨w, g, ls, es, hw, hvolume⟩ : ∃ (w : Volume) (g : Geometry cfg) (ls : List (List ℕ))
      (es : List ℕ), sh.volumes p = some w ∧ IsVolume g W.fs p ls es w := by
    cases hsh p with
    | missing hses hopen hnone hfile =>
      rw [hfile, readFirstSuper_empty] at ho
      cases ho
    | closed hses hopen hw hvolume => exact ⟨_, _, _, _, hw, hvolume⟩
    | opened hses =>
      rw [hadm.1.1] at hses
      cases hses
  have hdvd : pageSize ∣ n := by
    obtain ⟨e, l, -, hread⟩ := hvolume.image.readFirstSuper p
    obtain rfl : superOf g p 0 e.length = s := by
      rw [World.file, hread] at ho
      exact Option.some.inj (Except.ok.inj ho)
    rw [← hn] at hle ⊢
    exact Geometry.pageSize_dvd_size hvolume.dvd hle
  have hready : W.Ready false cfg (.fmmap p n 0) := by
    refine ⟨fun s' _ => ?_, Or.inl hbase⟩
    rw [World.rangeLength, if_neg hpos.ne']
    exact ⟨hpos, hdvd⟩
  obtain ⟨W', r, sh', hr, hstep, -⟩ := hsh.exists_next hadm hready
  obtain ⟨ses, hmap⟩ : ∃ ses, Session.fmmap cfg W.fs p n 0 = .ok (some ses) := by
    cases hstep with
    | opens => exact World.exists_fmmap hr
    | refused hno =>
      have hlong := hno _ hw
      rw [Volume.rangeLength, if_neg hpos.ne'] at hlong
      omega
    | missing hop => exact hop.elim
  obtain ⟨b, hb, hsession⟩ := exists_qemuRamAllocFromFd n fb.share hallows ho hn hdvd hpos
    (by rw [regLen] at hle; omega) hmap
  obtain ⟨f, hf⟩ := hvolume.exists_file
  have hfile : Function.update W.fs p (some ((W.fs p).getD .empty)) = W.fs := by
    rw [hf, Option.getD_some, ← hf, Function.update_eq_self]
  refine ⟨ses.fs, b, ?_, fun hshare => ⟨ses, by rw [hsession, if_pos hshare]⟩⟩
  rw [fileBackendMemoryAlloc, hpath, hformat]
  simp only [reduceCtorEq, and_false, if_false, hzero, ne_eq, not_true_eq_false, hfile]
  rw [show imageSize cfg ((W.fs p).getD .empty) p = .ok (some n) from hsize]
  simp only [backendRegion, hinit, Bool.false_eq_true, if_false, memoryRegionInitRamFromFile,
    qemuRamAllocFromFile, hfile, hb]
  rfl

/-- A backend on a new image of 1 GiB. -/
theorem exists_backend (k : Answers) (hk : k.ptr ≠ none)
    (hptr : ∀ ptr ∈ k.ptr, pageSize ∣ ptr ∧ ptr < addrLimit) :
    ∃ (W : World) (h : Host) (fb : FileBackend),
      h.kernel = k ∧ h.macros = .qemu ∧ fb.align = 0 ∧ fb.share = true ∧ W.Reachable .shipped ∧
      imageSize .shipped (W.file [1]) [1] = .ok (some (2 ^ 30)) ∧
      W.Admits .shipped (.fmmap [1] (2 ^ 30) 0) ∧
      W.baseOf [1] = [] ∧ h.Allows fb.align (2 ^ 30) ∧
      fb.size = 0 ∧ fb.memPath = some [1] ∧ fb.formatName = some pcowName ∧
        fb.mrInited = false := by
  have h₀ : Shelved .shipped .init .init := shelved_init
  obtain ⟨W₁, ha₁, hr₁, h₁⟩ := h₀.exists_created [1] none
    (h₀.free_of_closed (fun _ => rfl) _) rfl (by simp)
  have hbase : W₁.baseOf [1] = [] := ((h₁ [1]).base_eq rfl).symm
  have hsize : imageSize .shipped (W₁.file [1]) [1] = .ok (some (2 ^ 30)) := by
    cases h₁ [1] with
    | missing hses hopen hnone => cases hnone
    | closed hses hopen hw hvolume =>
      cases hw
      exact hvolume.imageSize
    | opened hses hopen => cases hopen
  have hpow : ∀ n ∈ (none : Option ℕ), ∃ k < 64, n = 2 ^ k := by
    intro n hn
    cases hn
  let h : Host := ⟨false, false, false, true, none, hpow, [], 2 ^ 18, .qemu, k⟩
  refine ⟨W₁, h, ⟨0, some [1], 0, true, some pcowName, false⟩, rfl, rfl, rfl, rfl,
    World.reachable_init.next ha₁ hr₁, hsize,
    ⟨h₁.free_of_closed (fun _ => rfl) _, Or.inl hbase⟩, hbase, ?_, rfl, rfl, rfl, rfl⟩
  have hclear := k.clear_of_page hptr .qemu (2 ^ 30)
  exact ⟨rfl, Or.inl rfl, rfl, rfl, dvd_zero _, Or.inl rfl, ⟨0, rfl⟩, hk, hclear⟩

/-- **A backend on an image gets its region**, without a fault and without an error, if the image
may be opened and has no base, and the host allows for it: the assertions of `qemu_ram_mmap` and of
`fmmap` on the alignment and on the length of the range hold for the values that are computed. If it
is shared, its memory is a session. -/
theorem backend_returns (cfg : Config) (h : Host) (W : World) (p : Path) (fb : FileBackend) (n : ℕ)
    (hW : W.Reachable cfg) (hsize : imageSize cfg (W.file p) p = .ok (some n)) (hpos : 0 < n)
    (hle : n ≤ regLen) (hadm : W.Admits cfg (.fmmap p n 0)) (hbase : W.NoBase cfg p)
    (hallows : h.Allows fb.align n)
    (hfb : fb.size = 0 ∧ fb.memPath = some p ∧ fb.formatName = some pcowName ∧
      fb.mrInited = false) :
    ∃ fs' b, fileBackendMemoryAlloc cfg h W.fs fb =
        .ok (fs', { fb with size := n }, .region ⟨n, fb.align, .pcow, .block b⟩) ∧
      (fb.share = true → ∃ ses, b.session = some ses) := by
  obtain ⟨sh, hsh⟩ := hW.shelved
  exact hsh.exists_region hsize hpos hle hadm hbase hallows hfb

/-- The kernel has placed both mappings at the page boundaries from `2 ^ 40` on. -/
theorem page_of_some (ptr : ℕ) (hptr : ptr ∈ some (2 ^ 40 : ℕ)) : pageSize ∣ ptr ∧
    ptr < addrLimit := by
  cases hptr
  exact ⟨by norm_num [pageSize], by norm_num [addrLimit]⟩

/-- It gets its region. -/
theorem backend_returns_new : ∃ (W : World) (h : Host) (fb : FileBackend) (fs' : Fs) (b : GuestRam)
    (ses : Session), fb.formatName = some pcowName ∧
      fileBackendMemoryAlloc .shipped h W.fs fb = .ok (fs', { fb with size := 2 ^ 30 },
        .region ⟨2 ^ 30, fb.align, .pcow, .block b⟩) ∧ b.session = some ses := by
  obtain ⟨W, h, fb, -, -, -, hshare, hW, hsize, hadm, hbase, hallows, hfb⟩ :=
    exists_backend ⟨some (2 ^ 40), true, 2 ^ 40 - 2 ^ 30, []⟩ (Option.some_ne_none _) page_of_some
  obtain ⟨fs', b, hr, hsession⟩ := backend_returns .shipped h W [1] fb (2 ^ 30) hW hsize
    (by norm_num) (by rw [regLen]; norm_num) hadm (Or.inl hbase) hallows hfb
  obtain ⟨ses, hses⟩ := hsession hshare
  exact ⟨W, h, fb, fs', b, ses, hfb.2.2.1, hr, hses⟩

/-- **The sizes of a backend**, of the block of its region and of the session that is its memory. -/
theorem Shelved.of_region {sh : Shelf} {fb fb' : FileBackend} {mr : MemoryRegion}
    (hsh : Shelved cfg W sh)
    (hpath : fb.memPath = some p) (hformat : fb.formatName = some pcowName)
    (hshare : fb.share = true)
    (hr : fileBackendMemoryAlloc cfg h W.fs fb = .ok (fs', fb', .region mr)) :
    ∃ s b ses, readFirstSuper cfg (W.file p) p 0 = .ok (some s) ∧
      (mr.size : ℤ) = s.blockSize * s.maxBlockNum ∧ 0 < mr.size ∧ pageSize ∣ mr.size ∧
      mr.ramBlock = .block b ∧ b.usedLength = mr.size ∧ b.maxLength = mr.size ∧
      (b.mapped.Intact → b.session = some ses) ∧
      (b.align = pageSize → (∀ ptr ∈ h.kernel.ptr, pageSize ∣ ptr ∧ ptr < addrLimit) →
        b.mapped.Intact) ∧ mr.size ≤ ses.s.fmmapLength ∧
      (h.hugePageSize = none → ses.s.fmmapLength = mr.size) ∧
      W.step cfg (.fmmap p (h.macros.roundUp mr.size h.fdPageSize) 0) =
        .ok (⟨fs', Function.update W.sessions p (some ses)⟩, .mapped) := by
  obtain ⟨s, hs, hsize, b, hb, hram⟩ := fileBackendMemoryAlloc_pcow hpath hformat hr
  obtain ⟨ses, hpage, hmap, rfl, hses, hused, hmax⟩ := allocBlock_pcow hram
  rcases (hsh p).image with hempty | ⟨g, ls, es, himage, hdvd⟩
  · rw [World.file] at hempty
    rw [hempty, readFirstSuper_empty] at hs
    cases hs
  obtain ⟨e, l, -, hread⟩ := himage.readFirstSuper p
  rw [World.file] at hread
  obtain rfl : superOf g p 0 e.length = s := by
    rw [hs] at hread
    exact (Option.some.inj (Except.ok.inj hread)).symm
  obtain ⟨hlen, -, hreg, hne⟩ := Session.fmmap_length hmap
  obtain ⟨hfd, hfd'⟩ := h.fdPageSize_pos
  have hn : mr.size < 2 ^ 64 := by
    rw [hsize, u64]
    omega
  have hle : mr.size ≤ regLen := by
    rcases Nat.lt_or_ge (2 ^ 64) (mr.size + h.fdPageSize) with hlt | hge
    · -- then the length is that of all blocks
      have hwrap : h.macros.roundUp mr.size h.fdPageSize = 0 := by
        obtain ⟨k, hk, heq⟩ := h.fdPageSize_pow
        rw [heq] at hlt ⊢
        exact h.macros.roundUp_wrap _ k hk hn hlt
      rw [hwrap, reservedLength, hread] at hreg
      rw [hsize]
      exact hreg
    · have hround := h.macros.le_roundUp h.fdPageSize_pow hge
      rw [hne (by omega)] at hreg
      exact le_trans hround hreg
  have hfit : mr.size + h.fdPageSize ≤ 2 ^ 64 := by
    obtain ⟨k, hk, heq⟩ := h.fdPageSize_pow
    have hpow : 2 ^ k ≤ 2 ^ 63 := Nat.pow_le_pow_right (by norm_num) (by omega)
    rw [regLen] at hle
    rw [heq]
    omega
  have hround := h.macros.le_roundUp h.fdPageSize_pow hfit
  have hlen' : ses.s.fmmapLength = h.macros.roundUp mr.size h.fdPageSize :=
    hlen.trans (hne (by omega))
  have hsize' : (mr.size : ℤ) = g.blockSize * g.maxBlockNum := by
    rw [hsize] at hle ⊢
    exact Geometry.size_eq hle
  have hdvd' : pageSize ∣ mr.size := by
    rw [hsize] at hle ⊢
    exact Geometry.pageSize_dvd_size hdvd hle
  refine ⟨_, b, ses, hread, hsize', by omega, hdvd', hb, hused, hmax, fun hintact => ?_,
    fun halign hptr => ?_, by omega, fun hnone => ?_, ?_⟩
  · rw [hses, if_pos ⟨hshare, hintact⟩]
  · obtain ⟨-, -, hsome, fs₁, hmapped⟩ := allocBlock_mapped hram
    rw [halign] at hmapped
    exact RamBlock.intact_of_page hptr hmapped hsome
  · rw [hlen']
    refine h.macros.roundUp_of_dvd h.fdPageSize_pow ?_ hfit
    rw [Host.fdPageSize, hnone, Option.getD_none]
    exact hdvd'
  · rw [World.step, hmap]

/-- **What the guest has as its memory.** Where images are used as they are to be, a shared backend
of this format on an image comes with a region that has the size of all blocks of the image, which
is a multiple of the page size and is what the super block says, without a wrap-around. The block of
memory that is made for it has the same size. Its memory is a session of the image whose range
covers it, and is no longer if pages have their usual size, as long as what `fmmap` has mapped for
it is left alone, which it is if nothing more than pages is to be aligned. -/
theorem backend_memory (cfg : Config) (h : Host) (W : World) (p : Path) (fb fb' : FileBackend)
    (fs' : Fs)
    (mr : MemoryRegion) (hW : W.Reachable cfg) (hpath : fb.memPath = some p)
    (hformat : fb.formatName = some pcowName) (hshare : fb.share = true)
    (hr : fileBackendMemoryAlloc cfg h W.fs fb = .ok (fs', fb', .region mr)) :
    ∃ s b ses, readFirstSuper cfg (W.file p) p 0 = .ok (some s) ∧
      (mr.size : ℤ) = s.blockSize * s.maxBlockNum ∧ 0 < mr.size ∧ pageSize ∣ mr.size ∧
      mr.ramBlock = .block b ∧ b.usedLength = mr.size ∧ b.maxLength = mr.size ∧
      (b.mapped.Intact → b.session = some ses) ∧
      (b.align = pageSize → (∀ ptr ∈ h.kernel.ptr, pageSize ∣ ptr ∧ ptr < addrLimit) →
        b.mapped.Intact) ∧ mr.size ≤ ses.s.fmmapLength ∧
      (h.hugePageSize = none → ses.s.fmmapLength = mr.size) ∧
      W.step cfg (.fmmap p (h.macros.roundUp mr.size h.fdPageSize) 0) =
        .ok (⟨fs', Function.update W.sessions p (some ses)⟩, .mapped) := by
  obtain ⟨sh, hsh⟩ := hW.shelved
  exact hsh.of_region hpath hformat hshare hr

/-- The memory of a machine on that image. -/
theorem backend_memory_new : ∃ (W : World) (h : Host) (fb : FileBackend) (fs' : Fs) (b : GuestRam)
    (ses : Session), fileBackendMemoryAlloc .shipped h W.fs fb =
    .ok (fs', { fb with size := 2 ^ 30 },
        .region ⟨2 ^ 30, fb.align, .pcow, .block b⟩) ∧
      b.usedLength = 2 ^ 30 ∧ b.mapped.Intact ∧ b.session = some ses ∧
        ses.s.fmmapLength = 2 ^ 30 := by
  obtain ⟨W, h, fb, hk, -, halign, hshare, hW, hsize, hadm, hbase, hallows, hfb⟩ :=
    exists_backend ⟨some (2 ^ 40), true, 2 ^ 40 - 2 ^ 30, []⟩ (Option.some_ne_none _) page_of_some
  obtain ⟨sh, hsh⟩ := hW.shelved
  obtain ⟨fs', b, hr, -⟩ := hsh.exists_region hsize (by norm_num)
    (by rw [regLen]; norm_num) hadm (Or.inl hbase) hallows hfb
  obtain ⟨s, b', ses, -, -, -, -, hb, hused, -, hses, hpage, -, hlen, -⟩ :=
    backend_memory .shipped h W [1] fb _ fs' _ hW hfb.2.1 hfb.2.2.1 hshare hr
  cases hb
  obtain ⟨-, -, -, b', hb', hram⟩ := fileBackendMemoryAlloc_pcow hfb.2.1 hfb.2.2.1 hr
  cases hb'
  have hintact : b.mapped.Intact := by
    refine hpage ?_ (by rw [hk]; exact page_of_some)
    rw [(allocBlock_mapped hram).2.1, Host.fdPageSize, hallows.hugePageSize,
      Option.getD_none, halign,
      Nat.max_zero]
  exact ⟨W, h, fb, fs', b, ses, hr, hused, hintact, hses hintact, hlen hallows.hugePageSize⟩

end Pcow
