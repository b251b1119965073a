import Pcow.Backend
import Pcow.Owners
import Pcow.Range
import Mathlib.Data.Set.Card
import Mathlib.Order.Interval.Finset.Nat
import Mathlib.Order.Interval.Set.Nat

/-!
# Memory that is given back

`reclaim_ramblock` frees a block of memory, and `qemu_ram_munmap` unmaps it. With the raw format
that is the memory and the guard page behind it, which is all that `qemu_ram_mmap` has left: the
process has the addresses mapped that it had before. With the format of this library it is `fmunmap`
that is called, and it unmaps what `fmmap` has reserved. The first mapping of `qemu_ram_mmap`, in
which the memory was to be, is not part of that. So a process in which backends come and go loses
the size of each and a page for good (`ram_cycles`), until there is no room for the next one.
-/

namespace Pcow

/-! ### Giving memory back -/

/-- `fmunmap`, in a process whose session is on `p` and whose `cur_s->addr` is `cur`: the range
that is passed to `munmap` beside what it does to the files. -/
def fmunmap (cfg : Config) (W : World) (p : Path) (cur addr : ℕ) :
    Except Fault (World × List Extent) :=
  match W.sessions p with
  -- `cur_s` is a null pointer
  | none => .error .sigsegv
  | some ses =>
    if addr ≠ cur then .ok (W, [])
    else (W.step cfg (.fmunmap p)).map fun x => (x.1, [⟨addr, ses.releasedLength⟩])

/-- `qemu_ram_munmap`. -/
def qemuRamMunmap (cfg : Config) (W : World) (p : Path) (cur ptr size : ℕ) (format : Format) :
    Except Fault (World × List Extent) :=
  if ptr ≠ 0 then
    match format with
    | .pcow => fmunmap cfg W p cur ptr
    | .raw => .ok (W, [⟨ptr, u64 (size + pageSize)⟩])
  else .ok (W, [])

/-- `reclaim_ramblock`, for a block that is made of a file. -/
def reclaimRamblock (cfg : Config) (W : World) (p : Path) (cur : ℕ) (b : GuestRam)
    (format : Format) :
    Except Fault (World × List Extent) :=
  qemuRamMunmap cfg W p cur b.host b.maxLength format

/-- The addresses in one of several ranges. -/
def covered (l : List Extent) : Set ℕ := {x | ∃ e ∈ l, x ∈ e.addrs}

/-- What is mapped after `qemu_ram_mmap`, which unmaps only at its end. -/
def RamBlock.after (b : RamBlock) (occupied : Set ℕ) : Set ℕ :=
  (occupied ∪ covered b.maps) \ covered b.unmaps

/-! ### What the trimming leaves -/

@[simp] theorem covered_nil : covered [] = ∅ := by
  ext x
  simp [covered]

@[simp] theorem covered_cons {e : Extent} {l : List Extent} :
    covered (e :: l) = e.addrs ∪ covered l := by
  ext x
  simp [covered]

theorem mem_addrs {x start len : ℕ} : x ∈ Extent.addrs ⟨start, len⟩ ↔ start ≤ x ∧ x < start + len :=
  Iff.rfl

theorem ncard_addrs (start len : ℕ) : (Extent.addrs ⟨start, len⟩).ncard = len := by
  rw [Extent.addrs, ← Finset.coe_Ico, Set.ncard_coe_finset, Nat.card_Ico]
  exact Nat.add_sub_cancel_left start len

theorem finite_addrs (e : Extent) : e.addrs.Finite := Set.finite_Ico _ _

theorem finite_covered (l : List Extent) : (covered l).Finite := by
  induction l with
  | nil =>
    rw [covered_nil]
    exact Set.finite_empty
  | cons e l ih =>
    rw [covered_cons]
    exact (finite_addrs e).union ih

section Trim

variable {occupied : Set ℕ} {size align ptr offset ptr1 : ℕ}

/-- The addresses that are unmapped at the end: those below the aligned part, and those behind the
memory and its guard page. -/
theorem mem_covered_trim (hoff : offset < align) (hpage : pageSize ≤ align - offset)
    (hlt : size + align < 2 ^ 64) {x : ℕ} : x ∈ covered (trim size (size + align) ptr offset ptr1) ↔
      x ∈ Extent.addrs ⟨ptr, offset⟩ ∨
        x ∈ Extent.addrs ⟨ptr1 + size + pageSize, align - offset - pageSize⟩ := by
  constructor
  · rintro ⟨u, hu, hx⟩
    rcases (mem_trim hoff (by omega) hlt).mp hu with ⟨-, rfl⟩ | ⟨-, rfl⟩
    · exact Or.inl hx
    · exact Or.inr hx
  · rintro (hx | hx)
    · refine ⟨_, (mem_trim hoff (by omega) hlt).mpr (Or.inl ⟨?_, rfl⟩), hx⟩
      rw [mem_addrs] at hx
      omega
    · refine ⟨_, (mem_trim hoff (by omega) hlt).mpr (Or.inr ⟨?_, rfl⟩), hx⟩
      rw [mem_addrs] at hx
      omega

/-- **The first mapping stays**: whatever is unmapped behind the memory, of the addresses that were
mapped before and those of the first mapping at least the size and a page more than before are
left. -/
theorem ncard_trim (hoff : offset < align) (hpage : pageSize ≤ align - offset)
    (hlt : size + align < 2 ^ 64) (hfin : occupied.Finite)
    (hfirst : Grants occupied 0 (size + align) ptr) :
    size + pageSize + occupied.ncard ≤ ((occupied ∪ Extent.addrs ⟨ptr, size + align⟩) \
      covered (trim size (size + align) ptr offset ptr1)).ncard := by
  have hpart : Disjoint occupied (Extent.addrs ⟨ptr + offset, size + align - offset⟩) := by
    refine hfirst.free.mono_right fun x hx => ?_
    rw [mem_addrs] at hx ⊢
    omega
  have hcard : (occupied ∪ Extent.addrs ⟨ptr + offset, size + align - offset⟩).ncard =
      occupied.ncard + (size + align - offset) := by
    rw [Set.ncard_union_eq hpart hfin (finite_addrs _), ncard_addrs]
  have htail := Set.ncard_le_ncard_sdiff_add_ncard
    (occupied ∪ Extent.addrs ⟨ptr + offset, size + align - offset⟩)
    (Extent.addrs ⟨ptr1 + size + pageSize, align - offset - pageSize⟩) (finite_addrs _)
  rw [hcard, ncard_addrs] at htail
  refine le_trans (by omega) (Set.ncard_le_ncard (s := (occupied ∪
    Extent.addrs ⟨ptr + offset, size + align - offset⟩) \
      Extent.addrs ⟨ptr1 + size + pageSize, align - offset - pageSize⟩) ?_
    ((hfin.union (finite_addrs _)).subset Set.sdiff_subset))
  rintro x ⟨hx, hnot⟩
  have hhead : x ∉ Extent.addrs ⟨ptr, offset⟩ := by
    intro hin
    rw [mem_addrs] at hin
    rcases hx with hx | hx
    · exact Set.disjoint_left.mp hfirst.free hx (mem_addrs.mpr ⟨hin.1, by omega⟩)
    · rw [mem_addrs] at hx
      omega
  refine ⟨hx.imp_right fun hx => ?_, fun hin => ?_⟩
  · rw [mem_addrs] at hx ⊢
    omega
  · rcases (mem_covered_trim hoff hpage hlt).mp hin with hin | hin
    · exact hhead hin
    · exact hnot hin

/-- With the raw format there is nothing left beside what was there. -/
theorem trim_raw (hoff : offset < align) (hpage : pageSize ≤ align - offset)
    (hlt : size + align < 2 ^ 64) (hfirst : Grants occupied 0 (size + align) ptr) :
    ((occupied ∪ covered [⟨ptr, size + align⟩, ⟨ptr + offset, size⟩]) \
      covered (trim size (size + align) ptr offset (ptr + offset))) \
        Extent.addrs ⟨ptr + offset, size + pageSize⟩ = occupied := by
  ext x
  have hsep : x ∈ occupied → ¬(ptr ≤ x ∧ x < ptr + (size + align)) :=
    fun hx => Set.disjoint_left.mp hfirst.free hx
  simp only [covered_cons, covered_nil, Set.union_empty, Set.mem_sdiff, Set.mem_union,
    mem_covered_trim hoff hpage hlt, mem_addrs]
  constructor
  · rintro ⟨⟨hx | hx | hx, hnot⟩, hnot'⟩
    · exact hx
    · omega
    · omega
  · intro hx
    have := hsep hx
    exact ⟨⟨Or.inl hx, by omega⟩, by omega⟩

end Trim

/-! ### A block comes and goes -/

variable {q : AlignMacros} {cfg : Config} {h : Host} {fs fs' : Fs} {fd p : Path}
  {size align ptr : ℕ} {k : Answers} {b : GuestRam} {occupied : Set ℕ}

/-- What is left before the aligned part is a number of pages, and so is what is left behind it. -/
theorem pageSize_le_sub (hpow : q.isPowerOf2 align = true) (hpage : pageSize ≤ align)
    (hptr : pageSize ∣ ptr) (hle : ptr + align ≤ 2 ^ 64) :
    q.qemuAlignUp ptr align - ptr < align ∧
      pageSize ≤ align - (q.qemuAlignUp ptr align - ptr) := by
  obtain ⟨hup, hge, hlt⟩ :=
    q.qemuAlignUp_next ptr align (Nat.lt_of_lt_of_le (by decide) hpage) hle
  have hdvd : pageSize ∣ align := by
    obtain ⟨k, rfl⟩ := (q.isPowerOf2_iff align).mp hpow
    rw [pageSize, show 4096 = 2 ^ 12 by norm_num] at hpage ⊢
    exact Nat.pow_dvd_pow 2 ((Nat.pow_le_pow_iff_right (by norm_num)).mp hpage)
  have hoff : pageSize ∣ q.qemuAlignUp ptr align - ptr := Nat.dvd_sub (dvd_trans hdvd hup) hptr
  refine ⟨by omega, Nat.le_of_dvd (by omega) (Nat.dvd_sub hdvd hoff)⟩

/-- What `qemu_ram_mmap` has mapped and unmapped with the raw format. -/
theorem qemuRamMmap_raw_eq {r : ℕ} {x : RamBlock} (hptr : k.ptr = some ptr)
    (hlt : size + align < 2 ^ 64) (hr : qemuRamMmap q cfg fs fd size align .raw k = .ok x)
    (hx : x.ptr1 = some r) : q.isPowerOf2 align = true ∧ pageSize ≤ align ∧
      r = ptr + (q.qemuAlignUp ptr align - ptr) ∧ x = ⟨some r, [⟨ptr, size + align⟩, ⟨r, size⟩],
        trim size (size + align) ptr (q.qemuAlignUp ptr align - ptr) r⟩ := by
  have hu : u64 ((size : ℤ) + align) = size + align := by rw [← Nat.cast_add, u64_natCast hlt]
  rw [qemuRamMmap, hptr, hu] at hr
  dsimp only at hr
  split_ifs at hr with hassert
  · cases hr
    cases hx
    exact ⟨hassert.1, hassert.2, rfl, rfl⟩
  · cases hr
    cases hx

/-- **The kernel has placed the mappings** of a block where there is room: the first one, and with
the format of this library the reservation of `fmmap` beside it. -/
structure Answers.Places (k : Answers) (q : AlignMacros) (occupied : Set ℕ)
    (size align ptr : ℕ) (format : Format) : Prop where
  ptr_eq : k.ptr = some ptr
  lt : size + align < 2 ^ 64
  first : Grants occupied 0 (size + align) ptr
  second : format = .pcow → Grants (occupied ∪ Extent.addrs ⟨ptr, size + align⟩)
    (q.qemuAlignUp ptr align) size k.addr
  inner : ∀ m ∈ k.inner, m.start + m.len ≤ addrLimit

theorem qemuRamMmap_isPowerOf2 {x : RamBlock} {format : Format} (hptr : k.ptr = some ptr)
    (hr : qemuRamMmap q cfg fs fd size align format k = .ok x) :
    q.isPowerOf2 align = true ∧ pageSize ≤ align := by
  rw [qemuRamMmap, hptr] at hr
  dsimp only at hr
  by_contra hno
  rw [if_neg hno] at hr
  cases hr

/-- The end of the aligned part is an address. -/
theorem Answers.Places.add_align_le {format : Format}
    (hk : k.Places q occupied size align ptr format) : ptr + align ≤ 2 ^ 64 := by
  have hle := hk.first.le
  rw [addrLimit] at hle
  omega

/-- **Raw memory is given back as a whole.** -/
theorem Answers.Places.raw {r : ℕ} {x : RamBlock} (hk : k.Places q occupied size align ptr .raw)
    (hr : qemuRamMmap q cfg fs fd size align .raw k = .ok x) (hx : x.ptr1 = some r) :
    x.after occupied \ Extent.addrs ⟨r, u64 (size + pageSize)⟩ = occupied := by
  obtain ⟨hpow, hpage, rfl, rfl⟩ := qemuRamMmap_raw_eq hk.ptr_eq hk.lt hr hx
  obtain ⟨hoff, hrest⟩ := pageSize_le_sub hpow hpage hk.first.page hk.add_align_le
  have hlt := hk.lt
  rw [← Nat.cast_add, u64_natCast (by omega)]
  exact trim_raw hoff hrest hk.lt hk.first

/-- **Of memory of the format of this library the first mapping stays.** -/
theorem Answers.Places.pcow {r : ℕ} {x : RamBlock} (hk : k.Places q occupied size align ptr .pcow)
    (hfin : occupied.Finite) (hr : qemuRamMmap q cfg fs fd size align .pcow k = .ok x)
    (hx : x.ptr1 = some r) :
    size + pageSize + occupied.ncard ≤ (x.after occupied \ Extent.addrs ⟨r, size⟩).ncard := by
  have hlt := hk.lt
  obtain ⟨-, -, rfl, -, -, rfl⟩ := qemuRamMmap_pcow hk.ptr_eq (by omega) hr hx
  obtain ⟨hpow, hpage⟩ := qemuRamMmap_isPowerOf2 hk.ptr_eq hr
  obtain ⟨hoff, hrest⟩ := pageSize_le_sub hpow hpage hk.first.page hk.add_align_le
  refine le_trans (@ncard_trim _ _ _ _ _ k.addr hoff hrest hk.lt hfin hk.first)
    (Set.ncard_le_ncard ?_ ?_)
  · rintro y ⟨hy, hnot⟩
    refine ⟨⟨hy.imp_right fun hy => ?_, hnot⟩, ?_⟩
    · exact ⟨_, List.mem_cons_self, hy⟩
    -- the reservation is beside all of it
    · exact fun hin => Set.disjoint_left.mp (hk.second rfl).free hy hin
  · exact (hfin.union (finite_covered _)).subset (Set.sdiff_subset.trans Set.sdiff_subset)

/-- A size that is rounded up is a number of pages, also where the sum wraps around. -/
theorem AlignMacros.roundUp_page (q : AlignMacros) (hlt : size < 2 ^ 64) :
    pageSize ∣ q.roundUp size pageSize ∧ q.roundUp size pageSize < 2 ^ 64 := by
  obtain ⟨k, hk, heq⟩ := exists_pageSize_eq
  rw [heq]
  rcases Nat.lt_or_ge (2 ^ 64) (size + 2 ^ k) with hwrap | hle
  · rw [q.roundUp_wrap size k hk hlt hwrap]
    exact ⟨dvd_zero _, by norm_num⟩
  · obtain ⟨hdvd, -, hround⟩ := q.roundUp_next size k hk hle
    exact ⟨hdvd, lt_of_lt_of_le hround hle⟩

/-- The block of a backend with a raw file is a number of pages. -/
theorem fileBackendMemoryAlloc_raw {fb fb' : FileBackend} {mr : MemoryRegion}
    (hpath : fb.memPath = some p) (hformat : fb.formatName = none) (hsize : fb.size < 2 ^ 64)
    (hr : fileBackendMemoryAlloc cfg h fs fb = .ok (fs', fb', .region mr))
    (hb : mr.ramBlock = .block b) : ∃ fs₁ truncate, pageSize ∣ b.maxLength ∧ b.maxLength < 2 ^ 64 ∧
      allocBlock cfg h fs₁ p fb.align fb.share truncate .raw b.maxLength = .ok (fs', .block b) := by
  rw [fileBackendMemoryAlloc, hpath, hformat] at hr
  simp only [and_true] at hr
  split_ifs at hr with hzero
  · cases hr
  rw [backendRegion] at hr
  split_ifs at hr with hinit
  · cases hr
  obtain ⟨x, hx, heq⟩ := map_eq_ok hr
  obtain ⟨y, hy, rfl⟩ := map_eq_ok hx
  obtain ⟨⟨fs₁, r⟩, hz, hzy⟩ := map_eq_ok hy
  simp only [qemuRamAllocFromFd] at hz
  split_ifs at hz
  · cases hz
    cases hzy
    cases heq
  · cases hz
    cases hzy
    cases heq
  · cases hz
    cases hzy
    cases heq
  swap
  · cases hz
    cases hzy
    cases heq
  -- of a region that there is, the block is the one that was made
  obtain rfl : r = .block b := by
    cases r with
    | null e =>
      cases hzy
      cases heq
    | mapFailed =>
      cases hzy
      cases heq
      cases hb
    | block b' =>
      cases hzy
      cases heq
      cases hb
      rfl
  cases hzy
  cases heq
  obtain ⟨hmax, -⟩ := allocBlock_mapped hz
  rw [hmax]
  obtain ⟨hdvd, hlt⟩ := h.macros.roundUp_page hsize
  exact ⟨_, _, hdvd, hlt, hz⟩

/-! ### The process of a machine -/

variable {W W' : World} {ses : Session}

/-- A session that is open stays open, with the sizes it has, in a step that is not a call of
`fmunmap`. -/
theorem World.session_step {op : WorldOp} {r : Answer} (hadm : W.Admits cfg op)
    (hr : W.step cfg op = .ok (W', r)) (hop : op ≠ .fmunmap p) (hses : W.sessions p = some ses)
    (hdvd : pageSize ∣ u64 ses.s.blockSize) (hpos : 0 < u64 ses.s.blockSize)
    (hlen : 0 < ses.s.fmmapLength) :
    ∃ ses', W'.sessions p = some ses' ∧ ses.s.SameFixed ses'.s := by
  cases op with
  | newImage name blockSize maxSize base =>
    obtain ⟨x, -, hx⟩ := map_eq_ok hr
    cases hx
    exact ⟨ses, hses, .refl⟩
  | updateBaseImage name base =>
    obtain ⟨x, -, hx⟩ := map_eq_ok hr
    cases hx
    exact ⟨ses, hses, .refl⟩
  | snapshot name =>
    obtain ⟨x, -, hx⟩ := map_eq_ok hr
    cases hx
    exact ⟨ses, hses, .refl⟩
  | rollbackSnapshot name no =>
    obtain ⟨x, -, hx⟩ := map_eq_ok hr
    cases hx
    exact ⟨ses, hses, .refl⟩
  | fmmap name length offset =>
    -- an image that is open is not opened
    have hne : p ≠ name := by
      rintro rfl
      rw [hadm.1.1] at hses
      cases hses
    rcases World.step_fmmap hr with ⟨-, rfl, -⟩ | ⟨ses', -, rfl, -⟩
    · exact ⟨ses, hses, .refl⟩
    · exact ⟨ses, (Function.update_of_ne hne _ _).trans hses, .refl⟩
  | guest name op =>
    obtain ⟨ses₁, ses', ev, hname, hin, hx, rfl, -⟩ := World.step_guest hr
    rcases eq_or_ne p name with rfl | hne
    · obtain rfl := Option.some.inj (hses.symm.trans hname)
      obtain ⟨v, -, hconf⟩ :=
        @Session.step_confined cfg (ses.on W.fs) ses' op ev hdvd hpos hin hlen hx
      exact ⟨ses', Function.update_self .., hconf.super⟩
    · exact ⟨ses, (Function.update_of_ne hne _ _).trans hses, .refl⟩
  | fmunmap name =>
    have hne : p ≠ name := fun heq => hop (by rw [heq])
    obtain ⟨ses₁, -, rfl, -⟩ := World.step_fmunmap hr
    exact ⟨ses, (Function.update_of_ne hne _ _).trans hses, .refl⟩

/-- **So it does in a run.** -/
theorem World.session_run {ops : List WorldOp} {rs : List Answer}
    (hadm : W.Along cfg (World.Admits cfg) ops) (hr : W.run cfg ops = .ok (W', rs))
    (hops : ∀ op ∈ ops, op ≠ .fmunmap p) (hses : W.sessions p = some ses)
    (hdvd : pageSize ∣ u64 ses.s.blockSize) (hpos : 0 < u64 ses.s.blockSize)
    (hlen : 0 < ses.s.fmmapLength) :
    ∃ ses', W'.sessions p = some ses' ∧ ses.s.SameFixed ses'.s := by
  induction ops generalizing W ses rs with
  | nil =>
    cases hr
    exact ⟨ses, hses, .refl⟩
  | cons op ops ih =>
    rw [List.forall_mem_cons] at hops
    obtain ⟨W₁, r, rs', hstep, hrest, -⟩ := World.run_cons hr
    obtain ⟨ses₁, hses₁, hs⟩ := World.session_step hadm.1 hstep hops.1 hses hdvd hpos hlen
    obtain ⟨ses', hses', hs'⟩ := ih (hadm.2 _ _ hstep) hrest hops.2 hses₁ (by rwa [hs.blockSize])
      (by rwa [hs.blockSize]) (by rwa [hs.fmmapLength])
    exact ⟨ses', hses', hs.trans hs'⟩

/-- The sizes of a session that is opened are those of the first super block. -/
theorem Shelved.sizes_of_fmmap {sh : Shelf} {length offset : ℕ} (hsh : Shelved cfg W sh)
    (hadm : W.Admits cfg (.fmmap p length offset))
    (hr : W.step cfg (.fmmap p length offset) = .ok (W', .mapped))
    (hses : W'.sessions p = some ses) : ∃ s, readFirstSuper cfg (W.file p) p 0 = .ok (some s) ∧
      ses.s.blockSize = s.blockSize ∧ ses.s.maxBlockNum = s.maxBlockNum ∧
      pageSize ∣ u64 ses.s.blockSize ∧ 0 < u64 ses.s.blockSize := by
  obtain ⟨sh', -, hsh'⟩ := hsh.step hadm hr
  have hfile : W'.file p = W.file p := by
    rcases World.step_fmmap hr with ⟨-, -, hfailed⟩ | ⟨ses', hmap, rfl, -⟩
    · cases hfailed
    · exact (Session.home_fmmap hmap).2 p
  cases hsh' p with
  | missing hs => rw [hs] at hses; cases hses
  | closed hs => rw [hs] at hses; cases hses
  | @opened ses₁ hs len ho w hw g ls es base hopen hbase =>
    obtain rfl := Option.some.inj (hses.symm.trans hs)
    have hcore := hopen.inv.core
    have himage : IsImage g (W.file p) ls es := by
      rw [← hfile]
      have := hcore.image
      rwa [Session.file, hopen.fd] at this
    obtain ⟨e, l, -, hread⟩ := himage.readFirstSuper p
    have hbs : u64 (g.blockSize : ℤ) = g.blockSize := by
      have := g.blockSize_lt
      exact u64_natCast (by omega)
    refine ⟨_, hread, hcore.super.blockSize, hcore.super.maxBlockNum, ?_, ?_⟩
    · rw [show ses.s.blockSize = g.blockSize from hcore.super.blockSize, hbs]
      exact hcore.page_dvd
    · rw [show ses.s.blockSize = g.blockSize from hcore.super.blockSize, hbs]
      exact g.blockSize_pos

/-- **A backend comes and goes**, in a process that has the addresses `occupied` mapped before: what
it has mapped after it. Pages have their usual size. -/
inductive RamCycle (cfg : Config) (occupied : Set ℕ) : Format → ℕ → Set ℕ → Prop
  /-- A backend with a raw file. -/
  | raw {h : Host} {W W₁ W₂ : World} {p : Path} {cur ptr : ℕ} {fb fb' : FileBackend} {fs' : Fs}
      {mr : MemoryRegion} {b : GuestRam} {us : List Extent} (hpath : fb.memPath = some p)
      (hformat : fb.formatName = none) (hsize : fb.size < 2 ^ 64) (hpages : h.hugePageSize = none)
      (hr : fileBackendMemoryAlloc cfg h W.fs fb = .ok (fs', fb', .region mr))
      (hb : mr.ramBlock = .block b)
      (hk : h.kernel.Places h.macros occupied b.maxLength b.align ptr .raw)
      (hne : b.host ≠ 0) (hfree : reclaimRamblock cfg W₁ p cur b .raw = .ok (W₂, us)) :
      RamCycle cfg occupied .raw b.maxLength (b.mapped.after occupied \ covered us)
  /-- A backend with an image: the machine and others do what they like before it goes. -/
  | pcow {h : Host} {W W₁ W₂ : World} {p : Path} {ptr : ℕ} {fb fb' : FileBackend} {fs' : Fs}
      {mr : MemoryRegion} {b : GuestRam} {us : List Extent} {ops : List WorldOp} {rs : List Answer}
      (hW : W.Reachable cfg) (hadm : W.Admits cfg (.fmmap p mr.size 0))
      (hpath : fb.memPath = some p)
      (hformat : fb.formatName = some pcowName) (hshare : fb.share = true)
      (hpages : h.hugePageSize = none)
      (hr : fileBackendMemoryAlloc cfg h W.fs fb = .ok (fs', fb', .region mr))
      (hb : mr.ramBlock = .block b) (hintact : b.mapped.Intact)
      (hk : h.kernel.Places h.macros occupied b.maxLength b.align ptr .pcow)
      (halong : World.Along cfg (World.Admits cfg)
        ⟨fs', Function.update W.sessions p b.session⟩ ops)
      (hrun : World.run cfg ⟨fs', Function.update W.sessions p b.session⟩ ops = .ok (W₁, rs))
      (hops : ∀ op ∈ ops, op ≠ .fmunmap p)
      (hfree : reclaimRamblock cfg W₁ p b.host b .pcow = .ok (W₂, us)) :
      RamCycle cfg occupied .pcow b.maxLength (b.mapped.after occupied \ covered us)

/-- Several backends, one after the other. -/
inductive RamCycles (cfg : Config) : Set ℕ → List (Format × ℕ) → Set ℕ → Prop
  | nil {occupied : Set ℕ} : RamCycles cfg occupied [] occupied
  | cons {occupied occupied' occupied'' : Set ℕ} {format : Format} {size : ℕ}
      {l : List (Format × ℕ)}
      (h : RamCycle cfg occupied format size occupied')
      (hl : RamCycles cfg occupied' l occupied'') :
      RamCycles cfg occupied ((format, size) :: l) occupied''

/-- What a process has lost when a block of memory has come and gone. -/
def lostBy : Format → ℕ → ℕ
  | .pcow, size => size + pageSize
  | .raw, _ => 0

variable {occupied' : Set ℕ} {format : Format}

/-- Nothing is mapped behind the end of the addresses. -/
theorem after_subset {x : RamBlock} {r : ℕ} (hk : k.Places q occupied size align ptr format)
    (hr : qemuRamMmap q cfg fs fd size align format k = .ok x) (hx : x.ptr1 = some r)
    (hsize : 0 < size)
    (hle : occupied ⊆ Set.Iio addrLimit) : x.after occupied ⊆ Set.Iio addrLimit := by
  have hfirst := hk.first.le
  have hlt := hk.lt
  rintro y ⟨hy | hy, -⟩
  · exact hle hy
  obtain ⟨hpow, hpage⟩ := qemuRamMmap_isPowerOf2 hk.ptr_eq hr
  obtain ⟨m, hm, hy⟩ := hy
  obtain ⟨h₁, h₂⟩ := hy
  rw [Set.mem_Iio]
  cases format with
  | raw =>
    obtain ⟨hoff, -⟩ := pageSize_le_sub hpow hpage hk.first.page hk.add_align_le
    obtain ⟨-, -, rfl, rfl⟩ := qemuRamMmap_raw_eq hk.ptr_eq hk.lt hr hx
    rcases List.mem_cons.mp hm with rfl | hm
    · dsimp only at h₁ h₂
      omega
    · obtain rfl := List.mem_singleton.mp hm
      dsimp only at h₁ h₂
      omega
  | pcow =>
    obtain ⟨-, -, rfl, -, hlen, rfl⟩ := qemuRamMmap_pcow hk.ptr_eq (by omega) hr hx
    have hsecond := (hk.second rfl).le
    rcases List.mem_cons.mp hm with rfl | hm
    · dsimp only at h₁ h₂
      omega
    rcases List.mem_cons.mp hm with rfl | hm
    · dsimp only at h₁ h₂
      rw [hlen hsize.ne'] at h₂
      omega
    · have := hk.inner m hm
      omega

/-- What `reclaim_ramblock` unmaps of the memory that is an image is in the range of its session. -/
theorem reclaimRamblock_pcow {us : List Extent} (hses : W.sessions p = some ses)
    (hr : reclaimRamblock cfg W p b.host b .pcow = .ok (W', us)) :
    covered us ⊆ Extent.addrs ⟨b.host, ses.releasedLength⟩ := by
  rw [reclaimRamblock, qemuRamMunmap] at hr
  split_ifs at hr with hhost
  · simp only [fmunmap, hses, ne_eq, not_true_eq_false, if_false] at hr
    obtain ⟨x, -, hx⟩ := map_eq_ok hr
    cases hx
    rw [covered_cons, covered_nil, Set.union_empty]
  · cases hr
    rw [covered_nil]
    exact Set.empty_subset _

/-- It returns while the session is open. -/
theorem exists_reclaimRamblock (hses : W.sessions p = some ses) :
    ∃ W' us, reclaimRamblock cfg W p b.host b .pcow = .ok (W', us) := by
  by_cases hhost : b.host = 0
  · exact ⟨W, [], by simp [reclaimRamblock, qemuRamMunmap, hhost]⟩
  · refine ⟨⟨(ses.on W.fs).fmunmap cfg, Function.update W.sessions p none⟩,
      [⟨b.host, ses.releasedLength⟩], ?_⟩
    simp only [reclaimRamblock, qemuRamMunmap, fmunmap, hses, hhost, World.step, ne_eq,
      not_false_eq_true,
      not_true_eq_false, if_true, if_false]
    rfl

/-- **What a backend that comes and goes takes with it.** -/
theorem RamCycle.lost (h : RamCycle cfg occupied format size occupied')
    (hle : occupied ⊆ Set.Iio addrLimit) : occupied' ⊆ Set.Iio addrLimit ∧
      lostBy format size + occupied.ncard ≤ occupied'.ncard ∧
        (format = .raw → occupied' = occupied) := by
  have hfin : occupied.Finite := (Set.finite_Iio addrLimit).subset hle
  cases h with
  | @raw h W W₁ W₂ p cur ptr fb fb' fs' mr b us hpath hformat hsize hpages hr hb hk hne hfree =>
    obtain ⟨fs₁, truncate, hdvd, hlt, hram⟩ := fileBackendMemoryAlloc_raw hpath hformat hsize hr hb
    obtain ⟨-, -, hptr, fs₂, hmap⟩ := allocBlock_mapped hram
    have hfd : h.fdPageSize = pageSize := by rw [Host.fdPageSize, hpages, Option.getD_none]
    have hround : h.macros.roundUp b.maxLength pageSize = b.maxLength := by
      refine h.macros.roundUp_of_dvd exists_pageSize_eq hdvd ?_
      rw [pageSize] at hdvd ⊢
      omega
    rw [hfd, hround] at hmap
    rw [reclaimRamblock, qemuRamMunmap, if_pos hne] at hfree
    cases hfree
    have heq := hk.raw hmap hptr
    rw [covered_cons, covered_nil, Set.union_empty, heq]
    exact ⟨hle, by rw [lostBy, Nat.zero_add], fun _ => rfl⟩
  | @pcow h W W₁ W₂ p ptr fb fb' fs' mr b us ops rs hW hadm hpath hformat hshare hpages hr hb
      hintact hk
      halong hrun hops hfree =>
    obtain ⟨sh, hsh⟩ := hW.shelved
    obtain ⟨s, b', ses, hs, hsize, hpos, hdvd, hb', -, hmax, hses, -, -, hlen, hstep⟩ :=
      hsh.of_region hpath hformat hshare hr
    obtain rfl : b = b' := by
      rw [hb] at hb'
      cases hb'
      rfl
    have hlt := hk.lt
    obtain ⟨s', hs', hbs, hmbn, hdvdb, hposb⟩ := hsh.sizes_of_fmmap
      (show W.Admits cfg (.fmmap p (h.macros.roundUp mr.size h.fdPageSize) 0) from hadm) hstep
      (Function.update_self ..)
    obtain rfl : s' = s := by
      rw [hs] at hs'
      cases hs'
      rfl
    -- the session has the sizes that the backend has found, and keeps them
    have hreleased : ses.releasedLength = b.maxLength := by
      rw [Session.releasedLength, hbs, hmbn, u64_mul, ← hsize, hmax, u64_natCast (by omega)]
    obtain ⟨ses₁, hses₁, hsame⟩ := World.session_run halong hrun hops
      (show Function.update W.sessions p b.session p = some ses by
        rw [Function.update_self, hses hintact])
      hdvdb hposb (by rw [hlen hpages]; exact hpos)
    have hreleased' : ses₁.releasedLength = b.maxLength := by
      rw [← hreleased, Session.releasedLength, Session.releasedLength, hsame.blockSize,
        hsame.maxBlockNum]
    have hus := reclaimRamblock_pcow hses₁ hfree
    rw [hreleased'] at hus
    have hram : allocBlock cfg h W.fs p fb.align fb.share false .pcow mr.size =
        .ok (fs', .block b) := by
      obtain ⟨-, -, -, b', hb', hram⟩ := fileBackendMemoryAlloc_pcow hpath hformat hr
      rw [hb] at hb'
      cases hb'
      exact hram
    obtain ⟨-, -, hptr, fs₁, hmap⟩ := allocBlock_mapped hram
    rw [Host.fdPageSize, hpages, Option.getD_none,
      h.macros.roundUp_of_dvd exists_pageSize_eq hdvd (by
        rw [pageSize] at hdvd ⊢
        omega), ← hmax] at hmap
    have hafter := after_subset hk hmap hptr (by omega) hle
    refine ⟨Set.sdiff_subset.trans hafter, ?_, fun hno => by cases hno⟩
    refine le_trans (hk.pcow hfin hmap hptr)
      (Set.ncard_le_ncard (Set.sdiff_subset_sdiff_right hus) ?_)
    exact (Set.finite_Iio addrLimit).subset (Set.sdiff_subset.trans hafter)

/-- **Backends come and go**, one after the other and in any order, with any placement by the kernel
that leaves the mappings of `fmmap` alone: with raw files, a process has the addresses mapped
afterwards that it had before; and of each one with an image, whatever its machine and others do as
images are to be used, the size and a page are lost to the process. So there can only be so many of
them. -/
theorem ram_cycles (cfg : Config) (occupied occupied' : Set ℕ) (l : List (Format × ℕ))
    (hle : occupied ⊆ Set.Iio addrLimit) (h : RamCycles cfg occupied l occupied') :
    (l.map fun x => lostBy x.1 x.2).sum + occupied.ncard ≤ occupied'.ncard ∧
      occupied'.ncard ≤ addrLimit ∧ ((∀ x ∈ l, x.1 = .raw) → occupied' = occupied) := by
  induction h with
  | @nil occupied =>
    refine ⟨by simp, ?_, fun _ => rfl⟩
    have hcard := Set.ncard_le_ncard hle (Set.finite_Iio addrLimit)
    rwa [Set.ncard_Iio_nat] at hcard
  | @cons occupied occupied₁ occupied₂ format size l h hl ih =>
    obtain ⟨hle₁, hlost, hraw⟩ := h.lost hle
    obtain ⟨hsum, hlimit, hraw'⟩ := ih hle₁
    refine ⟨?_, hlimit, fun hall => ?_⟩
    · rw [List.map_cons, List.sum_cons]
      dsimp only
      omega
    · rw [List.forall_mem_cons] at hall
      rw [hraw' hall.2, hraw hall.1]

/-- A backend with a new image comes and goes. -/
theorem ram_cycles_new : ∃ occupied', RamCycles .shipped ∅ [(.pcow, 2 ^ 30)] occupied' ∧
    2 ^ 30 + 4096 ≤ occupied'.ncard := by
  obtain ⟨W, h, fb, hk, hq, halign, hshare, hW, hsize, hadm, hbase, hallows, hfb⟩ :=
    exists_backend ⟨some (2 ^ 40), true, 2 ^ 40 - 2 ^ 30, []⟩ (Option.some_ne_none _) page_of_some
  obtain ⟨sh, hsh⟩ := hW.shelved
  obtain ⟨fs', b, hr, -⟩ := hsh.exists_region hsize (by norm_num) (by rw [regLen]; norm_num) hadm
    (Or.inl hbase) hallows hfb
  obtain ⟨-, -, -, b', hb', hram⟩ := fileBackendMemoryAlloc_pcow hfb.2.1 hfb.2.2.1 hr
  cases hb'
  obtain ⟨hmax, halign', -⟩ := allocBlock_mapped hram
  rw [Host.fdPageSize, hallows.hugePageSize, Option.getD_none, halign, Nat.max_zero] at halign'
  obtain ⟨-, b', ses, -, -, -, -, hb', -, -, hses, hpage, -⟩ :=
    hsh.of_region hfb.2.1 hfb.2.2.1 hshare hr
  cases hb'
  have hintact := hpage halign' (by rw [hk]; exact page_of_some)
  obtain ⟨W₂, us, hfree⟩ := @exists_reclaimRamblock .shipped [1] b
    ⟨fs', Function.update W.sessions [1] b.session⟩ ses (by simp [hses hintact])
  have haddr : AlignMacros.qemu.qemuAlignUp (2 ^ 40) pageSize = 2 ^ 40 := by decide
  have hplaces : h.kernel.Places h.macros ∅ b.maxLength b.align (2 ^ 40) .pcow := by
    rw [hk, hq, hmax, halign']
    refine ⟨rfl, by norm_num [pageSize], ?_, fun _ => ?_, by simp⟩
    · exact ⟨by norm_num [pageSize], by norm_num [addrLimit, pageSize], Set.empty_disjoint _,
        fun hne => absurd rfl hne⟩
    · refine .of_hint (by norm_num [pageSize]) (by norm_num [addrLimit]) (Set.empty_disjoint _)
        (Or.inl (by norm_num)) (by norm_num) ?_ ?_
      · rw [haddr]
      · rw [haddr]
        norm_num [pageSize]
  have hcycle : RamCycles .shipped ∅ [(.pcow, b.maxLength)] (b.mapped.after ∅ \ covered us) :=
    .cons (.pcow hW hadm hfb.2.1 hfb.2.2.1 hshare hallows.hugePageSize hr rfl hintact hplaces
      World.runs_nil.1 World.runs_nil.2 (fun op hop => by cases hop) hfree) .nil
  rw [hmax] at hcycle
  obtain ⟨hsum, -⟩ := ram_cycles .shipped ∅ _ _ (Set.empty_subset _) hcycle
  refine ⟨_, hcycle, le_trans (le_of_eq ?_) hsum⟩
  rw [Set.ncard_empty]
  rfl

end Pcow
