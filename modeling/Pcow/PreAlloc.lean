import Pcow.Append

/-!
# Blocks allocated ahead

The bodies of `new_meta` and `new_block` for `PRE_ALLOC`, and the thread they wait
for. `new_block_allocator` reserves blocks at the end of the layer before they are
asked for and puts them into the ring `nbs`; `new_block` takes one from the ring,
or two when it opens a segment, the first of which becomes the meta block.

Here the thread runs between the steps of its clients: `allocate` is one
iteration of its loop, and a client that finds the ring empty waits for
iterations. How many iterations happen before a block is taken is a parameter of
the call, so that every amount of work ahead is covered. The interleaving of the
single reads and stores of the two sides is the subject of `Pcow.Ring`.

`newBlock` is the function of the build at hand, and `IsLayer.newBlock` says that
both bodies do the same: they append the entry and hand out the block the layout
gives to it.
-/

namespace Pcow

variable {cfg : Config} {g : Geometry cfg} {f : ByteFile} {off k v : ℕ} {es : List ℕ}
  {s s' : Super}

/-- The ring of blocks allocated ahead, and whether its thread still runs. -/
structure Ring where
  /-- `nbs`: the slots, of which the first `maxPreNum` are used. -/
  nbs : ℕ → NewBlock
  /-- `nb_count`: the blocks put into the ring so far. -/
  nbCount : ℕ
  /-- `nb_available`: the blocks not taken yet. -/
  nbAvailable : ℕ
  /-- Whether the thread has not left its loop. -/
  running : Bool

/-- The ring `fmmap` sets up. -/
def Ring.init : Ring := ⟨fun _ => ⟨0⟩, 0, 0, true⟩

/-- Put a block into the ring. -/
def Ring.put (r : Ring) (nb : NewBlock) : Ring :=
  { r with
    nbs := Function.update r.nbs (r.nbCount % maxPreNum) nb
    nbCount := r.nbCount + 1
    nbAvailable := r.nbAvailable + 1 }

/-- The block a client takes. -/
def Ring.front (r : Ring) : NewBlock := r.nbs ((r.nbCount - r.nbAvailable) % maxPreNum)

/-- The ring after a client took a block. -/
def Ring.take (r : Ring) : Ring := { r with nbAvailable := r.nbAvailable - 1 }

@[simp] theorem Ring.nbCount_put {r : Ring} {nb : NewBlock} :
    (r.put nb).nbCount = r.nbCount + 1 := rfl

@[simp] theorem Ring.nbAvailable_put {r : Ring} {nb : NewBlock} :
    (r.put nb).nbAvailable = r.nbAvailable + 1 := rfl

@[simp] theorem Ring.running_put {r : Ring} {nb : NewBlock} :
    (r.put nb).running = r.running := rfl

@[simp] theorem Ring.nbs_take {r : Ring} : r.take.nbs = r.nbs := rfl

@[simp] theorem Ring.nbCount_take {r : Ring} : r.take.nbCount = r.nbCount := rfl

@[simp] theorem Ring.nbAvailable_take {r : Ring} :
    r.take.nbAvailable = r.nbAvailable - 1 := rfl

@[simp] theorem Ring.running_take {r : Ring} : r.take.running = r.running := rfl

/-- `prealloc_n`: the blocks the thread takes to be allocated ahead. -/
def Super.preallocN (s : Super) : ℤ :=
  i32 (u64 (s.allocOff - s.nextOff) / u64 s.blockSize : ℕ)

/-- One iteration of `new_block_allocator`. -/
def allocate (s : Super) (r : Ring) : Except Fault (Super × Ring × List FileOp) :=
  if ¬r.running then .ok (s, r, [])
  else if s.preallocN + 1 > maxPreNum then .ok (s, r, [])
  else if s.toAllocNum + s.preallocN > s.maxBlockNum then .ok (s, { r with running := false }, [])
  else if ¬FallocateOk s.allocOff s.blockSize then .error .noSpace
  else .ok ({ s with allocOff := u64 (s.allocOff + s.blockSize) }, r.put ⟨s.allocOff⟩,
    [.fallocate s.allocOff (u64 s.blockSize)])

/-- Several iterations of the thread. -/
def allocateMany : ℕ → Super → Ring → Except Fault (Super × Ring × List FileOp)
  | 0, s, r => .ok (s, r, [])
  | n + 1, s, r =>
    match allocate s r with
    | .error e => .error e
    | .ok (s', r', ops) => (allocateMany n s' r').map fun x => (x.1, x.2.1, ops ++ x.2.2)

/-- The wait loop of `new_meta` and `new_block`: the thread goes on for `n`
iterations, and for one more if the ring is still empty. If that gives no block,
none will come. -/
def waitBlock (n : ℕ) (s : Super) (r : Ring) :
    Except Fault (Super × Ring × NewBlock × List FileOp) :=
  match allocateMany n s r with
  | .error e => .error e
  | .ok (s₁, r₁, ops₁) =>
    if 0 < r₁.nbAvailable then .ok (s₁, r₁.take, r₁.front, ops₁)
    else match allocate s₁ r₁ with
      | .error e => .error e
      | .ok (s₂, r₂, ops₂) =>
        if 0 < r₂.nbAvailable then .ok (s₂, r₂.take, r₂.front, ops₁ ++ ops₂)
        else .error .endless

/-- `new_block`, with `PRE_ALLOC` defined; `n` and `n'` are the iterations of the
allocator thread before each of the two blocks is taken. -/
def newBlockPre (cfg : Config) (f : ByteFile) (s : Super) (r : Ring) (n n' faultOff : ℕ) :
    Except Fault (Super × Ring × NewBlock × List FileOp) :=
  if 2 ^ 31 ≤ s.toAllocNum then .error .overflow
  else if s.toAllocNum > s.maxBlockNum then .error .outOfRange
  else if s.activeMeta.counter < s.maxPerSeg then
    match waitBlock n s r with
    | .error e => .error e
    | .ok (s₁, r₁, nb, ops₁) =>
      let ops₂ := appendOps cfg (FileOp.run ops₁ f) s₁.activeMeta (entryOf s₁ faultOff)
        cfg.finegrainedCow
      .ok ({ s₁ with activeMeta := { s₁.activeMeta with counter := s₁.activeMeta.counter + 1 } },
        r₁, nb, ops₁ ++ ops₂)
  else
    -- `new_meta`
    match waitBlock n s r with
    | .error e => .error e
    | .ok (s₁, r₁, nbMeta, ops₁) =>
      let m : Meta := ⟨nbMeta.blockOff, 0⟩
      match waitBlock n' s₁ r₁ with
      | .error e => .error e
      | .ok (s₂, r₂, nb, ops₂) =>
        let ops₃ := ops₁ ++ newMetaOps cfg nbMeta.blockOff ++ ops₂
        let ops₄ := appendOps cfg (FileOp.run ops₃ f) m (entryOf s₂ faultOff) true
        .ok (s₂.rollOver { m with counter := m.counter + 1 }, r₂, nb,
          ops₃ ++ ops₄ ++ rollOverOps s₂)

/-- `new_block`, as the build at hand has it. -/
def newBlock (cfg : Config) (f : ByteFile) (s : Super) (r : Ring) (n n' faultOff : ℕ) :
    Except Fault (Super × Ring × NewBlock × List FileOp) :=
  if cfg.preAlloc then newBlockPre cfg f s r n n' faultOff
  else (newBlockPlain cfg f s faultOff).map fun x => (x.1, r, x.2.1, x.2.2)

/-! ### The blocks in the ring -/

/-- **The ring holds the blocks that come next**, `t` of them having been taken
and not recorded in the layer yet. -/
structure RingOk (g : Geometry cfg) (f : ByteFile) (off k t : ℕ) (s : Super) (r : Ring) : Prop where
  allocOff : s.allocOff = g.blockAt off (g.blocks k + t + r.nbAvailable)
  available_le : t + r.nbAvailable ≤ maxPreNum
  available_le_count : r.nbAvailable ≤ r.nbCount
  slot : ∀ i < r.nbAvailable,
    r.nbs ((r.nbCount - r.nbAvailable + i) % maxPreNum) = ⟨g.blockAt off (g.blocks k + t + i)⟩
  allocOff_le : s.allocOff ≤ f.size
  size_lt : f.size < 2 ^ 63

/-- The thread changes nothing of a super block but the offset it allocates
at. -/
def Super.SameLayer (s s' : Super) : Prop := s' = { s with allocOff := s'.allocOff }

theorem Super.SameLayer.trans {s'' : Super} (h : s.SameLayer s') (h' : s'.SameLayer s'') :
    s.SameLayer s'' := by
  rw [SameLayer] at *
  rw [h', h]

theorem Super.Is.sameLayer (hs : s.Is g off k) (h : s.SameLayer s') : s'.Is g off k := by
  rw [h]
  exact ⟨hs.blockSize, hs.maxBlockNum, hs.activeMetaNum, hs.maxPerSeg, hs.myOff, hs.activeMetaOff,
    hs.activeMeta⟩

/-- Reserving space makes files of one size files of one size. -/
theorem size_run_reserve_congr {f' : ByteFile} {ops : List FileOp} (h : ∀ o ∈ ops, IsReserve o)
    (hsz : f'.size = f.size) : (FileOp.run ops f').size = (FileOp.run ops f).size := by
  induction ops generalizing f f' with
  | nil => exact hsz
  | cons o ops ih =>
    refine ih (fun o' ho' => h o' (List.mem_cons_of_mem o ho')) ?_
    cases o with
    | store a w v => exact (h _ List.mem_cons_self).elim
    | flush a => exact hsz
    | fence => exact hsz
    | fallocate a n =>
      simp only [FileOp.exec_fallocate, ByteFile.size_reserve, hsz]

section Ring

variable {r r' : Ring} {ops : List FileOp} {t n : ℕ}

/-- The ring does not depend on the contents of the file. -/
theorem RingOk.of_size {f' : ByteFile} (h : RingOk g f off k t s r) (hsz : f'.size = f.size) :
    RingOk g f' off k t s r :=
  ⟨h.allocOff, h.available_le, h.available_le_count, h.slot, hsz ▸ h.allocOff_le, hsz ▸ h.size_lt⟩

/-- The thread knows how many blocks are ahead. -/
theorem RingOk.preallocN (h : RingOk g f off k t s r) (hs : s.Is g off k) :
    s.preallocN = (t + r.nbAvailable : ℕ) := by
  have hbs := g.blockSize_pos
  have hle := h.available_le
  have h₁ := h.allocOff_le
  have h₂ := h.size_lt
  rw [show maxPreNum = 5 from rfl] at hle
  have hend : g.endOff off k ≤ s.allocOff := by
    rw [h.allocOff, Nat.add_assoc]
    exact g.blockAt_mono off (Nat.le_add_right _ _)
  have hdiff : s.allocOff - g.endOff off k = g.blockSize * (t + r.nbAvailable) := by
    rw [h.allocOff, Geometry.endOff, Geometry.blockAt, Geometry.blockAt, Nat.add_assoc,
      Nat.mul_add g.blockSize]
    omega
  rw [Super.preallocN, hs.nextOff (by omega), hs.u64_blockSize, ← Nat.cast_sub hend,
    u64_natCast (by omega), hdiff, Nat.mul_div_cancel_left _ hbs,
      i32_of_range (by omega) (by omega)]

/-- A block put into the ring does not displace one that is still there. -/
theorem RingOk.put (h : RingOk g f off k t s r) (hs : s.Is g off k)
    (hlt : t + r.nbAvailable + 1 ≤ maxPreNum) (hok : s.allocOff + g.blockSize < 2 ^ 63) :
    RingOk g (f.reserve s.allocOff g.blockSize) off k t
      { s with allocOff := u64 (s.allocOff + s.blockSize) } (r.put ⟨s.allocOff⟩) := by
  have halloc : u64 (s.allocOff + s.blockSize) = s.allocOff + g.blockSize := by
    rw [hs.blockSize, ← Nat.cast_add, u64_natCast (by omega)]
  have hle := h.available_le_count
  refine ⟨?_, ?_, ?_, ?_, ?_, ?_⟩
  · simp only [halloc, Ring.nbAvailable_put]
    rw [h.allocOff, ← Nat.add_assoc, Geometry.blockAt_succ]
  · rw [Ring.nbAvailable_put]
    omega
  · rw [Ring.nbAvailable_put, Ring.nbCount_put]
    omega
  · intro i hi
    rw [Ring.nbAvailable_put] at hi ⊢
    rw [Ring.nbCount_put, Ring.put]
    simp only
    rw [show r.nbCount + 1 - (r.nbAvailable + 1) + i = r.nbCount - r.nbAvailable + i by omega]
    rcases Nat.lt_or_ge i r.nbAvailable with hlt' | hge
    · -- at most five consecutive positions are in use, so the new one is another
      rw [Function.update_of_ne, h.slot i hlt']
      rw [show maxPreNum = 5 from rfl] at *
      omega
    · obtain rfl : i = r.nbAvailable := by omega
      rw [Nat.sub_add_cancel hle, Function.update_self, h.allocOff]
  · simp only [halloc]
    exact le_max_right _ _
  · exact max_lt h.size_lt hok

/-- **One iteration of the thread** keeps the ring in order, and reserves space at
most. -/
theorem RingOk.allocate (h : RingOk g f off k t s r) (hs : s.Is g off k)
    (hr : allocate s r = .ok (s', r', ops)) :
    RingOk g (FileOp.run ops f) off k t s' r' ∧ s.SameLayer s' ∧ (∀ o ∈ ops, IsReserve o) ∧
      r.nbAvailable ≤ r'.nbAvailable := by
  rw [Pcow.allocate] at hr
  split at hr
  · cases hr
    exact ⟨h, rfl, by simp, le_rfl⟩
  split at hr
  · cases hr
    exact ⟨h, rfl, by simp, le_rfl⟩
  rename_i hfull
  split at hr
  · cases hr
    exact ⟨⟨h.allocOff, h.available_le, h.available_le_count, h.slot, h.allocOff_le, h.size_lt⟩,
      rfl, by simp, le_rfl⟩
  split at hr
  · cases hr
  rename_i hok
  cases hr
  rw [h.preallocN hs] at hfull
  have hroom := (not_not.mp hok).2
  rw [hs.blockSize] at hroom
  refine ⟨?_, rfl, by simp [IsReserve], Nat.le_succ _⟩
  have hput := h.put hs (by rw [show maxPreNum = 5 from rfl] at *; omega) (by omega)
  rw [FileOp.run_cons, FileOp.run_nil, FileOp.exec_fallocate, hs.u64_blockSize]
  exact hput

theorem RingOk.allocateMany (h : RingOk g f off k t s r) (hs : s.Is g off k)
    (hr : allocateMany n s r = .ok (s', r', ops)) :
    RingOk g (FileOp.run ops f) off k t s' r' ∧ s.SameLayer s' ∧ ∀ o ∈ ops, IsReserve o := by
  induction n generalizing s r f ops with
  | zero =>
    cases hr
    exact ⟨h, rfl, by simp⟩
  | succ n ih =>
    rw [Pcow.allocateMany] at hr
    rcases hone : Pcow.allocate s r with e | ⟨s₁, r₁, ops₁⟩
    · rw [hone] at hr
      cases hr
    rw [hone] at hr
    simp only at hr
    rcases hrest : Pcow.allocateMany n s₁ r₁ with e | ⟨s₂, r₂, ops₂⟩
    · rw [hrest] at hr
      cases hr
    rw [hrest] at hr
    cases hr
    obtain ⟨h₁, hsame₁, hres₁, -⟩ := h.allocate hs hone
    obtain ⟨h₂, hsame₂, hres₂⟩ := ih h₁ (hs.sameLayer hsame₁) hrest
    refine ⟨by rwa [FileOp.run_append], hsame₁.trans hsame₂, fun o ho => ?_⟩
    rcases List.mem_append.mp ho with ho | ho
    · exact hres₁ o ho
    · exact hres₂ o ho

/-- The block at the front is the next one of the file. -/
theorem RingOk.front (h : RingOk g f off k t s r) (hpos : 0 < r.nbAvailable) :
    r.front = ⟨g.blockAt off (g.blocks k + t)⟩ ∧ RingOk g f off k (t + 1) s r.take := by
  refine ⟨by simpa [Ring.front] using h.slot 0 hpos, ?_, ?_, ?_, fun i hi => ?_, h.allocOff_le,
    h.size_lt⟩
  · rw [h.allocOff, Ring.nbAvailable_take, show g.blocks k + (t + 1) + (r.nbAvailable - 1) =
      g.blocks k + t + r.nbAvailable by omega]
  · have := h.available_le
    rw [Ring.nbAvailable_take]
    omega
  · have := h.available_le_count
    rw [Ring.nbAvailable_take, Ring.nbCount_take]
    omega
  · rw [Ring.nbAvailable_take] at hi
    have hle := h.available_le_count
    have hslot := h.slot (i + 1) (by omega)
    rw [Ring.nbs_take, Ring.nbCount_take, Ring.nbAvailable_take,
      show r.nbCount - (r.nbAvailable - 1) + i = r.nbCount - r.nbAvailable + (i + 1) by omega,
      hslot, show g.blocks k + t + (i + 1) = g.blocks k + (t + 1) + i by omega]

/-- **A client gets the next block of the file.** -/
theorem RingOk.waitBlock (h : RingOk g f off k t s r) (hs : s.Is g off k) {nb : NewBlock}
    (hr : waitBlock n s r = .ok (s', r', nb, ops)) :
    nb = ⟨g.blockAt off (g.blocks k + t)⟩ ∧ RingOk g (FileOp.run ops f) off k (t + 1) s' r' ∧
      s.SameLayer s' ∧ ∀ o ∈ ops, IsReserve o := by
  rw [Pcow.waitBlock] at hr
  rcases hmany : Pcow.allocateMany n s r with e | ⟨s₁, r₁, ops₁⟩
  · rw [hmany] at hr
    cases hr
  rw [hmany] at hr
  simp only at hr
  obtain ⟨h₁, hsame₁, hres₁⟩ := h.allocateMany hs hmany
  split at hr
  · rename_i hpos
    cases hr
    exact ⟨(h₁.front hpos).1, (h₁.front hpos).2, hsame₁, hres₁⟩
  rcases hone : Pcow.allocate s₁ r₁ with e | ⟨s₂, r₂, ops₂⟩
  · rw [hone] at hr
    cases hr
  rw [hone] at hr
  simp only at hr
  obtain ⟨h₂, hsame₂, hres₂, -⟩ := h₁.allocate (hs.sameLayer hsame₁) hone
  split at hr
  · rename_i hpos
    cases hr
    refine ⟨(h₂.front hpos).1, by rw [FileOp.run_append]; exact (h₂.front hpos).2,
      hsame₁.trans hsame₂, fun o ho => ?_⟩
    rcases List.mem_append.mp ho with ho | ho
    · exact hres₁ o ho
    · exact hres₂ o ho
  · cases hr

/-! ### How far the file grows -/

/-- An iteration of the thread lets the file grow to where it allocates next. -/
theorem RingOk.size_allocate (h : RingOk g f off k t s r) (hs : s.Is g off k)
    (hr : Pcow.allocate s r = .ok (s', r', ops)) :
    s.allocOff ≤ s'.allocOff ∧ (FileOp.run ops f).size ≤ max f.size s'.allocOff := by
  have h₁ := h.allocOff_le
  have h₂ := h.size_lt
  have hbs := g.blockSize_lt
  have hu : u64 (s.allocOff + s.blockSize) = s.allocOff + g.blockSize := by
    rw [hs.blockSize, ← Nat.cast_add, u64_natCast (by omega)]
  rw [Pcow.allocate] at hr
  split at hr
  · cases hr
    exact ⟨le_rfl, le_max_left _ _⟩
  split at hr
  · cases hr
    exact ⟨le_rfl, le_max_left _ _⟩
  split at hr
  · cases hr
    exact ⟨le_rfl, le_max_left _ _⟩
  split at hr
  · cases hr
  · cases hr
    simp only [hu, FileOp.run_cons, FileOp.run_nil, FileOp.exec_fallocate, ByteFile.size_reserve,
      hs.u64_blockSize]
    exact ⟨Nat.le_add_right _ _, le_rfl⟩

theorem RingOk.size_allocateMany (h : RingOk g f off k t s r) (hs : s.Is g off k)
    (hr : Pcow.allocateMany n s r = .ok (s', r', ops)) :
    s.allocOff ≤ s'.allocOff ∧ (FileOp.run ops f).size ≤ max f.size s'.allocOff := by
  induction n generalizing s r f ops with
  | zero =>
    cases hr
    exact ⟨le_rfl, le_max_left _ _⟩
  | succ n ih =>
    rw [Pcow.allocateMany] at hr
    rcases hone : Pcow.allocate s r with e | ⟨s₁, r₁, ops₁⟩
    · rw [hone] at hr
      cases hr
    rw [hone] at hr
    simp only at hr
    rcases hrest : Pcow.allocateMany n s₁ r₁ with e | ⟨s₂, r₂, ops₂⟩
    · rw [hrest] at hr
      cases hr
    rw [hrest] at hr
    cases hr
    obtain ⟨h₁, hsame₁, -, -⟩ := h.allocate hs hone
    obtain ⟨hle₁, hsz₁⟩ := h.size_allocate hs hone
    obtain ⟨hle₂, hsz₂⟩ := ih h₁ (hs.sameLayer hsame₁) hrest
    refine ⟨le_trans hle₁ hle₂, ?_⟩
    rw [FileOp.run_append]
    simp only at hle₂ hsz₂ ⊢
    omega

theorem RingOk.size_waitBlock (h : RingOk g f off k t s r) (hs : s.Is g off k) {nb : NewBlock}
    (hr : Pcow.waitBlock n s r = .ok (s', r', nb, ops)) :
    s.allocOff ≤ s'.allocOff ∧ (FileOp.run ops f).size ≤ max f.size s'.allocOff := by
  rw [Pcow.waitBlock] at hr
  rcases hmany : Pcow.allocateMany n s r with e | ⟨s₁, r₁, ops₁⟩
  · rw [hmany] at hr
    cases hr
  rw [hmany] at hr
  simp only at hr
  obtain ⟨h₁, hsame₁, -⟩ := h.allocateMany hs hmany
  obtain ⟨hle₁, hsz₁⟩ := h.size_allocateMany hs hmany
  split at hr
  · cases hr
    exact ⟨hle₁, hsz₁⟩
  rcases hone : Pcow.allocate s₁ r₁ with e | ⟨s₂, r₂, ops₂⟩
  · rw [hone] at hr
    cases hr
  rw [hone] at hr
  simp only at hr
  obtain ⟨hle₂, hsz₂⟩ := h₁.size_allocate (hs.sameLayer hsame₁) hone
  split at hr
  · cases hr
    refine ⟨le_trans hle₁ hle₂, ?_⟩
    rw [FileOp.run_append]
    omega
  · cases hr

/-! ### `new_block` with blocks allocated ahead -/

/-- The ring once the block taken from it is recorded in the active segment. -/
theorem RingOk.succ_of_lt (h : RingOk g f off k 1 s r)
    (hlt : k - g.lastSeg k * g.perSeg < g.perSeg) {f' : ByteFile} (hsz : f'.size = f.size)
    (halloc : s'.allocOff = s.allocOff) : RingOk g f' off (k + 1) 0 s' r := by
  obtain ⟨hb, -⟩ := g.blocks_succ_of_lt hlt
  have hle := h.available_le
  refine ⟨?_, by omega, h.available_le_count, fun i hi => ?_, ?_, by rw [hsz]; exact h.size_lt⟩
  · rw [halloc, h.allocOff, hb]
  · rw [h.slot i hi, hb]
  · rw [halloc, hsz]
    exact h.allocOff_le

/-- The ring once the two blocks taken from it are a new segment. -/
theorem RingOk.succ_of_full (h : RingOk g f off k 2 s r)
    (hfull : k - g.lastSeg k * g.perSeg = g.perSeg) {f' : ByteFile} (hsz : f'.size = f.size)
    (halloc : s'.allocOff = s.allocOff) : RingOk g f' off (k + 1) 0 s' r := by
  obtain ⟨hb, -, -⟩ := g.blocks_succ_of_full hfull
  have hle := h.available_le
  refine ⟨?_, by omega, h.available_le_count, fun i hi => ?_, ?_, by rw [hsz]; exact h.size_lt⟩
  · rw [halloc, h.allocOff, hb]
  · rw [h.slot i hi, hb]
  · rw [halloc, hsz]
    exact h.allocOff_le

/-- **What a call that returned has done**: it has passed the check and has taken one block from the
ring or, where the active meta block is full, two. -/
theorem newBlockPre_ok {n' faultOff : ℕ} {x : Super × Ring × NewBlock × List FileOp}
    (hr : newBlockPre cfg f s r n n' faultOff = .ok x) :
    (¬2 ^ 31 ≤ s.toAllocNum ∧ ¬s.toAllocNum > s.maxBlockNum) ∧
    ((s.activeMeta.counter < s.maxPerSeg ∧ ∃ s₁ r₁ nb ops₁,
        Pcow.waitBlock n s r = .ok (s₁, r₁, nb, ops₁) ∧
        x = ({ s₁ with activeMeta := { s₁.activeMeta with counter := s₁.activeMeta.counter + 1 } },
          r₁, nb, ops₁ ++ appendOps cfg (FileOp.run ops₁ f) s₁.activeMeta (entryOf s₁ faultOff)
            cfg.finegrainedCow)) ∨
      (¬s.activeMeta.counter < s.maxPerSeg ∧ ∃ s₁ r₁ nbMeta ops₁ s₂ r₂ nb ops₂,
        Pcow.waitBlock n s r = .ok (s₁, r₁, nbMeta, ops₁) ∧
        Pcow.waitBlock n' s₁ r₁ = .ok (s₂, r₂, nb, ops₂) ∧
        x = (s₂.rollOver ⟨nbMeta.blockOff, 0 + 1⟩, r₂, nb,
          ops₁ ++ newMetaOps cfg nbMeta.blockOff ++ ops₂ ++
            appendOps cfg (FileOp.run (ops₁ ++ newMetaOps cfg nbMeta.blockOff ++ ops₂) f)
              ⟨nbMeta.blockOff, 0⟩ (entryOf s₂ faultOff) true ++ rollOverOps s₂))) := by
  rw [Pcow.newBlockPre] at hr
  split at hr
  · cases hr
  rename_i hcheck₁
  split at hr
  · cases hr
  rename_i hcheck₂
  refine ⟨⟨hcheck₁, hcheck₂⟩, ?_⟩
  rcases hw : Pcow.waitBlock n s r with e | ⟨s₁, r₁, nb₁, ops₁⟩
  · rw [hw] at hr
    split at hr <;> cases hr
  rw [hw] at hr
  split at hr
  · rename_i hlt
    cases hr
    exact Or.inl ⟨hlt, s₁, r₁, nb₁, ops₁, rfl, rfl⟩
  · rename_i hlt
    simp only at hr
    rcases hw' : Pcow.waitBlock n' s₁ r₁ with e | ⟨s₂, r₂, nb₂, ops₂⟩
    · rw [hw'] at hr
      cases hr
    rw [hw'] at hr
    cases hr
    exact Or.inr ⟨hlt, s₁, r₁, nb₁, ops₁, s₂, r₂, nb₂, ops₂, rfl, hw', rfl⟩

/-- **`new_block` appends**, the body for `PRE_ALLOC`: a call that returns hands
out the data block of the next entry, its stores append the entry and the ring
stays in order. -/
theorem IsLayer.newBlockPre (h : IsLayer g f off es) (hs : s.Is g off es.length)
    (hring : RingOk g f off es.length 0 s r) {n' faultOff : ℕ} {nb : NewBlock}
    (hr : newBlockPre cfg f s r n n' faultOff = .ok (s', r', nb, ops)) :
    es.length + 1 ≤ g.cap ∧ nb = ⟨g.dataOff off es.length⟩ ∧ s'.Is g off (es.length + 1) ∧
      s.SameEnv s' ∧ Appends g f off es (g.blockOf faultOff) ops ∧
      RingOk g (FileOp.run ops f) off (es.length + 1) 0 s' r' := by
  have hf := hring.size_lt
  obtain ⟨hcheck, hcases⟩ := newBlockPre_ok hr
  have hcap := hs.check_iff.mp hcheck
  refine ⟨hcap, ?_⟩
  have hcounter := hs.counter
  have hper := hs.maxPerSeg
  rcases hcases with ⟨hlt, s₁, r₁, nb₁, ops₁, hw, hx⟩ |
    ⟨hlt, s₁, r₁, nb₁, ops₁, s₂, r₂, nb₂, ops₂, hw, hw', hx⟩
  · have hroom : es.length - g.lastSeg es.length * g.perSeg < g.perSeg := by omega
    obtain ⟨hend, hdata⟩ := g.endOff_succ_of_lt off hroom
    cases hx
    obtain ⟨rfl, hring₁, hsame, hres⟩ := hring.waitBlock hs hw
    have hs₁ := hs.sameLayer hsame
    have hlayer : Appends g f off es (g.blockOf faultOff) (ops₁ ++
        appendOps cfg (FileOp.run ops₁ f) s₁.activeMeta (entryOf s₁ faultOff)
          cfg.finegrainedCow) := by
      rw [hs₁.entryOf]
      refine h.appends_active hf hroom hcap (g.blockOf_lt _) hs₁ ops₁ hres _ ?_
      have hle : g.blockAt off (g.blocks es.length + 0 + 1) ≤ s₁.allocOff := by
        rw [hring₁.allocOff]
        exact g.blockAt_mono off (by omega)
      rw [Nat.add_zero, Geometry.blockAt_succ] at hle
      rw [hend, Geometry.endOff]
      exact le_trans hle hring₁.allocOff_le
    refine ⟨by rw [hdata, Nat.add_zero, Geometry.endOff], hs₁.succ_of_lt hroom, ?_, hlayer,
      hring₁.succ_of_lt hroom ?_ rfl⟩
    · rw [hsame]
      exact ⟨rfl, rfl⟩
    · rw [FileOp.run_append]
      exact size_run_appendOps
  · have hfull : es.length - g.lastSeg es.length * g.perSeg = g.perSeg :=
      le_antisymm g.counter_le (by omega)
    obtain ⟨hend, hdata⟩ := g.endOff_succ_of_full off hfull
    cases hx
    obtain ⟨rfl, hring₁, hsame₁, hres₁⟩ := hring.waitBlock hs hw
    obtain ⟨rfl, hring₂, hsame₂, hres₂⟩ := hring₁.waitBlock (hs.sameLayer hsame₁) hw'
    have hsame := hsame₁.trans hsame₂
    have hs₂ := hs.sameLayer hsame
    have hm : g.blockAt off (g.blocks es.length + 0) = g.endOff off es.length := rfl
    -- the first block taken is at the end of the layer, and becomes the meta block
    have hsize₁ : g.endOff off es.length + g.blockSize ≤ (FileOp.run ops₁ f).size := by
      have hle : g.blockAt off (g.blocks es.length + 1) ≤ s₁.allocOff := by
        rw [hring₁.allocOff]
        exact g.blockAt_mono off (by omega)
      rw [Geometry.blockAt_succ] at hle
      exact le_trans hle hring₁.allocOff_le
    have hsize₂ : (FileOp.run (ops₁ ++ newMetaOps cfg (g.endOff off es.length) ++ ops₂) f).size =
        (FileOp.run ops₂ (FileOp.run ops₁ f)).size := by
      rw [FileOp.run_append, FileOp.run_append]
      exact size_run_reserve_congr hres₂ size_run_newMetaOps
    have hend₂ : g.endOff off (es.length + 1) ≤ s₂.allocOff := by
      rw [hring₂.allocOff, Geometry.endOff, (g.blocks_succ_of_full hfull).1]
      exact g.blockAt_mono off (by omega)
    rw [hm]
    refine ⟨?_, ?_, ?_, ?_, ?_⟩
    · rw [hdata, show g.blocks es.length + (0 + 1) = g.blocks es.length + 1 from rfl,
        Geometry.blockAt_succ, Geometry.endOff]
    · have h31 := g.cap_lt
      have hlt63 := hring₂.size_lt
      have hle := hring₂.allocOff_le
      have hmono : g.endOff off es.length ≤ g.endOff off (es.length + 1) :=
        Geometry.blockAt_mono _ (Geometry.blocks_mono (Nat.le_succ _))
      exact hs₂.rollOver hfull (by omega) (by omega)
    · rw [hsame]
      exact ⟨rfl, rfl⟩
    · rw [hs₂.entryOf]
      refine h.appends_rollOver hf hfull hcap (g.blockOf_lt _) hs₂ ops₁ ops₂ hres₁ hres₂ true
        hsize₁ ?_
      rw [hsize₂]
      exact le_trans hend₂ hring₂.allocOff_le
    · refine hring₂.succ_of_full hfull ?_ rfl
      rw [FileOp.run_append, FileOp.run_append, ← hsize₂]
      exact size_run_appendOps

/-- **The file grows by the blocks in the ring and not further.** -/
theorem RingOk.size_newBlockPre (hring : RingOk g f off k 0 s r) (hs : s.Is g off k)
    {n' faultOff : ℕ} {nb : NewBlock}
    (hr : newBlockPre cfg f s r n n' faultOff = .ok (s', r', nb, ops)) :
    (FileOp.run ops f).size ≤ max f.size s'.allocOff := by
  rcases (newBlockPre_ok hr).2 with ⟨-, s₁, r₁, nb₁, ops₁, hw, hx⟩ |
    ⟨-, s₁, r₁, nb₁, ops₁, s₂, r₂, nb₂, ops₂, hw, hw', hx⟩
  · cases hx
    rw [FileOp.run_append, size_run_appendOps]
    exact (hring.size_waitBlock hs hw).2
  · cases hx
    obtain ⟨-, hring₁, hsame₁, -⟩ := hring.waitBlock hs hw
    obtain ⟨-, -, -, hres₂⟩ := hring₁.waitBlock (hs.sameLayer hsame₁) hw'
    have hsz₁ := (hring.size_waitBlock hs hw).2
    obtain ⟨hle₂, hsz₂⟩ := hring₁.size_waitBlock (hs.sameLayer hsame₁) hw'
    have hsz₃ : (FileOp.run ops₂ (FileOp.run (newMetaOps cfg nb₁.blockOff)
        (FileOp.run ops₁ f))).size = (FileOp.run ops₂ (FileOp.run ops₁ f)).size :=
      size_run_reserve_congr hres₂ size_run_newMetaOps
    have hroll : (s₂.rollOver ⟨nb₁.blockOff, 0 + 1⟩).allocOff = s₂.allocOff := rfl
    rw [FileOp.run_append,
      FileOp.size_run_of_inPlace (by simp [rollOverOps, storeInt, FileOp.InPlace]),
      FileOp.run_append, size_run_appendOps, FileOp.run_append, FileOp.run_append, hsz₃, hroll]
    omega

/-! ### Waiting ends -/

/-- The number of blocks the next entry of a layer takes: its data block, and a
meta block where it opens a segment. -/
def Geometry.need (g : Geometry cfg) (k : ℕ) : ℕ :=
  if k - g.lastSeg k * g.perSeg < g.perSeg then 1 else 2

theorem Geometry.need_le (g : Geometry cfg) (k : ℕ) : g.need k ≤ 2 := by
  rw [Geometry.need]
  split_ifs <;> decide

theorem Geometry.need_pos (g : Geometry cfg) (k : ℕ) : 0 < g.need k := by
  rw [Geometry.need]
  split_ifs <;> decide

/-- **The ring serves a request** for `m` blocks, `t` of them taken already: it
holds the others, or its thread still runs and the capacity lets it make them.
The thread counts a meta block like a data block, so that a request that opens
the segment of the very last entry is not served if the ring is empty. -/
def Ring.Serves (g : Geometry cfg) (k m t : ℕ) (r : Ring) : Prop :=
  m ≤ t + r.nbAvailable ∨ r.running = true ∧ k + m ≤ g.cap

variable {m : ℕ}

/-- What an iteration does while a request waits. -/
theorem RingOk.exists_allocate (h : RingOk g f off k t s r) (hs : s.Is g off k)
    (hroom : g.blockAt off (g.blocks k + maxPreNum) < 2 ^ 63) (hserve : r.Serves g k m t) :
    ∃ s' r' ops, Pcow.allocate s r = .ok (s', r', ops) ∧ r'.Serves g k m t ∧
      (t + r.nbAvailable < m → t + r.nbAvailable < maxPreNum → 0 < r'.nbAvailable) := by
  have hn := h.preallocN hs
  have hnum := hs.toAllocNum
  have hmax := hs.maxBlockNum
  rw [Pcow.allocate]
  split
  · rename_i hrun
    refine ⟨s, r, [], rfl, hserve, fun hlt => ?_⟩
    rcases hserve with hle | ⟨hrun', -⟩
    · omega
    · exact absurd hrun' hrun
  split
  · exact ⟨s, r, [], rfl, hserve, fun _ hlt => by rw [show maxPreNum = 5 from rfl] at *; omega⟩
  rename_i hahead
  split
  · -- the thread only leaves once the ring holds what is asked for
    rename_i hexit
    have hle : m ≤ t + r.nbAvailable := by
      rcases hserve with hle | ⟨-, hcap⟩
      · exact hle
      · rw [Geometry.cap] at hcap
        omega
    exact ⟨s, _, [], rfl, Or.inl hle, fun hlt => by omega⟩
  split
  · rename_i hno
    refine absurd ⟨?_, ?_⟩ hno
    · have := g.blockSize_pos
      rw [hs.blockSize]
      omega
    · have hle := g.blockAt_mono off (show g.blocks k + t + r.nbAvailable + 1 ≤
        g.blocks k + maxPreNum by rw [show maxPreNum = 5 from rfl] at *; omega)
      rw [Geometry.blockAt_succ] at hle
      rw [h.allocOff, hs.blockSize]
      omega
  · refine ⟨_, _, _, rfl, ?_, fun _ _ => Nat.succ_pos _⟩
    rcases hserve with hle | ⟨hrun, hcap⟩
    · exact Or.inl (by rw [Ring.nbAvailable_put]; omega)
    · exact Or.inr ⟨hrun, hcap⟩

theorem RingOk.exists_allocateMany (h : RingOk g f off k t s r) (hs : s.Is g off k)
    (hroom : g.blockAt off (g.blocks k + maxPreNum) < 2 ^ 63) (hserve : r.Serves g k m t) :
    ∃ s' r' ops, Pcow.allocateMany n s r = .ok (s', r', ops) ∧ r'.Serves g k m t := by
  induction n generalizing s r f with
  | zero => exact ⟨s, r, [], rfl, hserve⟩
  | succ n ih =>
    obtain ⟨s₁, r₁, ops₁, hone, hserve₁, -⟩ := h.exists_allocate hs hroom hserve
    obtain ⟨h₁, hsame₁, -, -⟩ := h.allocate hs hone
    obtain ⟨s₂, r₂, ops₂, hrest, hserve₂⟩ := ih h₁ (hs.sameLayer hsame₁) hserve₁
    refine ⟨s₂, r₂, ops₁ ++ ops₂, ?_, hserve₂⟩
    rw [Pcow.allocateMany, hone]
    simp only [hrest]
    rfl

/-- **A wait ends** while the ring serves the request. -/
theorem RingOk.exists_waitBlock (h : RingOk g f off k t s r) (hs : s.Is g off k)
    (hroom : g.blockAt off (g.blocks k + maxPreNum) < 2 ^ 63) (hserve : r.Serves g k m t)
    (hm : t < m) (ht : t < maxPreNum) :
    ∃ s' r' nb ops, Pcow.waitBlock n s r = .ok (s', r', nb, ops) ∧ r'.Serves g k m (t + 1) := by
  have htake : ∀ r : Ring, 0 < r.nbAvailable → r.Serves g k m t → r.take.Serves g k m (t + 1) := by
    rintro r hpos (hle | hrun)
    · exact Or.inl (by rw [Ring.nbAvailable_take]; omega)
    · exact Or.inr hrun
  obtain ⟨s₁, r₁, ops₁, hmany, hserve₁⟩ := h.exists_allocateMany (n := n) hs hroom hserve
  obtain ⟨h₁, hsame₁, -⟩ := h.allocateMany hs hmany
  rw [Pcow.waitBlock, hmany]
  simp only
  split
  · rename_i hpos
    exact ⟨_, _, _, _, rfl, htake r₁ hpos hserve₁⟩
  · rename_i hpos
    obtain ⟨s₂, r₂, ops₂, hone, hserve₂, hprod⟩ :=
      h₁.exists_allocate (hs.sameLayer hsame₁) hroom hserve₁
    have hpos₂ := hprod (by omega) (by omega)
    rw [hone]
    simp only [if_pos hpos₂]
    exact ⟨_, _, _, _, rfl, htake r₂ hpos₂ hserve₂⟩

/-- `new_block` returns while the ring serves the request. -/
theorem RingOk.exists_newBlockPre (h : RingOk g f off k 0 s r) (hs : s.Is g off k)
    (hcap : k + 1 ≤ g.cap) (hroom : g.blockAt off (g.blocks k + maxPreNum) < 2 ^ 63)
    (hserve : r.Serves g k (g.need k) 0) {n' faultOff : ℕ} :
    ∃ x, Pcow.newBlockPre cfg f s r n n' faultOff = .ok x := by
  obtain ⟨hcheck₁, hcheck₂⟩ := hs.check_iff.mpr hcap
  have hcounter := hs.counter
  have hper := hs.maxPerSeg
  rw [Pcow.newBlockPre, if_neg hcheck₁, if_neg hcheck₂]
  split
  · rename_i hlt
    rw [Geometry.need, if_pos (by omega)] at hserve
    obtain ⟨s₁, r₁, nb, ops, hw, -⟩ :=
      h.exists_waitBlock (n := n) hs hroom hserve Nat.one_pos (by decide)
    rw [hw]
    exact ⟨_, rfl⟩
  · rename_i hlt
    rw [Geometry.need, if_neg (by omega)] at hserve
    obtain ⟨s₁, r₁, nb, ops, hw, hserve₁⟩ :=
      h.exists_waitBlock (n := n) hs hroom hserve Nat.two_pos (by decide)
    obtain ⟨-, h₁, hsame₁, -⟩ := h.waitBlock hs hw
    obtain ⟨s₂, r₂, nb₂, ops₂, hw₂, -⟩ :=
      h₁.exists_waitBlock (n := n') (hs.sameLayer hsame₁) hroom hserve₁ Nat.one_lt_two (by decide)
    rw [hw]
    simp only [hw₂]
    exact ⟨_, rfl⟩

end Ring

/-! ### `new_block`, as the build has it -/

section NewBlock

variable {r r' : Ring} {ops : List FileOp} {nb : NewBlock} {n n' faultOff : ℕ}

/-- The ring is in order, where there is one. -/
def RingInv (g : Geometry cfg) (f : ByteFile) (off k : ℕ) (s : Super) (r : Ring) : Prop :=
  cfg.preAlloc = true → RingOk g f off k 0 s r

theorem RingInv.of_size {f' : ByteFile} (h : RingInv g f off k s r) (hsz : f'.size = f.size) :
    RingInv g f' off k s r := fun hpre => (h hpre).of_size hsz

/-- **`new_block` appends**, in every build: a call that returns found the layer
below its capacity, hands out the data block of the next entry, and its stores
append the entry. -/
theorem IsLayer.newBlock (h : IsLayer g f off es) (hf : f.size < 2 ^ 63)
    (hs : s.Is g off es.length) (hring : RingInv g f off es.length s r)
    (hr : newBlock cfg f s r n n' faultOff = .ok (s', r', nb, ops)) :
    es.length + 1 ≤ g.cap ∧ nb = ⟨g.dataOff off es.length⟩ ∧ s'.Is g off (es.length + 1) ∧
      s.SameEnv s' ∧ Appends g f off es (g.blockOf faultOff) ops ∧
      (FileOp.run ops f).size < 2 ^ 63 ∧
      RingInv g (FileOp.run ops f) off (es.length + 1) s' r' := by
  rw [Pcow.newBlock] at hr
  split at hr
  · rename_i hpre
    obtain ⟨hcap, hnb, hs', henv, happ, hring'⟩ := h.newBlockPre hs (hring hpre) hr
    exact ⟨hcap, hnb, hs', henv, happ, hring'.size_lt, fun _ => hring'⟩
  · rename_i hpre
    rcases hp : Pcow.newBlockPlain cfg f s faultOff with e | ⟨s₁, nb₁, ops₁⟩
    · rw [hp] at hr
      cases hr
    rw [hp] at hr
    cases hr
    obtain ⟨hcap, hend⟩ := hs.room_of_newBlockPlain (lt_of_le_of_lt h.size_le hf) hp
    obtain ⟨s₂, ops₂, heq, hs₂, henv, happ, hsz⟩ := h.newBlockPlain hf hs hcap hend faultOff
    rw [hp, Except.ok.injEq, Prod.mk.injEq, Prod.mk.injEq] at heq
    obtain ⟨rfl, rfl, rfl⟩ := heq
    refine ⟨hcap, rfl, hs₂, henv, happ, ?_, fun h => absurd h hpre⟩
    rw [hsz]
    exact max_lt hf hend

/-- **`new_block` returns** while the layer is below its capacity, the file has
room and, where there is a ring, it serves the request. -/
theorem IsLayer.exists_newBlock (h : IsLayer g f off es) (hf : f.size < 2 ^ 63)
    (hs : s.Is g off es.length) (hring : RingInv g f off es.length s r)
    (hcap : es.length + 1 ≤ g.cap)
    (hroom : g.blockAt off (g.blocks es.length + maxPreNum) < 2 ^ 63)
    (hserve : cfg.preAlloc = true → r.Serves g es.length (g.need es.length) 0) :
    ∃ x, Pcow.newBlock cfg f s r n n' faultOff = .ok x := by
  rw [Pcow.newBlock]
  split
  · rename_i hpre
    exact (hring hpre).exists_newBlockPre hs hcap hroom (hserve hpre)
  · have hle : g.endOff off (es.length + 1) ≤ g.blockAt off (g.blocks es.length + maxPreNum) := by
      refine g.blockAt_mono off ?_
      rcases Nat.lt_or_ge (es.length - g.lastSeg es.length * g.perSeg) g.perSeg with hlt | hge
      · rw [(g.blocks_succ_of_lt hlt).1, show maxPreNum = 5 from rfl]
        omega
      · rw [(g.blocks_succ_of_full (le_antisymm g.counter_le hge)).1,
          show maxPreNum = 5 from rfl]
        omega
    obtain ⟨s₁, ops₁, heq, -⟩ := h.newBlockPlain hf hs hcap (by omega) faultOff
    rw [heq]
    exact ⟨_, rfl⟩

end NewBlock

end Pcow
