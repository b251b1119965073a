import Pcow.PreAlloc
import Mathlib.Logic.Relation

/-!
# The allocator thread and its clients, step by step

With `PRE_ALLOC` the thread of `new_block_allocator` and the threads that call `new_block` work on
the same super block and the same ring. The thread takes no lock for what it reads of the super
block, and a call updates the super block in several stores. Here each read of the thread, each of
its stores and each store of a call that another thread sees is a step of its own
(`Threads.allocStep`, `Threads.callStep`), and the steps of the two sides come in any order.

`nb_lock2` is held during the whole of `new_block`, so that one call at a time is in progress, and a
thread that waits for the lock is one that may begin a call at any time when there is none. The
sections under `nb_lock` are single steps.

The numbers of the thread may be old when it uses them. `Threads.Inv` says what holds of them
nevertheless: it never takes fewer blocks to be ahead than there are (`AllocOk`), so that a slot of
the ring is free when it is filled, and the blocks come out of the ring in the order of the layout.
-/

namespace Pcow

/-! ### The threads -/

/-- Where `new_block_allocator` is in its loop, and what it has read. -/
inductive AllocPc
  /-- At the head of the loop. -/
  | top
  /-- `active_meta_off` is read. -/
  | haveOff (activeMetaOff : ℕ)
  /-- `cur_off` is computed, from the counter of the active meta block. -/
  | haveCur (curOff : ℕ)
  /-- `prealloc_n` is computed, and less than the size of the ring. -/
  | haveAhead (preallocN : ℤ)
  /-- `active_meta_num` is read. -/
  | haveNum (preallocN activeMetaNum : ℤ)
  /-- There is room: about to call `fallocate`. -/
  | reserve
  /-- About to store the block into its slot; `ok` if `fallocate` succeeded. -/
  | fill (ok : Bool)
  /-- About to count the block, under `nb_lock`. -/
  | publish (ok : Bool)
  /-- About to advance `alloc_off`. -/
  | advance (ok : Bool)
  /-- The thread has left its loop. -/
  | exited
  /-- `fallocate` had failed, and the process has ended. -/
  | dead
deriving DecidableEq

/-- The number of blocks the thread has counted and not advanced `alloc_off` over. -/
def AllocPc.behind : AllocPc → ℕ
  | advance _ => 1
  | _ => 0

/-- Where a call of `new_block` is. -/
inductive CallPc
  /-- Waiting for a block, in a segment that has room. -/
  | wait
  /-- About to store the entry. -/
  | entry (nb : NewBlock)
  /-- About to count it in memory. -/
  | count (nb : NewBlock)
  /-- About to count it in the file. -/
  | commit (nb : NewBlock)
  /-- Waiting for a block to become the meta block of a new segment, in `new_meta`. -/
  | waitMeta
  /-- About to clear the top of this block. -/
  | initMeta (m : Meta)
  /-- Waiting for the data block. -/
  | waitData (m : Meta)
  /-- About to append the entry to the new meta block. -/
  | entryNew (m : Meta) (nb : NewBlock)
  /-- About to store `active_meta`. -/
  | setMeta (m : Meta) (nb : NewBlock)
  /-- About to store `active_meta_num`. -/
  | setNum (nb : NewBlock)
  /-- About to store `active_meta_off`. -/
  | setOff (nb : NewBlock)
  /-- About to store the number of the meta block in the file. -/
  | commitSuper (nb : NewBlock)
  /-- About to release `nb_lock2` and return. -/
  | ret (nb : NewBlock)

/-- A call of `new_block` that holds `nb_lock2`. -/
structure Call where
  /-- The argument. -/
  faultOff : ℕ
  /-- How far it has come. -/
  pc : CallPc

/-- The state the threads share, and where each of them is. -/
structure Threads where
  /-- The image file. -/
  file : ByteFile
  /-- `cur_s`. -/
  s : Super
  /-- The ring. -/
  ring : Ring
  /-- The allocator thread. -/
  alloc : AllocPc
  /-- The call in progress. -/
  call : Option Call
  /-- The calls that have returned, in the order in which they held `nb_lock2`: the argument and
  the result. -/
  returned : List (ℕ × NewBlock)

namespace Threads

/-- A step of `new_block_allocator`; `none` if it makes no more. -/
def allocStep (st : Threads) : Option Threads :=
  match st.alloc with
  | .top => some { st with alloc := .haveOff st.s.activeMetaOff }
  | .haveOff a => some
    { st with
      alloc := .haveCur (u64 (a + st.s.blockSize + st.s.activeMeta.counter * st.s.blockSize)) }
  | .haveCur cur =>
    let n := i32 (u64 (st.s.allocOff - cur) / u64 st.s.blockSize : ℕ)
    -- the ring is full: sleep and try again
    if n + 1 > maxPreNum then some { st with alloc := .top }
    else some { st with alloc := .haveAhead n }
  | .haveAhead n => some { st with alloc := .haveNum n st.s.activeMetaNum }
  | .haveNum n num =>
    if num * st.s.maxPerSeg + st.s.activeMeta.counter + n + 1 > st.s.maxBlockNum then some
      { st with
        alloc := .exited
        ring := { st.ring with running := false } }
    else some { st with alloc := .reserve }
  | .reserve =>
    if FallocateOk st.s.allocOff st.s.blockSize then some
      { st with
        file := st.file.reserve st.s.allocOff (u64 st.s.blockSize)
        alloc := .fill true }
    else some { st with alloc := .fill false }
  | .fill ok => some
    { st with
      ring := { st.ring with
        nbs := Function.update st.ring.nbs (st.ring.nbCount % maxPreNum) ⟨st.s.allocOff⟩ }
      alloc := .publish ok }
  | .publish ok => some
    { st with
      ring := { st.ring with
        nbCount := st.ring.nbCount + 1
        nbAvailable := st.ring.nbAvailable + 1 }
      alloc := .advance ok }
  | .advance ok => some
    { st with
      s := { st.s with allocOff := u64 (st.s.allocOff + st.s.blockSize) }
      -- only now is the result of `fallocate` looked at
      alloc := if ok then .top else .dead }
  | .exited => none
  | .dead => none

/-- The call goes on at `pc`. -/
def goto (st : Threads) (c : Call) (pc : CallPc) : Threads :=
  { st with call := some { c with pc } }

/-- The call takes a block from the ring, once there is one. -/
def takeStep (st : Threads) (c : Call) (next : NewBlock → CallPc) : Option Threads :=
  if 0 < st.ring.nbAvailable then
    some ({ st with ring := st.ring.take }.goto c (next st.ring.front))
  else none

/-- A step of the call in progress; `none` while it waits. -/
def callStep (cfg : Config) (st : Threads) : Option Threads :=
  match st.call with
  | none => none
  | some c => match c.pc with
    | .wait => st.takeStep c .entry
    | .entry nb => some ({ st with
        file := FileOp.run (entryOps cfg st.s.activeMeta (entryOf st.s c.faultOff)
          cfg.finegrainedCow) st.file }.goto c (.count nb))
    | .count nb => some ({ st with
        s := { st.s with
          activeMeta := { st.s.activeMeta with counter := st.s.activeMeta.counter + 1 } } }.goto c
            (.commit nb))
    | .commit nb => some ({ st with
        file := FileOp.run (counterOps st.file st.s.activeMeta) st.file }.goto c (.ret nb))
    | .waitMeta => st.takeStep c fun nb => .initMeta ⟨nb.blockOff, 0⟩
    | .initMeta m => some ({ st with
        file := FileOp.run (newMetaOps cfg m.pmTop) st.file }.goto c (.waitData m))
    | .waitData m => st.takeStep c (.entryNew m)
    | .entryNew m nb => some ({ st with
        file := FileOp.run (appendOps cfg st.file m (entryOf st.s c.faultOff) true)
          st.file }.goto c (.setMeta { m with counter := m.counter + 1 } nb))
    | .setMeta m nb => some ({ st with s := { st.s with activeMeta := m } }.goto c (.setNum nb))
    | .setNum nb => some ({ st with
        s := { st.s with activeMetaNum := i32 (st.s.activeMetaNum + 1) } }.goto c (.setOff nb))
    | .setOff nb => some ({ st with
        s := { st.s with activeMetaOff := u64 (st.s.myOff + st.s.blockSize +
          st.s.activeMetaNum * (st.s.maxPerSeg + 1) * st.s.blockSize) } }.goto c (.commitSuper nb))
    | .commitSuper nb => some ({ st with
        file := FileOp.run [storeInt (st.s.myOff + 8) st.s.activeMetaNum, .flush st.s.myOff, .fence]
          st.file }.goto c (.ret nb))
    | .ret nb => some { st with
        call := none
        returned := st.returned ++ [(c.faultOff, nb)] }

/-- A thread gets `nb_lock2` and begins a call. The process ends if the layer is full. -/
def enter (st : Threads) (faultOff : ℕ) : Option Threads :=
  if st.call.isSome ∨ st.s.toAllocNum > st.s.maxBlockNum then none
  else some { st with
    call := some ⟨faultOff,
      if st.s.activeMeta.counter < st.s.maxPerSeg then .wait else .waitMeta⟩ }

/-- **A step of the threads**, while the process runs. -/
inductive Step (cfg : Config) (st st' : Threads) : Prop
  | alloc : st.allocStep = some st' → Step cfg st st'
  | call : st.alloc ≠ .dead → st.callStep cfg = some st' → Step cfg st st'
  | enter {faultOff : ℕ} : st.alloc ≠ .dead → st.enter faultOff = some st' → Step cfg st st'

/-- The threads as `fmmap` starts them, on a super block whose `alloc_off` is set. -/
def start (f : ByteFile) (s : Super) : Threads := ⟨f, s, .init, .top, none, []⟩

end Threads

/-! ### What a thread sees of the super block -/

variable {cfg : Config} {g : Geometry cfg} {off k T : ℕ} {s : Super}

/-- **The values in memory of a super block while a call updates them**: the active meta block is
that of a layer with `a` entries, its number that of one with `b` entries, and its offset that of
one with `c` entries. -/
structure Super.Sees (s : Super) (g : Geometry cfg) (off a b c : ℕ) : Prop where
  blockSize : s.blockSize = g.blockSize
  maxBlockNum : s.maxBlockNum = g.maxBlockNum
  maxPerSeg : s.maxPerSeg = g.perSeg
  myOff : s.myOff = off
  activeMeta : s.activeMeta =
    ⟨g.blockAt off (g.metaBlock (g.lastSeg a)), (a - g.lastSeg a * g.perSeg : ℕ)⟩
  activeMetaNum : s.activeMetaNum = g.lastSeg b
  activeMetaOff : s.activeMetaOff = g.blockAt off (g.metaBlock (g.lastSeg c))

theorem Super.is_iff_sees : s.Is g off k ↔ s.Sees g off k k k := by
  constructor
  · intro h
    exact ⟨h.blockSize, h.maxBlockNum, h.maxPerSeg, h.myOff, h.activeMeta, h.activeMetaNum,
      h.activeMetaOff⟩
  · intro h
    exact ⟨h.blockSize, h.maxBlockNum, h.activeMetaNum, h.maxPerSeg, h.myOff, h.activeMetaOff,
      h.activeMeta⟩

theorem Super.Sees.u64_blockSize {a b c : ℕ} (h : s.Sees g off a b c) :
    u64 s.blockSize = g.blockSize := by
  have := g.blockSize_lt
  rw [h.blockSize, u64_natCast (by omega)]

/-- The three stores of a call that opens a new segment. -/
theorem Super.Sees.setMeta (h : s.Sees g off k k k)
    (hfull : k - g.lastSeg k * g.perSeg = g.perSeg) :
    Super.Sees { s with activeMeta := ⟨g.endOff off k, 1⟩ } g off (k + 1) k k := by
  obtain ⟨hseg, -, -⟩ := g.lastSeg_succ_of_full hfull
  obtain ⟨-, -, hmeta⟩ := g.blocks_succ_of_full hfull
  have hone : k + 1 - g.lastSeg (k + 1) * g.perSeg = 1 := by
    have hmul : (g.lastSeg k + 1) * g.perSeg = g.lastSeg k * g.perSeg + g.perSeg := by ring
    have := g.lastSeg_mul_le (k := k)
    rw [hseg]
    omega
  refine ⟨h.blockSize, h.maxBlockNum, h.maxPerSeg, h.myOff, ?_, h.activeMetaNum, h.activeMetaOff⟩
  rw [hone, hmeta, Geometry.endOff]
  rfl

theorem Super.Sees.setNum (h : s.Sees g off (k + 1) k k)
    (hfull : k - g.lastSeg k * g.perSeg = g.perSeg) (hk : k + 1 < 2 ^ 31) :
    Super.Sees { s with activeMetaNum := i32 (s.activeMetaNum + 1) } g off (k + 1) (k + 1) k := by
  obtain ⟨hseg, -, -⟩ := g.lastSeg_succ_of_full hfull
  have hle := g.lastSeg_le (k := k)
  refine ⟨h.blockSize, h.maxBlockNum, h.maxPerSeg, h.myOff, h.activeMeta, ?_, h.activeMetaOff⟩
  simp only [h.activeMetaNum]
  rw [hseg, i32_of_range (by omega) (by omega)]
  push_cast
  rfl

theorem Super.Sees.setOff (h : s.Sees g off (k + 1) (k + 1) k)
    (hlt : g.blockAt off (g.metaBlock (g.lastSeg (k + 1))) < 2 ^ 64) :
    Super.Sees { s with activeMetaOff := u64 (s.myOff + s.blockSize +
      s.activeMetaNum * (s.maxPerSeg + 1) * s.blockSize) } g off (k + 1) (k + 1) (k + 1) := by
  have hz : (s.myOff : ℤ) + s.blockSize + s.activeMetaNum * (s.maxPerSeg + 1) * s.blockSize =
      (g.blockAt off (g.metaBlock (g.lastSeg (k + 1))) : ℕ) := by
    rw [h.myOff, h.blockSize, h.maxPerSeg, h.activeMetaNum, Geometry.blockAt, Geometry.metaBlock]
    push_cast
    ring
  refine ⟨h.blockSize, h.maxBlockNum, h.maxPerSeg, h.myOff, h.activeMeta, h.activeMetaNum, ?_⟩
  simp only [hz, u64_natCast hlt]

theorem Geometry.blocks_lt (g : Geometry cfg) {j : ℕ} (h : k < j) : g.blocks k < g.blocks j := by
  have := g.lastSeg_mono h.le
  rw [Geometry.blocks, Geometry.blocks]
  omega

theorem Geometry.blocks_succ_le (g : Geometry cfg) (k : ℕ) :
    g.blocks (k + 1) ≤ g.blocks k + 2 := by
  rcases Nat.lt_or_ge (k - g.lastSeg k * g.perSeg) g.perSeg with hlt | hge
  · have := (g.blocks_succ_of_lt hlt).1
    omega
  · have := (g.blocks_succ_of_full (le_antisymm g.counter_le hge)).1
    omega

namespace CallPc

/-- How many entries the active meta block, its number and its offset are for, while a call is at
`pc` in a layer of `k` entries. -/
def seen (k : ℕ) : CallPc → ℕ × ℕ × ℕ
  | commit _ | commitSuper _ | ret _ => (k + 1, k + 1, k + 1)
  | setNum _ => (k + 1, k, k)
  | setOff _ => (k + 1, k + 1, k)
  | _ => (k, k, k)

/-- The number of blocks of the layer that are recorded or taken. -/
def taken (g : Geometry cfg) (k : ℕ) : CallPc → ℕ
  | wait | waitMeta => g.blocks k
  | initMeta _ | waitData _ => g.blocks k + 1
  | _ => g.blocks (k + 1)

/-- **What a call has taken from the ring**: the next data block of the layer, and before it the
next meta block if the active segment is full. -/
def Ok (g : Geometry cfg) (off k : ℕ) : CallPc → Prop
  | wait => k - g.lastSeg k * g.perSeg < g.perSeg
  | entry nb | count nb | commit nb => k - g.lastSeg k * g.perSeg < g.perSeg ∧
      nb = ⟨g.dataOff off k⟩
  | waitMeta => k - g.lastSeg k * g.perSeg = g.perSeg
  | initMeta m | waitData m => k - g.lastSeg k * g.perSeg = g.perSeg ∧ m = ⟨g.endOff off k, 0⟩
  | entryNew m nb => k - g.lastSeg k * g.perSeg = g.perSeg ∧ m = ⟨g.endOff off k, 0⟩ ∧
      nb = ⟨g.dataOff off k⟩
  | setMeta m nb => k - g.lastSeg k * g.perSeg = g.perSeg ∧ m = ⟨g.endOff off k, 1⟩ ∧
      nb = ⟨g.dataOff off k⟩
  | setNum nb | setOff nb | commitSuper nb => k - g.lastSeg k * g.perSeg = g.perSeg ∧
      nb = ⟨g.dataOff off k⟩
  | ret nb => nb = ⟨g.dataOff off k⟩

end CallPc

namespace Threads

variable {st st' : Threads} {c : Call}

/-- The same numbers for the state of the threads. -/
def seen (st : Threads) (k : ℕ) : ℕ × ℕ × ℕ :=
  match st.call with
  | none => (k, k, k)
  | some c => c.pc.seen k

/-- The number of blocks of the layer that are recorded or taken. -/
def taken (st : Threads) (g : Geometry cfg) (k : ℕ) : ℕ :=
  match st.call with
  | none => g.blocks k
  | some c => c.pc.taken g k

/-- **The call in progress is in order**, in a layer of `k` entries. -/
structure CallOk (g : Geometry cfg) (off k : ℕ) (st : Threads) : Prop where
  sees : st.s.Sees g off (st.seen k).1 (st.seen k).2.1 (st.seen k).2.2
  pc : ∀ c, st.call = some c → c.pc.Ok g off k ∧ k + 1 ≤ g.cap

/-- **The ring holds the blocks that come next**, `T` blocks of the layer being recorded or
taken. -/
structure RingAt (g : Geometry cfg) (off T : ℕ) (st : Threads) : Prop where
  available_le : st.ring.nbAvailable ≤ maxPreNum
  available_le_count : st.ring.nbAvailable ≤ st.ring.nbCount
  slot : ∀ i < st.ring.nbAvailable,
    st.ring.nbs ((st.ring.nbCount - st.ring.nbAvailable + i) % maxPreNum) = ⟨g.blockAt off (T + i)⟩

/-- **What the thread knows is safe to act on.** The offset it has read is not past the current one;
the number of blocks it takes to be ahead is never too small; there is a free slot when it
fills one; and it takes `fallocate` to have succeeded only if it has. -/
def AllocOk (g : Geometry cfg) (off T : ℕ) (st : Threads) : Prop :=
  match st.alloc with
  | .top | .exited | .dead => True
  | .haveOff a => ∃ j j', a = g.blockAt off (g.metaBlock j) ∧
      st.s.activeMetaOff = g.blockAt off (g.metaBlock j') ∧ j ≤ j' ∧
      T + st.ring.nbAvailable ≤ g.metaBlock j + g.perSeg + 8
  | .haveCur cur => ∃ q ≤ T, cur = g.blockAt off q ∧ T + st.ring.nbAvailable ≤ q + g.perSeg + 8
  | .haveAhead n | .haveNum n _ => (st.ring.nbAvailable : ℤ) ≤ n ∧ n + 1 ≤ maxPreNum
  | .reserve => st.ring.nbAvailable + 1 ≤ maxPreNum
  | .fill ok => st.ring.nbAvailable + 1 ≤ maxPreNum ∧
      (ok = true → st.s.allocOff + g.blockSize < 2 ^ 63)
  | .publish ok => st.ring.nbAvailable + 1 ≤ maxPreNum ∧
      (ok = true → st.s.allocOff + g.blockSize < 2 ^ 63) ∧
      st.ring.nbs (st.ring.nbCount % maxPreNum) = ⟨g.blockAt off (T + st.ring.nbAvailable)⟩
  | .advance ok => ok = true → st.s.allocOff + g.blockSize < 2 ^ 63

/-- **The offset the thread allocates at**: right after the blocks it has counted. -/
def OffOk (g : Geometry cfg) (off T : ℕ) (st : Threads) : Prop :=
  st.alloc ≠ .dead → st.s.allocOff + st.alloc.behind * g.blockSize =
    g.blockAt off (T + st.ring.nbAvailable) ∧ st.s.allocOff < 2 ^ 63

/-- **The threads are in order**, in a layer of `k` entries. -/
structure Safe (g : Geometry cfg) (off k : ℕ) (st : Threads) : Prop where
  callOk : CallOk g off k st
  ringAt : RingAt g off (st.taken g k) st
  allocOk : AllocOk g off (st.taken g k) st
  offOk : OffOk g off (st.taken g k) st

/-! ### Steps of the allocator thread -/

/-- The blocks taken are those of the entries in memory, and at most two more. -/
theorem taken_bounds (st : Threads) (g : Geometry cfg) (k : ℕ) :
    g.blocks (st.seen k).1 ≤ st.taken g k ∧ st.taken g k ≤ g.blocks (st.seen k).2.2 + 2 ∧
      (st.seen k).2.2 ≤ (st.seen k).1 := by
  have hle := g.blocks_succ_le k
  have hmono : g.blocks k ≤ g.blocks (k + 1) := g.blocks_mono (Nat.le_succ k)
  rw [taken, seen]
  rcases st.call with _ | c
  · exact ⟨le_rfl, Nat.le_add_right _ _, le_rfl⟩
  · cases hpc : c.pc <;> simp only [CallPc.taken, CallPc.seen, hpc] <;> omega

/-- **Where a thread that reads the offset and the counter of the active meta block takes the layer
to end**: not after the blocks that are taken, and at most a segment before. The offset may be an
old one (that of meta block `j`). -/
theorem CallOk.read (h : CallOk g off k st) {j j' : ℕ}
    (hoff : st.s.activeMetaOff = g.blockAt off (g.metaBlock j')) (hj : j ≤ j') :
    ∃ c : ℕ, st.s.activeMeta.counter = c ∧ g.metaBlock j + 1 + c ≤ st.taken g k ∧
      st.taken g k ≤ g.metaBlock j' + g.perSeg + 3 := by
  obtain ⟨h₁, h₂, h₃⟩ := st.taken_bounds g k
  have hinj : g.metaBlock j' = g.metaBlock (g.lastSeg (st.seen k).2.2) := by
    have := hoff.symm.trans h.sees.activeMetaOff
    rw [Geometry.blockAt, Geometry.blockAt] at this
    exact Nat.eq_of_mul_eq_mul_left g.blockSize_pos (by omega)
  have hseg : g.lastSeg (st.seen k).2.2 ≤ g.lastSeg (st.seen k).1 := g.lastSeg_mono h₃
  have hmono : ∀ {i i' : ℕ}, i ≤ i' → g.metaBlock i ≤ g.metaBlock i' := fun {i i'} hle =>
    Nat.add_le_add_left (Nat.mul_le_mul_right _ hle) _
  have hm₁ := hmono hj
  have hm₂ := hmono hseg
  have hb := g.blocks_eq (k := (st.seen k).1)
  have hb' := g.blocks_eq (k := (st.seen k).2.2)
  have hc := g.counter_le (k := (st.seen k).2.2)
  refine ⟨(st.seen k).1 - g.lastSeg (st.seen k).1 * g.perSeg, ?_, ?_, ?_⟩
  · rw [h.sees.activeMeta]
  · omega
  · omega

/-- The values a call looks at do not depend on `alloc_off`. -/
theorem CallOk.of_alloc (h : CallOk g off k st) (hcall : st'.call = st.call)
    (hs : st'.s = { st.s with allocOff := st'.s.allocOff }) : CallOk g off k st' := by
  have hseen : st'.seen k = st.seen k := by rw [seen, hcall, seen]
  refine ⟨?_, fun c hc => h.pc c (hcall ▸ hc)⟩
  rw [hseen, hs]
  exact ⟨h.sees.blockSize, h.sees.maxBlockNum, h.sees.maxPerSeg, h.sees.myOff, h.sees.activeMeta,
    h.sees.activeMetaNum, h.sees.activeMetaOff⟩

/-- `cur_off`, from the offset of a meta block and the counter. -/
theorem curOff_eq {q c : ℕ} (hs : s.blockSize = g.blockSize)
    (hlt : g.blockAt off (q + 1 + c) < 2 ^ 64) :
    u64 ((g.blockAt off q : ℕ) + s.blockSize + (c : ℤ) * s.blockSize) =
      g.blockAt off (q + 1 + c) := by
  have hz : ((g.blockAt off q : ℕ) : ℤ) + s.blockSize + (c : ℤ) * s.blockSize =
      (g.blockAt off (q + 1 + c) : ℕ) := by
    rw [hs, Geometry.blockAt, Geometry.blockAt]
    push_cast
    ring
  rw [hz, u64_natCast hlt]

/-- `prealloc_n`, from two offsets at which blocks begin. -/
theorem preallocN_eq {q n : ℕ} (hlt : g.blockAt off (q + n) < 2 ^ 64) (hn : n < 2 ^ 31) :
    i32 (u64 ((g.blockAt off (q + n) : ℕ) - (g.blockAt off q : ℕ) : ℤ) / g.blockSize : ℕ) = n := by
  have hz : ((g.blockAt off (q + n) : ℕ) : ℤ) - (g.blockAt off q : ℕ) = (g.blockSize * n : ℕ) := by
    rw [Geometry.blockAt, Geometry.blockAt]
    push_cast
    ring
  have hle : g.blockSize * n < 2 ^ 64 := by
    rw [Geometry.blockAt, Nat.mul_add] at hlt
    omega
  rw [hz, u64_natCast hle, Nat.mul_div_cancel_left _ g.blockSize_pos,
    i32_of_range (by omega) (by omega)]

theorem OffOk.eq (h : OffOk g off T st) (hdead : st.alloc ≠ .dead) (hb : st.alloc.behind = 0) :
    st.s.allocOff = g.blockAt off (T + st.ring.nbAvailable) ∧ st.s.allocOff < 2 ^ 63 := by
  obtain ⟨h₁, h₂⟩ := h hdead
  rw [hb, Nat.zero_mul, Nat.add_zero] at h₁
  exact ⟨h₁, h₂⟩

/-- A step in which the thread only reads. -/
theorem Safe.setAlloc (h : Safe g off k st) {pc : AllocPc} (hdead : st.alloc ≠ .dead)
    (hb : st.alloc.behind = 0) (hb' : pc.behind = 0) {r : Ring}
    (hr : r = { st.ring with running := r.running })
    (hok : AllocOk g off (st.taken g k) { st with alloc := pc, ring := r }) :
    Safe g off k { st with alloc := pc, ring := r } := by
  have havail : r.nbAvailable = st.ring.nbAvailable := by rw [hr]
  have hcount : r.nbCount = st.ring.nbCount := by rw [hr]
  have hnbs : r.nbs = st.ring.nbs := by rw [hr]
  refine ⟨h.callOk.of_alloc rfl rfl, ⟨?_, ?_, ?_⟩, hok, fun _ => ?_⟩
  · rw [havail]
    exact h.ringAt.available_le
  · rw [havail, hcount]
    exact h.ringAt.available_le_count
  · simp only [havail, hcount, hnbs]
    exact h.ringAt.slot
  · obtain ⟨h₁, h₂⟩ := h.offOk hdead
    rw [hb] at h₁
    simp only [hb', havail]
    exact ⟨h₁, h₂⟩

/-- The thread computes how many blocks are ahead, and never fewer than there are. -/
theorem Safe.haveCur {cur : ℕ} (h : Safe g off k st) (halloc : st.alloc = .haveCur cur)
    (hr : st.allocStep = some st') : Safe g off k st' := by
  have hok := h.allocOk
  rw [AllocOk, halloc] at hok
  have hu : u64 st.s.blockSize = g.blockSize := h.callOk.sees.u64_blockSize
  have hper := g.perSeg_mul_le
  have hbs31 := g.blockSize_lt
  rw [Threads.allocStep, halloc] at hr
  obtain ⟨q, hq, hcur, hle⟩ := hok
  obtain ⟨h₁, h₂⟩ := h.offOk.eq (by simp [halloc]) (by rw [halloc]; rfl)
  -- the thread computes the number of blocks after `q`
  obtain ⟨n, hn⟩ : ∃ n, st.taken g k + st.ring.nbAvailable = q + n :=
    ⟨st.taken g k + st.ring.nbAvailable - q, by omega⟩
  have hahead : (st.ring.nbAvailable : ℤ) ≤ n := by
    have : st.ring.nbAvailable ≤ n := by omega
    exact_mod_cast this
  have hcomp : i32 (u64 (st.s.allocOff - cur) / u64 st.s.blockSize : ℕ) = n := by
    rw [hu, h₁, hcur, hn]
    refine preallocN_eq ?_ ?_
    · rw [← hn, ← h₁]
      omega
    · rcases cfg.entrySize_cases with he | he
      · rw [he] at hper
        omega
      · rw [he] at hper
        omega
  simp only [hcomp] at hr
  split_ifs at hr with hfull
  · cases hr
    exact h.setAlloc (by simp [halloc]) (by rw [halloc]; rfl) rfl rfl trivial
  · cases hr
    exact h.setAlloc (by simp [halloc]) (by rw [halloc]; rfl) rfl rfl ⟨hahead, not_lt.mp hfull⟩

/-- The thread reserves a block. -/
theorem Safe.reserve (h : Safe g off k st) (halloc : st.alloc = .reserve)
    (hr : st.allocStep = some st') : Safe g off k st' := by
  have hok := h.allocOk
  rw [AllocOk, halloc] at hok
  have hbs := h.callOk.sees.blockSize
  rw [Threads.allocStep, halloc] at hr
  simp only at hr
  split_ifs at hr with hf
  · cases hr
    refine ⟨h.callOk.of_alloc rfl rfl, ⟨h.ringAt.available_le, h.ringAt.available_le_count,
      h.ringAt.slot⟩, ⟨hok, fun _ => ?_⟩, fun _ => ?_⟩
    · have := hf.2
      rw [hbs] at this
      simp only
      omega
    · have := h.offOk (by simp [halloc])
      rw [halloc] at this
      exact this
  · cases hr
    exact h.setAlloc (by simp [halloc]) (by rw [halloc]; rfl) rfl rfl ⟨hok, by simp⟩

/-- The thread stores the block into a slot that is not in use. -/
theorem Safe.fill {ok : Bool} (h : Safe g off k st) (halloc : st.alloc = .fill ok)
    (hr : st.allocStep = some st') : Safe g off k st' := by
  have hok := h.allocOk
  rw [AllocOk, halloc] at hok
  rw [Threads.allocStep, halloc] at hr
  cases hr
  obtain ⟨h₁, h₂⟩ := h.offOk.eq (by simp [halloc]) (by rw [halloc]; rfl)
  obtain ⟨hle, hroom⟩ := hok
  have hcnt := h.ringAt.available_le_count
  refine ⟨h.callOk.of_alloc rfl rfl, ⟨h.ringAt.available_le, h.ringAt.available_le_count,
    fun i hi => ?_⟩, ⟨hle, hroom, ?_⟩, fun _ => ⟨?_, h₂⟩⟩
  · -- at most four slots are in use, so the next one is another
    simp only at hi ⊢
    rw [Function.update_of_ne, h.ringAt.slot i hi]
    · rfl
    · rw [show maxPreNum = 5 from rfl] at *
      omega
  · simp only [Function.update_self]
    rw [h₁]
    rfl
  · rw [show (AllocPc.publish ok).behind = 0 from rfl, Nat.zero_mul, Nat.add_zero]
    exact h₁

/-- The thread counts the block. -/
theorem Safe.publish {ok : Bool} (h : Safe g off k st) (halloc : st.alloc = .publish ok)
    (hr : st.allocStep = some st') : Safe g off k st' := by
  have hok := h.allocOk
  rw [AllocOk, halloc] at hok
  rw [Threads.allocStep, halloc] at hr
  cases hr
  obtain ⟨h₁, h₂⟩ := h.offOk.eq (by simp [halloc]) (by rw [halloc]; rfl)
  obtain ⟨hle, hroom, hslot⟩ := hok
  have hcnt := h.ringAt.available_le_count
  refine ⟨h.callOk.of_alloc rfl rfl, ⟨hle, Nat.succ_le_succ hcnt, fun i hi => ?_⟩, hroom,
    fun _ => ⟨?_, h₂⟩⟩
  · simp only at hi ⊢
    rw [show st.ring.nbCount + 1 - (st.ring.nbAvailable + 1) + i =
      st.ring.nbCount - st.ring.nbAvailable + i by omega]
    rcases Nat.lt_or_ge i st.ring.nbAvailable with hlt | hge
    · exact h.ringAt.slot i hlt
    · obtain rfl : i = st.ring.nbAvailable := by omega
      rw [Nat.sub_add_cancel hcnt]
      exact hslot
  · simp only [AllocPc.behind]
    rw [h₁, Nat.one_mul, ← Nat.add_assoc, Geometry.blockAt_succ]
    rfl

/-- The thread advances `alloc_off` over the block. -/
theorem Safe.advance {ok : Bool} (h : Safe g off k st) (halloc : st.alloc = .advance ok)
    (hr : st.allocStep = some st') : Safe g off k st' := by
  have hok := h.allocOk
  rw [AllocOk, halloc] at hok
  have hbs := h.callOk.sees.blockSize
  have hbs31 := g.blockSize_lt
  rw [Threads.allocStep, halloc] at hr
  cases hr
  obtain ⟨h₁, h₂⟩ := h.offOk (by simp [halloc])
  rw [halloc, show (AllocPc.advance ok).behind = 1 from rfl, Nat.one_mul] at h₁
  have hadv : u64 (st.s.allocOff + st.s.blockSize) = st.s.allocOff + g.blockSize := by
    rw [hbs, ← Nat.cast_add, u64_natCast (by omega)]
  refine ⟨h.callOk.of_alloc rfl rfl, ⟨h.ringAt.available_le, h.ringAt.available_le_count,
    h.ringAt.slot⟩, ?_, fun hdead => ?_⟩
  · cases ok <;> exact trivial
  · cases ok with
    | false => exact absurd rfl hdead
    | true =>
      simp only [if_true, AllocPc.behind, Nat.zero_mul, Nat.add_zero, hadv]
      exact ⟨h₁, hok rfl⟩

/-- **Every step of the allocator thread is safe.** -/
theorem Safe.allocStep (h : Safe g off k st) (hr : st.allocStep = some st') :
    Safe g off k st' := by
  have hok := h.allocOk
  have hbs := h.callOk.sees.blockSize
  have hstep := hr
  rw [Threads.allocStep] at hr
  rw [AllocOk] at hok
  cases halloc : st.alloc with
  | top =>
    rw [halloc] at hr
    cases hr
    refine h.setAlloc (by simp [halloc]) (by rw [halloc]; rfl) rfl rfl ?_
    have hoff := h.callOk.sees.activeMetaOff
    obtain ⟨c, -, -, hle⟩ := h.callOk.read hoff le_rfl
    have hav := h.ringAt.available_le
    rw [show maxPreNum = 5 from rfl] at hav
    refine ⟨_, _, hoff, hoff, le_rfl, ?_⟩
    simp only
    omega
  | haveOff a =>
    rw [halloc] at hr hok
    cases hr
    obtain ⟨j, j', ha, hoff, hj, hle⟩ := hok
    obtain ⟨c, hc, hcle, -⟩ := h.callOk.read hoff hj
    refine h.setAlloc (by simp [halloc]) (by rw [halloc]; rfl) rfl rfl ?_
    obtain ⟨h₁, h₂⟩ := h.offOk.eq (by simp [halloc]) (by rw [halloc]; rfl)
    have hmono : g.blockAt off (g.metaBlock j + 1 + c) ≤ st.s.allocOff := by
      rw [h₁]
      exact g.blockAt_mono off (by omega)
    refine ⟨g.metaBlock j + 1 + c, hcle, ?_, ?_⟩
    · rw [ha, hc]
      exact curOff_eq hbs (by omega)
    · simp only
      omega
  | haveCur cur => exact h.haveCur halloc hstep
  | haveAhead n =>
    rw [halloc] at hr hok
    cases hr
    exact h.setAlloc (by simp [halloc]) (by rw [halloc]; rfl) rfl rfl hok
  | haveNum n num =>
    rw [halloc] at hr hok
    simp only at hr
    split_ifs at hr
    · cases hr
      exact h.setAlloc (by simp [halloc]) (by rw [halloc]; rfl) rfl rfl trivial
    · cases hr
      refine h.setAlloc (by simp [halloc]) (by rw [halloc]; rfl) rfl rfl ?_
      obtain ⟨h₁, h₂⟩ := hok
      rw [AllocOk]
      simp only
      omega
  | reserve => exact h.reserve halloc hstep
  | fill ok => exact h.fill halloc hstep
  | publish ok => exact h.publish halloc hstep
  | advance ok => exact h.advance halloc hstep
  | exited =>
    rw [halloc] at hr
    cases hr
  | dead =>
    rw [halloc] at hr
    cases hr

/-- The thread leaves the calls alone, and takes nothing from the ring. -/
theorem allocStep_keeps (hr : st.allocStep = some st') :
    st'.call = st.call ∧ st'.returned = st.returned ∧
      st.ring.nbAvailable ≤ st'.ring.nbAvailable := by
  rw [Threads.allocStep] at hr
  cases halloc : st.alloc <;> rw [halloc] at hr <;> simp only at hr <;> (try split_ifs at hr) <;>
    cases hr <;> refine ⟨rfl, rfl, ?_⟩ <;> first | exact le_rfl | exact Nat.le_succ _

/-! ### Steps of a call -/

/-- What the thread knows stays safe to act on while blocks are taken and the layer grows. -/
theorem AllocOk.mono {T' : ℕ} (h : AllocOk g off T st) (halloc : st'.alloc = st.alloc)
    (hnbs : st'.ring.nbs = st.ring.nbs) (hcount : st'.ring.nbCount = st.ring.nbCount)
    (hsum : T' + st'.ring.nbAvailable = T + st.ring.nbAvailable) (hT : T ≤ T')
    (hallocOff : st'.s.allocOff = st.s.allocOff)
    (hoff : ∀ j, st.s.activeMetaOff = g.blockAt off (g.metaBlock j) →
      ∃ j' ≥ j, st'.s.activeMetaOff = g.blockAt off (g.metaBlock j')) : AllocOk g off T' st' := by
  rw [AllocOk] at h ⊢
  rw [halloc]
  cases hpc : st.alloc with
  | top => trivial
  | exited => trivial
  | dead => trivial
  | haveOff a =>
    rw [hpc] at h
    obtain ⟨j, j', ha, hj', hle, hsize⟩ := h
    obtain ⟨j'', hge, hj''⟩ := hoff j' hj'
    exact ⟨j, j'', ha, hj'', le_trans hle hge, hsum ▸ hsize⟩
  | haveCur cur =>
    rw [hpc] at h
    obtain ⟨q, hq, hcur, hsize⟩ := h
    exact ⟨q, le_trans hq hT, hcur, hsum ▸ hsize⟩
  | haveAhead n =>
    rw [hpc] at h
    simp only at h ⊢
    omega
  | haveNum n num =>
    rw [hpc] at h
    simp only at h ⊢
    omega
  | reserve =>
    rw [hpc] at h
    simp only at h ⊢
    omega
  | fill ok =>
    rw [hpc] at h
    simp only [hallocOff] at h ⊢
    exact ⟨by omega, h.2⟩
  | publish ok =>
    rw [hpc] at h
    simp only [hallocOff, hnbs, hcount, hsum] at h ⊢
    exact ⟨by omega, h.2⟩
  | advance ok =>
    rw [hpc] at h
    simp only [hallocOff] at h ⊢
    exact h

/-- A step of a call that takes nothing from the ring. -/
theorem Safe.keep {k' : ℕ} (h : Safe g off k st) (hcall : CallOk g off k' st')
    (halloc : st'.alloc = st.alloc) (hring : st'.ring = st.ring)
    (hT : st'.taken g k' = st.taken g k) (hallocOff : st'.s.allocOff = st.s.allocOff)
    (hoff : ∀ j, st.s.activeMetaOff = g.blockAt off (g.metaBlock j) →
      ∃ j' ≥ j, st'.s.activeMetaOff = g.blockAt off (g.metaBlock j')) : Safe g off k' st' := by
  refine ⟨hcall, ⟨?_, ?_, ?_⟩, h.allocOk.mono halloc ?_ ?_ ?_ hT.ge hallocOff hoff, ?_⟩
  · rw [hring]
    exact h.ringAt.available_le
  · rw [hring]
    exact h.ringAt.available_le_count
  · rw [hring, hT]
    exact h.ringAt.slot
  · rw [hring]
  · rw [hring]
  · rw [hring, hT]
  · rw [OffOk, halloc, hring, hT, hallocOff]
    exact h.offOk

/-- The block at the front of the ring is the next one of the layer. -/
theorem RingAt.front (h : RingAt g off T st) (hpos : 0 < st.ring.nbAvailable) :
    st.ring.front = ⟨g.blockAt off T⟩ := by
  have := h.slot 0 hpos
  rwa [Nat.add_zero, Nat.add_zero] at this

/-- A step of a call that takes a block from the ring. -/
theorem Safe.take (h : Safe g off k st) (hpos : 0 < st.ring.nbAvailable)
    (hcall : CallOk g off k st') (halloc : st'.alloc = st.alloc) (hring : st'.ring = st.ring.take)
    (hT : st'.taken g k = st.taken g k + 1) (hs : st'.s = st.s) : Safe g off k st' := by
  have havail : st'.ring.nbAvailable = st.ring.nbAvailable - 1 := by rw [hring]; rfl
  have hsum : st'.taken g k + st'.ring.nbAvailable = st.taken g k + st.ring.nbAvailable := by omega
  have hle := h.ringAt.available_le
  have hcnt := h.ringAt.available_le_count
  have hcount : st'.ring.nbCount = st.ring.nbCount := by rw [hring]; rfl
  have hnbs : st'.ring.nbs = st.ring.nbs := by rw [hring]; rfl
  refine ⟨hcall, ⟨by omega, by omega, fun i hi => ?_⟩, h.allocOk.mono halloc hnbs hcount hsum
    (by omega) (by rw [hs]) fun j hj => ⟨j, le_rfl, by rwa [hs]⟩, ?_⟩
  · have hslot := h.ringAt.slot (i + 1) (by omega)
    rw [hnbs, hcount, havail, hT, Nat.add_assoc, Nat.add_comm 1 i, ← hslot]
    congr 2
    omega
  · rw [OffOk, halloc, hsum, hs]
    exact h.offOk

/-- A call that went on, and sees the same of the super block. -/
theorem callOk_goto {s' : Super} {f : ByteFile} {r : Ring} {pc : CallPc} (hcap : k + 1 ≤ g.cap)
    (hs : s'.Sees g off (pc.seen k).1 (pc.seen k).2.1 (pc.seen k).2.2) (hpc : pc.Ok g off k) :
    CallOk g off k ({ st with file := f, s := s', ring := r }.goto c pc) := by
  refine ⟨hs, fun c' hc' => ?_⟩
  cases hc'
  exact ⟨hpc, hcap⟩

/-- A call that waits goes on with the next block. -/
theorem Safe.takeStep (h : Safe g off k st) (hc : st.call = some c) {pc : CallPc} (hpc : c.pc = pc)
    {next : NewBlock → CallPc} (hstep : st.takeStep c next = some st')
    (htk : ∀ nb, (next nb).taken g k = pc.taken g k + 1)
    (hok : (next ⟨g.blockAt off (pc.taken g k)⟩).Ok g off k)
    (hsn : ∀ nb, (next nb).seen k = pc.seen k) :
    st'.returned = st.returned ∧ Safe g off k st' := by
  subst hpc
  obtain ⟨-, hcap⟩ := h.callOk.pc c hc
  have hsees := h.callOk.sees
  have hT : st.taken g k = c.pc.taken g k := by rw [taken, hc]
  rw [seen, hc] at hsees
  rw [Threads.takeStep] at hstep
  split_ifs at hstep with hpos
  have hfront := h.ringAt.front hpos
  rw [hT] at hfront
  rw [hfront] at hstep
  cases hstep
  refine ⟨rfl, h.take hpos (callOk_goto hcap ?_ hok) rfl rfl ?_ rfl⟩
  · rw [hsn]
    exact hsees
  · rw [hT, ← htk]
    rfl

/-- **Every step of a call is safe.** When the call returns, the layer has one entry more. -/
theorem Safe.callStep (h : Safe g off k st) (hdead : st.alloc ≠ .dead)
    (hr : st.callStep cfg = some st') :
    (∃ c nb, st.call = some c ∧ c.pc = .ret nb ∧ nb = ⟨g.dataOff off k⟩ ∧
        st'.returned = st.returned ++ [(c.faultOff, nb)] ∧ st'.call = none ∧
        Safe g off (k + 1) st') ∨
      (st'.returned = st.returned ∧ Safe g off k st') := by
  rcases hc : st.call with _ | c
  · rw [Threads.callStep, hc] at hr
    cases hr
  obtain ⟨hpcOk, hcap⟩ := h.callOk.pc c hc
  have hcaplt := g.cap_lt
  have hsees := h.callOk.sees
  have hT : st.taken g k = c.pc.taken g k := by rw [taken, hc]
  rw [seen, hc] at hsees
  simp only at hsees
  have hsame : ∀ j, st.s.activeMetaOff = g.blockAt off (g.metaBlock j) →
      ∃ j' ≥ j, st.s.activeMetaOff = g.blockAt off (g.metaBlock j') := fun j hj => ⟨j, le_rfl, hj⟩
  rw [Threads.callStep, hc] at hr
  simp only at hr
  cases hpc : c.pc with
  | wait =>
    rw [hpc] at hr hpcOk
    obtain ⟨hsucc, hdata⟩ := g.blocks_succ_of_lt hpcOk
    refine Or.inr (h.takeStep hc hpc hr (fun nb => hsucc) ⟨hpcOk, ?_⟩ fun nb => rfl)
    rw [Geometry.dataOff, hdata]
    rfl
  | entry nb =>
    rw [hpc] at hr hpcOk hsees hT
    cases hr
    exact Or.inr ⟨rfl, h.keep (callOk_goto hcap hsees hpcOk) rfl rfl (by rw [hT]; rfl) rfl hsame⟩
  | count nb =>
    rw [hpc] at hr hpcOk hsees hT
    cases hr
    have hs := (Super.is_iff_sees.mpr hsees).succ_of_lt hpcOk.1
    exact Or.inr ⟨rfl, h.keep (callOk_goto hcap (Super.is_iff_sees.mp hs) hpcOk) rfl rfl
      (by rw [hT]; rfl) rfl hsame⟩
  | commit nb =>
    rw [hpc] at hr hpcOk hsees hT
    cases hr
    exact Or.inr ⟨rfl, h.keep (callOk_goto hcap hsees hpcOk.2) rfl rfl (by rw [hT]; rfl) rfl
      hsame⟩
  | waitMeta =>
    rw [hpc] at hr hpcOk
    exact Or.inr (h.takeStep hc hpc hr (fun nb => rfl) ⟨hpcOk, rfl⟩ fun nb => rfl)
  | initMeta m =>
    rw [hpc] at hr hpcOk hsees hT
    cases hr
    exact Or.inr ⟨rfl, h.keep (callOk_goto hcap hsees hpcOk) rfl rfl (by rw [hT]; rfl) rfl hsame⟩
  | waitData m =>
    rw [hpc] at hr hpcOk
    obtain ⟨hsucc, hdata, -⟩ := g.blocks_succ_of_full hpcOk.1
    refine Or.inr (h.takeStep hc hpc hr (fun nb => ?_) ⟨hpcOk.1, hpcOk.2, ?_⟩ fun nb => rfl)
    · exact hsucc
    · rw [Geometry.dataOff, hdata]
      rfl
  | entryNew m nb =>
    rw [hpc] at hr hpcOk hsees hT
    cases hr
    obtain ⟨hfull, rfl, hnb⟩ := hpcOk
    exact Or.inr ⟨rfl, h.keep (callOk_goto hcap hsees ⟨hfull, rfl, hnb⟩) rfl rfl
      (by rw [hT]; rfl) rfl hsame⟩
  | setMeta m nb =>
    rw [hpc] at hr hpcOk hsees hT
    cases hr
    obtain ⟨hfull, rfl, hnb⟩ := hpcOk
    exact Or.inr ⟨rfl, h.keep (callOk_goto hcap (hsees.setMeta hfull) ⟨hfull, hnb⟩) rfl rfl
      (by rw [hT]; rfl) rfl hsame⟩
  | setNum nb =>
    rw [hpc] at hr hpcOk hsees hT
    cases hr
    exact Or.inr ⟨rfl, h.keep (callOk_goto hcap (hsees.setNum hpcOk.1 (by omega)) hpcOk) rfl rfl
      (by rw [hT]; rfl) rfl hsame⟩
  | setOff nb =>
    rw [hpc] at hr hpcOk hsees hT
    cases hr
    obtain ⟨hfull, hnb⟩ := hpcOk
    have hmetalt : g.metaBlock (g.lastSeg (k + 1)) < g.blocks (k + 1) := g.metaBlock_lt le_rfl
    have hlt : g.blockAt off (g.metaBlock (g.lastSeg (k + 1))) < 2 ^ 64 := by
      obtain ⟨h₁, h₂⟩ := h.offOk hdead
      have hbs := g.blockSize_lt
      have hle : g.blockAt off (g.metaBlock (g.lastSeg (k + 1))) ≤
          g.blockAt off (st.taken g k + st.ring.nbAvailable) := by
        refine g.blockAt_mono off ?_
        rw [hT]
        exact le_trans hmetalt.le (Nat.le_add_right _ _)
      have hb : st.alloc.behind * g.blockSize ≤ g.blockSize := by
        cases st.alloc <;> simp [AllocPc.behind]
      omega
    refine Or.inr ⟨rfl, h.keep (callOk_goto hcap (hsees.setOff hlt) ⟨hfull, hnb⟩) rfl rfl
      (by rw [hT]; rfl) rfl fun j hj => ⟨g.lastSeg (k + 1), ?_, (hsees.setOff hlt).activeMetaOff⟩⟩
    have hjk := hj.symm.trans hsees.activeMetaOff
    rw [Geometry.blockAt, Geometry.blockAt] at hjk
    have hinj : j = g.lastSeg k := g.metaBlock_injective
      (Nat.eq_of_mul_eq_mul_left g.blockSize_pos (Nat.add_left_cancel hjk))
    rw [hinj]
    exact g.lastSeg_mono (Nat.le_succ k)
  | commitSuper nb =>
    rw [hpc] at hr hpcOk hsees hT
    cases hr
    exact Or.inr ⟨rfl, h.keep (callOk_goto hcap hsees hpcOk.2) rfl rfl (by rw [hT]; rfl) rfl
      hsame⟩
  | ret nb =>
    rw [hpc] at hr hpcOk hsees hT
    cases hr
    refine Or.inl ⟨c, nb, rfl, hpc, hpcOk, rfl, rfl, h.keep ⟨hsees, fun c' hc' => ?_⟩ rfl rfl
      (by rw [hT]; rfl) rfl hsame⟩
    cases hc'

/-- A call leaves the thread and the offset it allocates at alone. -/
theorem callStep_keeps (hr : st.callStep cfg = some st') :
    st'.alloc = st.alloc ∧ st'.s.allocOff = st.s.allocOff := by
  have htake : ∀ {c : Call} {next : NewBlock → CallPc}, st.takeStep c next = some st' →
      st'.alloc = st.alloc ∧ st'.s.allocOff = st.s.allocOff := by
    intro c next hstep
    rw [takeStep] at hstep
    split_ifs at hstep
    cases hstep
    exact ⟨rfl, rfl⟩
  rw [callStep] at hr
  rcases hc : st.call with _ | c
  · rw [hc] at hr
    cases hr
  rw [hc] at hr
  simp only at hr
  cases hpc : c.pc <;> rw [hpc] at hr <;> first | exact htake hr | (cases hr; exact ⟨rfl, rfl⟩)

/-- The number of blocks allocated, from the offset the thread allocates at. -/
theorem Safe.sum_eq {k₁ k₂ : ℕ} (h₁ : Safe g off k₁ st) (h₂ : Safe g off k₂ st')
    (halloc : st'.alloc = st.alloc) (hdead : st.alloc ≠ .dead)
    (hoff : st'.s.allocOff = st.s.allocOff) :
    st'.taken g k₂ + st'.ring.nbAvailable = st.taken g k₁ + st.ring.nbAvailable := by
  have hst := (h₁.offOk hdead).1
  have hst' := (h₂.offOk (by rwa [halloc])).1
  rw [halloc, hoff, hst, Geometry.blockAt, Geometry.blockAt] at hst'
  exact (Nat.eq_of_mul_eq_mul_left g.blockSize_pos (Nat.add_left_cancel hst')).symm

/-- **The beginning of a call is safe.** -/
theorem Safe.enter (h : Safe g off k st) {faultOff : ℕ} (hr : st.enter faultOff = some st') :
    st.call = none ∧ st'.returned = st.returned ∧ Safe g off k st' := by
  rw [Threads.enter] at hr
  by_cases hbusy : st.call.isSome ∨ st.s.toAllocNum > st.s.maxBlockNum
  · rw [if_pos hbusy] at hr
    cases hr
  rw [if_neg hbusy] at hr
  cases hr
  obtain ⟨hsome, hroom⟩ := not_or.mp hbusy
  have hcall : st.call = none := Option.not_isSome_iff_eq_none.mp hsome
  have hs : st.s.Is g off k := by
    have := h.callOk.sees
    rw [seen, hcall] at this
    exact Super.is_iff_sees.mpr this
  have hcap : k + 1 ≤ g.cap := by
    rw [hs.toAllocNum, hs.maxBlockNum] at hroom
    have := g.maxBlockNum_lt
    rw [Geometry.cap]
    omega
  have hcnt := hs.counter
  have hper := hs.maxPerSeg
  have hle := g.counter_le (k := k)
  refine ⟨hcall, rfl, ?_⟩
  have hsame : ∀ j, st.s.activeMetaOff = g.blockAt off (g.metaBlock j) →
      ∃ j' ≥ j, st.s.activeMetaOff = g.blockAt off (g.metaBlock j') := fun j hj => ⟨j, le_rfl, hj⟩
  split_ifs with hlt
  · refine h.keep ⟨Super.is_iff_sees.mp hs, fun c hc => ?_⟩ rfl rfl ?_ rfl hsame
    · cases hc
      refine ⟨?_, hcap⟩
      rw [CallPc.Ok]
      omega
    · rw [taken, taken, hcall]
      rfl
  · refine h.keep ⟨Super.is_iff_sees.mp hs, fun c hc => ?_⟩ rfl rfl ?_ rfl hsame
    · cases hc
      refine ⟨?_, hcap⟩
      rw [CallPc.Ok]
      omega
    · rw [taken, taken, hcall]
      rfl

/-- **Every step is safe.** -/
theorem Safe.step (h : Safe g off k st) (hstep : Step cfg st st') :
    ∃ k', Safe g off k' st' ∧ k ≤ k' := by
  cases hstep with
  | alloc hr => exact ⟨k, h.allocStep hr, le_rfl⟩
  | call hdead hr =>
    rcases h.callStep hdead hr with ⟨c, nb, -, -, -, -, -, h'⟩ | ⟨-, h'⟩
    · exact ⟨k + 1, h', Nat.le_succ k⟩
    · exact ⟨k, h', le_rfl⟩
  | enter hdead hr => exact ⟨k, (h.enter hr).2.2, le_rfl⟩

/-- **So is every run.** -/
theorem Safe.run (h : Safe g off k st) (hrun : Relation.ReflTransGen (Step cfg) st st') :
    ∃ k', Safe g off k' st' ∧ k ≤ k' := by
  induction hrun with
  | refl => exact ⟨k, h, le_rfl⟩
  | tail _ hstep ih =>
    obtain ⟨k₁, h₁, hle₁⟩ := ih
    obtain ⟨k₂, h₂, hle₂⟩ := h₁.step hstep
    exact ⟨k₂, h₂, le_trans hle₁ hle₂⟩

/-- The threads as `fmmap` starts them. -/
theorem safe_start {f : ByteFile} (hs : s.Is g off k) (halloc : s.allocOff = g.endOff off k)
    (hlt : g.endOff off k < 2 ^ 63) : Safe g off k (start f s) := by
  refine ⟨⟨Super.is_iff_sees.mp hs, fun c hc => by cases hc⟩, ⟨Nat.zero_le _, le_rfl,
    fun i hi => absurd hi (Nat.not_lt_zero i)⟩, trivial, fun _ => ⟨?_, ?_⟩⟩
  · rw [start]
    simp only [AllocPc.behind, Nat.zero_mul, Nat.add_zero, halloc]
    rfl
  · rw [start]
    simp only [halloc]
    exact hlt

end Threads

end Pcow
