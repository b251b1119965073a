import Pcow.Ring

/-!
# When the allocator thread leaves its loop

`new_block_allocator` exits once the blocks recorded and the blocks ahead make up a full layer. Its
test counts too much in two ways. A block ahead may become the meta block of a new segment, which is
not one of the `max_block_num` data blocks. And the thread reads the number of blocks ahead before
the number of blocks recorded: a block that a call records in between is counted twice.

In both cases the thread leaves while a call still needs a block, and the call waits for ever
(`Threads.Abandoned`). This happens in some run unless the layer has room for at most one more
block, and that in its active segment (`not_abandoned_iff`).
-/

namespace Pcow

variable {cfg : Config} {g : Geometry cfg} {off k m : ℕ} {s : Super} {f : ByteFile}

/-- The call waits for a block. -/
def CallPc.Waits : CallPc → Prop
  | wait | waitMeta | waitData _ => True
  | _ => False

/-- The number of blocks a call will take. -/
def CallPc.needs : CallPc → ℕ
  | wait | initMeta _ | waitData _ => 1
  | waitMeta => 2
  | _ => 0

/-- The number of steps a call will make. -/
def CallPc.left : CallPc → ℕ
  | waitMeta => 10
  | initMeta _ => 9
  | waitData _ => 8
  | entryNew _ _ => 7
  | setMeta _ _ => 6
  | setNum _ | wait => 5
  | setOff _ | entry _ => 4
  | commitSuper _ | count _ => 3
  | commit _ => 2
  | ret _ => 1

theorem Geometry.blocks_succ_need (g : Geometry cfg) (k : ℕ) :
    g.blocks (k + 1) = g.blocks k + g.need k := by
  rw [Geometry.need]
  split_ifs with h
  · exact (g.blocks_succ_of_lt h).1
  · exact (g.blocks_succ_of_full (le_antisymm g.counter_le (not_lt.mp h))).1

namespace Threads

variable {st st' : Threads} {c : Call}

/-- **A request in range is abandoned**: the thread has left its loop and the ring is empty, while a
call that passed the check waits for a block, or would pass it if it came. -/
def Abandoned (st : Threads) : Prop :=
  st.alloc = .exited ∧ st.ring.nbAvailable = 0 ∧
    ((st.call = none ∧ st.s.toAllocNum ≤ st.s.maxBlockNum) ∨ ∃ c, st.call = some c ∧ c.pc.Waits)

/-! ### Where nothing is abandoned -/

/-- What the thread has read, as long as it has allocated nothing: the numbers of the layer it
started with. -/
def Fresh (g : Geometry cfg) (off k : ℕ) : AllocPc → Prop
  | .haveOff a => a = g.blockAt off (g.metaBlock (g.lastSeg k))
  | .haveCur cur => cur = g.endOff off k
  | .haveAhead n => n = 0
  | .haveNum n num => n = 0 ∧ num = g.lastSeg k
  | .exited => False
  | _ => True

/-- **The first block of a session is allocated**, if there is room for one: the threads are in
order, and what the thread has read is as at the start until it has allocated a block. -/
def Early (g : Geometry cfg) (off k : ℕ) (st : Threads) : Prop :=
  ∃ k' ≥ k, Safe g off k' st ∧
    (st.taken g k' + st.ring.nbAvailable = g.blocks k → Fresh g off k st.alloc)

theorem Safe.blocks_le_taken {k' : ℕ} (_ : Safe g off k' st) : g.blocks k' ≤ st.taken g k' := by
  rw [taken]
  have := g.blocks_mono (Nat.le_succ k')
  rcases st.call with _ | c
  · exact le_rfl
  · cases hpc : c.pc <;> simp only [CallPc.taken, hpc] <;> omega

theorem enter_ok {faultOff : ℕ} (hr : st.enter faultOff = some st') :
    st.call = none ∧ ∃ pc, (pc = .wait ∨ pc = .waitMeta) ∧
      st' = { st with call := some ⟨faultOff, pc⟩ } := by
  rw [Threads.enter] at hr
  by_cases hbusy : st.call.isSome ∨ st.s.toAllocNum > st.s.maxBlockNum
  · rw [if_pos hbusy] at hr
    cases hr
  rw [if_neg hbusy] at hr
  refine ⟨Option.not_isSome_iff_eq_none.mp (not_or.mp hbusy).1, _, ?_, (Option.some.inj hr).symm⟩
  split
  · exact Or.inl rfl
  · exact Or.inr rfl

/-- As long as nothing is allocated, no call has got a block. -/
theorem Safe.of_early {k' : ℕ} (h : Safe g off k' st) (hle : k ≤ k')
    (hsum : st.taken g k' + st.ring.nbAvailable = g.blocks k) :
    k' = k ∧ st.ring.nbAvailable = 0 ∧ st.s.Is g off k ∧ st.callStep cfg = none := by
  have hmono := g.blocks_mono hle
  have hlt : g.blocks k' < g.blocks (k' + 1) := g.blocks_lt (Nat.lt_succ_self k')
  obtain ⟨h₁, -, h₃⟩ := st.taken_bounds g k'
  have hsees := h.callOk.sees
  have hseen : k' ≤ (st.seen k').1 := by
    rw [seen]
    rcases st.call with _ | c
    · exact le_rfl
    · cases hpc : c.pc <;> simp [CallPc.seen, hpc]
  have hge := g.blocks_mono hseen
  have hkk : k' = k := by
    by_contra hne
    have := g.blocks_lt (lt_of_le_of_ne hle (Ne.symm hne))
    omega
  subst hkk
  have havail : st.ring.nbAvailable = 0 := by omega
  have htaken : st.taken g k' = g.blocks k' := by omega
  refine ⟨rfl, havail, ?_, ?_⟩
  · rw [Super.is_iff_sees]
    rw [seen] at hsees
    rw [taken] at htaken
    rcases hc : st.call with _ | c
    · rw [hc] at hsees
      exact hsees
    · rw [hc] at hsees htaken
      simp only at hsees htaken
      cases hpc : c.pc <;> rw [hpc] at hsees htaken <;>
        first | exact hsees | exact absurd htaken (by simp only [CallPc.taken]; omega)
  · have hno : ∀ c next, st.takeStep c next = none := by
      intro c next
      rw [Threads.takeStep, if_neg (by omega)]
    rw [taken] at htaken
    rw [Threads.callStep]
    rcases hc : st.call with _ | c
    · rfl
    · rw [hc] at htaken
      simp only at htaken ⊢
      cases hpc : c.pc <;> rw [hpc] at htaken <;>
        first | exact hno _ _ | exact absurd htaken (by simp only [CallPc.taken]; omega)

/-- A step of the thread, before it has allocated a block, in a layer with room for one. -/
theorem Safe.fresh_step (h : Safe g off k st) (hs : st.s.Is g off k)
    (htaken : st.taken g k + st.ring.nbAvailable = g.blocks k) (hcap : k + 1 ≤ g.cap)
    (hfresh : Fresh g off k st.alloc) (hr : st.allocStep = some st') :
    Fresh g off k st'.alloc := by
  rw [Threads.allocStep] at hr
  cases halloc : st.alloc with
  | top =>
    rw [halloc] at hr
    cases hr
    exact hs.activeMetaOff
  | haveOff a =>
    obtain ⟨hoff, hlt⟩ := h.offOk.eq (by simp [halloc]) (by rw [halloc]; rfl)
    rw [htaken] at hoff
    rw [halloc] at hr hfresh
    cases hr
    have ha : a = g.blockAt off (g.metaBlock (g.lastSeg k)) := hfresh
    change u64 _ = g.endOff off k
    rw [ha, hs.counter, curOff_eq hs.blockSize (by rw [← g.blocks_eq]; omega), ← g.blocks_eq,
      Geometry.endOff]
  | haveCur cur =>
    obtain ⟨hoff, hlt⟩ := h.offOk.eq (by simp [halloc]) (by rw [halloc]; rfl)
    rw [htaken] at hoff
    rw [halloc] at hr hfresh
    have hcur : cur = g.endOff off k := hfresh
    have hzero : i32 (u64 (st.s.allocOff - cur) / u64 st.s.blockSize : ℕ) = 0 := by
      rw [hcur, hoff, Geometry.endOff, sub_self]
      norm_num [u64, i32]
    simp only [hzero] at hr
    rw [if_neg (by norm_num)] at hr
    cases hr
    rfl
  | haveAhead n =>
    rw [halloc] at hr hfresh
    cases hr
    exact ⟨hfresh, hs.activeMetaNum⟩
  | haveNum n num =>
    rw [halloc] at hr hfresh
    obtain ⟨rfl, rfl⟩ := hfresh
    have hcheck := (hs.check_iff.mpr hcap).2
    rw [Super.toAllocNum, hs.activeMetaNum] at hcheck
    simp only [add_zero] at hr
    rw [if_neg hcheck] at hr
    cases hr
    trivial
  | reserve =>
    rw [halloc] at hr
    simp only at hr
    split_ifs at hr <;> cases hr <;> trivial
  | fill ok =>
    rw [halloc] at hr
    cases hr
    trivial
  | publish ok =>
    rw [halloc] at hr
    cases hr
    trivial
  | advance ok =>
    rw [halloc] at hr
    cases hr
    cases ok <;> trivial
  | exited =>
    rw [halloc] at hr
    cases hr
  | dead =>
    rw [halloc] at hr
    cases hr

/-- **The thread does not leave before it has allocated a block**, if there is room for one. -/
theorem Early.step (h : Early g off k st) (hcap : k + 1 ≤ g.cap) (hstep : Step cfg st st') :
    Early g off k st' := by
  obtain ⟨k', hle, hsafe, hfresh⟩ := h
  cases hstep with
  | alloc hr =>
    refine ⟨k', hle, hsafe.allocStep hr, fun hsum => ?_⟩
    obtain ⟨hcall, -, havail⟩ := allocStep_keeps hr
    have htaken : st'.taken g k' = st.taken g k' := by rw [taken, hcall, taken]
    have hge := le_trans (g.blocks_mono hle) (hsafe.blocks_le_taken)
    have hsum₀ : st.taken g k' + st.ring.nbAvailable = g.blocks k := by omega
    obtain ⟨rfl, -, hs, -⟩ := hsafe.of_early hle hsum₀
    exact hsafe.fresh_step hs hsum₀ hcap (hfresh hsum₀) hr
  | call hdead hr =>
    obtain ⟨halloc, hoff⟩ := callStep_keeps hr
    obtain ⟨k'', hsafe', hle'⟩ := hsafe.step (Step.call hdead hr)
    refine ⟨k'', le_trans hle hle', hsafe', fun hsum => ?_⟩
    -- no call gets on while nothing is allocated
    rw [hsafe.sum_eq hsafe' halloc hdead hoff] at hsum
    rw [(hsafe.of_early hle hsum).2.2.2] at hr
    cases hr
  | enter hdead hr =>
    obtain ⟨-, -, hsafe'⟩ := hsafe.enter hr
    obtain ⟨hcall, pc, hpc, rfl⟩ := enter_ok hr
    refine ⟨k', hle, hsafe', fun hsum => hfresh ?_⟩
    rw [← hsum, taken, hcall, taken]
    rcases hpc with rfl | rfl <;> rfl

theorem Early.run (h : Early g off k st) (hcap : k + 1 ≤ g.cap)
    (hrun : Relation.ReflTransGen (Step cfg) st st') : Early g off k st' := by
  induction hrun with
  | refl => exact h
  | tail _ hstep ih => exact ih.step hcap hstep

/-- In a full layer no call passes the check. -/
theorem Safe.not_abandoned_of_full (h : Safe g off k st) (hcap : g.cap ≤ k) : ¬st.Abandoned := by
  rintro ⟨-, -, ⟨hcall, hroom⟩ | ⟨c, hc, -⟩⟩
  · have hsees := h.callOk.sees
    rw [seen, hcall] at hsees
    have hs : st.s.Is g off k := Super.is_iff_sees.mpr hsees
    rw [hs.toAllocNum, hs.maxBlockNum] at hroom
    rw [Geometry.cap] at hcap
    omega
  · have := (h.callOk.pc c hc).2
    omega

/-- Where there is room for one block, in the active segment, the one block is enough. -/
theorem Early.not_abandoned (h : Early g off k st) (hcap : k + 1 = g.cap)
    (hlt : k - g.lastSeg k * g.perSeg < g.perSeg) : ¬st.Abandoned := by
  obtain ⟨k', hle, hsafe, hfresh⟩ := h
  intro hab
  -- past the last entry the layer is full
  have hkk : k' = k := by
    by_contra hne
    exact hsafe.not_abandoned_of_full (by omega) hab
  subst hkk
  obtain ⟨hexit, havail, hcase⟩ := hab
  have hne : st.taken g k' + st.ring.nbAvailable ≠ g.blocks k' := by
    intro hsum
    have := hfresh hsum
    rw [hexit] at this
    exact this
  rw [taken] at hne
  rcases hcase with ⟨hcall, -⟩ | ⟨c, hc, hw⟩
  · rw [hcall, havail] at hne
    exact hne rfl
  · obtain ⟨hpc, -⟩ := hsafe.callOk.pc c hc
    rw [hc, havail] at hne
    simp only at hne
    cases hcpc : c.pc <;> rw [hcpc] at hpc hw hne <;>
      first | exact hw.elim | exact hne rfl | exact absurd hpc.1 hlt.ne

/-! ### Where a request is abandoned -/

/-- A step of the thread. -/
theorem reach_alloc (hr : st.allocStep = some st') : Relation.ReflTransGen (Step cfg) st st' :=
  Relation.ReflTransGen.single (.alloc hr)

/-- Nothing is in progress: the thread is at the head of its loop, and `m` blocks are ahead. -/
structure Idle (g : Geometry cfg) (off k m : ℕ) (st : Threads) : Prop where
  safe : Safe g off k st
  alloc : st.alloc = .top
  call : st.call = none
  available : st.ring.nbAvailable = m

theorem Safe.is_of_call (h : Safe g off k st) (hcall : st.call = none) : st.s.Is g off k := by
  have hsees := h.callOk.sees
  rw [seen, hcall] at hsees
  exact Super.is_iff_sees.mpr hsees

/-- The thread reads how many blocks are ahead. -/
theorem Idle.read (h : Idle g off k m st) (hm : m + 1 ≤ maxPreNum) :
    Relation.ReflTransGen (Step cfg) st { st with alloc := .haveAhead m } ∧
      Safe g off k { st with alloc := .haveAhead m } := by
  have hs := h.safe.is_of_call h.call
  have htaken : st.taken g k = g.blocks k := by rw [taken, h.call]
  obtain ⟨hoff, hlt⟩ := h.safe.offOk.eq (by simp [h.alloc]) (by rw [h.alloc]; rfl)
  rw [htaken, h.available] at hoff
  have hmono : g.blockAt off (g.blocks k) ≤ g.blockAt off (g.blocks k + m) :=
    g.blockAt_mono off (Nat.le_add_right _ _)
  have h₁ : st.allocStep = some { st with alloc := .haveOff st.s.activeMetaOff } := by
    rw [Threads.allocStep, h.alloc]
  have h₂ : ({ st with alloc := .haveOff st.s.activeMetaOff } : Threads).allocStep =
      some { st with alloc := .haveCur (g.endOff off k) } := by
    rw [Threads.allocStep]
    simp only
    rw [hs.activeMetaOff, hs.counter, curOff_eq hs.blockSize (by rw [← g.blocks_eq]; omega),
      ← g.blocks_eq, Geometry.endOff]
  have h₃ : ({ st with alloc := .haveCur (g.endOff off k) } : Threads).allocStep =
      some { st with alloc := .haveAhead m } := by
    have hn : i32 (u64 (st.s.allocOff - (g.endOff off k : ℕ)) / u64 st.s.blockSize : ℕ) = m := by
      rw [hs.u64_blockSize, hoff, Geometry.endOff]
      have hm4 : m ≤ 4 := Nat.le_of_succ_le_succ hm
      exact preallocN_eq (by omega) (by omega)
    rw [Threads.allocStep]
    simp only [hn]
    rw [if_neg (by omega)]
  exact ⟨((reach_alloc h₁).trans (reach_alloc h₂)).trans (reach_alloc h₃),
    ((h.safe.allocStep h₁).allocStep h₂).allocStep h₃⟩

/-- **The test of the thread**, between two calls: the blocks recorded and the blocks it takes to be
ahead, and one more. -/
theorem Safe.test (h : Safe g off k st) (hcall : st.call = none) (halloc : st.alloc = .haveAhead m)
    (hst' : st' = if (k : ℤ) + m + 1 > g.maxBlockNum then
        { st with alloc := .exited, ring := { st.ring with running := false } }
      else { st with alloc := .reserve }) :
    Relation.ReflTransGen (Step cfg) st st' ∧ Safe g off k st' := by
  have hs := h.is_of_call hcall
  have h₁ : st.allocStep = some { st with alloc := .haveNum m st.s.activeMetaNum } := by
    rw [Threads.allocStep, halloc]
  have hnum : st.s.activeMetaNum * st.s.maxPerSeg + st.s.activeMeta.counter = k := by
    have := hs.toAllocNum
    rw [Super.toAllocNum] at this
    push_cast at this
    omega
  have h₂ : ({ st with alloc := .haveNum m st.s.activeMetaNum } : Threads).allocStep =
      some st' := by
    rw [Threads.allocStep, hst']
    simp only [hnum, hs.maxBlockNum]
    split_ifs <;> rfl
  exact ⟨(reach_alloc h₁).trans (reach_alloc h₂), (h.allocStep h₁).allocStep h₂⟩

/-- The thread allocates a block and puts it into the ring. -/
theorem Safe.produce (h : Safe g off k st) (halloc : st.alloc = .reserve)
    (hroom : g.blockAt off (st.taken g k + st.ring.nbAvailable + 1) < 2 ^ 63) :
    ∃ st', Relation.ReflTransGen (Step cfg) st st' ∧ st'.alloc = .top ∧ st'.call = st.call ∧
      st'.ring.nbAvailable = st.ring.nbAvailable + 1 ∧ Safe g off k st' := by
  obtain ⟨hoff, -⟩ := h.offOk.eq (by simp [halloc]) (by rw [halloc]; rfl)
  have hfalloc : FallocateOk st.s.allocOff st.s.blockSize := by
    have hbs := h.callOk.sees.blockSize
    have hpos := g.blockSize_pos
    rw [Geometry.blockAt_succ, ← hoff] at hroom
    rw [FallocateOk, hbs]
    omega
  obtain ⟨st₁, h₁, ha₁, hc₁, hv₁⟩ : ∃ st₁, st.allocStep = some st₁ ∧ st₁.alloc = .fill true ∧
      st₁.call = st.call ∧ st₁.ring.nbAvailable = st.ring.nbAvailable := by
    rw [Threads.allocStep, halloc]
    simp only [if_pos hfalloc]
    exact ⟨_, rfl, rfl, rfl, rfl⟩
  obtain ⟨st₂, h₂, ha₂, hc₂, hv₂⟩ : ∃ st₂, st₁.allocStep = some st₂ ∧ st₂.alloc = .publish true ∧
      st₂.call = st.call ∧ st₂.ring.nbAvailable = st.ring.nbAvailable := by
    rw [Threads.allocStep, ha₁]
    exact ⟨_, rfl, rfl, hc₁, hv₁⟩
  obtain ⟨st₃, h₃, ha₃, hc₃, hv₃⟩ : ∃ st₃, st₂.allocStep = some st₃ ∧ st₃.alloc = .advance true ∧
      st₃.call = st.call ∧ st₃.ring.nbAvailable = st.ring.nbAvailable + 1 := by
    rw [Threads.allocStep, ha₂]
    exact ⟨_, rfl, rfl, hc₂, congrArg Nat.succ hv₂⟩
  obtain ⟨st₄, h₄, ha₄, hc₄, hv₄⟩ : ∃ st₄, st₃.allocStep = some st₄ ∧ st₄.alloc = .top ∧
      st₄.call = st.call ∧ st₄.ring.nbAvailable = st.ring.nbAvailable + 1 := by
    rw [Threads.allocStep, ha₃]
    exact ⟨_, rfl, rfl, hc₃, hv₃⟩
  refine ⟨st₄, ?_, ha₄, hc₄, hv₄, (((h.allocStep h₁).allocStep h₂).allocStep h₃).allocStep h₄⟩
  exact ((reach_alloc h₁).trans (reach_alloc h₂)).trans ((reach_alloc h₃).trans (reach_alloc h₄))

/-- **The thread fills the ring** to `m` blocks, in a layer with room for as many. -/
theorem Idle.fill (h : Idle g off k 0 st) (hm : m ≤ maxPreNum) (hcap : k + m ≤ g.cap)
    (hroom : g.blockAt off (g.blocks k + m) < 2 ^ 63) :
    ∃ st', Relation.ReflTransGen (Step cfg) st st' ∧ Idle g off k m st' := by
  induction m with
  | zero => exact ⟨st, .refl, h⟩
  | succ m ih =>
    have hmono : g.blockAt off (g.blocks k + m) ≤ g.blockAt off (g.blocks k + (m + 1)) :=
      g.blockAt_mono off (by omega)
    obtain ⟨st₁, hrun₁, h₁⟩ := ih (by omega) (by omega) (by omega)
    obtain ⟨hrun₂, hsafe₂⟩ := h₁.read hm
    have hle : ¬(k : ℤ) + m + 1 > g.maxBlockNum := by
      rw [Geometry.cap] at hcap
      omega
    obtain ⟨hrun₃, hsafe₃⟩ := hsafe₂.test h₁.call rfl (if_neg hle).symm
    have htaken : ({ st₁ with alloc := .reserve } : Threads).taken g k = g.blocks k := by
      rw [taken, h₁.call]
    obtain ⟨st₄, hrun₄, halloc, hcall, havail, hsafe₄⟩ := hsafe₃.produce rfl (by
      rw [htaken, h₁.available]
      exact hroom)
    refine ⟨st₄, ((hrun₁.trans hrun₂).trans hrun₃).trans hrun₄, hsafe₄, halloc, ?_, ?_⟩
    · rw [hcall]
      exact h₁.call
    · rw [havail, h₁.available]

/-! ### Calls that come to an end -/

/-- A call that gets its blocks goes on. -/
theorem exists_callStep (hc : st.call = some c) (hn : c.pc.needs ≤ st.ring.nbAvailable) :
    ∃ st', st.callStep cfg = some st' ∧
      ((st'.call = none ∧ st'.returned ≠ st.returned ∧
        st'.ring.nbAvailable = st.ring.nbAvailable ∧ c.pc.needs = 0) ∨
        ∃ c', st'.call = some c' ∧ c'.pc.left < c.pc.left ∧
          st'.ring.nbAvailable + c.pc.needs = st.ring.nbAvailable + c'.pc.needs) := by
  have htake : ∀ {next : NewBlock → CallPc}, 0 < st.ring.nbAvailable →
      (∀ nb, (next nb).left < c.pc.left) → (∀ nb, (next nb).needs + 1 = c.pc.needs) →
      ∃ st', st.takeStep c next = some st' ∧
      ((st'.call = none ∧ st'.returned ≠ st.returned ∧
        st'.ring.nbAvailable = st.ring.nbAvailable ∧ c.pc.needs = 0) ∨
        ∃ c', st'.call = some c' ∧ c'.pc.left < c.pc.left ∧
          st'.ring.nbAvailable + c.pc.needs = st.ring.nbAvailable + c'.pc.needs) := by
    intro next hpos hleft hneeds
    rw [takeStep, if_pos hpos]
    refine ⟨_, rfl, Or.inr ⟨_, rfl, hleft _, ?_⟩⟩
    have := hneeds st.ring.front
    simp only [goto, Ring.nbAvailable_take]
    omega
  rw [Threads.callStep, hc]
  simp only
  cases hpc : c.pc with
  | wait =>
    rw [hpc] at hn htake
    exact htake hn (fun nb => Nat.lt_succ_self 4) fun nb => rfl
  | waitMeta =>
    rw [hpc] at hn htake
    exact htake (Nat.lt_of_lt_of_le Nat.zero_lt_two hn) (fun nb => Nat.lt_succ_self 9) fun nb => rfl
  | waitData m =>
    rw [hpc] at hn htake
    exact htake hn (fun nb => Nat.lt_succ_self 7) fun nb => rfl
  | ret nb => exact ⟨_, rfl, Or.inl ⟨rfl, by simp, rfl, rfl⟩⟩
  | _ => exact ⟨_, rfl, Or.inr ⟨_, rfl, by simp [CallPc.left], rfl⟩⟩

/-- **A call that gets its blocks returns.** -/
theorem Safe.finish (h : Safe g off k st) (hdead : st.alloc ≠ .dead) (hc : st.call = some c)
    (hn : c.pc.needs ≤ st.ring.nbAvailable) :
    ∃ st', Relation.ReflTransGen (Step cfg) st st' ∧ Safe g off (k + 1) st' ∧ st'.call = none ∧
      st'.alloc = st.alloc ∧ st'.ring.nbAvailable + c.pc.needs = st.ring.nbAvailable := by
  induction hl : c.pc.left using Nat.strong_induction_on generalizing st c with
  | _ l ih =>
    obtain ⟨st₁, hr, hcase⟩ := @exists_callStep cfg _ _ hc hn
    obtain ⟨halloc, -⟩ := callStep_keeps hr
    rcases hcase with ⟨hnone, hne, havail, hneeds⟩ | ⟨c', hc', hleft, havail⟩
    · rcases h.callStep hdead hr with ⟨-, -, -, -, -, -, -, h'⟩ | ⟨hret, h'⟩
      · exact ⟨st₁, .single (.call hdead hr), h', hnone, halloc, by omega⟩
      · exact absurd hret hne
    · rcases h.callStep hdead hr with ⟨-, -, -, -, -, -, hnone, -⟩ | ⟨-, h'⟩
      · rw [hnone] at hc'
        cases hc'
      · obtain ⟨st₂, hrun, h₂, hcall₂, halloc₂, havail₂⟩ :=
          ih c'.pc.left (hl ▸ hleft) h' (halloc ▸ hdead) hc' (by omega) rfl
        exact ⟨st₂, .head (.call hdead hr) hrun, h₂, hcall₂, halloc₂.trans halloc, by omega⟩

/-- A call begins, if the layer has room for its entry. -/
theorem Safe.enter_eq (h : Safe g off k st) (hcall : st.call = none) (hcap : k + 1 ≤ g.cap) :
    st.enter 0 = some { st with
      call := some
        ⟨0, if st.s.activeMeta.counter < st.s.maxPerSeg then .wait else .waitMeta⟩ } := by
  rw [Threads.enter, if_neg]
  rw [hcall]
  rintro (hsome | hfull)
  · cases hsome
  · exact ((h.is_of_call hcall).check_iff.mpr hcap).2 hfull

/-- Where the active meta block is full it waits for a new one. -/
theorem Safe.enter_full (h : Safe g off k st) (hcall : st.call = none) (hcap : k + 1 ≤ g.cap)
    (hfull : k - g.lastSeg k * g.perSeg = g.perSeg) :
    st.enter 0 = some { st with call := some ⟨0, .waitMeta⟩ } := by
  have hs := h.is_of_call hcall
  rw [h.enter_eq hcall hcap, if_neg]
  rw [hs.counter, hs.maxPerSeg, hfull]
  exact lt_irrefl _

/-- **A call returns** between two iterations of the thread, if there are blocks ahead for it. -/
theorem Safe.request (h : Safe g off k st) (hdead : st.alloc ≠ .dead) (hcall : st.call = none)
    (hcap : k + 1 ≤ g.cap) (hn : g.need k ≤ st.ring.nbAvailable) :
    ∃ st', Relation.ReflTransGen (Step cfg) st st' ∧ Safe g off (k + 1) st' ∧ st'.call = none ∧
      st'.alloc = st.alloc ∧ st'.ring.nbAvailable + g.need k = st.ring.nbAvailable := by
  have hs := h.is_of_call hcall
  have hcnt := hs.counter
  have hper := hs.maxPerSeg
  have henter := h.enter_eq hcall hcap
  have hneeds : (if st.s.activeMeta.counter < st.s.maxPerSeg then CallPc.wait
      else CallPc.waitMeta).needs = g.need k := by
    rw [Geometry.need]
    split_ifs <;> first | rfl | omega
  obtain ⟨-, -, h₁⟩ := h.enter henter
  obtain ⟨st₂, hrun, h₂, hcall₂, halloc₂, havail₂⟩ := h₁.finish hdead rfl (by rwa [hneeds])
  rw [hneeds] at havail₂
  exact ⟨st₂, .head (.enter hdead henter) hrun, h₂, hcall₂, halloc₂, havail₂⟩

/-- A round: the thread makes the blocks of one call, and the call takes them. -/
theorem Idle.round (h : Idle g off k 0 st) (hcap : k + 2 ≤ g.cap)
    (hroom : g.endOff off (k + 1) < 2 ^ 63) :
    ∃ st', Relation.ReflTransGen (Step cfg) st st' ∧ Idle g off (k + 1) 0 st' := by
  have hneed := g.need_le k
  rw [Geometry.endOff, g.blocks_succ_need] at hroom
  obtain ⟨st₁, hrun₁, h₁⟩ := h.fill (le_trans hneed (by decide)) (by omega) hroom
  obtain ⟨st₂, hrun₂, h₂, hcall, halloc, havail⟩ := h₁.safe.request (by rw [h₁.alloc]; simp) h₁.call
    (by omega) h₁.available.ge
  refine ⟨st₂, hrun₁.trans hrun₂, h₂, halloc.trans h₁.alloc, hcall, ?_⟩
  rw [h₁.available] at havail
  omega

/-- Rounds up to a layer of `j` entries. -/
theorem Idle.rounds (h : Idle g off k 0 st) {j : ℕ} (hle : k ≤ j) (hcap : j + 1 ≤ g.cap)
    (hroom : g.endOff off j < 2 ^ 63) :
    ∃ st', Relation.ReflTransGen (Step cfg) st st' ∧ Idle g off j 0 st' := by
  induction j, hle using Nat.le_induction with
  | base => exact ⟨st, .refl, h⟩
  | succ j hj ih =>
    have hmono : g.endOff off j ≤ g.endOff off (j + 1) :=
      g.blockAt_mono off (g.blocks_mono (Nat.le_succ j))
    obtain ⟨st₁, hrun₁, h₁⟩ := ih (by omega) (by omega)
    obtain ⟨st₂, hrun₂, h₂⟩ := h₁.round hcap hroom
    exact ⟨st₂, hrun₁.trans hrun₂, h₂⟩

/-- **A block counted twice**: in a layer with room for two entries the thread reads the number of
blocks ahead, a call records one, and the thread reads the number of blocks recorded. -/
theorem Idle.abandoned_twice (h : Idle g off k 0 st) (hcap : k + 2 = g.cap)
    (hroom : g.endOff off (k + 1) < 2 ^ 63) :
    ∃ st', Relation.ReflTransGen (Step cfg) st st' ∧ st'.Abandoned := by
  have hneed := g.need_le k
  have hpos := g.need_pos k
  rw [Geometry.endOff, g.blocks_succ_need] at hroom
  obtain ⟨st₁, hrun₁, h₁⟩ := h.fill (le_trans hneed (by decide)) (by omega) hroom
  obtain ⟨hrun₂, h₂⟩ := h₁.read (le_trans (Nat.succ_le_succ hneed) (by decide))
  obtain ⟨st₃, hrun₃, h₃, hcall, halloc, havail⟩ := h₂.request (by simp) h₁.call (by omega)
    h₁.available.ge
  have hgt : ((k + 1 : ℕ) : ℤ) + (g.need k : ℕ) + 1 > g.maxBlockNum := by
    rw [Geometry.cap] at hcap
    omega
  obtain ⟨hrun₄, h₄⟩ := h₃.test hcall halloc (if_pos hgt).symm
  refine ⟨_, ((hrun₁.trans hrun₂).trans hrun₃).trans hrun₄, rfl, ?_, Or.inl ⟨hcall, ?_⟩⟩
  · have := h₁.available
    simp only at havail ⊢
    omega
  · have hs := h₃.is_of_call hcall
    rw [hs.toAllocNum, hs.maxBlockNum]
    rw [Geometry.cap] at hcap
    omega

/-- A call takes a block for its meta block, and waits for its data block. -/
theorem Safe.takeMeta (h : Safe g off k st) (hdead : st.alloc ≠ .dead) (hcall : st.call = none)
    (hcap : k + 1 ≤ g.cap) (hfull : k - g.lastSeg k * g.perSeg = g.perSeg)
    (hpos : 0 < st.ring.nbAvailable) :
    ∃ st', Relation.ReflTransGen (Step cfg) st st' ∧ st'.alloc = st.alloc ∧
      st'.ring.nbAvailable + 1 = st.ring.nbAvailable ∧ ∃ c, st'.call = some c ∧ c.pc.Waits := by
  have h₁ := h.enter_full hcall hcap hfull
  obtain ⟨st₂, h₂, halloc₂, havail₂, m, hcall₂⟩ : ∃ st₂,
      ({ st with call := some ⟨0, .waitMeta⟩ } : Threads).callStep cfg = some st₂ ∧
      st₂.alloc = st.alloc ∧ st₂.ring.nbAvailable + 1 = st.ring.nbAvailable ∧
      ∃ m, st₂.call = some ⟨0, .initMeta m⟩ := by
    rw [Threads.callStep]
    simp only
    rw [Threads.takeStep, if_pos hpos]
    exact ⟨_, rfl, rfl, Nat.sub_add_cancel hpos, _, rfl⟩
  obtain ⟨st₃, h₃, halloc₃, havail₃, c, hcall₃⟩ : ∃ st₃, st₂.callStep cfg = some st₃ ∧
      st₃.alloc = st₂.alloc ∧ st₃.ring.nbAvailable = st₂.ring.nbAvailable ∧
      ∃ c, st₃.call = some c ∧ c.pc.Waits := by
    rw [Threads.callStep, hcall₂]
    exact ⟨_, rfl, rfl, rfl, _, rfl, trivial⟩
  refine ⟨st₃, ?_, halloc₃.trans halloc₂, by omega, c, hcall₃⟩
  exact .head (.enter hdead h₁) (.head (.call hdead h₂) (.single (.call (by rwa [halloc₂]) h₃)))

/-- **A meta block counted as a data block**: the last entry of the layer opens a segment, and the
thread leaves after one block. -/
theorem Idle.abandoned_meta (h : Idle g off k 0 st) (hcap : k + 1 = g.cap)
    (hfull : k - g.lastSeg k * g.perSeg = g.perSeg) (hroom : g.endOff off (k + 1) < 2 ^ 63) :
    ∃ st', Relation.ReflTransGen (Step cfg) st st' ∧ st'.Abandoned := by
  have hmono : g.blockAt off (g.blocks k + 1) ≤ g.endOff off (k + 1) :=
    g.blockAt_mono off (g.blocks_lt (Nat.lt_succ_self k))
  obtain ⟨st₁, hrun₁, h₁⟩ := h.fill (m := 1) (by decide) (by omega) (by omega)
  obtain ⟨hrun₂, h₂⟩ := h₁.read (by decide)
  have hgt : (k : ℤ) + (1 : ℕ) + 1 > g.maxBlockNum := by
    rw [Geometry.cap] at hcap
    omega
  obtain ⟨hrun₃, h₃⟩ := h₂.test h₁.call rfl (if_pos hgt).symm
  -- the call takes the block for its meta block, and waits for another one
  obtain ⟨st₄, hrun₄, halloc, havail, hwait⟩ := h₃.takeMeta (by simp) h₁.call hcap.le hfull (by
    simp only
    rw [h₁.available]
    exact Nat.one_pos)
  refine ⟨st₄, ((hrun₁.trans hrun₂).trans hrun₃).trans hrun₄, halloc, ?_, Or.inr hwait⟩
  have := h₁.available
  simp only at havail
  omega

/-- **A request is abandoned in some run**, where the layer has room for two blocks, or for one that
opens a segment. -/
theorem Idle.exists_abandoned (h : Idle g off k 0 st) (hroom : g.endOff off g.cap < 2 ^ 63)
    (hcase : k + 2 ≤ g.cap ∨ k + 1 = g.cap ∧ k - g.lastSeg k * g.perSeg = g.perSeg) :
    ∃ st', Relation.ReflTransGen (Step cfg) st st' ∧ st'.Abandoned := by
  have hmono : ∀ {j}, j ≤ g.cap → g.endOff off j < 2 ^ 63 := fun {j} hj =>
    lt_of_le_of_lt (g.blockAt_mono off (g.blocks_mono hj)) hroom
  rcases hcase with hcap | ⟨hcap, hfull⟩
  · obtain ⟨j, hj⟩ : ∃ j, j + 2 = g.cap := ⟨g.cap - 2, by omega⟩
    obtain ⟨st₁, hrun₁, h₁⟩ := h.rounds (j := j) (by omega) (by omega) (hmono (by omega))
    obtain ⟨st₂, hrun₂, h₂⟩ := h₁.abandoned_twice hj (hmono (by omega))
    exact ⟨st₂, hrun₁.trans hrun₂, h₂⟩
  · exact h.abandoned_meta hcap hfull (hmono hcap.le)

end Threads

/-- **When no request is abandoned.** For every layer, whatever its capacity, the size of its
segments and its fill: in no run of the allocator thread and its clients does the thread leave its
loop while the ring is empty and a call that is in range waits for a block, if the layer is full, or
has room for one more block and in its active segment. Otherwise there is such a run, as long as the
offsets of the full layer are file offsets. -/
theorem not_abandoned_iff (g : Geometry cfg) (f : ByteFile) (s : Super) (off k : ℕ)
    (hs : s.Is g off k) (halloc : s.allocOff = s.nextOff) (hk : g.endOff off k < 2 ^ 63) :
    ((g.cap ≤ k ∨ k + 1 = g.cap ∧ k - g.lastSeg k * g.perSeg < g.perSeg) →
      ∀ st, Relation.ReflTransGen (Threads.Step cfg) (Threads.start f s) st → ¬st.Abandoned) ∧
    (g.endOff off g.cap < 2 ^ 63 →
      (∀ st, Relation.ReflTransGen (Threads.Step cfg) (Threads.start f s) st → ¬st.Abandoned) →
        (g.cap ≤ k ∨ k + 1 = g.cap ∧ k - g.lastSeg k * g.perSeg < g.perSeg)) := by
  rw [hs.nextOff (by omega)] at halloc
  have hstart : Threads.Safe g off k (Threads.start f s) := Threads.safe_start hs halloc hk
  constructor
  · rintro (hcap | ⟨hcap, hlt⟩) st hrun
    · obtain ⟨k', h', hle⟩ := hstart.run hrun
      exact h'.not_abandoned_of_full (le_trans hcap hle)
    · have hearly : Threads.Early g off k (Threads.start f s) :=
        ⟨k, le_rfl, hstart, fun _ => trivial⟩
      exact (hearly.run hcap.le hrun).not_abandoned hcap hlt
  · intro hroom hnot
    by_contra hcase
    obtain ⟨hlt, hone⟩ := not_or.mp hcase
    have hle := g.counter_le (k := k)
    have hidle : Threads.Idle g off k 0 (Threads.start f s) := ⟨hstart, rfl, rfl, rfl⟩
    obtain ⟨st, hrun, hab⟩ := hidle.exists_abandoned hroom (by omega)
    exact hnot st hrun hab

/-- Blocks of one page, and layers of up to `n` blocks. -/
def Geometry.holding (cfg : Config) (n : ℕ) (hn : n < 2 ^ 31) : Geometry cfg where
  blockSize := 4096
  maxBlockNum := n
  entry_le := by
    rcases cfg.entrySize_cases with h | h <;> omega
  blockSize_lt := by norm_num
  maxBlockNum_ge := by omega
  maxBlockNum_lt := by exact_mod_cast hn

/-- The super block of an empty layer at the begin of a file, as `fmmap` completes it. -/
def openedSuper (g : Geometry cfg) : Super :=
  { superOf g [] 0 0 with allocOff := (superOf g [] 0 0).nextOff }

theorem openedSuper_is : (openedSuper g).Is g 0 0 := ⟨rfl, rfl, rfl, rfl, rfl, rfl, rfl⟩

/-- An empty layer for a single block: whatever the order of the steps, the block comes. -/
theorem not_abandoned_one : (Geometry.holding .shipped 1 (by decide)).cap = 1 ∧
    ∀ st, Relation.ReflTransGen (Threads.Step .shipped) (Threads.start .empty
      (openedSuper (Geometry.holding .shipped 1 (by decide)))) st → ¬st.Abandoned := by
  refine ⟨rfl, (not_abandoned_iff (Geometry.holding .shipped 1 (by decide)) .empty
    (openedSuper (Geometry.holding .shipped 1 (by decide))) 0 0 openedSuper_is rfl
    (by decide)).1 ?_⟩
  exact Or.inr ⟨rfl, by decide⟩

/-- **An empty layer for two blocks**: there is a run in which the thread leaves its loop after the
first of them, while there is room for the second. -/
theorem abandoned_two : ∃ st, Relation.ReflTransGen (Threads.Step .shipped) (Threads.start .empty
      (openedSuper (Geometry.holding .shipped 2 (by decide)))) st ∧ st.Abandoned := by
  have hidle : Threads.Idle (Geometry.holding .shipped 2 (by decide)) 0 0 0 (Threads.start .empty
      (openedSuper (Geometry.holding .shipped 2 (by decide)))) :=
    ⟨Threads.safe_start openedSuper_is rfl (by decide), rfl, rfl, rfl⟩
  exact hidle.exists_abandoned (by decide) (Or.inl (by decide))

end Pcow
