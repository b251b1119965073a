import Pcow.Missing

/-!
# The loop of the monitor

`uf_monitor` polls the descriptor of `userfaultfd`, reads a message and serves the fault it names.
The read does not block, and its result is looked at in debug builds only; the buffer is static. An
iteration whose read delivers nothing therefore works on what an earlier one has left in the
buffer.

`Monitor.run` is a run of the loop, between whose iterations the guest goes on. Its trace records
what each iteration did. `monitor_acts` says when all its acts are caused by messages: exactly if
no iteration without a page-fault message finds an offset of the range in the buffer. Then, and as
long as no message arrives for a block that was served before, nothing that is mapped is mapped
anew.
-/

namespace Pcow

variable {cfg : Config} {addr w w₀ : ℕ}

/-- What the read of an iteration gives. -/
inductive ReadOutcome
  /-- A message of the kind `UFFD_EVENT_PAGEFAULT`. -/
  | pagefault (address : ℕ) : ReadOutcome
  /-- A message of another kind; `word` is what it has where the address of a page fault is. -/
  | event (word : ℕ) : ReadOutcome
  /-- No message, for the pending fault was withdrawn. -/
  | again : ReadOutcome
  /-- End of file. -/
  | eof : ReadOutcome
deriving DecidableEq

/-- `msg.arg.pagefault.address` after the read; a read that gives no message leaves the buffer as
it is. -/
def ReadOutcome.word : ReadOutcome → ℕ → ℕ
  | .pagefault address, _ => address
  | .event word, _ => word
  | .again, w => w
  | .eof, w => w

/-- A page-fault message was read. -/
def ReadOutcome.IsPagefault : ReadOutcome → Prop
  | .pagefault _ => True
  | .event _ => False
  | .again => False
  | .eof => False

namespace Session

variable {ses ses' : Session} {v n n' : ℕ}

/-- The offset is one for which `uf_monitor` allocates and maps a block. -/
def Serves (ses : Session) (v : ℕ) : Prop :=
  v / pageSize * pageSize / u64 ses.s.blockSize * u64 ses.s.blockSize ≤
    u64 (ses.s.fmmapLength - ses.s.blockSize)

instance (ses : Session) (v : ℕ) : Decidable (ses.Serves v) := inferInstanceAs (Decidable (_ ≤ _))

theorem serves_congr (h : ses.s.SameFixed ses'.s) : ses'.Serves v ↔ ses.Serves v := by
  rw [Serves, Serves, h.blockSize, h.fmmapLength]

theorem ufMonitor_of_not_serves (h : ¬ses.Serves v) :
    ses.ufMonitor cfg n n' v = .ok (ses, []) := by
  rw [ufMonitor]
  exact if_neg h

end Session

/-- The state of the loop: the session, and `msg.arg.pagefault.address`. -/
structure Monitor where
  ses : Session
  word : ℕ

/-- A step of the loop or of the threads beside it. -/
inductive MonitorStep
  /-- An iteration; `n` and `n'` are those of the allocator thread that it waits for. -/
  | iteration (read : ReadOutcome) (n n' : ℕ) : MonitorStep
  /-- The guest makes an access, or the allocator thread an iteration. -/
  | other (op : GuestOp) : MonitorStep

/-- What an iteration did. -/
structure Handled where
  /-- What was read. -/
  read : ReadOutcome
  /-- The session before it. -/
  ses : Session
  /-- The offset it took the fault to be at. -/
  v : ℕ

/-- The iteration called `new_block` and mapped the block. -/
def Handled.Acted (h : Handled) : Prop := h.ses.Serves h.v

/-- The access waits for a page to be mapped. -/
def GuestOp.Waits (ses : Session) : GuestOp → Prop
  | .load v _ _ => ses.pages (v / pageSize) = none
  | .store v _ _ _ => ses.pages (v / pageSize) = none
  | .tick => False

instance (ses : Session) : DecidablePred (GuestOp.Waits ses)
  | .load v _ _ => inferInstanceAs (Decidable (ses.pages (v / pageSize) = none))
  | .store v _ _ _ => inferInstanceAs (Decidable (ses.pages (v / pageSize) = none))
  | .tick => inferInstanceAs (Decidable False)

namespace Monitor

variable {st st' : Monitor} {steps : List MonitorStep} {tr : List Handled}

/-- One iteration of the loop of `uf_monitor`, over a range that starts at `addr`. -/
def iterate (cfg : Config) (addr : ℕ) (st : Monitor) (read : ReadOutcome) (n n' : ℕ) :
    Except Fault (Monitor × Handled) :=
  let word := read.word st.word
  let blockSize := u64 st.ses.s.blockSize
  let v := u64 (word - addr)
  if ¬pageSize ∣ addr ∨ ¬pageSize ∣ word ∨ ¬pageSize ∣ u64 (v / blockSize * blockSize + addr) then
    .error .assertFailed
  else (st.ses.ufMonitor cfg n n' v).map fun x => (⟨x.1, word⟩, ⟨read, st.ses, v⟩)

/-- A run of the loop, with the trace of its iterations. An access that waits for a page is made
later. -/
def run (cfg : Config) (addr : ℕ) : Monitor → List MonitorStep →
    Except Fault (Monitor × List Handled)
  | st, [] => .ok (st, [])
  | st, .iteration read n n' :: steps =>
    match st.iterate cfg addr read n n' with
    | .error e => .error e
    | .ok (st', h) => (run cfg addr st' steps).map fun x => (x.1, h :: x.2)
  | st, .other op :: steps =>
    if op.Waits st.ses then run cfg addr st steps
    else match st.ses.step cfg op with
      | .error e => .error e
      | .ok (ses', _) => run cfg addr { st with ses := ses' } steps

/-- **No iteration without a page-fault message finds an offset of the range in the buffer**; `w` is
what the buffer holds at first. -/
def StaleOut (ses : Session) (addr : ℕ) : ℕ → List MonitorStep → Prop
  | _, [] => True
  | w, .iteration read _ _ :: steps =>
    (read.IsPagefault ∨ ¬ses.Serves (u64 (read.word w - addr))) ∧
      StaleOut ses addr (read.word w) steps
  | w, .other _ :: steps => StaleOut ses addr w steps

/-- **Every act is caused by a page-fault message** that its iteration read. -/
def Caused (tr : List Handled) : Prop := ∀ h ∈ tr, h.Acted → h.read.IsPagefault

/-- **No act maps a block anew** of which something was mapped. -/
def Fresh (n : ℕ) (tr : List Handled) : Prop :=
  ∀ h ∈ tr, h.Acted → ∀ p, p * pageSize / n = h.v / n → h.ses.pages p = none

/-- What is assumed of `userfaultfd`: once a block was mapped and its range woken, no message for it
is delivered any more. -/
def WakeEnds (n : ℕ) (tr : List Handled) : Prop :=
  tr.Pairwise fun h h' => h.Acted → h'.read.IsPagefault → h'.v / n ≠ h.v / n

/-- Messages are delivered for blocks of which nothing was mapped when the session began. -/
def MissingOnly (ses : Session) (n : ℕ) (tr : List Handled) : Prop :=
  ∀ h ∈ tr, h.read.IsPagefault → ∀ p, p * pageSize / n = h.v / n → ses.pages p = none

/-! ### Acts and messages -/

theorem staleOut_congr {ses ses' : Session} (h : ses.s.SameFixed ses'.s) :
    StaleOut ses' addr w steps ↔ StaleOut ses addr w steps := by
  induction steps generalizing w with
  | nil => exact Iff.rfl
  | cons o steps ih =>
    cases o with
    | iteration read n n' => rw [StaleOut, StaleOut, ih, Session.serves_congr h]
    | other op => exact ih

/-- The steps of an iteration that comes to an end. -/
theorem iterate_ok {read : ReadOutcome} {n n' : ℕ} {h : Handled}
    (hr : st.iterate cfg addr read n n' = .ok (st', h)) :
    ∃ ops, st.ses.ufMonitor cfg n n' (u64 (read.word st.word - addr)) = .ok (st'.ses, ops) ∧
      st'.word = read.word st.word ∧ h = ⟨read, st.ses, u64 (read.word st.word - addr)⟩ := by
  rw [iterate] at hr
  split at hr
  · cases hr
  · rcases hm : st.ses.ufMonitor cfg n n' (u64 (read.word st.word - addr)) with e | ⟨ses', ops⟩
    · rw [hm] at hr
      cases hr
    · rw [hm] at hr
      cases hr
      exact ⟨ops, rfl, rfl, rfl⟩

/-- **An access that does not wait maps in blocks of which something is mapped.** -/
theorem step_pages {ses ses' : Session} {op : GuestOp} {ev : Event}
    (hdvd : pageSize ∣ u64 ses.s.blockSize) (hpos : 0 < u64 ses.s.blockSize)
    (hw : ¬op.Waits ses) (hr : ses.step cfg op = .ok (ses', ev)) :
    ses.s.SameFixed ses'.s ∧ ∀ p, ses'.pages p ≠ none → ∃ p', ses.pages p' ≠ none ∧
      p' * pageSize / u64 ses.s.blockSize = p * pageSize / u64 ses.s.blockSize := by
  have hconf : ∀ {v}, ses.pages (v / pageSize) ≠ none → ses.Confined ses' v →
      ses.s.SameFixed ses'.s ∧ ∀ p, ses'.pages p ≠ none → ∃ p', ses.pages p' ≠ none ∧
        p' * pageSize / u64 ses.s.blockSize = p * pageSize / u64 ses.s.blockSize := by
    intro v hv h
    refine ⟨h.super, fun p hp => ?_⟩
    by_cases hblock : p * pageSize / u64 ses.s.blockSize = v / u64 ses.s.blockSize
    · exact ⟨v / pageSize, hv, by rw [div_page hdvd, hblock]⟩
    · exact ⟨p, by rwa [← h.pages p hblock], rfl⟩
  cases op with
  | load v n n' =>
    obtain ⟨r, -, hl⟩ := Session.step_load hr
    exact hconf hw (Session.load_confined hdvd hpos hl)
  | store v x n n' =>
    obtain ⟨r, -, hs⟩ := Session.step_store hr
    exact hconf hw (Session.store_confined hdvd hpos hs)
  | tick =>
    obtain ⟨-, ht⟩ := Session.step_tick hr
    obtain ⟨hs, -, hpages, -⟩ := Session.tick_ok ht
    exact ⟨hs, fun p hp => ⟨p, by rwa [← hpages], rfl⟩⟩

/-- A run that begins with an iteration. -/
theorem run_iteration {read : ReadOutcome} {n n' : ℕ}
    (hr : run cfg addr st (.iteration read n n' :: steps) = .ok (st', tr)) :
    ∃ st₁ h tr', st.iterate cfg addr read n n' = .ok (st₁, h) ∧
      run cfg addr st₁ steps = .ok (st', tr') ∧ tr = h :: tr' := by
  rw [run] at hr
  rcases hi : st.iterate cfg addr read n n' with e | ⟨st₁, h⟩
  · rw [hi] at hr
    cases hr
  · rw [hi] at hr
    obtain ⟨x, hrun, heq⟩ := map_eq_ok hr
    cases heq
    exact ⟨st₁, h, x.2, rfl, hrun, rfl⟩

/-- A run that begins with something else: an access that waits is left for later. -/
theorem run_other {op : GuestOp} (hr : run cfg addr st (.other op :: steps) = .ok (st', tr)) :
    (op.Waits st.ses ∧ run cfg addr st steps = .ok (st', tr)) ∨
      (¬op.Waits st.ses ∧ ∃ ses' ev, st.ses.step cfg op = .ok (ses', ev) ∧
        run cfg addr { st with ses := ses' } steps = .ok (st', tr)) := by
  rw [run] at hr
  by_cases hw : op.Waits st.ses
  · rw [if_pos hw] at hr
    exact Or.inl ⟨hw, hr⟩
  rw [if_neg hw] at hr
  rcases hstep : st.ses.step cfg op with e | ⟨ses', ev⟩
  · rw [hstep] at hr
    cases hr
  · rw [hstep] at hr
    exact Or.inr ⟨hw, ses', ev, rfl, hr⟩

/-- A run goes on where one before it ended. -/
theorem run_append {st₁ : Monitor} {steps' : List MonitorStep} {tr' : List Handled}
    (hr : run cfg addr st steps = .ok (st₁, tr)) (hr' : run cfg addr st₁ steps' = .ok (st', tr')) :
    run cfg addr st (steps ++ steps') = .ok (st', tr ++ tr') := by
  induction steps generalizing st tr with
  | nil =>
    cases hr
    exact hr'
  | cons o steps ih =>
    cases o with
    | iteration read n n' =>
      obtain ⟨st₂, h, tr₂, hi, hrun, rfl⟩ := run_iteration hr
      rw [List.cons_append, run, hi]
      simp only
      rw [ih hrun]
      rfl
    | other op =>
      rw [List.cons_append, run]
      rcases run_other hr with ⟨hw, hrun⟩ | ⟨hw, ses', ev, hstep, hrun⟩
      · rw [if_pos hw]
        exact ih hrun
      · rw [if_neg hw, hstep]
        exact ih hrun

/-- **The acts of a run are caused by messages** exactly if the buffer is out of the range wherever
there is none. -/
theorem caused_iff (hdvd : pageSize ∣ u64 st.ses.s.blockSize) (hpos : 0 < u64 st.ses.s.blockSize)
    (hr : run cfg addr st steps = .ok (st', tr)) :
    Caused tr ↔ StaleOut st.ses addr st.word steps := by
  induction steps generalizing st tr with
  | nil =>
    cases hr
    exact ⟨fun _ => trivial, fun _ h hh => by cases hh⟩
  | cons o steps ih =>
    cases o with
    | iteration read n n' =>
      obtain ⟨st₁, h, tr₁, hi, hrun, rfl⟩ := run_iteration hr
      obtain ⟨ops, hm, hword, rfl⟩ := iterate_ok hi
      have hs := (Session.ufMonitor_confined hdvd hpos hm).super
      rw [StaleOut, ← hword, ← staleOut_congr hs,
        ← ih (by rwa [hs.blockSize]) (by rwa [hs.blockSize]) hrun, Caused, List.forall_mem_cons]
      refine and_congr_left' ?_
      change (st.ses.Serves _ → read.IsPagefault) ↔ _
      rw [imp_iff_or_not, hword]
    | other op =>
      rcases run_other hr with ⟨-, hrun⟩ | ⟨hw, ses', ev, hstep, hrun⟩
      · exact ih hdvd hpos hrun
      have hs := (step_pages hdvd hpos hw hstep).1
      rw [ih (by rwa [hs.blockSize]) (by rwa [hs.blockSize]) hrun]
      exact staleOut_congr hs

/-- **Nothing is mapped anew.** The blocks of which something is mapped are among those that are
taken, for which no message arrives: at first these are the blocks that the session has mapped, and
each act takes its own. -/
theorem fresh_of_taken {n : ℕ} (taken : ℕ → Prop) (hn : u64 st.ses.s.blockSize = n)
    (hdvd : pageSize ∣ n) (hpos : 0 < n) (hr : run cfg addr st steps = .ok (st', tr))
    (hpages : ∀ p, st.ses.pages p ≠ none → taken (p * pageSize / n))
    (hmsg : ∀ h ∈ tr, h.read.IsPagefault → ¬taken (h.v / n)) (hwake : WakeEnds n tr)
    (hcaused : Caused tr) : Fresh n tr := by
  induction steps generalizing st tr taken with
  | nil =>
    cases hr
    exact fun h hh => by cases hh
  | cons o steps ih =>
    cases o with
    | iteration read k k' =>
      obtain ⟨st₁, h, tr₁, hi, hrun, rfl⟩ := run_iteration hr
      obtain ⟨ops, hm, -, rfl⟩ := iterate_ok hi
      have hconf := Session.ufMonitor_confined (by rwa [hn]) (by rwa [hn]) hm
      obtain ⟨hwake₁, hwake₂⟩ := List.pairwise_cons.mp hwake
      obtain ⟨hmsg₁, hmsg₂⟩ := List.forall_mem_cons.mp hmsg
      obtain ⟨hcaused₁, hcaused₂⟩ := List.forall_mem_cons.mp hcaused
      rw [Fresh, List.forall_mem_cons]
      refine ⟨fun hact p hp => ?_, ?_⟩
      · by_contra hne
        have := hpages p hne
        rw [hp] at this
        exact hmsg₁ (hcaused₁ hact) this
      · refine ih (fun b => taken b ∨ st.ses.Serves (u64 (read.word st.word - addr)) ∧
          b = u64 (read.word st.word - addr) / n) (by rw [hconf.super.blockSize, hn]) hrun
          (fun p hp => ?_) (fun h hh hpf hor => ?_) hwake₂ hcaused₂
        · by_cases hserves : st.ses.Serves (u64 (read.word st.word - addr))
          · by_cases hb : p * pageSize / n = u64 (read.word st.word - addr) / n
            · exact Or.inr ⟨hserves, hb⟩
            · left
              refine hpages p ?_
              rwa [← hconf.pages p (by rwa [hn])]
          · rw [Session.ufMonitor_of_not_serves hserves, Except.ok.injEq, Prod.mk.injEq] at hm
            left
            exact hpages p (by rwa [hm.1])
        · rcases hor with htaken | ⟨hserves, hb⟩
          · exact hmsg₂ h hh hpf htaken
          · exact hwake₁ h hh hserves hpf hb
    | other op =>
      rcases run_other hr with ⟨-, hrun⟩ | ⟨hw, ses', ev, hstep, hrun⟩
      · exact ih taken hn hrun hpages hmsg hwake hcaused
      obtain ⟨hs, hmapped⟩ := step_pages (by rwa [hn]) (by rwa [hn]) hw hstep
      refine ih taken (by rw [hs.blockSize, hn]) hrun (fun p hp => ?_) hmsg hwake hcaused
      obtain ⟨p', hp', hb⟩ := hmapped p hp
      rw [hn] at hb
      rw [← hb]
      exact hpages p' hp'

end Monitor

/-- **When the monitor acts once per message.** For every session, every sequence of outcomes of the
reads and everything the guest and the allocator thread do in between: each block that the loop
allocates and maps is caused by a page-fault message read in the same iteration exactly if no
iteration without one finds an offset of the range in the buffer. In this case, and if no message
arrives for a block once it was mapped and woken, no block is allocated twice; if moreover messages
are for blocks that are missing at first, nothing that is mapped is replaced. -/
theorem monitor_acts (ses : Session) (addr word : ℕ) (steps : List MonitorStep) (st : Monitor)
    (tr : List Handled) (hdvd : pageSize ∣ u64 ses.s.blockSize) (hpos : 0 < u64 ses.s.blockSize)
    (hr : Monitor.run cfg addr ⟨ses, word⟩ steps = .ok (st, tr)) :
    (Monitor.Caused tr ↔ Monitor.StaleOut ses addr word steps) ∧
      (Monitor.StaleOut ses addr word steps → Monitor.WakeEnds (u64 ses.s.blockSize) tr →
        tr.Pairwise (fun h h' => h.Acted → h'.Acted →
          h'.v / u64 ses.s.blockSize ≠ h.v / u64 ses.s.blockSize) ∧
        (Monitor.MissingOnly ses (u64 ses.s.blockSize) tr →
          Monitor.Fresh (u64 ses.s.blockSize) tr)) := by
  have hiff := Monitor.caused_iff hdvd hpos hr
  refine ⟨hiff, fun hstale hwake => ⟨?_, fun hmissing => ?_⟩⟩
  · have hcaused := hiff.mpr hstale
    exact hwake.imp_of_mem fun _ hh' hne hact hact' => hne hact (hcaused _ hh' hact')
  · refine Monitor.fresh_of_taken (fun b => ∃ p, p * pageSize / u64 ses.s.blockSize = b ∧
      ses.pages p ≠ none) rfl hdvd hpos hr (fun p hp => ⟨p, rfl, hp⟩) ?_ hwake (hiff.mpr hstale)
    rintro h hh hpf ⟨p, hp, hne⟩
    exact hne (hmissing h hh hpf p hp)

/-- An iteration for the second block of a range at `0x400000000000`, in blocks of two pages. -/
theorem Monitor.iterate_second {st : Monitor} {read : ReadOutcome} {ses' : Session}
    {ops : List FileOp} (hbs : u64 st.ses.s.blockSize = 8192)
    (hword : read.word st.word = 0x400000002000)
    (hm : st.ses.ufMonitor cfg 0 0 8192 = .ok (ses', ops)) :
    st.iterate cfg (0x400000000000) read 0 0 =
      .ok (⟨ses', 0x400000002000⟩, ⟨read, st.ses, 8192⟩) := by
  have hv : u64 (((0x400000002000 : ℕ) : ℤ) - (0x400000000000 : ℕ)) = 8192 := by decide
  rw [Monitor.iterate, hword, hbs, hv, if_neg (by decide), hm]
  rfl

/-- A message for the second block is served, and the guest stores to it. -/
theorem exists_served : ∃ (fs : Fs) (ses : Session) (st : Monitor) (e : Handled),
    Session.fmmap .shipped fs [1] (8192 * 2) 0 = .ok (some ses) ∧
      (∀ p, p * pageSize / 8192 = 1 → ses.pages p = none) ∧ u64 ses.s.blockSize = 8192 ∧
      Monitor.run .shipped (0x400000000000) ⟨ses, 0⟩ [.iteration (.pagefault (0x400000002000)) 0 0,
        .other (.store 8192 7 0 0)] = .ok (st, [e]) ∧
      e = ⟨.pagefault (0x400000002000), ses, 8192⟩ ∧ st.word = 0x400000002000 ∧
      st.ses.byteAt 8192 = some 7 ∧ st.ses.s.fmmapLength = 8192 * 2 ∧ st.ses.ring.running = true ∧
      ∃ b low, st.ses.Stale (Geometry.twoPages .shipped) .empty 0 [b] low := by
  obtain ⟨fs, ses, -, -, hopen, ⟨low, hstale⟩, hlen, hring, -, hmapped, hserved⟩ :=
    exists_overPages (Geometry.twoPages .shipped) (by decide) (by decide) (by decide)
  have hbs : u64 ses.s.blockSize = 8192 := hstale.super.u64_blockSize
  obtain ⟨⟨ses₁, ops⟩, hm⟩ := hserved 8192
  have hin : 8192 / 8192 * 8192 ≤ u64 ((ses.s.fmmapLength : ℤ) - (8192 : ℕ)) := by
    rw [hlen]
    decide
  have hv : 8192 < ses.s.fmmapLength := by
    rw [hlen]
    decide
  obtain ⟨hstale₁, -⟩ := hstale.missing hv hm hin
  obtain ⟨-, hwritable, -⟩ := hstale.toPaged.missing hv hm hin
  obtain ⟨e, hp, hw⟩ := hwritable 2 rfl
  have hs := (Session.ufMonitor_confined (by rw [hbs]; decide) (by rw [hbs]; decide) hm).super
  obtain ⟨hstore, hbyte⟩ := hstale₁.store (v := 8192) hp hw 7
  have hrunning : ses₁.ring.running = true := by
    rw [Session.ufMonitor_running hm, hring]
    · rfl
    · rw [hstale.super.toAllocNum, hstale.super.maxBlockNum]
      decide
  refine ⟨fs, ses, ⟨ses₁.poke e (8192 % pageSize) (7 : UInt8).toNat, 0x400000002000⟩, _, hopen,
    fun p hp => ?_, hbs, ?_, rfl, rfl, hbyte, hs.fmmapLength.trans hlen, hrunning, _,
    low, hstale₁.poke hp hw (Nat.mod_lt _ (by decide)) _⟩
  · by_contra hne
    have := List.mem_singleton.mp ((hmapped p).mp hne)
    change p * pageSize / 8192 = 0 at this
    omega
  · rw [Monitor.run, Monitor.iterate_second hbs rfl hm]
    simp only
    have hnot : ¬GuestOp.Waits ses₁ (.store 8192 7 0 0) := by
      intro hwait
      change ses₁.pages 2 = none at hwait
      rw [hwait] at hp
      cases hp
    rw [Monitor.run, if_neg hnot, Session.step]
    simp only
    rw [hstore]
    rfl

/-- A message, and a store of the guest to the block it is for. -/
theorem monitor_acts_served : ∃ (ses : Session) (st : Monitor) (tr : List Handled),
    Monitor.run .shipped (0x400000000000) ⟨ses, 0⟩ [.iteration (.pagefault (0x400000002000)) 0 0,
        .other (.store 8192 7 0 0)] = .ok (st, tr) ∧
      tr.length = 1 ∧ Monitor.Caused tr ∧ Monitor.Fresh 8192 tr := by
  obtain ⟨fs, ses, st, e, -, hmiss, hbs, hrun, rfl, -⟩ := exists_served
  obtain ⟨hiff, hrest⟩ := monitor_acts ses (0x400000000000) 0 _ st _ (by rw [hbs]; decide)
    (by rw [hbs]; decide) hrun
  have hstale : Monitor.StaleOut ses (0x400000000000) 0
    [.iteration (.pagefault (0x400000002000)) 0 0,
      .other (.store 8192 7 0 0)] := ⟨Or.inl trivial, trivial⟩
  rw [hbs] at hrest
  refine ⟨ses, st, _, hrun, rfl, hiff.mpr hstale,
    (hrest hstale (List.pairwise_singleton _ _)).2 fun h hh _ p hp => ?_⟩
  rw [List.mem_singleton.mp hh] at hp
  exact hmiss p (hp.trans (show 8192 / 8192 = 1 by decide))

/-- **A read that delivers nothing.** The iteration works on the message of the iteration before
it, and a block of zeros replaces the one the guest has stored to. -/
theorem monitor_acts_stale : ∃ (fs : Fs) (ses : Session) (st : Monitor) (h h' : Handled),
    Session.fmmap .shipped fs [1] (8192 * 2) 0 = .ok (some ses) ∧
      Monitor.run .shipped (0x400000000000) ⟨ses, 0⟩ [.iteration (.pagefault (0x400000002000)) 0 0,
        .other (.store 8192 7 0 0), .iteration .again 0 0] = .ok (st, [h, h']) ∧
      Monitor.WakeEnds 8192 [h, h'] ∧ Monitor.MissingOnly ses 8192 [h, h'] ∧
      ¬Monitor.Caused [h, h'] ∧ h'.ses.byteAt 8192 = some 7 ∧ st.ses.byteAt 8192 = some 0 := by
  obtain ⟨fs, ses, st₁, e, hopen, hmiss, hbs, hrun, rfl, hword, hbyte, hlen, hrunning, b, low,
    hstale⟩ := exists_served
  have hbs₁ : u64 st₁.ses.s.blockSize = 8192 := hstale.super.u64_blockSize
  have hex : ∃ x, st₁.ses.ufMonitor .shipped 0 0 8192 = .ok x :=
    hstale.exists_ufMonitor (hstale.layer.exists_newBlock hstale.size_lt hstale.super hstale.ring
      (show 1 + 1 ≤ 4096 by decide)
      (show (Geometry.twoPages .shipped).blockAt 0 ((Geometry.twoPages .shipped).blocks 1 + 5) <
        2 ^ 63 by decide) fun _ =>
      Or.inr ⟨hrunning, show 1 + (Geometry.twoPages .shipped).need 1 ≤ 4096 by decide⟩)
  obtain ⟨⟨ses₂, ops⟩, hm⟩ := hex
  have hin : 8192 / 8192 * 8192 ≤ u64 ((st₁.ses.s.fmmapLength : ℤ) - (8192 : ℕ)) := by
    rw [hlen]
    decide
  obtain ⟨-, hbytes⟩ := hstale.missing (by rw [hlen]; decide) hm hin
  have hserves : st₁.ses.Serves 8192 := by
    rw [Session.Serves, hstale.super.u64_blockSize, hstale.super.blockSize]
    exact hin
  refine ⟨fs, ses, ⟨ses₂, 0x400000002000⟩, ⟨.pagefault 0x400000002000, ses, 8192⟩,
    ⟨.again, st₁.ses, 8192⟩, hopen, ?_, ?_, ?_, ?_, hbyte, hbytes 8192⟩
  · refine Monitor.run_append hrun ?_
    rw [Monitor.run, Monitor.iterate_second hbs₁ (show ReadOutcome.again.word _ = _ from hword) hm]
    rfl
  · refine List.pairwise_pair.mpr fun _ hpf => ?_
    cases hpf
  · intro h hh hpf p hp
    rcases List.mem_cons.mp hh with rfl | hh
    · exact hmiss p (hp.trans (show 8192 / 8192 = 1 by decide))
    · rw [List.mem_singleton.mp hh] at hpf
      cases hpf
  · intro hcaused
    have := hcaused ⟨.again, st₁.ses, 8192⟩ (List.mem_cons_of_mem _ (List.mem_singleton_self _))
      hserves
    cases this

end Pcow
