import Pcow.Limit

/-!
# Write faults of several threads

`cow_handler` runs in the thread that has faulted. It looks for its unit in the recent list of the
unit, waits for the lock of the block, has `insert_list` look again and find or make the entry of
the block, copies, maps the copy over the range and releases the lock. Other threads go on
meanwhile, so a thread may come to `insert_list` when its unit was made writable long ago.

The recent lists are there to turn such a thread away. But the copy of a whole block is recorded in
the list of one of its units only, and the entry of the block has left the table then: a thread that
had faulted on another unit of the block finds neither, and `insert_ht` appends a second entry for
the block (`stale_fault_appends`). Where no thread comes to `insert_list` in this state,
`uf_monitor` serves no page that is mapped by then, and `fmmap` has mapped blocks as a whole, the
entries of the layer name different blocks (`one_entry`).

A call of `insert_list` is one step here, and so are the copy and the mapping that follow it.
-/

namespace Pcow

variable {cfg : Config} {g : Geometry cfg} {off b v : ℕ} {es es' : List ℕ}
  {low : PageTable Path}

/-- Where a thread is in `cow_handler`. -/
inductive CowPc
  /-- In no call. -/
  | out : CowPc
  /-- The write to the protected page of `v` has faulted. -/
  | entered (v : ℕ) : CowPc
  /-- The unit was not in its list, and the thread waits for the lock of the block. -/
  | waiting (v : ℕ) : CowPc
  /-- The thread has the lock, and comes to `insert_list`. -/
  | locked (v : ℕ) : CowPc
  /-- `insert_list` has returned what to copy. -/
  | copying (v : ℕ) (le : CowLEntry) (ce : CowEntry) : CowPc
  /-- All is done but for the release of the lock. -/
  | leaving (v : ℕ) : CowPc

/-- The fault whose lock the thread holds. -/
def CowPc.holds : CowPc → Option ℕ
  | .locked v => some v
  | .copying v _ _ => some v
  | .leaving v => some v
  | _ => none

/-- The thread copies a unit of block `b`, or all of it. -/
def CowPc.Copies (n b : ℕ) : CowPc → Prop
  | .copying v _ _ => v / n = b
  | _ => False

/-- `lock_num`: the lock of the block of `v`. -/
def lockNum (blockSize v : ℕ) : ℕ := v / blockSize % maxThreadNum

/-- The end of `cow_handler`, with what `insert_list` has returned: the copy, the mapping and the
mark in the entry of the block. -/
def Session.copyListed (cfg : Config) (ses : Session) (n n' v : ℕ) (le : CowLEntry)
    (ce : CowEntry) :
    Except Fault (Session × List FileOp) :=
  let aligned := v / u64 ses.s.blockSize * u64 ses.s.blockSize
  if le.copySize ≠ ses.s.blockSize then ses.copyUnit cfg le ce aligned
  else ses.copyWhole cfg n n' ce aligned

/-- The threads of the guest, and what they share. -/
structure Writers where
  /-- The session. -/
  ses : Session
  /-- The threads. -/
  pc : ℕ → CowPc

/-- The kinds of steps. -/
inductive WriterOp
  /-- A call of `insert_list` for the unit of `v`. -/
  | insert (v : ℕ) : WriterOp
  /-- A message of `uf_monitor` for the page of `v`. -/
  | missing (v : ℕ) : WriterOp
  /-- Any other step. -/
  | other : WriterOp

namespace Writers

/-- A thread goes on. -/
def setPc (st : Writers) (t : ℕ) (pc : CowPc) : Writers :=
  { st with pc := Function.update st.pc t pc }

/-- **The steps.** -/
inductive Step (cfg : Config) (st : Writers) : WriterOp → Writers → Prop
  /-- A thread writes to a protected page. -/
  | fault {t v : ℕ} {e : Pte Path} : st.pc t = .out → v < st.ses.s.fmmapLength →
      st.ses.pages (v / pageSize) = some e → e.writable = false →
      Step cfg st .other (st.setPc t (.entered v))
  /-- The range check sends it away. -/
  | refused {t v : ℕ} : st.pc t = .entered v → v > u64 (st.ses.globalLength - st.ses.s.blockSize) →
      Step cfg st .other (st.setPc t .out)
  /-- `in_list` finds the unit. -/
  | inList {t v : ℕ} : st.pc t = .entered v → v ≤ u64 (st.ses.globalLength - st.ses.s.blockSize) →
      st.ses.cow.InList (v / cowUnit * cowUnit) → Step cfg st .other (st.setPc t .out)
  /-- `in_list` does not find it. -/
  | notInList {t v : ℕ} : st.pc t = .entered v →
      v ≤ u64 (st.ses.globalLength - st.ses.s.blockSize) →
      ¬st.ses.cow.InList (v / cowUnit * cowUnit) → Step cfg st .other (st.setPc t (.waiting v))
  /-- The lock of the block is free. -/
  | lock {t v : ℕ} : st.pc t = .waiting v →
      (∀ u x, (st.pc u).holds = some x →
        lockNum (u64 st.ses.s.blockSize) x ≠ lockNum (u64 st.ses.s.blockSize) v) →
      Step cfg st .other (st.setPc t (.locked v))
  /-- `insert_list` finds that the unit was copied in the meantime. -/
  | insertNone {t v n n' : ℕ} {ses' : Session} {ops : List FileOp} : st.pc t = .locked v →
      st.ses.insertList cfg n n' (v / cowUnit * cowUnit) = .ok (ses', none, ops) →
      Step cfg st (.insert v) (setPc { st with ses := ses' } t (.leaving v))
  /-- `insert_list` returns what to copy. -/
  | insert {t v n n' : ℕ} {ses' : Session} {le : CowLEntry} {ce : CowEntry} {ops : List FileOp} :
      st.pc t = .locked v →
      st.ses.insertList cfg n n' (v / cowUnit * cowUnit) = .ok (ses', some (le, ce), ops) →
      Step cfg st (.insert v) (setPc { st with ses := ses' } t (.copying v le ce))
  /-- It is copied and mapped. -/
  | copy {t v n n' : ℕ} {ses' : Session} {le : CowLEntry} {ce : CowEntry} {ops : List FileOp} :
      st.pc t = .copying v le ce → st.ses.copyListed cfg n n' v le ce = .ok (ses', ops) →
      Step cfg st .other (setPc { st with ses := ses' } t (.leaving v))
  /-- The lock is released. -/
  | unlock {t v : ℕ} : st.pc t = .leaving v → Step cfg st .other (st.setPc t .out)
  /-- `uf_monitor` serves a fault on a page that was missing. It does not look whether it still
  is. -/
  | missing {v n n' : ℕ} {ses' : Session} {ops : List FileOp} : v < st.ses.s.fmmapLength →
      st.ses.ufMonitor cfg n n' v = .ok (ses', ops) →
      Step cfg st (.missing v) { st with ses := ses' }
  /-- The guest stores to a writable page. -/
  | write {p x : ℕ} {e : Pte Path} (y : ℕ) : st.ses.pages p = some e → e.writable = true →
      x < pageSize → Step cfg st .other { st with ses := st.ses.poke e x y }
  /-- The allocator thread makes an iteration. -/
  | tick {ses' : Session} : st.ses.tick cfg = .ok ses' → Step cfg st .other { st with ses := ses' }

/-- **A thread that comes to `insert_list` is turned away, or its page is still protected, or its
block is in the table; a page that `uf_monitor` serves is still missing.** -/
def Fresh (st : Writers) : WriterOp → Prop
  | .insert v => st.ses.cow.InList (v / cowUnit * cowUnit) ∨
      (∃ e, st.ses.pages (v / pageSize) = some e ∧ e.writable = false) ∨ ¬st.ses.NeedsBlock v
  | .missing v => st.ses.pages (v / pageSize) = none
  | .other => True

/-- No thread is in a call. -/
def start (ses : Session) : Writers := ⟨ses, fun _ => .out⟩

end Writers

/-! ### Blocks of the table -/

namespace Session

variable {ses ses' : Session} {n n' : ℕ} {ops : List FileOp}

/-- The table has an entry for block `b`, of size `n`. -/
def InTable (ses : Session) (n b : ℕ) : Prop :=
  ∃ ce ∈ ses.cow.buckets (b % bucketNum), ce.faultVoffAligned = b * n

theorem Layered.needsBlock_iff (h : ses.Layered g off es) (v : ℕ) :
    ses.NeedsBlock v ↔ ¬ses.InTable g.blockSize (v / g.blockSize) := by
  rw [NeedsBlock, searchHt_eq_none, h.super.u64_blockSize, bucketNumber, InTable]
  push Not
  rfl

/-- A chain that loses an entry of one block keeps those of the others. -/
theorem InTable.setBucket (h : ses.InTable n b) {d : ℕ} (hd : b ≠ d) (hn : 0 < n) {e : CowEntry}
    {l₁ l₂ : List CowEntry} (hl : ses.cow.buckets (d % bucketNum) = l₁ ++ e :: l₂)
    (hkey : e.faultVoffAligned = d * n)
    (hc : ses'.cow.buckets = (ses.cow.setBucket (d % bucketNum) (l₁ ++ l₂)).buckets) :
    ses'.InTable n b := by
  obtain ⟨ce, hce, hb⟩ := h
  refine ⟨ce, ?_, hb⟩
  rw [hc, CowTables.setBucket]
  by_cases hmod : b % bucketNum = d % bucketNum
  · rw [hmod, hl] at hce
    simp only [hmod, Function.update_self]
    rcases List.mem_append.mp hce with hce | hce
    · exact List.mem_append_left _ hce
    rcases List.mem_cons.mp hce with rfl | hce
    · exact absurd (Nat.eq_of_mul_eq_mul_right hn (hb.symm.trans hkey)) hd
    · exact List.mem_append_right _ hce
  · simp only [Function.update_of_ne hmod]
    exact hce

/-- An entry that is changed keeps its block. -/
theorem InTable.modify (h : ses.InTable n b) {i key : ℕ} {F : CowEntry → CowEntry}
    (hF : ∀ e, (F e).faultVoffAligned = e.faultVoffAligned)
    (hc : ses'.cow = ses.cow.modify i key F) : ses'.InTable n b := by
  obtain ⟨ce, hce, hb⟩ := h
  rw [InTable, hc, CowTables.modify, CowTables.setBucket]
  by_cases hmod : b % bucketNum = i
  · subst hmod
    simp only [Function.update_self]
    refine ⟨_, List.mem_map_of_mem hce, ?_⟩
    split_ifs
    · rw [hF, hb]
    · exact hb
  · simp only [Function.update_of_ne hmod]
    exact ⟨ce, hce, hb⟩

/-- **`insert_list`** and the table: other blocks stay in it. The block of the unit is in it
afterwards, or is to be copied as a whole. -/
theorem Layered.insertList_table (h : ses.Layered g off es) (hdvd : pageSize ∣ g.blockSize)
    {le : CowLEntry} {ce : CowEntry}
    (hr : ses.insertList cfg n n' (v / cowUnit * cowUnit) = .ok (ses', some (le, ce), ops)) :
    (∀ d, d ≠ v / g.blockSize → ses.InTable g.blockSize d → ses'.InTable g.blockSize d) ∧
      (le = ⟨v / g.blockSize * g.blockSize, g.blockSize⟩ ∨
        le = ⟨v / cowUnit * cowUnit, cowUnit⟩ ∧ ses'.InTable g.blockSize (v / g.blockSize)) := by
  have hu := h.super.u64_blockSize
  have hunit : v / cowUnit * cowUnit / g.blockSize = v / g.blockSize := div_page hdvd v
  have hbucket : bucketNumber (u64 ses.s.blockSize) (v / cowUnit * cowUnit) =
      v / g.blockSize % bucketNum := by rw [bucketNumber, hu, hunit]
  rcases insertList_cases hr with
    ⟨full, rest, hsearch, hle, rfl, -⟩ | ⟨-, hle, ses₁, hins, rfl⟩
  · rw [hbucket, hu, hunit] at hsearch
    rw [hu, hunit] at hle
    obtain ⟨e₀, he₀, hkey, ⟨rfl, -, l₁, l₂, hl, rfl⟩ | ⟨rfl, -, rfl⟩⟩ := searchHt_eq_some hsearch
    · refine ⟨fun d hd hin => hin.setBucket hd g.blockSize_pos hl hkey ?_, Or.inl ?_⟩
      · rw [hbucket]
        rfl
      · rw [hle, if_pos rfl, h.super.blockSize]
    · have hsame : ∀ d, ses.InTable g.blockSize d → InTable { ses with
          cow := (ses.cow.setBucket (bucketNumber (u64 ses.s.blockSize) (v / cowUnit * cowUnit))
            (ses.cow.buckets (v / g.blockSize % bucketNum))).pushList (v / cowUnit * cowUnit) le }
          g.blockSize d := by
        rintro d ⟨ce', hce', hd⟩
        refine ⟨ce', ?_, hd⟩
        rw [hbucket]
        change ce' ∈ Function.update ses.cow.buckets _ _ _
        rwa [Function.update_eq_self]
      exact ⟨fun d _ => hsame d, Or.inr ⟨by rw [hle]; rfl, hsame _ ⟨e₀, he₀, hkey⟩⟩⟩
  · rw [hu, hunit] at hins
    obtain ⟨hcow, hkey, -⟩ := h.insertHt_cow hins
    -- the new entry is in front of its chain, and no other chain changes
    have hself : ses₁.cow.buckets (v / g.blockSize % bucketNum) =
        ce :: ses.cow.buckets (v / g.blockSize % bucketNum) := by
      rw [hcow]
      exact Function.update_self _ _ _
    have hmem : ∀ i, ∀ e ∈ ses.cow.buckets i, e ∈ ses₁.cow.buckets i := by
      intro i e he
      by_cases hi : i = v / g.blockSize % bucketNum
      · subst hi
        rw [hself]
        exact List.mem_cons_of_mem _ he
      · have hother : ses₁.cow.buckets i = ses.cow.buckets i := by
          rw [hcow]
          exact Function.update_of_ne hi _ _
        rwa [hother]
    refine ⟨?_, Or.inr ⟨hle, ce, ?_, hkey⟩⟩
    · rintro d - ⟨e, he, hd⟩
      exact ⟨e, hmem _ e he, hd⟩
    · change ce ∈ ses₁.cow.buckets _
      rw [hself]
      exact List.mem_cons_self

end Session

namespace Writers

/-! ### The invariant -/

variable {st st' : Writers} {op : WriterOp} {ses' : Session}

/-- What is known of a thread: the page it has faulted on is mapped, what it copies goes to the data
block of its block, and a block of which it copies one unit is in the table. -/
def PcOk (ses : Session) (g : Geometry cfg) (off : ℕ) (es : List ℕ) : CowPc → Prop
  | .out => True
  | .entered v => v < ses.s.fmmapLength ∧ ses.pages (v / pageSize) ≠ none
  | .waiting v => v < ses.s.fmmapLength ∧ ses.pages (v / pageSize) ≠ none
  | .locked v => v < ses.s.fmmapLength ∧ ses.pages (v / pageSize) ≠ none
  | .copying v le ce => ses.pages (v / pageSize) ≠ none ∧ EntryAt g off es ce ∧
      ce.faultVoffAligned = v / g.blockSize * g.blockSize ∧
      (le = ⟨v / g.blockSize * g.blockSize, g.blockSize⟩ ∨
        le = ⟨v / cowUnit * cowUnit, cowUnit⟩ ∧ ses.InTable g.blockSize (v / g.blockSize))
  | .leaving _ => True

/-- No two threads hold the lock of the same block. -/
def LocksApart (n : ℕ) (pc : ℕ → CowPc) : Prop :=
  ∀ t u x y, (pc t).holds = some x → (pc u).holds = some y → lockNum n x = lockNum n y → t = u

/-- **The invariant**: the entries of the layer name different blocks. A missing page is one of a
block that is missing and has no entry; a protected page is one of a block that has none, that is in
the table or that a thread copies. -/
structure Inv (st : Writers) (g : Geometry cfg) (off : ℕ) (es : List ℕ)
    (low : PageTable Path) : Prop where
  paged : st.ses.Paged g off es low
  nodup : es.Nodup
  whole : st.ses.Whole g.blockSize
  missing : ∀ p, st.ses.pages p = none → p * pageSize / g.blockSize ∉ es
  guarded : ∀ p e, st.ses.pages p = some e → e.writable = false →
    p * pageSize / g.blockSize ∈ es → st.ses.InTable g.blockSize (p * pageSize / g.blockSize) ∨
      ∃ t, (st.pc t).Copies g.blockSize (p * pageSize / g.blockSize)
  pc : ∀ t, PcOk st.ses g off es (st.pc t)
  locks : LocksApart g.blockSize st.pc

/-- A thread that releases its lock, or goes on with it, or takes one that is free. -/
theorem LocksApart.update {n t : ℕ} {pc : ℕ → CowPc} (h : LocksApart n pc) (c : CowPc)
    (hc : ∀ v, c.holds = some v → (pc t).holds = some v ∨
      ∀ u x, (pc u).holds = some x → lockNum n x ≠ lockNum n v) :
    LocksApart n (Function.update pc t c) := by
  have hnew : ∀ u, u ≠ t → ∀ x y, c.holds = some x → (pc u).holds = some y →
      lockNum n y ≠ lockNum n x := by
    intro u hu x y hx hy
    rcases hc x hx with hold | hfree
    · exact fun heq => hu (h u t y x hy hold heq)
    · exact hfree u y hy
  intro u w x y hx hy heq
  rcases eq_or_ne u t with rfl | hu
  · rcases eq_or_ne w u with rfl | hw
    · rfl
    · rw [Function.update_self] at hx
      rw [Function.update_of_ne hw] at hy
      exact absurd heq.symm (hnew w hw x y hx hy)
  · rw [Function.update_of_ne hu] at hx
    rcases eq_or_ne w t with rfl | hw
    · rw [Function.update_self] at hy
      exact absurd heq (hnew u hu y x hy hx)
    · rw [Function.update_of_ne hw] at hy
      exact h u w x y hx hy heq

/-- What is known of a thread is a matter of the pages, the entries and the table. -/
theorem PcOk.mono {ses : Session} {c : CowPc} (h : PcOk ses g off es c)
    (hlen : ses'.s.fmmapLength = ses.s.fmmapLength)
    (hpages : ∀ p, ses.pages p ≠ none → ses'.pages p ≠ none) (hes : es <+: es')
    (htable : ∀ d, c.Copies g.blockSize d → ses.InTable g.blockSize d →
      ses'.InTable g.blockSize d) :
    PcOk ses' g off es' c := by
  cases c with
  | out => trivial
  | entered v => exact ⟨hlen ▸ h.1, hpages _ h.2⟩
  | waiting v => exact ⟨hlen ▸ h.1, hpages _ h.2⟩
  | locked v => exact ⟨hlen ▸ h.1, hpages _ h.2⟩
  | copying v le ce =>
    obtain ⟨hp, hce, hkey, hle⟩ := h
    obtain ⟨l, rfl⟩ := hes
    exact ⟨hpages _ hp, hce.append, hkey, hle.imp_right fun hx => ⟨hx.1, htable _ rfl hx.2⟩⟩
  | leaving v => trivial

/-- **A step that maps nothing and leaves the table alone**; a thread may go on, if it does not come
to the end of a copy. -/
theorem Inv.of_pages (h : st.Inv g off es low) (hp : ses'.Paged g off es low)
    (hlen : ses'.s.fmmapLength = st.ses.s.fmmapLength) (hpages : ses'.pages = st.ses.pages)
    (hcow : ses'.cow.buckets = st.ses.cow.buckets) {t : ℕ} {c : CowPc}
    (hout : ∀ d, (st.pc t).Copies g.blockSize d → c.Copies g.blockSize d)
    (hc : PcOk st.ses g off es c)
    (hlocks : LocksApart g.blockSize (Function.update st.pc t c)) :
    (setPc { st with ses := ses' } t c).Inv g off es low := by
  have htable : ∀ d, st.ses.InTable g.blockSize d → ses'.InTable g.blockSize d := by
    intro d hd
    rw [Session.InTable, hcow]
    exact hd
  have hmono : ∀ c, PcOk st.ses g off es c → PcOk ses' g off es c := fun c hc =>
    hc.mono hlen (fun p hp => by rwa [hpages]) List.prefix_rfl fun d _ => htable d
  refine ⟨hp, h.nodup, ?_, ?_, fun p e hpe hw hmem => ?_, fun u => ?_, hlocks⟩
  · intro p p'
    change _ → ses'.pages p ≠ none → ses'.pages p' ≠ none
    rw [hpages]
    exact h.whole p p'
  · change ∀ p, ses'.pages p = none → _
    rw [hpages]
    exact h.missing
  · rcases h.guarded p e (hpages ▸ hpe) hw hmem with hin | ⟨u, hu⟩
    · exact Or.inl (htable _ hin)
    · refine Or.inr ⟨u, ?_⟩
      change (Function.update st.pc t c u).Copies _ _
      rcases eq_or_ne u t with rfl | hne
      · rw [Function.update_self]
        exact hout _ hu
      · rwa [Function.update_of_ne hne]
  · change PcOk ses' g off es (Function.update st.pc t c u)
    rcases eq_or_ne u t with rfl | hne
    · rw [Function.update_self]
      exact hmono c hc
    · rw [Function.update_of_ne hne]
      exact hmono _ (h.pc u)

/-- **A step on the pages, the entry and the table of one block**, by the thread that holds its lock
or with no thread at the block. -/
theorem Inv.of_block (h : st.Inv g off es low) (hp : ses'.Paged g off es' low)
    (hlen : ses'.s.fmmapLength = st.ses.s.fmmapLength) (hes : Grows b es es')
    (hother : ∀ p, p * pageSize / g.blockSize ≠ b → ses'.pages p = st.ses.pages p)
    (hmapped : ∀ p, p * pageSize / g.blockSize = b → ses'.pages p ≠ none)
    (htable : ∀ d, d ≠ b → st.ses.InTable g.blockSize d → ses'.InTable g.blockSize d) {t : ℕ}
    {c : CowPc}
    (hthreads : ∀ u, u ≠ t → ¬(st.pc u).Copies g.blockSize b)
    (hself : ∀ d, d ≠ b → (st.pc t).Copies g.blockSize d → c.Copies g.blockSize d)
    (hguarded : ∀ p e, p * pageSize / g.blockSize = b → ses'.pages p = some e → e.writable = false →
      ses'.InTable g.blockSize b ∨ c.Copies g.blockSize b)
    (hc : PcOk ses' g off es' c) (hlocks : LocksApart g.blockSize (Function.update st.pc t c)) :
    (setPc { st with ses := ses' } t c).Inv g off es' low := by
  have hcopies : ∀ u d, d ≠ b → (st.pc u).Copies g.blockSize d →
      (Function.update st.pc t c u).Copies g.blockSize d := by
    intro u d hd hu
    rcases eq_or_ne u t with rfl | hne
    · rw [Function.update_self]
      exact hself d hd hu
    · rwa [Function.update_of_ne hne]
  refine ⟨hp, hes.nodup h.nodup, fun p q hpq hpm => ?_, fun p hpn => ?_,
    fun p e hpe hw hin => ?_, fun u => ?_, hlocks⟩
  · change ses'.pages p ≠ none at hpm
    change ses'.pages q ≠ none
    rcases eq_or_ne (q * pageSize / g.blockSize) b with hb | hb
    · exact hmapped q hb
    · rw [hother p (by rwa [hpq])] at hpm
      rw [hother q hb]
      exact h.whole p q hpq hpm
  · change ses'.pages p = none at hpn
    rcases eq_or_ne (p * pageSize / g.blockSize) b with hb | hb
    · exact absurd hpn (hmapped p hb)
    · rw [hother p hb] at hpn
      exact fun hin => h.missing p hpn (hes.mem_of_ne hb hin)
  · change ses'.pages p = some e at hpe
    rcases eq_or_ne (p * pageSize / g.blockSize) b with hb | hb
    · rw [hb]
      refine (hguarded p e hb hpe hw).imp_right fun hcb => ⟨t, ?_⟩
      change (Function.update st.pc t c t).Copies _ _
      rwa [Function.update_self]
    · rw [hother p hb] at hpe
      rcases h.guarded p e hpe hw (hes.mem_of_ne hb hin) with hin' | ⟨u, hu⟩
      · exact Or.inl (htable _ hb hin')
      · exact Or.inr ⟨u, hcopies u _ hb hu⟩
  · change PcOk ses' g off es' (Function.update st.pc t c u)
    rcases eq_or_ne u t with rfl | hne
    · rwa [Function.update_self]
    rw [Function.update_of_ne hne]
    refine (h.pc u).mono hlen (fun p hpm => ?_) ?_ fun d hd => htable d ?_
    · rcases eq_or_ne (p * pageSize / g.blockSize) b with hb | hb
      · exact hmapped p hb
      · rwa [hother p hb]
    · rcases hes with rfl | ⟨-, rfl⟩
      · exact List.prefix_rfl
      · exact List.prefix_append _ _
    · rintro rfl
      exact hthreads u hne hd

/-- The threads that a thread with a lock shuts out. -/
theorem Inv.not_copies (h : st.Inv g off es low) {t u : ℕ} (hv : (st.pc t).holds = some v)
    (hne : u ≠ t) : ¬(st.pc u).Copies g.blockSize (v / g.blockSize) := by
  intro hu
  rcases hpc : st.pc u with _ | x | x | x | ⟨x, le, ce⟩ | x
  all_goals rw [hpc] at hu
  all_goals try exact hu
  refine hne (h.locks u t x v (by rw [hpc]; rfl) hv ?_)
  rw [lockNum, lockNum, show x / g.blockSize = v / g.blockSize from hu]

/-- The block of a fault is mapped. -/
theorem Inv.mapped (h : st.Inv g off es low) (hv : st.ses.pages (v / pageSize) ≠ none) (p : ℕ)
    (hp : p * pageSize / g.blockSize = v / g.blockSize) : st.ses.pages p ≠ none :=
  h.whole (v / pageSize) p ((div_page h.paged.page_dvd v).trans hp.symm) hv

/-! ### The steps -/

/-- **A block that gets an entry has none**: its page is protected, the block is not in the table,
and no other thread copies it. -/
theorem Inv.not_mem (h : st.Inv g off es low) {t : ℕ} (hpc : st.pc t = .locked v)
    (hneeds : st.ses.NeedsBlock v) {e : Pte Path} (hp : st.ses.pages (v / pageSize) = some e)
    (hw : e.writable = false) : v / g.blockSize ∉ es := by
  intro hmem
  have hguarded := h.guarded _ e hp hw
  rw [div_page h.paged.page_dvd] at hguarded
  rcases hguarded hmem with hin | ⟨u, hu⟩
  · exact (h.paged.toLayered.needsBlock_iff v).mp hneeds hin
  · rcases eq_or_ne u t with rfl | hne
    · rw [hpc] at hu
      exact hu
    · exact h.not_copies (by rw [hpc]; rfl) hne hu

/-- **`insert_list`** returns what to copy. -/
theorem Inv.insert (h : st.Inv g off es low) (hcfg : cfg.entrySize = 8) {t n n' : ℕ}
    {le : CowLEntry}
    {ce : CowEntry} {ops : List FileOp} (hpc : st.pc t = .locked v) (hfresh : st.Fresh (.insert v))
    (hr : st.ses.insertList cfg n n' (v / cowUnit * cowUnit) = .ok (ses', some (le, ce), ops)) :
    ∃ es', (setPc { st with ses := ses' } t (.copying v le ce)).Inv g off es' low := by
  have hunit : v / cowUnit * cowUnit / g.blockSize = v / g.blockSize := div_page h.paged.page_dvd v
  have hholds : (st.pc t).holds = some v := by
    rw [hpc]
    rfl
  have hknown := h.pc t
  rw [hpc] at hknown
  obtain ⟨hv, hp⟩ := hknown
  obtain ⟨es', hgrow, h', hce, hkey, -⟩ := h.paged.insertList hcfg
    (lt_of_le_of_lt (Nat.div_mul_le_self v cowUnit) hv) hr
  obtain ⟨htable, hle⟩ := h.paged.toLayered.insertList_table h.paged.page_dvd hr
  obtain ⟨hfixed, -, hpages, -⟩ := Session.insertList_range hr
  rw [hunit] at hgrow hkey
  have hes : Grows (v / g.blockSize) es es' := by
    refine hgrow.imp_right fun ⟨hneeds, hx⟩ => ⟨?_, hx⟩
    have hneeds' : st.ses.NeedsBlock v := by
      rw [h.paged.toLayered.needsBlock_iff] at hneeds ⊢
      rwa [hunit] at hneeds
    rcases hfresh with hlist | ⟨e, he, hw⟩ | hnot
    · rw [Session.insertList, if_pos hlist] at hr
      cases hr
    · exact h.not_mem hpc hneeds' he hw
    · exact absurd hneeds' hnot
  refine ⟨es', h.of_block h' hfixed.fmmapLength hes (fun p _ => by rw [hpages])
    (fun p hb => by rw [hpages]; exact h.mapped hp p hb) htable (fun u hu => h.not_copies hholds hu)
    (fun d _ hd => ?_) (fun _ _ _ _ _ => Or.inr rfl) ⟨by rwa [hpages], hce, hkey, hle⟩
    (h.locks.update _ fun x hx => Or.inl ?_)⟩
  · rw [hpc] at hd
    exact hd.elim
  · rw [hholds]
    exact hx

/-- **The copy.** If it is of one unit, the block stays in the table; otherwise all its pages are
writable afterwards. -/
theorem Inv.copy (h : st.Inv g off es low) (hcfg : cfg.entrySize = 8) {t n n' : ℕ} {le : CowLEntry}
    {ce : CowEntry} {ops : List FileOp} (hpc : st.pc t = .copying v le ce)
    (hr : st.ses.copyListed cfg n n' v le ce = .ok (ses', ops)) :
    (setPc { st with ses := ses' } t (.leaving v)).Inv g off es low := by
  have hu := h.paged.super.u64_blockSize
  have hholds : (st.pc t).holds = some v := by
    rw [hpc]
    rfl
  have hknown := h.pc t
  rw [hpc] at hknown
  obtain ⟨hp, hce, hkey, hle⟩ := hknown
  -- what the two branches have in common: a part of the block is mapped
  have hpart : ∀ {voff len o : ℕ}, ses'.Paged g off es low →
      ses'.s.fmmapLength = st.ses.s.fmmapLength →
      ses'.pages = st.ses.pages.mapRange voff len st.ses.s.fd o true →
      (∀ p, PageTable.InRange voff len p → p * pageSize / g.blockSize = v / g.blockSize) →
      (∀ d, st.ses.InTable g.blockSize d → ses'.InTable g.blockSize d) →
      (∀ p, p * pageSize / g.blockSize = v / g.blockSize → ¬PageTable.InRange voff len p →
        ses'.InTable g.blockSize (v / g.blockSize)) →
      (setPc { st with ses := ses' } t (.leaving v)).Inv g off es low := by
    intro voff len o h' hlen hpages hin htable hrest
    refine h.of_block h' hlen (Or.inl rfl) (fun p hb => ?_) (fun p hb => ?_) (fun d _ => htable d)
      (fun u hu => h.not_copies hholds hu) (fun d hd hcopies => ?_) (fun p e hb hpe hw => Or.inl ?_)
      trivial (h.locks.update _ fun x hx => Or.inl ?_)
    · rw [hpages, PageTable.mapRange_of_not_inRange fun hr => hb (hin p hr)]
    · rw [hpages, PageTable.mapRange]
      split_ifs
      · exact Option.some_ne_none _
      · exact h.mapped hp p hb
    · rw [hpc] at hcopies
      exact absurd hcopies.symm hd
    · refine hrest p hb fun hr => ?_
      rw [hpages, PageTable.mapRange_of_inRange hr] at hpe
      cases hpe
      cases hw
    · rw [hholds]
      exact hx
  rw [Session.copyListed, hu] at hr
  split_ifs at hr with hsize
  · rcases hle with rfl | ⟨rfl, hin⟩
    · exact absurd h.paged.super.blockSize.symm hsize
    have hcopies : st.ses.CopiesUnit cfg n n' ce (v / cowUnit * cowUnit)
        (v / g.blockSize * g.blockSize) ses' none := Or.inl ⟨hsize, rfl, ops, hr⟩
    rcases hcopies.cow with ⟨heq, -⟩ | ⟨-, -, hcow⟩
    · exact absurd heq hsize
    have hkeys : ∀ e, (CowEntry.moveOut (v / cowUnit * cowUnit - v / g.blockSize * g.blockSize)
        e).faultVoffAligned = e.faultVoffAligned := fun _ => rfl
    have htable : ∀ d, st.ses.InTable g.blockSize d → ses'.InTable g.blockSize d := fun d hd =>
      hd.modify hkeys hcow
    refine hpart (h.paged.copyUnit hcfg hce hkey hr) ?_ (hcopies.pages hsize)
      (fun p hr => ?_) htable
      fun _ _ _ => htable _ hin
    · rw [Session.copyUnit] at hr
      split_ifs at hr
      cases hr
      rfl
    · rw [PageTable.inRange_block (by decide), Nat.mul_div_cancel _ (by decide)] at hr
      rw [hr]
      exact div_page h.paged.page_dvd v
  · rw [Session.copyWhole_of_mapped (h.whole.firstMissing_eq_none h.paged hp)] at hr
    cases hr
    have hblock : ∀ p, PageTable.InRange (v / g.blockSize * g.blockSize) g.blockSize p ↔
        p * pageSize / g.blockSize = v / g.blockSize := fun p =>
      PageTable.inRange_block g.blockSize_pos
    refine hpart (h.paged.copyBlock hcfg hce hkey) rfl (by rw [← hu]; rfl)
      (fun p => (hblock p).mp) (fun d hd => hd) fun p hb hnot => absurd ((hblock p).mpr hb) hnot

/-- **`uf_monitor`** on a missing page, which no thread has faulted on. -/
theorem Inv.monitor (h : st.Inv g off es low) {n n' : ℕ} {ops : List FileOp}
    (hv : v < st.ses.s.fmmapLength) (hmiss : st.ses.pages (v / pageSize) = none)
    (hr : st.ses.ufMonitor cfg n n' v = .ok (ses', ops)) :
    ∃ es', ({ st with ses := ses' } : Writers).Inv g off es' low := by
  have hu := h.paged.super.u64_blockSize
  have hcow := Session.ufMonitor_cow hr
  have hfixed := (Session.ufMonitor_confined (by rw [hu]; exact h.paged.page_dvd)
    (by rw [hu]; exact g.blockSize_pos) hr).super
  rcases h.paged.ufMonitor hv hr with rfl | ⟨h', hpages⟩
  · exact ⟨es, h⟩
  have hblock : ∀ p, PageTable.InRange (v / g.blockSize * g.blockSize) g.blockSize p ↔
      p * pageSize / g.blockSize = v / g.blockSize :=
        fun p => PageTable.inRange_block g.blockSize_pos
  have hnot : v / g.blockSize ∉ es := by
    have := h.missing _ hmiss
    rwa [div_page h.paged.page_dvd] at this
  have hthreads : ∀ u, ¬(st.pc u).Copies g.blockSize (v / g.blockSize) := by
    intro u hu
    have hknown := h.pc u
    rcases hpc : st.pc u with _ | x | x | x | ⟨x, le, ce⟩ | x
    all_goals rw [hpc] at hu hknown
    all_goals try exact hu
    refine h.mapped hknown.1 (v / pageSize) ?_ hmiss
    rw [div_page h.paged.page_dvd]
    exact hu.symm
  have htable : ∀ d, st.ses.InTable g.blockSize d → ses'.InTable g.blockSize d := by
    intro d hd
    rw [Session.InTable, hcow]
    exact hd
  have hinv := h.of_block (t := 0) (c := st.pc 0) h' hfixed.fmmapLength (Or.inr ⟨hnot, rfl⟩)
    (fun p hb => by rw [hpages, PageTable.mapRange_of_not_inRange fun hr => hb ((hblock p).mp hr)])
    (fun p hb => by
      rw [hpages, PageTable.mapRange_of_inRange ((hblock p).mpr hb)]
      exact Option.some_ne_none _)
    (fun d _ => htable d) (fun u _ => hthreads u) (fun d _ hd => hd)
    (fun p e hb hpe hw => by
      rw [hpages, PageTable.mapRange_of_inRange ((hblock p).mpr hb)] at hpe
      cases hpe
      cases hw)
    ((h.pc 0).mono hfixed.fmmapLength (fun p hp => ?_) (List.prefix_append _ _) fun d _ => htable d)
    (by rw [Function.update_eq_self]; exact h.locks)
  · rw [setPc, Function.update_eq_self] at hinv
    exact ⟨_, hinv⟩
  · rw [hpages, PageTable.mapRange]
    split_ifs
    · exact Option.some_ne_none _
    · exact hp

/-- **Every step keeps the invariant**, where a thread that comes to `insert_list` and a page that
`uf_monitor` serves are fresh. -/
theorem Inv.step (h : st.Inv g off es low) (hcfg : cfg.entrySize = 8) (hfresh : st.Fresh op)
    (hstep : st.Step cfg op st') : ∃ es', st'.Inv g off es' low := by
  -- a thread goes on, and nothing else happens
  have hgo : ∀ {t : ℕ} (c : CowPc), (∀ d, ¬(st.pc t).Copies g.blockSize d) →
      PcOk st.ses g off es c →
      (∀ v, c.holds = some v → (st.pc t).holds = some v ∨ ∀ u x, (st.pc u).holds = some x →
        lockNum g.blockSize x ≠ lockNum g.blockSize v) →
          ∃ es', (st.setPc t c).Inv g off es' low := by
    intro t c hout hc hlock
    exact ⟨es, h.of_pages h.paged rfl rfl rfl (fun d hd => absurd hd (hout d)) hc
      (h.locks.update c hlock)⟩
  -- the threads stay where they are
  have hstay : ∀ {ses' : Session}, ses'.Paged g off es low →
      ses'.s.fmmapLength = st.ses.s.fmmapLength → ses'.pages = st.ses.pages →
      ses'.cow.buckets = st.ses.cow.buckets →
      ∃ es', ({ st with ses := ses' } : Writers).Inv g off es' low := by
    intro ses' h' hlen hpages hcow
    have hinv := h.of_pages h' hlen hpages hcow (t := 0) (c := st.pc 0) (fun d hd => hd) (h.pc 0)
      (by rw [Function.update_eq_self]; exact h.locks)
    rw [setPc, Function.update_eq_self] at hinv
    exact ⟨es, hinv⟩
  cases hstep with
  | fault hpc hv hp hw =>
    refine hgo _ (by rw [hpc]; exact fun d => id) ⟨hv, ?_⟩ fun v hv => nomatch hv
    rw [hp]
    exact Option.some_ne_none _
  | refused hpc _ => exact hgo _ (by rw [hpc]; exact fun d => id) trivial fun v hv => nomatch hv
  | inList hpc _ _ => exact hgo _ (by rw [hpc]; exact fun d => id) trivial fun v hv => nomatch hv
  | @notInList t v hpc _ _ =>
    have hknown := h.pc t
    rw [hpc] at hknown
    exact hgo _ (by rw [hpc]; exact fun d => id) hknown fun v hv => nomatch hv
  | @lock t v hpc hfree =>
    have hknown := h.pc t
    rw [hpc] at hknown
    refine hgo _ (by rw [hpc]; exact fun d => id) hknown ?_
    rintro x ⟨⟩
    rw [h.paged.super.u64_blockSize] at hfree
    exact Or.inr hfree
  | @insertNone t v n n' ses' ops hpc hr =>
    obtain ⟨rfl, -⟩ := Session.insertList_none hr
    refine hgo _ (by rw [hpc]; exact fun d => id) trivial ?_
    rintro x ⟨⟩
    rw [hpc]
    exact Or.inl rfl
  | insert hpc hr => exact h.insert hcfg hpc hfresh hr
  | copy hpc hr => exact ⟨es, h.copy hcfg hpc hr⟩
  | unlock hpc => exact hgo _ (by rw [hpc]; exact fun d => id) trivial fun v hv => nomatch hv
  | @missing v n n' ses' ops hv hr => exact h.monitor hv hfresh hr
  | write y hp hw hx => exact hstay (h.paged.poke hp hw hx y) rfl rfl rfl
  | tick hr =>
    obtain ⟨hs, -, hpages, hcow⟩ := Session.tick_ok hr
    exact hstay (h.paged.tick hr) hs.fmmapLength hpages (by rw [hcow])

/-- **So does every run.** -/
theorem Inv.run (h : st.Inv g off es low) (hcfg : cfg.entrySize = 8)
    (hrun : Relation.ReflTransGen (fun a b => ∃ op, a.Fresh op ∧ Step cfg a op b) st st') :
    ∃ es', st'.Inv g off es' low := by
  induction hrun with
  | refl => exact ⟨es, h⟩
  | tail _ hstep ih =>
    obtain ⟨es₁, h₁⟩ := ih
    obtain ⟨op, hfresh, hstep⟩ := hstep
    exact h₁.step hcfg hfresh hstep

/-! ### A call that nothing comes between -/

/-- Steps, of which those at `insert_list` are fresh if `P` holds. -/
def Steps (cfg : Config) (P : Prop) : Writers → Writers → Prop :=
  Relation.ReflTransGen fun a b => ∃ op, (P → a.Fresh op) ∧ Step cfg a op b

theorem setPc_setPc {t : ℕ} {c c' : CowPc} : (st.setPc t c).setPc t c' = st.setPc t c' := by
  rw [setPc, setPc, setPc]
  simp only [Function.update_idem]

theorem setPc_pc {t : ℕ} {c : CowPc} : (st.setPc t c).pc t = c := Function.update_self _ _ _

theorem setPc_pc_of_ne {t u : ℕ} {c : CowPc} (h : u ≠ t) : (st.setPc t c).pc u = st.pc u :=
  Function.update_of_ne h _ _

/-- From the fault to `insert_list`. -/
theorem steps_lock {P : Prop} {t : ℕ} (hpc : st.pc t = .entered v)
    (hle : v ≤ u64 (st.ses.globalLength - st.ses.s.blockSize))
    (hlist : ¬st.ses.cow.InList (v / cowUnit * cowUnit))
    (hfree : ∀ u x, (st.pc u).holds = some x →
      lockNum (u64 st.ses.s.blockSize) x ≠ lockNum (u64 st.ses.s.blockSize) v) :
    Steps cfg P st (st.setPc t (.locked v)) := by
  -- a thread that waits holds no lock
  have hfree' : ∀ u x, ((st.setPc t (.waiting v)).pc u).holds = some x →
      lockNum (u64 st.ses.s.blockSize) x ≠ lockNum (u64 st.ses.s.blockSize) v := by
    intro u x hx
    rcases eq_or_ne u t with rfl | hne
    · rw [setPc_pc] at hx
      cases hx
    · rw [setPc_pc_of_ne hne] at hx
      exact hfree u x hx
  have hwait : Step cfg st .other (st.setPc t (.waiting v)) := .notInList hpc hle hlist
  have hlock : Step cfg (st.setPc t (.waiting v)) .other (st.setPc t (.locked v)) := by
    have h : Step cfg (st.setPc t (.waiting v)) .other
        ((st.setPc t (.waiting v)).setPc t (.locked v)) :=
      .lock setPc_pc hfree'
    rwa [setPc_setPc] at h
  exact .head ⟨.other, fun _ => trivial, hwait⟩ (.single ⟨.other, fun _ => trivial, hlock⟩)

/-- From the fault to what `insert_list` returns. -/
theorem steps_insert {t n n' : ℕ} {le : CowLEntry} {ce : CowEntry} {ops : List FileOp}
    (hpc : st.pc t = .entered v) (hle : v ≤ u64 (st.ses.globalLength - st.ses.s.blockSize))
    (hlist : ¬st.ses.cow.InList (v / cowUnit * cowUnit))
    (hfree : ∀ u x, (st.pc u).holds = some x →
      lockNum (u64 st.ses.s.blockSize) x ≠ lockNum (u64 st.ses.s.blockSize) v)
    (hr : st.ses.insertList cfg n n' (v / cowUnit * cowUnit) = .ok (ses', some (le, ce), ops)) :
    Steps cfg (st.Fresh (.insert v)) st (setPc { st with ses := ses' } t (.copying v le ce)) := by
  have hinsert : Step cfg (st.setPc t (.locked v)) (.insert v)
      (setPc { st with ses := ses' } t (.copying v le ce)) := by
    have h : Step cfg (st.setPc t (.locked v)) (.insert v)
        ((setPc { st with ses := ses' } t (.locked v)).setPc t (.copying v le ce)) :=
      .insert setPc_pc hr
    rwa [setPc_setPc] at h
  exact (steps_lock hpc hle hlist hfree).tail ⟨.insert v, fun hfresh => hfresh, hinsert⟩

/-- From there to the end of the call. -/
theorem steps_copy {P : Prop} {t n n' : ℕ} {le : CowLEntry} {ce : CowEntry} {ops : List FileOp}
    (hpc : st.pc t = .copying v le ce) (hr : st.ses.copyListed cfg n n' v le ce = .ok (ses', ops)) :
    Steps cfg P st (setPc { st with ses := ses' } t .out) := by
  have hcopy : Step cfg st .other (setPc { st with ses := ses' } t (.leaving v)) := .copy hpc hr
  have hunlock : Step cfg (setPc { st with ses := ses' } t (.leaving v)) .other
      (setPc { st with ses := ses' } t .out) := by
    have h : Step cfg (setPc { st with ses := ses' } t (.leaving v)) .other
        ((setPc { st with ses := ses' } t (.leaving v)).setPc t .out) := .unlock setPc_pc
    rwa [setPc_setPc] at h
  exact .head ⟨.other, fun _ => trivial, hcopy⟩ (.single ⟨.other, fun _ => trivial, hunlock⟩)

/-- A call that is not turned away. -/
theorem steps_call {t n n' m m' : ℕ} {ses₁ : Session} {le : CowLEntry} {ce : CowEntry}
    {ops ops' : List FileOp}
    (hpc : st.pc t = .entered v) (hle : v ≤ u64 (st.ses.globalLength - st.ses.s.blockSize))
    (hlist : ¬st.ses.cow.InList (v / cowUnit * cowUnit))
    (hfree : ∀ u x, (st.pc u).holds = some x →
      lockNum (u64 st.ses.s.blockSize) x ≠ lockNum (u64 st.ses.s.blockSize) v)
    (hins : st.ses.insertList cfg n n' (v / cowUnit * cowUnit) = .ok (ses₁, some (le, ce), ops))
    (hcopy : ses₁.copyListed cfg m m' v le ce = .ok (ses', ops')) :
    Steps cfg (st.Fresh (.insert v)) st (setPc { st with ses := ses' } t .out) := by
  have htail : Steps cfg (st.Fresh (.insert v))
      (setPc { st with ses := ses₁ } t (.copying v le ce))
      (setPc { st with ses := ses' } t .out) := by
    have h : Steps cfg (st.Fresh (.insert v)) (setPc { st with ses := ses₁ } t (.copying v le ce))
        ((setPc { st with ses := ses' } t (.copying v le ce)).setPc t .out) :=
      steps_copy setPc_pc hcopy
    rwa [setPc_setPc] at h
  exact (steps_insert hpc hle hlist hfree hins).trans htail

/-- **A call that nothing comes between is that of `cow_handler`.** -/
theorem steps_cowHandler {t n n' : ℕ} {ops : List FileOp} (hfine : cfg.finegrainedCow = true)
    (hpc : st.pc t = .entered v)
    (hfree : ∀ u x, (st.pc u).holds = some x →
      lockNum (u64 st.ses.s.blockSize) x ≠ lockNum (u64 st.ses.s.blockSize) v)
    (hr : st.ses.cowHandler cfg n n' v = .ok (ses', ops)) :
    Steps cfg (st.Fresh (.insert v)) st (setPc { st with ses := ses' } t .out) := by
  by_cases hout : v > u64 (st.ses.globalLength - st.ses.s.blockSize)
  · rw [Session.cowHandler, if_pos hout] at hr
    cases hr
    exact .single ⟨.other, fun _ => trivial, .refused hpc hout⟩
  by_cases hlist : st.ses.cow.InList (v / cowUnit * cowUnit)
  · rw [Session.cowHandler, if_neg hout] at hr
    simp only [hfine, if_true, if_pos hlist] at hr
    cases hr
    exact .single ⟨.other, fun _ => trivial, .inList hpc (not_lt.mp hout) hlist⟩
  rcases Session.cowHandler_cases hr with ⟨-, -, hidle⟩ |
    ⟨-, -, -, ses₁, le, ce, ops₁, ops₂, hins, -, hcopy⟩ | ⟨-, hplain, -⟩
  · exact absurd hidle (not_or.mpr ⟨hout, hlist⟩)
  · have hbs := (Session.insertList_range hins).1.blockSize
    have hrest : ses₁.copyListed cfg n n' v le ce = .ok (ses', ops₂) := by
      rw [Session.copyListed, hbs]
      rw [hbs] at hcopy
      rcases hcopy with ⟨hne, hcopy⟩ | ⟨heq, hcopy⟩
      · rw [if_pos hne]
        exact hcopy
      · rw [if_neg (not_not.mpr heq)]
        exact hcopy
    exact steps_call hpc (not_lt.mp hout) hlist hfree hins hrest
  · rw [hfine] at hplain
    cases hplain

/-- A session just opened, with no thread in a call. -/
theorem inv_start {ses : Session} {fs : Fs} {fd : Path} {ls : List (List ℕ)} {length offset : ℕ}
    (h : IsChain g ((fs fd).getD .empty) 0 (ls ++ [es])) (hf : ((fs fd).getD .empty).size < 2 ^ 63)
    (hdvd : pageSize ∣ g.blockSize) (hnodup : es.Nodup)
    (hopen : Session.fmmap cfg fs fd length offset = .ok (some ses))
    (hwhole : ses.Whole g.blockSize) :
    ∃ low, (start ses).Inv g (g.chainEnd 0 ls) es low := by
  obtain ⟨low, hpaged⟩ := h.paged_of_fmmap hf hdvd hopen
  obtain ⟨-, x, -, rfl⟩ := h.fmmap_ok rfl hf hopen
  refine ⟨low, hpaged, hnodup, hwhole, fun p hp hmem => ?_, fun p e hp hw hmem => ?_,
    fun _ => trivial, ?_⟩
  · obtain ⟨e, he, -⟩ := @writable_chainSession _ _ fd _ es ls length x hmem
    rw [show (chainSession g fd ls es length x).pages p = none from hp] at he
    cases he
  · obtain ⟨e', he', hw'⟩ := @writable_chainSession _ _ fd _ es ls length x hmem
    rw [show (chainSession g fd ls es length x).pages p = some e from hp] at he'
    cases he'
    rw [hw] at hw'
    cases hw'
  · intro t u x y hx
    cases hx

/-- **A thread that is not fresh makes `insert_ht` append a second entry for its block.** -/
theorem Inv.stale (h : st.Inv g off es low) (hcfg : cfg.entrySize = 8) {t n n' : ℕ} {le : CowLEntry}
    {ce : CowEntry} {ops : List FileOp} (hpc : st.pc t = .locked v) (hstale : ¬st.Fresh (.insert v))
    (hr : st.ses.insertList cfg n n' (v / cowUnit * cowUnit) = .ok (ses', some (le, ce), ops)) :
    v / g.blockSize ∈ es ∧ IsLayer g ses'.file off (es ++ [v / g.blockSize]) := by
  have hunit : v / cowUnit * cowUnit / g.blockSize = v / g.blockSize := div_page h.paged.page_dvd v
  obtain ⟨-, hprot, hneeds⟩ := not_or.mp hstale |>.imp_right not_or.mp
  have hknown := h.pc t
  rw [hpc] at hknown
  obtain ⟨hv, hp⟩ := hknown
  constructor
  · -- the page was made writable, as a part of the data block of an entry
    obtain ⟨e, he⟩ := Option.ne_none_iff_exists'.mp hp
    have hw : e.writable = true := by
      by_contra hw
      exact hprot ⟨e, he, Bool.not_eq_true _ ▸ hw⟩
    obtain ⟨-, i, hi, -⟩ := h.paged.writable he hw
    rw [div_page h.paged.page_dvd] at hi
    exact List.mem_of_getElem? hi
  · rw [not_not, h.paged.toLayered.needsBlock_iff, ← hunit,
      ← h.paged.toLayered.needsBlock_iff (v / cowUnit * cowUnit)] at hneeds
    rcases Session.insertList_cases hr with
      ⟨full, rest, hsearch, -⟩ | ⟨-, -, ses₁, hins, rfl⟩
    · rw [Session.NeedsBlock, hsearch] at hneeds
      cases hneeds
    · rw [h.paged.super.u64_blockSize] at hins
      have h' := (h.paged.insertHt hcfg (lt_of_le_of_lt (Nat.div_mul_le_self v cowUnit) hv) hins).1
      rw [hunit] at h'
      exact h'.layer

end Writers

/-- **No block gets two entries**, in every order of the steps of any number of threads in
`cow_handler`, of `uf_monitor`, of the allocator thread and of stores of the guest, if `fmmap` has
mapped all pages of a block or none, a thread comes to `insert_list` only where its unit is in its
list, its page is still protected or its block is in the table, and `uf_monitor` serves pages only
that are still missing. -/
theorem one_entry {g : Geometry .shipped} {fs : Fs} {fd : Path} {ls : List (List ℕ)}
    {length offset : ℕ} {ses : Session} {st : Writers}
    (h : IsChain g ((fs fd).getD .empty) 0 (ls ++ [es])) (hf : ((fs fd).getD .empty).size < 2 ^ 63)
    (hdvd : cowUnit ∣ g.blockSize) (hnodup : es.Nodup)
    (hopen : Session.fmmap .shipped fs fd length offset = .ok (some ses))
    (hwhole : ses.Whole g.blockSize)
    (hrun : Relation.ReflTransGen (fun a b => ∃ op, a.Fresh op ∧ Writers.Step .shipped a op b)
      (.start ses) st) :
    ∃ es', IsLayer g st.ses.file (g.chainEnd 0 ls) es' ∧ es'.Nodup := by
  obtain ⟨low, hstart⟩ := Writers.inv_start h hf hdvd hnodup hopen hwhole
  obtain ⟨es', h'⟩ := hstart.run rfl hrun
  exact ⟨es', h'.paged.layer, h'.nodup⟩

/-! ### Three threads at a block of three units -/

/-- `insert_ht` returns while the first segment has room and the allocator thread runs. -/
theorem Session.Layered.exists_insertHt {ses : Session} (h : ses.Layered g off es)
    (hfirst : es.length < g.perSeg) (hcap : es.length + 5 ≤ g.cap)
    (hend : g.blockAt off (g.blocks es.length + maxPreNum) < 2 ^ 63)
    (hrunning : ses.ring.running = true) (key : ℕ) : ∃ ses' ce ops,
      ses.insertHt cfg 0 0 key = .ok (ses', ce, ops) ∧ ses'.ring.running = true := by
  have hneed := g.need_le es.length
  obtain ⟨⟨s', r', nb, ops₁⟩, hnb⟩ :
      ∃ x, Pcow.newBlock cfg ses.file ses.s ses.ring 0 0 key = .ok x :=
    h.layer.exists_newBlock h.size_lt h.super h.ring (by omega) hend
      fun _ => Or.inr ⟨hrunning, by omega⟩
  have h' := (h.newBlock hnb).1
  have hrunning' : r'.running = true := by
    rw [(newBlock_sameFixed hnb).2 ?_]
    · exact hrunning
    · rw [h.super.toAllocNum, h.super.maxBlockNum]
      rw [Geometry.cap] at hcap
      omega
  have hseg : g.lastSeg (es ++ [g.blockOf key]).length = 0 := by
    rw [Geometry.lastSeg, List.length_append, List.length_singleton, Nat.add_sub_cancel]
    exact Nat.div_eq_of_lt hfirst
  obtain ⟨⟨ses', ce, ops₂⟩, hlink⟩ := exists_linkEntry h'.layer h'.size_lt h'.super nb key
    (by rw [hseg]; simp)
  obtain ⟨m, -, -, hses', -⟩ := linkEntry_ok hlink
  refine ⟨ses', ce, ops₁ ++ ops₂, ?_, ?_⟩
  · rw [insertHt, hnb]
    simp only [hlink]
    rfl
  · rw [hses']
    exact hrunning'

section ThreeUnits

variable {ses : Session}

/-- The first copy of a unit of the first block. -/
theorem Session.exists_firstUnit {g : Geometry .shipped} (h : ses.Layered g off [])
    (hbs : g.blockSize = 12288) (hcap : 5 ≤ g.cap)
    (hend : g.blockAt off (g.blocks 0 + maxPreNum) < 2 ^ 63) (hcow : ses.cow = initFgcow)
    (hrunning : ses.ring.running = true) : ∃ ses₁ ses₂ le ce ops ops',
      ses.insertList .shipped 0 0 0 = .ok (ses₁, some (le, ce), ops) ∧
      ses₁.copyListed .shipped 0 0 0 le ce = .ok (ses₂, ops') ∧ ses₂.s.toAllocNum = 2 ∧
      ses.s.SameFixed ses₂.s ∧ ses₂.ring.running = true ∧ ses₂.globalLength = ses.globalLength ∧
      (∃ e, ses₂.cow.buckets 0 = [e] ∧ e.faultVoffAligned = 0) ∧
      ∀ i, i ≠ 0 → (ses₂.cow.cowL i).entries = [] := by
  have hu : u64 ses.s.blockSize = 12288 := by rw [h.super.u64_blockSize, hbs]
  obtain ⟨ses₁, ce, ops, hins, hrun₁⟩ :=
    h.exists_insertHt g.perSeg_pos hcap hend hrunning (0 * g.blockSize)
  obtain ⟨hcow₁, hkey, hnil, -⟩ := h.insertHt_cow hins
  obtain ⟨hfixed, hglob, -⟩ := insertHt_sameFixed hins
  have hsuper : ses₁.s.toAllocNum = 2 := by
    obtain ⟨s', r', nb, ops₁, ops₂, hnb, hlink, -⟩ := insertHt_ok hins
    obtain ⟨m, -, -, hses₁, -⟩ := linkEntry_ok hlink
    rw [hses₁]
    exact (h.newBlock hnb).1.super.toAllocNum
  rw [Nat.zero_mul] at hins hkey
  have hlist : ses.insertList .shipped 0 0 0 = .ok ({ ses₁ with
      cow := ses₁.cow.pushList 0 ⟨0, cowUnit⟩ }, some (⟨0, cowUnit⟩, ce), ops) := by
    rw [insertList_new (by rw [hcow]; decide) (by rw [hcow]; rfl), Nat.zero_div, Nat.zero_mul, hins]
    rfl
  obtain ⟨ses₂, ops', hcopy, hs₂, hring₂, hglob₂, hcow₂⟩ := exists_copyUnit .shipped
    { ses₁ with cow := ses₁.cow.pushList 0 ⟨0, cowUnit⟩ } ⟨0, cowUnit⟩ 0 hnil
  have hu₁ : u64 ses₁.s.blockSize = 12288 := by rw [hfixed.blockSize, hu]
  have hz₁ : ses₁.s.blockSize = (12288 : ℕ) := by rw [hfixed.blockSize, h.super.blockSize, hbs]
  have hlink : ses₁.cow.buckets 0 = [ce] := by
    rw [hcow₁, hcow]
    rfl
  refine ⟨_, ses₂, _, ce, ops, ops', hlist, ?_, ?_, ?_, ?_, ?_,
    ⟨CowEntry.moveOut (0 - 0) ce, ?_, hkey⟩,
    fun i hi => ?_⟩
  · rw [copyListed, Nat.zero_div, Nat.zero_mul, if_pos]
    · exact hcopy
    · change ((cowUnit : ℕ) : ℤ) ≠ ses₁.s.blockSize
      rw [hz₁]
      decide
  · rw [hs₂]
    exact hsuper
  · rw [hs₂]
    exact hfixed
  · rw [hring₂]
    exact hrun₁
  · rw [hglob₂]
    exact hglob
  · have hbucket : bucketNumber (u64 ses₁.s.blockSize) 0 = 0 := by
      rw [bucketNumber, Nat.zero_div, Nat.zero_mod]
    rw [hcow₂, CowTables.modify, hbucket]
    change Function.update ses₁.cow.buckets 0 _ 0 = _
    rw [Function.update_self]
    change (ses₁.cow.buckets 0).map _ = _
    rw [hlink, List.map_singleton, if_pos hkey]
  · rw [hcow₂]
    change (Function.update ses₁.cow.cowL 0 _ i).entries = []
    rw [Function.update_of_ne hi, hcow₁, hcow]
    rfl

/-- A fault on the second unit, when the block is the first of its chain: the whole block is
copied. -/
theorem Session.exists_wholeBlock {e : CowEntry} (hbs : ses.s.blockSize = (12288 : ℕ))
    (hmapped : ses.firstMissing 0 = none) (he : ses.cow.buckets 0 = [e])
    (hkey : e.faultVoffAligned = 0) (hlist : (ses.cow.cowL 1).entries = []) :
    ∃ ses₁ ses₂ le ce ops ops',
      ses.insertList .shipped 0 0 4096 = .ok (ses₁, some (le, ce), ops) ∧
      ses₁.copyListed .shipped 0 0 4096 le ce = .ok (ses₂, ops') ∧ ses₂.s = ses.s ∧
      ses₂.ring = ses.ring ∧ ses₂.globalLength = ses.globalLength ∧ ses₂.cow.buckets 0 = [] ∧
      ses₂.cow.cowL 2 = ses.cow.cowL 2 ∧ ∃ e, ses₂.pages 2 = some e ∧ e.writable = true := by
  have hu : u64 ses.s.blockSize = 12288 := by
    rw [hbs]
    decide
  have hsearch : searchHt (4096 / u64 ses.s.blockSize * u64 ses.s.blockSize) 0
      (ses.cow.buckets (bucketNumber (u64 ses.s.blockSize) 4096)) =
        some ({ e with copiedCounter := -1 }, true, []) := by
    rw [hu]
    change searchHt 0 0 (ses.cow.buckets 0) = _
    rw [he, searchHt, if_pos hkey, if_pos (by decide)]
  have hnot : ¬ses.cow.InList 4096 := by
    rintro ⟨x, hx, -⟩
    change x ∈ (ses.cow.cowL 1).entries at hx
    rw [hlist] at hx
    cases hx
  have hbucket : bucketNumber (u64 ses.s.blockSize) 4096 = 0 := by
    rw [hu]
    rfl
  obtain ⟨le, hle⟩ : ∃ le : CowLEntry, le = ⟨4096 / u64 ses.s.blockSize * u64 ses.s.blockSize,
    ses.s.blockSize⟩ := ⟨_, rfl⟩
  obtain ⟨ses₁, hses₁⟩ : ∃ x : Session, x = { ses with cow :=
    (ses.cow.setBucket (bucketNumber (u64 ses.s.blockSize) 4096) []).pushList 4096 le } := ⟨_, rfl⟩
  have hins : ses.insertList .shipped 0 0 4096 =
      .ok (ses₁, some (le, { e with copiedCounter := -1 }), []) := by
    rw [hses₁]
    exact insertList_old hnot hsearch hle
  obtain ⟨x, hx⟩ : ∃ x, x = ses₁.copyBlock .shipped { e with copiedCounter := -1 }
    (4096 / u64 ses₁.s.blockSize * u64 ses₁.s.blockSize) := ⟨_, rfl⟩
  refine ⟨ses₁, x.1, le, _, _, x.2, hins, ?_, ?_, ?_, ?_, ?_, ?_, ?_⟩
  · have haligned : 4096 / u64 ses₁.s.blockSize * u64 ses₁.s.blockSize = 0 := by
      rw [hses₁, hu]
    have hfull : ses₁.firstMissing (4096 / u64 ses₁.s.blockSize * u64 ses₁.s.blockSize) = none := by
      rw [haligned, hses₁]
      exact hmapped
    rw [copyListed, if_neg, copyWhole_of_mapped hfull, hx]
    rw [hses₁, hle]
    exact not_not.mpr rfl
  all_goals rw [hx, hses₁]
  · rfl
  · rfl
  · rfl
  · change Function.update ses.cow.buckets (bucketNumber (u64 ses.s.blockSize) 4096) [] 0 = []
    rw [hbucket, Function.update_self]
  · change ((ses.cow.setBucket (bucketNumber (u64 ses.s.blockSize) 4096) []).pushList 4096
      le).cowL 2 = _
    rw [CowTables.cowL_pushList_of_ne (by decide)]
    rfl
  · refine ⟨_, PageTable.mapRange_of_inRange ?_, rfl⟩
    rw [hu]
    decide

end ThreeUnits

theorem Writers.Steps.fresh {st st' : Writers} {P : Prop} (h : Writers.Steps cfg P st st')
    (hP : P) :
    Relation.ReflTransGen (fun a b => ∃ op, a.Fresh op ∧ Writers.Step cfg a op b) st st' :=
  Relation.ReflTransGen.mono (fun _ _ ⟨op, hfresh, hstep⟩ => ⟨op, hfresh hP, hstep⟩) _ _ h

/-- A thread that goes on without a lock, where no thread has one. -/
theorem Writers.holds_setPc {st : Writers} {t : ℕ} {c : CowPc} (h : ∀ u, (st.pc u).holds = none)
    (hc : c.holds = none) (u : ℕ) : ((st.setPc t c).pc u).holds = none := by
  rcases eq_or_ne u t with rfl | hne
  · rw [setPc_pc, hc]
  · rw [setPc_pc_of_ne hne, h u]

/-- A thread faults. -/
theorem Writers.steps_fault {st : Writers} {P : Prop} {t : ℕ} {e : Pte Path} (hpc : st.pc t = .out)
    (hv : v < st.ses.s.fmmapLength) (hp : st.ses.pages (v / pageSize) = some e)
    (hw : e.writable = false) : Writers.Steps cfg P st (st.setPc t (.entered v)) :=
  .single ⟨.other, fun _ => trivial, .fault hpc hv hp hw⟩

/-- Three threads fault on the three units of a block. -/
theorem Writers.exists_threeFaults {ses : Session} (hlen : 12288 ≤ ses.s.fmmapLength)
    (hprot : ∀ v < 12288, ∃ e, ses.pages (v / pageSize) = some e ∧ e.writable = false) :
    ∃ st, Writers.Steps .shipped True (.start ses) st ∧ st.ses = ses ∧
      (∀ u, (st.pc u).holds = none) ∧ st.pc 0 = .entered 0 ∧ st.pc 1 = .entered 4096 ∧
      st.pc 2 = .entered 8192 := by
  obtain ⟨st, hst⟩ : ∃ st, st = (((Writers.start ses).setPc 0 (.entered 0)).setPc 1
    (.entered 4096)).setPc 2 (.entered 8192) := ⟨_, rfl⟩
  obtain ⟨e₀, hp₀, hw₀⟩ := hprot 0 (by decide)
  obtain ⟨e₁, hp₁, hw₁⟩ := hprot 4096 (by decide)
  obtain ⟨e₂, hp₂, hw₂⟩ := hprot 8192 (by decide)
  have hlt : ∀ v < 12288, v < ses.s.fmmapLength := fun v hv => by omega
  have h₀ : Writers.Steps .shipped True (.start ses) ((Writers.start ses).setPc 0 (.entered 0)) :=
    Writers.steps_fault rfl (hlt 0 (by decide)) hp₀ hw₀
  have h₁ : Writers.Steps .shipped True ((Writers.start ses).setPc 0 (.entered 0))
      (((Writers.start ses).setPc 0 (.entered 0)).setPc 1 (.entered 4096)) :=
    Writers.steps_fault (Writers.setPc_pc_of_ne Nat.one_ne_zero) (hlt 4096 (by decide)) hp₁ hw₁
  have h₂ : Writers.Steps .shipped True (((Writers.start ses).setPc 0 (.entered 0)).setPc 1
      (.entered 4096)) st := by
    rw [hst]
    exact Writers.steps_fault ((Writers.setPc_pc_of_ne (by decide)).trans
      (Writers.setPc_pc_of_ne (by decide))) (hlt 8192 (by decide)) hp₂ hw₂
  refine ⟨st, (h₀.trans h₁).trans h₂, ?_, ?_, ?_, ?_, ?_⟩
  all_goals rw [hst]
  · rfl
  · exact Writers.holds_setPc (Writers.holds_setPc (Writers.holds_setPc (fun _ => rfl) rfl) rfl) rfl
  · rw [Writers.setPc_pc_of_ne (by decide), Writers.setPc_pc_of_ne (by decide), Writers.setPc_pc]
  · rw [Writers.setPc_pc_of_ne (by decide), Writers.setPc_pc]
  · rw [Writers.setPc_pc]

/-- The first of them copies its unit. -/
theorem Writers.exists_firstCall {g : Geometry .shipped} {st : Writers}
    (h : st.ses.Layered g off [])
    (hbs : g.blockSize = 12288) (hcap : 5 ≤ g.cap)
    (hend : g.blockAt off (g.blocks 0 + maxPreNum) < 2 ^ 63) (hcow : st.ses.cow = initFgcow)
    (hrunning : st.ses.ring.running = true) (hpc : st.pc 0 = .entered 0)
    (hprot : ∃ e, st.ses.pages 0 = some e ∧ e.writable = false)
    (hfree : ∀ u, (st.pc u).holds = none) : ∃ ses₂,
      Relation.ReflTransGen (fun a b => ∃ op, a.Fresh op ∧ Writers.Step .shipped a op b) st
        (setPc { st with ses := ses₂ } 0 .out) ∧ ses₂.s.toAllocNum = 2 ∧ st.ses.s.SameFixed ses₂.s ∧
      ses₂.ring.running = true ∧ ses₂.globalLength = st.ses.globalLength ∧
      (∃ e, ses₂.cow.buckets 0 = [e] ∧ e.faultVoffAligned = 0) ∧
      ∀ i, i ≠ 0 → (ses₂.cow.cowL i).entries = [] := by
  obtain ⟨ses₁, ses₂, le, ce, ops, ops', hins, hcopy, hrest⟩ :=
    Session.exists_firstUnit h hbs hcap hend hcow hrunning
  have hcall : Writers.Steps .shipped (st.Fresh (.insert 0)) st
      (setPc { st with ses := ses₂ } 0 .out) := by
    refine steps_call hpc (Nat.zero_le _) ?_ (fun u x hx => ?_) hins hcopy
    · rw [hcow]
      decide
    · rw [hfree u] at hx
      cases hx
  exact ⟨ses₂, hcall.fresh (Or.inr (Or.inl hprot)), hrest⟩

/-- The second one copies the block, which is in the table. -/
theorem Writers.exists_secondCall {st : Writers} {e : CowEntry}
    (hbs : st.ses.s.blockSize = (12288 : ℕ)) (hmapped : st.ses.firstMissing 0 = none)
    (he : st.ses.cow.buckets 0 = [e]) (hkey : e.faultVoffAligned = 0)
    (hlist : (st.ses.cow.cowL 1).entries = [])
    (hle : 4096 ≤ u64 (st.ses.globalLength - st.ses.s.blockSize)) (hpc : st.pc 1 = .entered 4096)
    (hfree : ∀ u, (st.pc u).holds = none) : ∃ ses₂,
      Relation.ReflTransGen (fun a b => ∃ op, a.Fresh op ∧ Writers.Step .shipped a op b) st
        (setPc { st with ses := ses₂ } 1 .out) ∧ ses₂.s = st.ses.s ∧
      ses₂.ring = st.ses.ring ∧ ses₂.globalLength = st.ses.globalLength ∧ ses₂.cow.buckets 0 = [] ∧
      ses₂.cow.cowL 2 = st.ses.cow.cowL 2 ∧ ∃ e, ses₂.pages 2 = some e ∧ e.writable = true := by
  obtain ⟨ses₁, ses₂, le, ce, ops, ops', hins, hcopy, hrest⟩ :=
    Session.exists_wholeBlock hbs hmapped he hkey hlist
  have hcall : Writers.Steps .shipped (st.Fresh (.insert 4096)) st
      (setPc { st with ses := ses₂ } 1 .out) := by
    refine steps_call hpc hle ?_ (fun u x hx => ?_) hins hcopy
    · rintro ⟨x, hx, -⟩
      change x ∈ (st.ses.cow.cowL 1).entries at hx
      rw [hlist] at hx
      cases hx
    · rw [hfree u] at hx
      cases hx
  have hfresh : st.Fresh (.insert 4096) := by
    refine Or.inr (Or.inr fun hneeds => ?_)
    rw [Session.NeedsBlock, hbs] at hneeds
    change searchHt 0 0 (st.ses.cow.buckets 0) = none at hneeds
    rw [he] at hneeds
    exact searchHt_eq_none.mp hneeds e (List.mem_singleton_self _) hkey
  exact ⟨ses₂, hcall.fresh hfresh, hrest⟩

/-- **Three threads fault on the three units of a block, and two of the calls come to their end.**
The first has copied one unit, the second the whole block; the third thread is at the start of its
call. -/
theorem exists_twoCalls : ∃ (f : ByteFile) (ses : Session) (st : Writers),
    IsImage (Geometry.threePages .shipped) f [[0]] [] ∧
      Session.fmmap .shipped (fun _ => some f) [1] (12288 * 2) 0 = .ok (some ses) ∧
      ses.Whole (Geometry.threePages .shipped).blockSize ∧
      Relation.ReflTransGen (fun a b => ∃ op, a.Fresh op ∧ Writers.Step .shipped a op b)
        (.start ses) st ∧ st.pc 2 = .entered 8192 ∧ (∀ u, (st.pc u).holds = none) ∧
      u64 (st.ses.globalLength - st.ses.s.blockSize) = 12288 ∧ ¬st.ses.cow.InList 8192 ∧
      st.ses.cow.buckets 0 = [] ∧ (∃ e, st.ses.pages 2 = some e ∧ e.writable = true) ∧
      st.ses.ring.running = true ∧ st.ses.s.toAllocNum = 2 := by
  obtain ⟨f, ses, himage, hname, hopen, hopened, -, hlen, hglob⟩ :=
    exists_frozen (Geometry.threePages .shipped) (by decide) (by decide) (by decide)
  have hdvd : pageSize ∣ (Geometry.threePages .shipped).blockSize := by decide
  have hbs : (Geometry.threePages .shipped).blockSize = 12288 := rfl
  have hcap : (Geometry.threePages .shipped).cap = 2000 := rfl
  have hend : (Geometry.threePages .shipped).blockAt
    ((Geometry.threePages .shipped).chainEnd 0 [[0]])
      ((Geometry.threePages .shipped).blocks 0 + maxPreNum) < 2 ^ 63 := by decide
  generalize Geometry.threePages .shipped = g at *
  have hbase : HasBase (fun _ => some f) (baseImageName f 0) g [] :=
    Or.inl ⟨baseImageName_eq_nil hname, rfl⟩
  have hwhole : ses.Whole g.blockSize :=
    @IsChain.whole_of_fmmap _ _ _ (fun _ => some f) [1] _ _ _ _ _ _
    himage.isChain himage.size_lt hbase (dvd_refl _) hopen
  obtain ⟨low, hinv⟩ := @Writers.inv_start _ _ _ ses (fun _ => some f) [1] _ _ _ himage.isChain
    himage.size_lt hdvd List.nodup_nil hopen hwhole
  have hz : ses.s.blockSize = (12288 : ℕ) := by rw [hopened.super.blockSize, hbs]
  rw [hbs] at hglob hlen
  have hprot : ∀ v < 12288, ∃ e, ses.pages (v / pageSize) = some e ∧ e.writable = false := by
    intro v hv
    have hv0 : v / g.blockSize = 0 := Nat.div_eq_of_lt (by rwa [hbs])
    exact hopened.protected hdvd (List.mem_singleton_self _)
      (by rw [hv0]; exact List.mem_singleton_self _) List.not_mem_nil
  obtain ⟨st, hfaults, hses, hfree, hpc₀, hpc₁, hpc₂⟩ := Writers.exists_threeFaults (by omega) hprot
  obtain ⟨ses₂, hfirst, hnum, hfixed, hrun₂, hglob₂, ⟨e, he, hkey⟩, hlists⟩ :=
    @Writers.exists_firstCall _ g st (by rw [hses]; exact hinv.paged.toLayered) hbs (by omega) hend
      (by rw [hses]; exact hopened.cow) (by rw [hses, hopened.ring]; rfl) hpc₀
      (by rw [hses]; exact hprot 0 (by decide)) hfree
  rw [hses] at hfixed hglob₂
  have hrun := (hfaults.fresh trivial).trans hfirst
  -- the block is mapped as a whole before the second call
  obtain ⟨es, h₂⟩ := hinv.run rfl hrun
  have hz₂ : ses₂.s.blockSize = (12288 : ℕ) := by rw [hfixed.blockSize, hz]
  have hpc₁' : (Writers.setPc { st with ses := ses₂ } 0 .out).pc 1 = .entered 4096 := by
    rw [Writers.setPc_pc_of_ne (by decide)]
    exact hpc₁
  have hfull : ses₂.firstMissing 0 = none := by
    have hknown := h₂.pc 1
    rw [hpc₁'] at hknown
    have hmapped := h₂.whole.firstMissing_eq_none h₂.paged hknown.2
    rwa [show 4096 / g.blockSize * g.blockSize = 0 by rw [hbs]] at hmapped
  obtain ⟨ses₄, hsecond, hs₄, hring₄, hglob₄, hbucket, hlist₄, hpage⟩ :=
    @Writers.exists_secondCall (Writers.setPc { st with ses := ses₂ } 0 .out) e hz₂ hfull he hkey
      (hlists 1 Nat.one_ne_zero) (by
        change 4096 ≤ u64 (ses₂.globalLength - ses₂.s.blockSize)
        rw [hglob₂, hz₂]
        exact le_of_le_of_eq (by decide) hglob.symm) hpc₁'
          (Writers.holds_setPc (fun u => hfree u) rfl)
  refine ⟨f, ses, _, himage, by rw [← hbs]; exact hopen, hwhole, hrun.trans hsecond, ?_, ?_, ?_, ?_,
    hbucket, hpage, ?_, ?_⟩
  · rw [Writers.setPc_pc_of_ne (show 2 ≠ 1 by decide)]
    change (Writers.setPc { st with ses := ses₂ } 0 .out).pc 2 = _
    rw [Writers.setPc_pc_of_ne (by decide)]
    exact hpc₂
  · exact Writers.holds_setPc (fun u => Writers.holds_setPc (fun u => hfree u) rfl u) rfl
  · change u64 (ses₄.globalLength - ses₄.s.blockSize) = 12288
    rw [hglob₄, hs₄]
    change u64 (ses₂.globalLength - ses₂.s.blockSize) = 12288
    rw [hglob₂, hz₂]
    exact hglob
  · rintro ⟨x, hx, -⟩
    change x ∈ (ses₄.cow.cowL 2).entries at hx
    rw [hlist₄] at hx
    change x ∈ (ses₂.cow.cowL 2).entries at hx
    rw [hlists 2 (by decide)] at hx
    cases hx
  · change ses₄.ring.running = true
    rw [hring₄]
    exact hrun₂
  · change ses₄.s.toAllocNum = 2
    rw [hs₄]
    exact hnum

/-- Two threads that come to `insert_list` for the same block, one of them when the block is in the
table. -/
theorem one_entry_table : ∃ (fs : Fs) (ses : Session) (st : Writers) (es' : List ℕ),
    IsImage (Geometry.threePages .shipped) ((fs [1]).getD .empty) [[0]] [] ∧
      Session.fmmap .shipped fs [1] (12288 * 2) 0 = .ok (some ses) ∧
      Relation.ReflTransGen (fun a b => ∃ op, a.Fresh op ∧ Writers.Step .shipped a op b)
        (.start ses) st ∧ st.ses.s.toAllocNum = 2 ∧
      IsLayer (Geometry.threePages .shipped) st.ses.file
        ((Geometry.threePages .shipped).chainEnd 0 [[0]]) es' ∧ es'.Nodup := by
  obtain ⟨f, ses, st, himage, hopen, hwhole, hrun, -, -, -, -, -, -, -, hnum⟩ := exists_twoCalls
  obtain ⟨es', hlayer, hnodup⟩ :=
    @one_entry [] (.threePages .shipped) (fun _ => some f)
      [1] _ _ _ _ _ himage.isChain himage.size_lt
      (by decide) List.nodup_nil hopen hwhole hrun
  exact ⟨fun _ => some f, ses, st, es', himage, hopen, hrun, hnum, hlayer, hnodup⟩

/-- **A block gets two entries.** Three threads fault on the three units of a block of the frozen
layer. The first copies its unit; the second copies the whole block, which leaves the table, and is
recorded in the list of the second unit. The third finds its unit in no list and the block not in
the table. -/
theorem stale_fault_appends : ∃ (fs : Fs) (ses : Session) (st : Writers),
    IsImage (Geometry.threePages .shipped) ((fs [1]).getD .empty) [[0]] [] ∧
      Session.fmmap .shipped fs [1] (12288 * 2) 0 = .ok (some ses) ∧
      Relation.ReflTransGen (fun a b => ∃ op, Writers.Step .shipped a op b) (.start ses) st ∧
      IsLayer (Geometry.threePages .shipped) st.ses.file
        ((Geometry.threePages .shipped).chainEnd 0 [[0]]) [0, 0] := by
  obtain ⟨f, ses, st, himage, hopen, hwhole, hrun, hpc, hfree, hglob, hlist, hbucket, ⟨e, hp, hw⟩,
    hrunning, hnum⟩ := exists_twoCalls
  have hdvd : pageSize ∣ (Geometry.threePages .shipped).blockSize := by decide
  have hbs : (Geometry.threePages .shipped).blockSize = 12288 := rfl
  have hcap : (Geometry.threePages .shipped).cap = 2000 := rfl
  have hper : (Geometry.threePages .shipped).perSeg = 1528 := by decide
  have hend : (Geometry.threePages .shipped).blockAt
    ((Geometry.threePages .shipped).chainEnd 0 [[0]])
      ((Geometry.threePages .shipped).blocks 1 + maxPreNum) < 2 ^ 63 := by decide
  generalize Geometry.threePages .shipped = g at *
  -- the third thread comes to `insert_list`
  obtain ⟨st', hst'⟩ : ∃ x, x = st.setPc 2 (.locked 8192) := ⟨_, rfl⟩
  have hses : st'.ses = st.ses := by
    rw [hst']
    rfl
  have hlock : Writers.Steps .shipped True st st' := by
    rw [hst']
    refine Writers.steps_lock hpc (by rw [hglob]; decide) hlist fun u x hx => ?_
    rw [hfree u] at hx
    cases hx
  obtain ⟨low, hinv⟩ := @Writers.inv_start _ _ _ ses (fun _ => some f) [1] _ _ _ himage.isChain
    himage.size_lt hdvd List.nodup_nil hopen hwhole
  obtain ⟨es', h⟩ := hinv.run rfl (hrun.trans (hlock.fresh trivial))
  have hu : u64 st.ses.s.blockSize = 12288 := by
    rw [← hses, h.paged.super.u64_blockSize, hbs]
  have hlen : es'.length = 1 := by
    have := h.paged.super.toAllocNum
    rw [hses, hnum] at this
    omega
  have hneeds : st.ses.NeedsBlock 8192 := by
    rw [Session.NeedsBlock, hu]
    change searchHt 0 0 (st.ses.cow.buckets 0) = none
    rw [hbucket]
    rfl
  have hstale : ¬st'.Fresh (.insert 8192) := by
    rw [Writers.Fresh, hses]
    rintro (hin | ⟨e', hp', hw'⟩ | hnot)
    · exact hlist hin
    · change st.ses.pages 2 = some e' at hp'
      rw [hp] at hp'
      cases hp'
      rw [hw] at hw'
      cases hw'
    · exact hnot hneeds
  -- a second block is allocated for it
  obtain ⟨ses₁, ce, ops, hins, -⟩ := h.paged.toLayered.exists_insertHt (by omega) (by omega)
    (by rw [hlen]; exact hend) (by rw [hses]; exact hrunning) 0
  have hr : st'.ses.insertList .shipped 0 0 8192 = .ok ({ ses₁ with
      cow := ses₁.cow.pushList 8192 ⟨8192, cowUnit⟩ }, some (⟨8192, cowUnit⟩, ce), ops) := by
    rw [hses] at hins ⊢
    rw [Session.insertList_new hlist hneeds, hu]
    change (st.ses.insertHt .shipped 0 0 0).map _ = _
    rw [hins]
    rfl
  have hpc' : st'.pc 2 = .locked 8192 := by rw [hst', Writers.setPc_pc]
  obtain ⟨hmem, hlayer⟩ := h.stale rfl hpc' hstale hr
  have hzero : 8192 / g.blockSize = 0 := by rw [hbs]
  rw [hzero] at hmem hlayer
  obtain ⟨x, rfl⟩ := List.length_eq_one_iff.mp hlen
  rw [← List.mem_singleton.mp hmem] at hlayer
  have hplain : ∀ {a b : Writers}, Relation.ReflTransGen
      (fun a b => ∃ op, a.Fresh op ∧ Writers.Step .shipped a op b) a b →
      Relation.ReflTransGen (fun a b => ∃ op, Writers.Step .shipped a op b) a b :=
    Relation.ReflTransGen.mono (fun _ _ hstep => hstep.imp fun _ h => h.2) _ _
  exact ⟨fun _ => some f, ses, _, himage, hopen,
    ((hplain hrun).trans (hplain (hlock.fresh trivial))).tail
    ⟨.insert 8192, .insert hpc' hr⟩, hlayer⟩

end Pcow
