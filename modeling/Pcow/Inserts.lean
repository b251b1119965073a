import Pcow.Slots

/-!
# Calls of `insert_ht` side by side

`insert_ht` holds the lock of its bucket and no other while it looks for the slot of the entry that
`new_block` has appended: the lock `nb_lock2`, which made the append one step, is released by then.
Threads on other buckets, and the thread of `uf_monitor`, may append in between, and a call that
reads `active_meta_off` and the counter only then takes the slot of another entry for its own
(`inserts_share_slot`).

The number of the meta block is computed from what was read, and is wrong but in the first segment
of a layer (`Pcow.Slots`). Where no append falls between that of a call and its two reads, and the
calls append to the first segment, every call reads the slot of its own entry, and the entries of
the table have slots of their own (`inserts_own_slot`).

An append is one step here, each of the two reads another, and the last one reads the meta block and
links the entry.
-/

namespace Pcow

variable {cfg : Config} {g : Geometry cfg} {off : ℕ} {es : List ℕ}

/-- Where a thread is in `insert_ht`. The number `k` is that of the entries before its own
append. -/
inductive InsertPc
  /-- In no call. -/
  | idle : InsertPc
  /-- `new_block` has returned `nb`, for the block at `voff`. -/
  | appended (voff k : ℕ) (nb : NewBlock) : InsertPc
  /-- `active_meta_off` is read. -/
  | haveOff (voff k : ℕ) (nb : NewBlock) (activeMetaOff : ℕ) : InsertPc
  /-- So is the counter of the active meta block, which gives `entry_n`. -/
  | haveSlot (voff k : ℕ) (nb : NewBlock) (activeMetaOff : ℕ) (entryN : ℤ) : InsertPc

/-- The call of a thread, if it is in one: the offset and the number of its entry. -/
def InsertPc.call : InsertPc → Option (ℕ × ℕ)
  | idle => none
  | appended voff k _ => some (voff, k)
  | haveOff voff k _ _ => some (voff, k)
  | haveSlot voff k _ _ _ => some (voff, k)

/-- The thread is between its append and the second of its reads. -/
def InsertPc.Reading : InsertPc → Prop
  | appended _ _ _ => True
  | haveOff _ _ _ _ => True
  | _ => False

/-- What a call has read, and which entry is its own. -/
structure SlotRead where
  /-- The offset the call is for. -/
  voff : ℕ
  /-- The number of entries before its append. -/
  k : ℕ
  /-- `active_meta_off`, as read. -/
  activeMetaOff : ℕ
  /-- `entry_n`: the counter of the active meta block, as read, minus one. -/
  entryN : ℤ

/-- The threads that call `insert_ht`, and what they share. -/
structure Inserts where
  /-- The session. -/
  ses : Session
  /-- The threads. -/
  pc : ℕ → InsertPc
  /-- What the calls have read that are past their reads. -/
  reads : List SlotRead

/-- The kinds of steps. -/
inductive InsertOp
  /-- A call of `insert_ht` begins, and appends under `nb_lock2`. -/
  | insert : InsertOp
  /-- `uf_monitor` appends. -/
  | monitor : InsertOp
  /-- A read. -/
  | read : InsertOp
  /-- The end of a call. -/
  | link : InsertOp
deriving DecidableEq

/-- The number of entries of the last layer, as `new_block` knows it. -/
def Super.entryNum (s : Super) : ℕ := (s.toAllocNum - 1).toNat

/-- `meta_n`, from `active_meta_off` as it was read. -/
def metaNAt (s : Super) (activeMetaOff : ℕ) : ℤ :=
  i32 (u64 ((u64 (activeMetaOff - s.myOff - s.blockSize) / u64 (s.maxPerSeg + 1) : ℕ) *
    s.blockSize) : ℕ)

/-- The entry, from `entry_n` as it was read. -/
def slotEntry (cfg : Config) (m : Meta) (nb : NewBlock) (voff : ℕ) (entryN : ℤ) : CowEntry where
  faultVoffAligned := voff
  m := m
  metaEntry := u64 (m.pmTop + clSize + cfg.entrySize * entryN)
  blockOff := nb.blockOff
  moved := []
  copiedCounter := 0

/-- **The steps.** -/
inductive Inserts.Step (cfg : Config) (st : Inserts) : InsertOp → Inserts → Prop
  /-- A thread begins a call and appends; calls in progress are on other buckets, whose locks they
  hold. -/
  | insert {t voff n n' : ℕ} {s : Super} {ring : Ring} {nb : NewBlock} {ops : List FileOp} :
      st.pc t = .idle →
      (∀ u x, (st.pc u).call = some x → bucketNumber (u64 st.ses.s.blockSize) x.1 ≠
        bucketNumber (u64 st.ses.s.blockSize) voff) →
      newBlock cfg st.ses.file st.ses.s st.ses.ring n n' voff = .ok (s, ring, nb, ops) →
      Step cfg st .insert
        { st with
          ses := { st.ses.issue ops with s, ring }
          pc := Function.update st.pc t (.appended voff st.ses.s.entryNum nb) }
  /-- `uf_monitor` appends. -/
  | monitor {faultOff n n' : ℕ} {s : Super} {ring : Ring} {nb : NewBlock} {ops : List FileOp} :
      newBlock cfg st.ses.file st.ses.s st.ses.ring n n' faultOff = .ok (s, ring, nb, ops) →
      Step cfg st .monitor { st with ses := { st.ses.issue ops with s, ring } }
  /-- A call reads `active_meta_off`. -/
  | readOff {t voff k : ℕ} {nb : NewBlock} : st.pc t = .appended voff k nb → Step cfg st .read
      { st with pc := Function.update st.pc t (.haveOff voff k nb st.ses.s.activeMetaOff) }
  /-- A call reads the counter of the active meta block. -/
  | readCounter {t voff k a : ℕ} {nb : NewBlock} : st.pc t = .haveOff voff k nb a →
      Step cfg st .read
      { st with
        pc := Function.update st.pc t (.haveSlot voff k nb a (st.ses.s.activeMeta.counter - 1))
        reads := ⟨voff, k, a, st.ses.s.activeMeta.counter - 1⟩ :: st.reads }
  /-- A call reads the meta block, counts in its `fg_counter`, and links its entry. -/
  | link {t voff k a : ℕ} {nb : NewBlock} {e : ℤ} {m : Meta} : st.pc t = .haveSlot voff k nb a e →
      readMeta st.ses.file st.ses.s (metaNAt st.ses.s a) = .ok m →
      Step cfg st .link
        { st with
          ses := { st.ses.issue (Session.fgCounterOps st.ses.file m) with
            cow := st.ses.cow.link (bucketNumber (u64 st.ses.s.blockSize) voff)
              (slotEntry cfg m nb voff e) }
          pc := Function.update st.pc t .idle }

/-- No call is between its append and its reads when this step appends, and a call that appends does
so to the first segment. -/
structure Inserts.Meets (st : Inserts) (op : InsertOp) : Prop where
  quiet : op = .insert ∨ op = .monitor → ∀ t, ¬(st.pc t).Reading
  first : op = .insert → (st.ses.s.entryNum : ℤ) < st.ses.s.maxPerSeg

/-- The condition is one on appends. -/
theorem Inserts.meets_of_ne {st : Inserts} {op : InsertOp} (h₁ : op ≠ .insert)
    (h₂ : op ≠ .monitor) :
    st.Meets op :=
  ⟨fun h => (h.elim h₁ h₂).elim, fun h => (h₁ h).elim⟩

/-- The pair a call has read designates its own entry: the meta block of its segment, and the index
of the slot in it. -/
def SlotRead.Own (g : Geometry cfg) (off : ℕ) (x : SlotRead) : Prop :=
  x.activeMetaOff = g.blockAt off (g.metaBlock (x.k / g.perSeg)) ∧ x.entryN = (x.k % g.perSeg : ℕ)

/-- All entries of the table, chain by chain. -/
def CowTables.entries (c : CowTables) : List CowEntry := (List.range bucketNum).flatMap c.buckets

/-- An entry of the table is that of the block it names, and points to the slot of this entry. -/
def CowEntry.Own (g : Geometry cfg) (off : ℕ) (es : List ℕ) (k : ℕ) (ce : CowEntry) : Prop :=
  es[k]? = some (g.blockOf ce.faultVoffAligned) ∧ ce.blockOff = g.dataOff off k ∧
    Session.LocatesEntry g off k ce

/-! ### The parts of a call -/

/-- A call that nothing comes between is `insert_ht`. -/
theorem Inserts.exists_insertHt {st : Inserts} {t voff n n' : ℕ} {ses' : Session} {ce : CowEntry}
    {ops : List FileOp} (hpc : st.pc t = .idle)
    (hbucket : ∀ u x, (st.pc u).call = some x → bucketNumber (u64 st.ses.s.blockSize) x.1 ≠
      bucketNumber (u64 st.ses.s.blockSize) voff)
    (hr : st.ses.insertHt cfg n n' voff = .ok (ses', ce, ops)) :
    ∃ st', Relation.ReflTransGen (fun a b => ∃ op, Inserts.Step cfg a op b) st st' ∧
      st'.ses = ses' ∧ st'.pc = st.pc := by
  obtain ⟨s, ring, nb, ops₁, ops₂, hnb, hlink, -⟩ := Session.insertHt_ok hr
  obtain ⟨m, hm, rfl, rfl, rfl⟩ := Session.linkEntry_ok hlink
  have happ : Inserts.Step cfg st .insert _ := .insert hpc hbucket hnb
  refine ⟨_, .tail (.tail (.tail (.single ⟨_, happ⟩) ⟨_, .readOff (Function.update_self _ _ _)⟩)
    ⟨_, .readCounter (Function.update_self _ _ _)⟩)
    ⟨_, .link (Function.update_self _ _ _) hm⟩, rfl, ?_⟩
  funext u
  by_cases hu : u = t
  · rw [hu, hpc]
    exact Function.update_self _ _ _
  · simp only [Function.update_of_ne hu]

/-- The slots of the first segment differ. -/
theorem Geometry.slot_inj {i j : ℕ} (hi : i < g.perSeg) (hj : j < g.perSeg)
    (h : g.slot off i = g.slot off j) : i = j := by
  have hpos : 0 < cfg.entrySize := by
    rcases cfg.entrySize_cases with he | he <;> omega
  rw [Geometry.slot, Geometry.slot, Nat.div_eq_of_lt hi, Nat.div_eq_of_lt hj, Nat.mod_eq_of_lt hi,
    Nat.mod_eq_of_lt hj] at h
  exact Nat.eq_of_mul_eq_mul_left hpos (Nat.add_left_cancel h)

theorem flatMap_update_perm {α : Type*} {F : ℕ → List α} {b n : ℕ} (hb : b < n) (a : α) :
    ((List.range n).flatMap (Function.update F b (a :: F b))).Perm
    (a :: (List.range n).flatMap F) := by
  induction n with
  | zero => exact absurd hb (Nat.not_lt_zero b)
  | succ n ih =>
    rw [List.range_succ, List.flatMap_append, List.flatMap_append, List.flatMap_singleton,
      List.flatMap_singleton]
    rcases Nat.lt_succ_iff_lt_or_eq.mp hb with hlt | rfl
    · rw [Function.update_of_ne hlt.ne', ← List.cons_append]
      exact (ih hlt).append_right _
    · have hsame : (List.range b).flatMap (Function.update F b (a :: F b)) =
          (List.range b).flatMap F := by
        refine List.flatMap_congr fun i hi => ?_
        rw [Function.update_of_ne (List.mem_range.mp hi).ne]
      rw [hsame, Function.update_self]
      exact List.perm_middle

/-- The table after an entry is linked. -/
theorem CowTables.entries_link {c : CowTables} {b : ℕ} (hb : b < bucketNum) (ce : CowEntry) :
    (c.link b ce).entries.Perm (ce :: c.entries) :=
  flatMap_update_perm hb ce

/-- The counter of the active meta block, after the `k`-th append. -/
theorem Super.Is.counter_sub_one {s : Super} {k : ℕ} (hs : s.Is g off (k + 1)) :
    s.activeMeta.counter - 1 = (k % g.perSeg : ℕ) := by
  rw [hs.counter]
  have hseg : g.lastSeg (k + 1) = k / g.perSeg := rfl
  have hdiv := Nat.div_add_mod' k g.perSeg
  rw [hseg]
  omega

theorem Super.Is.entryNum {s : Super} {k : ℕ} (hs : s.Is g off k) : s.entryNum = k := by
  rw [Super.entryNum, hs.toAllocNum]
  push_cast
  omega

/-- In the first segment the number of the meta block comes out right. -/
theorem Super.Is.metaNAt_first {s : Super} {k : ℕ} (hs : s.Is g off k) :
    metaNAt s (g.blockAt off (g.metaBlock 0)) = 0 := by
  have hoff : ((g.blockAt off (g.metaBlock 0) : ℕ) : ℤ) - s.myOff - s.blockSize = 0 := by
    rw [hs.myOff, hs.blockSize, Geometry.blockAt, Geometry.metaBlock]
    push_cast
    ring
  rw [metaNAt, hoff, show u64 0 = 0 from rfl, Nat.zero_div, Nat.cast_zero, zero_mul]
  rfl

/-- **The end of a call in the first segment**: the meta block is the first one, and counting in it
leaves the layer in order. -/
theorem Session.Layered.fgCounter {ses : Session} (h : ses.Layered g off es)
    (hcfg : cfg.entrySize = 8) (hdvd : pageSize ∣ g.blockSize) (hoff : pageSize ∣ off) :
    ∃ m, readMeta ses.file ses.s (metaNAt ses.s (g.blockAt off (g.metaBlock 0))) = .ok m ∧
      m.pmTop = g.blockAt off (g.metaBlock 0) ∧
      (ses.issue (fgCounterOps ses.file m)).Layered g off es := by
  have hread := h.layer.readMeta h.size_lt h.super (Nat.zero_le (g.lastSeg es.length))
  rw [Nat.cast_zero] at hread
  rw [h.super.metaNAt_first]
  refine ⟨_, hread, rfl, ?_⟩
  have hbs : g.blockSize < 2 ^ 36 := lt_trans g.blockSize_lt (by norm_num)
  have hle := g.entry_le
  have hmark : MarkWord off (g.blockAt off (g.metaBlock 0)) := by
    refine @markWord_of_mod off _ g.blockSize (Nat.dvd_trans (by norm_num) hoff)
      (Nat.dvd_trans (by norm_num) hdvd) (by omega) hbs ?_
    rw [Geometry.blockAt, Geometry.metaBlock]
    simp
  refine h.mark hdvd hoff hcfg hmark rfl fun x hx => ?_
  exact ByteFile.byte_store_of_notMem (by simp only; omega)

/-- And the slot is that of the entry. -/
theorem Session.Layered.slotEntry {ses : Session} (h : ses.Layered g off es) {k voff : ℕ}
    {nb : NewBlock} (hget : es[k]? = some (g.blockOf voff)) (hk : k < g.perSeg)
    (hnb : nb.blockOff = g.dataOff off k) {m : Meta}
    (hm : m.pmTop = g.blockAt off (g.metaBlock 0)) :
    CowEntry.Own g off es k (Pcow.slotEntry cfg m nb voff (k % g.perSeg : ℕ)) := by
  -- the slot is in the block, and the block in the file
  have hend := g.blockAt_add_le off (Geometry.metaBlock_lt (Nat.zero_le (g.lastSeg es.length)))
  have hsize := h.layer.size_le
  have hlt := h.size_lt
  have hmem := g.slot_mem off k
  rw [Nat.div_eq_of_lt hk] at hmem
  have hslot : g.blockAt off (g.metaBlock 0) + 64 + cfg.entrySize * (k % g.perSeg) =
      g.slot off k := by
    rw [Geometry.slot, Nat.div_eq_of_lt hk]
  have hentry : u64 ((m.pmTop : ℕ) + (clSize : ℕ) +
      (cfg.entrySize : ℕ) * ((k % g.perSeg : ℕ) : ℤ)) = g.slot off k := by
    rw [hm, ← hslot]
    have hlt' : g.blockAt off (g.metaBlock 0) + 64 + cfg.entrySize * (k % g.perSeg) < 2 ^ 64 := by
      rw [Geometry.endOff] at hsize
      omega
    exact_mod_cast u64_natCast hlt'
  refine ⟨hget, hnb, ?_, hentry⟩
  rw [Nat.div_eq_of_lt hk]
  exact hm

/-! ### What the calls know -/

/-- What a thread knows: its entry is one of the first segment, the last one until it has read both
fields, and what it has read is of this entry. -/
def InsertPc.Ok (g : Geometry cfg) (off : ℕ) (es : List ℕ) : InsertPc → Prop
  | idle => True
  | appended voff k nb => es[k]? = some (g.blockOf voff) ∧ nb.blockOff = g.dataOff off k ∧
      k < g.perSeg ∧ es.length = k + 1
  | haveOff voff k nb a => es[k]? = some (g.blockOf voff) ∧ nb.blockOff = g.dataOff off k ∧
      k < g.perSeg ∧ es.length = k + 1 ∧ a = g.blockAt off (g.metaBlock (k / g.perSeg))
  | haveSlot voff k nb a e => es[k]? = some (g.blockOf voff) ∧ nb.blockOff = g.dataOff off k ∧
      k < g.perSeg ∧ a = g.blockAt off (g.metaBlock (k / g.perSeg)) ∧ e = (k % g.perSeg : ℕ)

/-- The entry of a call is in the layer. -/
theorem InsertPc.Ok.call {pc : InsertPc} (h : pc.Ok g off es) {x : ℕ × ℕ} (hx : pc.call = some x) :
    es[x.2]? = some (g.blockOf x.1) := by
  rcases pc with _ | ⟨voff, k, nb⟩ | ⟨voff, k, nb, a⟩ | ⟨voff, k, nb, a, e⟩
  · cases hx
  all_goals
    cases hx
    exact h.1

/-- A thread that is done with its reads does not care for more entries. -/
theorem InsertPc.Ok.append {pc : InsertPc} (h : pc.Ok g off es) (hpc : ¬pc.Reading) (b : ℕ) :
    pc.Ok g off (es ++ [b]) := by
  rcases pc with _ | ⟨voff, k, nb⟩ | ⟨voff, k, nb, a⟩ | ⟨voff, k, nb, a, e⟩
  · trivial
  · exact absurd trivial hpc
  · exact absurd trivial hpc
  · obtain ⟨hget, hrest⟩ := h
    have hlt := (List.getElem?_eq_some_iff.mp hget).1
    exact ⟨by rw [List.getElem?_append_left hlt, hget], hrest⟩

/-- **The invariant**: one call at most is between its append and its reads, every call that is past
its reads has read the slot of its own entry, and so is every entry of the table, which has a slot
of its own. -/
structure Inserts.Inv (st : Inserts) (g : Geometry cfg) (off : ℕ) (es : List ℕ) : Prop where
  layered : st.ses.Layered g off es
  pc : ∀ t, (st.pc t).Ok g off es
  one : ∀ t u x y, (st.pc t).call = some x → (st.pc u).call = some y → x.2 = y.2 → t = u
  own : ∀ x ∈ st.reads, x.Own g off ∧ es[x.k]? = some (g.blockOf x.voff)
  fresh : ∀ t x, (st.pc t).Reading → (st.pc t).call = some x → ∀ r ∈ st.reads, r.k ≠ x.2
  nodup : (st.reads.map SlotRead.k).Nodup
  table : ∀ ce ∈ st.ses.cow.entries, ∃ k < g.perSeg, ce.Own g off es k ∧
    ∀ t x, (st.pc t).call = some x → x.2 ≠ k
  slots : (st.ses.cow.entries.map CowEntry.metaEntry).Nodup

section Step

variable {st st' : Inserts} {op : InsertOp}

/-- An append, while no call is between its append and its reads. -/
theorem Inserts.Inv.append (h : st.Inv g off es) (hquiet : ∀ t, ¬(st.pc t).Reading) {voff n n' : ℕ}
    {s : Super} {ring : Ring} {nb : NewBlock} {ops : List FileOp}
    (hnb : newBlock cfg st.ses.file st.ses.s st.ses.ring n n' voff = .ok (s, ring, nb, ops)) :
    ({ st with ses := { st.ses.issue ops with s, ring } } : Inserts).Inv g off
      (es ++ [g.blockOf voff]) := by
  have hget : ∀ {k b : ℕ}, es[k]? = some b → (es ++ [g.blockOf voff])[k]? = some b := by
    intro k b hk
    rw [List.getElem?_append_left (List.getElem?_eq_some_iff.mp hk).1, hk]
  refine ⟨(h.layered.newBlock hnb).1, fun t => (h.pc t).append (hquiet t) _, h.one, fun x hx => ?_,
    fun t x ht => absurd ht (hquiet t), h.nodup, fun ce hce => ?_, h.slots⟩
  · obtain ⟨hown, hk⟩ := h.own x hx
    exact ⟨hown, hget hk⟩
  · obtain ⟨k, hk, ⟨hes, hrest⟩, hcalls⟩ := h.table ce hce
    exact ⟨k, hk, ⟨hget hes, hrest⟩, hcalls⟩

/-- A thread goes on to another place in its call. -/
theorem Inserts.Inv.setPc (h : st.Inv g off es) {t : ℕ} {pc : InsertPc} (hpc : pc.Ok g off es)
    (hcall : pc.call = (st.pc t).call) (hreading : pc.Reading → (st.pc t).Reading) :
    ({ st with pc := Function.update st.pc t pc } : Inserts).Inv g off es := by
  have hsame : ∀ u, (Function.update st.pc t pc u).call = (st.pc u).call := by
    intro u
    by_cases hu : u = t
    · rw [hu, Function.update_self, hcall]
    · rw [Function.update_of_ne hu]
  have hread : ∀ u, (Function.update st.pc t pc u).Reading → (st.pc u).Reading := by
    intro u hr
    by_cases hu : u = t
    · rw [hu, Function.update_self] at hr
      rw [hu]
      exact hreading hr
    · rwa [Function.update_of_ne hu] at hr
  refine ⟨h.layered, fun u => ?_, fun u w x y hx hy => ?_, h.own, fun u x hr hx => ?_, h.nodup,
    fun ce hce => ?_, h.slots⟩
  · by_cases hu : u = t
    · simp only [hu, Function.update_self]
      exact hpc
    · simp only [Function.update_of_ne hu]
      exact h.pc u
  · rw [hsame] at hx hy
    exact h.one u w x y hx hy
  · rw [hsame] at hx
    exact h.fresh u x (hread u hr) hx
  · obtain ⟨k, hk, hown, hcalls⟩ := h.table ce hce
    exact ⟨k, hk, hown, fun u x hx => hcalls u x (by rwa [hsame] at hx)⟩

/-- A call begins. -/
theorem Inserts.Inv.insert (h : st.Inv g off es) (hmeets : st.Meets .insert) {t voff n n' : ℕ}
    {s : Super} {ring : Ring} {nb : NewBlock} {ops : List FileOp} (hpc : st.pc t = .idle)
    (hnb : newBlock cfg st.ses.file st.ses.s st.ses.ring n n' voff = .ok (s, ring, nb, ops)) :
    ({ st with
      ses := { st.ses.issue ops with s, ring }
      pc := Function.update st.pc t (.appended voff st.ses.s.entryNum nb) } : Inserts).Inv g off
        (es ++ [g.blockOf voff]) := by
  have h' := h.append (hmeets.quiet (Or.inl rfl)) hnb
  have hk : st.ses.s.entryNum = es.length := h.layered.super.entryNum
  have hfirst := hmeets.first rfl
  rw [hk, h.layered.super.maxPerSeg] at hfirst
  have hoff : nb.blockOff = g.dataOff off es.length := (h.layered.newBlock hnb).2.2.2
  -- the new entry is none of the old ones
  have hold : ∀ {k b : ℕ}, es[k]? = some b → k ≠ es.length := fun hb =>
    (List.getElem?_eq_some_iff.mp hb).1.ne
  have hother : ∀ u x,
    (Function.update st.pc t (.appended voff st.ses.s.entryNum nb) u).call = some x →
      u = t ∧ x.2 = es.length ∨ u ≠ t ∧ (st.pc u).call = some x := by
    intro u x hx
    by_cases hu : u = t
    · rw [hu, Function.update_self] at hx
      cases hx
      exact Or.inl ⟨hu, hk⟩
    · rw [Function.update_of_ne hu] at hx
      exact Or.inr ⟨hu, hx⟩
  refine ⟨h'.layered, fun u => ?_, fun u w x y hx hy hxy => ?_, h'.own, fun u x hr hx r hmem => ?_,
    h'.nodup, fun ce hce => ?_, h'.slots⟩
  · by_cases hu : u = t
    · simp only [hu, Function.update_self, hk]
      exact ⟨by simp, hoff, by exact_mod_cast hfirst, by simp⟩
    · simp only [Function.update_of_ne hu]
      exact h'.pc u
  · rcases hother u x hx with ⟨rfl, hxk⟩ | ⟨-, hold₁⟩
    · rcases hother w y hy with ⟨rfl, -⟩ | ⟨-, hold₂⟩
      · rfl
      · exact absurd (hxy.symm.trans hxk) (hold ((h.pc w).call hold₂))
    · rcases hother w y hy with ⟨rfl, hyk⟩ | ⟨-, hold₂⟩
      · exact absurd (hxy.trans hyk) (hold ((h.pc u).call hold₁))
      · exact h.one u w x y hold₁ hold₂ hxy
  · rcases hother u x hx with ⟨-, hxk⟩ | ⟨hu, hx⟩
    · rw [hxk]
      exact hold (h.own r hmem).2
    · simp only [Function.update_of_ne hu] at hr
      exact absurd hr (hmeets.quiet (Or.inl rfl) u)
  · obtain ⟨k, hlt, hown, hcalls⟩ := h.table ce hce
    obtain ⟨k', hlt', hown', -⟩ := h'.table ce hce
    obtain rfl : k' = k := Geometry.slot_inj hlt' hlt (hown'.2.2.2.symm.trans hown.2.2.2)
    refine ⟨k', hlt, hown', fun u x hx => ?_⟩
    rcases hother u x hx with ⟨-, hxk⟩ | ⟨-, hx⟩
    · rw [hxk]
      exact (hold hown.1).symm
    · exact hcalls u x hx

/-- A call is done with its reads. -/
theorem Inserts.Inv.readCounter (h : st.Inv g off es) {t voff k a : ℕ} {nb : NewBlock}
    (hpc : st.pc t = .haveOff voff k nb a) :
    ({ st with
      pc := Function.update st.pc t (.haveSlot voff k nb a (st.ses.s.activeMeta.counter - 1))
      reads := ⟨voff, k, a, st.ses.s.activeMeta.counter - 1⟩ :: st.reads } : Inserts).Inv g
        off es := by
  have hok := h.pc t
  rw [hpc] at hok
  obtain ⟨hget, hblock, hk, hlen, ha⟩ := hok
  have hsuper := h.layered.super
  rw [hlen] at hsuper
  have hcounter := hsuper.counter_sub_one
  have hcall : (st.pc t).call = some (voff, k) := by
    rw [hpc]
    rfl
  have hreading : (st.pc t).Reading := by
    rw [hpc]
    trivial
  have hok : (InsertPc.haveSlot voff k nb a (st.ses.s.activeMeta.counter - 1)).Ok g off es :=
    ⟨hget, hblock, hk, ha, hcounter⟩
  have h' := h.setPc hok hcall.symm False.elim
  refine ⟨h'.layered, h'.pc, h'.one, fun x hx => ?_, fun u x hr hx r hmem => ?_, ?_, h'.table,
    h'.slots⟩
  · rcases List.mem_cons.mp hx with rfl | hx
    · exact ⟨⟨ha, hcounter⟩, hget⟩
    · exact h.own x hx
  · rcases List.mem_cons.mp hmem with rfl | hmem
    · -- a reading thread is for the last entry as well
      by_cases hu : u = t
      · simp only [hu, Function.update_self] at hr
        exact hr.elim
      · simp only [Function.update_of_ne hu] at hx
        intro hkx
        exact hu (h.one u t x (voff, k) hx hcall hkx.symm)
    · exact h'.fresh u x hr hx r hmem
  · rw [List.map_cons, List.nodup_cons]
    refine ⟨fun hmem => ?_, h.nodup⟩
    obtain ⟨x, hx, hxk⟩ := List.mem_map.mp hmem
    exact h.fresh t _ hreading hcall x hx hxk

/-- A call ends. -/
theorem Inserts.Inv.link (h : st.Inv g off es) (hcfg : cfg.entrySize = 8)
    (hdvd : pageSize ∣ g.blockSize) (hoff : pageSize ∣ off) {t voff k a : ℕ} {nb : NewBlock} {e : ℤ}
    {m : Meta} (hpc : st.pc t = .haveSlot voff k nb a e)
    (hm : readMeta st.ses.file st.ses.s (metaNAt st.ses.s a) = .ok m) :
    ({ st with
      ses := { st.ses.issue (Session.fgCounterOps st.ses.file m) with
        cow := st.ses.cow.link (bucketNumber (u64 st.ses.s.blockSize) voff)
          (slotEntry cfg m nb voff e) }
      pc := Function.update st.pc t .idle } : Inserts).Inv g off es := by
  have hok := h.pc t
  rw [hpc] at hok
  obtain ⟨hget, hblock, hk, rfl, rfl⟩ := hok
  rw [Nat.div_eq_of_lt hk] at hm
  obtain ⟨m', hm', htop, hlay⟩ := h.layered.fgCounter hcfg hdvd hoff
  obtain rfl : m = m' := Except.ok.inj (hm.symm.trans hm')
  have hown := h.layered.slotEntry hget hk hblock htop
  have hcall : (st.pc t).call = some (voff, k) := by
    rw [hpc]
    rfl
  have hother : ∀ u x, (Function.update st.pc t .idle u).call = some x →
      u ≠ t ∧ (st.pc u).call = some x := by
    intro u x hx
    by_cases hu : u = t
    · rw [hu, Function.update_self] at hx
      cases hx
    · rw [Function.update_of_ne hu] at hx
      exact ⟨hu, hx⟩
  have hperm := CowTables.entries_link (c := st.ses.cow)
    (b := bucketNumber (u64 st.ses.s.blockSize) voff) (Nat.mod_lt _ (by decide))
    (slotEntry cfg m nb voff (k % g.perSeg : ℕ))
  refine ⟨⟨hlay.layer, hlay.super, hlay.ring, hlay.size_lt⟩, fun u => ?_, fun u w x y hx hy => ?_,
    h.own, fun u x hr hx => ?_, h.nodup, fun ce hce => ?_, ?_⟩
  · by_cases hu : u = t
    · simp only [hu, Function.update_self]
      trivial
    · simp only [Function.update_of_ne hu]
      exact h.pc u
  · exact h.one u w x y (hother u x hx).2 (hother w y hy).2
  · obtain ⟨hu, hx⟩ := hother u x hx
    simp only [Function.update_of_ne hu] at hr
    exact h.fresh u x hr hx
  · rcases List.mem_cons.mp (hperm.mem_iff.mp hce) with rfl | hce
    · refine ⟨k, hk, hown, fun u x hx hxk => ?_⟩
      obtain ⟨hu, hx⟩ := hother u x hx
      exact hu (h.one u t x (voff, k) hx hcall hxk)
    · obtain ⟨k', hk', hown', hcalls⟩ := h.table ce hce
      exact ⟨k', hk', hown', fun u x hx => hcalls u x (hother u x hx).2⟩
  · refine (hperm.map CowEntry.metaEntry).nodup_iff.mpr ?_
    rw [List.map_cons, List.nodup_cons]
    refine ⟨fun hmem => ?_, h.slots⟩
    obtain ⟨ce, hce, heq⟩ := List.mem_map.mp hmem
    obtain ⟨k', hk', hown', hcalls⟩ := h.table ce hce
    rw [hown'.2.2.2, hown.2.2.2] at heq
    exact hcalls t _ hcall (Geometry.slot_inj hk' hk heq).symm

/-- **Every step that meets the condition keeps the invariant.** -/
theorem Inserts.Inv.step (h : st.Inv g off es) (hcfg : cfg.entrySize = 8)
    (hdvd : pageSize ∣ g.blockSize) (hoff : pageSize ∣ off) (hmeets : st.Meets op)
    (hstep : st.Step cfg op st') : ∃ es', st'.Inv g off es' := by
  cases hstep with
  | insert hpc hbucket hnb => exact ⟨_, h.insert hmeets hpc hnb⟩
  | monitor hnb => exact ⟨_, h.append (hmeets.quiet (Or.inr rfl)) hnb⟩
  | @readOff t voff k nb hpc =>
    have hok := h.pc t
    rw [hpc] at hok
    obtain ⟨hget, hblock, hk, hlen⟩ := hok
    refine ⟨es, h.setPc ⟨hget, hblock, hk, hlen, ?_⟩ (by rw [hpc]; rfl) fun _ => ?_⟩
    · rw [h.layered.super.activeMetaOff, hlen]
      rfl
    · rw [hpc]
      trivial
  | readCounter hpc => exact ⟨es, h.readCounter hpc⟩
  | link hpc hm => exact ⟨es, h.link hcfg hdvd hoff hpc hm⟩

/-- **So does every run.** -/
theorem Inserts.Inv.run (h : st.Inv g off es) (hcfg : cfg.entrySize = 8)
    (hdvd : pageSize ∣ g.blockSize) (hoff : pageSize ∣ off)
    (hrun : Relation.ReflTransGen (fun a b => ∃ op, a.Meets op ∧ Inserts.Step cfg a op b) st st') :
    ∃ es', st'.Inv g off es' := by
  induction hrun with
  | refl => exact ⟨es, h⟩
  | tail _ hstep ih =>
    obtain ⟨es₁, h₁⟩ := ih
    obtain ⟨op, hmeets, hstep⟩ := hstep
    exact h₁.step hcfg hdvd hoff hmeets hstep

end Step

/-- Two calls that have read the same pair, each that of its own entry, are for the same entry. -/
theorem SlotRead.Own.k_eq {x y : SlotRead} (hx : x.Own g off) (hy : y.Own g off)
    (h : (x.activeMetaOff, x.entryN) = (y.activeMetaOff, y.entryN)) : x.k = y.k := by
  rw [Prod.mk.injEq, hx.1, hy.1, hx.2, hy.2] at h
  obtain ⟨hoff, hmod⟩ := h
  have hblock : g.metaBlock (x.k / g.perSeg) = g.metaBlock (y.k / g.perSeg) :=
    Nat.eq_of_mul_eq_mul_left g.blockSize_pos (Nat.add_left_cancel hoff)
  calc x.k = x.k / g.perSeg * g.perSeg + x.k % g.perSeg := (Nat.div_add_mod' _ _).symm
    _ = y.k / g.perSeg * g.perSeg + y.k % g.perSeg := by
      rw [g.metaBlock_injective hblock, Int.natCast_inj.mp hmod]
    _ = y.k := Nat.div_add_mod' _ _

/-- The threads when a session begins. -/
def Inserts.start (ses : Session) : Inserts := ⟨ses, fun _ => .idle, []⟩

/-- **Every call reads the slot of its own entry, no two calls the same, and so the entries of the
table point to the slots of their own blocks, each to another one.** This holds in every order of
appends, reads and links in which no append falls between that of a call and its two reads, and the
calls append to the first segment. -/
theorem inserts_own_slot {fs : Fs} {fd : Path} {ls : List (List ℕ)} {length offset : ℕ}
    {ses : Session} {st : Inserts} (hfine : cfg.finegrainedCow = true)
    (h : IsChain g ((fs fd).getD .empty) 0 (ls ++ [es])) (hf : ((fs fd).getD .empty).size < 2 ^ 63)
    (hdvd : pageSize ∣ g.blockSize)
    (hopen : Session.fmmap cfg fs fd length offset = .ok (some ses))
    (hrun : Relation.ReflTransGen (fun a b => ∃ op, a.Meets op ∧ Inserts.Step cfg a op b)
      (Inserts.start ses) st) :
    ∃ es', IsLayer g st.ses.file (g.chainEnd 0 ls) es' ∧
      (∀ x ∈ st.reads, x.Own g (g.chainEnd 0 ls) ∧ es'[x.k]? = some (g.blockOf x.voff)) ∧
      (st.reads.map fun x => (x.activeMetaOff, x.entryN)).Nodup ∧
      (∀ ce ∈ st.ses.cow.entries, ∃ k, ce.Own g (g.chainEnd 0 ls) es' k) ∧
      (st.ses.cow.entries.map CowEntry.metaEntry).Nodup := by
  have hcfg : cfg.entrySize = 8 := by
    rw [Config.entrySize, hfine]
    rfl
  obtain ⟨low, hpaged⟩ := h.paged_of_fmmap hf hdvd hopen
  have hcow : ses.cow.entries = [] := by
    obtain ⟨-, x, -, rfl⟩ := h.fmmap_ok rfl hf hopen
    rfl
  have hstart : (Inserts.start ses).Inv g (g.chainEnd 0 ls) es := by
    refine ⟨hpaged.toLayered, fun t => trivial, fun t u x y hx => ?_, fun x hx => ?_,
      fun t x ht => ht.elim, List.nodup_nil, fun ce hce => ?_, ?_⟩
    · cases hx
    · cases hx
    · rw [Inserts.start, hcow] at hce
      cases hce
    · rw [Inserts.start, hcow]
      exact List.nodup_nil
  obtain ⟨es', hinv⟩ := hstart.run hcfg hdvd hpaged.off_dvd hrun
  refine ⟨es', hinv.layered.layer, hinv.own, ?_, fun ce hce => ?_, hinv.slots⟩
  · refine List.Nodup.map_on (fun x hx y hy hxy => ?_) (List.Nodup.of_map _ hinv.nodup)
    exact List.inj_on_of_nodup_map hinv.nodup hx hy ((hinv.own x hx).1.k_eq (hinv.own y hy).1 hxy)
  · obtain ⟨k, -, hown, -⟩ := hinv.table ce hce
    exact ⟨k, hown⟩

/-! ### Runs of two threads -/

/-- The append of a call. -/
theorem Inserts.exists_insert {st : Inserts} {t voff n n' : ℕ} {s : Super} {ring : Ring}
    {nb : NewBlock} {ops : List FileOp} (hpc : st.pc t = .idle)
    (hbucket : ∀ u x, (st.pc u).call = some x → bucketNumber (u64 st.ses.s.blockSize) x.1 ≠
      bucketNumber (u64 st.ses.s.blockSize) voff)
    (hnb : newBlock cfg st.ses.file st.ses.s st.ses.ring n n' voff = .ok (s, ring, nb, ops)) :
    ∃ st', Inserts.Step cfg st .insert st' ∧ st'.pc t = .appended voff st.ses.s.entryNum nb ∧
      (∀ u, u ≠ t → st'.pc u = st.pc u) ∧ st'.ses = { st.ses.issue ops with s, ring } ∧
      st'.reads = st.reads :=
  ⟨_, .insert hpc hbucket hnb, Function.update_self _ _ _,
    fun _ hu => Function.update_of_ne hu _ _, rfl, rfl⟩

/-- The two reads of a call, one right after the other. -/
theorem Inserts.exists_reads (cfg : Config) {st : Inserts} {t voff k : ℕ} {nb : NewBlock}
    (hpc : st.pc t = .appended voff k nb) :
    ∃ st', Relation.ReflTransGen (fun a b => Inserts.Step cfg a .read b) st st' ∧
      st'.pc t = .haveSlot voff k nb st.ses.s.activeMetaOff (st.ses.s.activeMeta.counter - 1) ∧
      (∀ u, u ≠ t → st'.pc u = st.pc u) ∧ st'.ses = st.ses ∧
      st'.reads = ⟨voff, k, st.ses.s.activeMetaOff, st.ses.s.activeMeta.counter - 1⟩ ::
        st.reads := by
  have hpc' : Function.update st.pc t (.haveOff voff k nb st.ses.s.activeMetaOff) t =
      .haveOff voff k nb st.ses.s.activeMetaOff := Function.update_self _ _ _
  refine ⟨_, .tail (.single (.readOff hpc)) (.readCounter hpc'), Function.update_self _ _ _,
    fun u hu => ?_, rfl, rfl⟩
  simp only [Function.update_of_ne hu]

/-- The end of a call in the first segment. -/
theorem Inserts.exists_link {st : Inserts} (h : st.ses.Layered g off es) (hcfg : cfg.entrySize = 8)
    (hdvd : pageSize ∣ g.blockSize) (hoff : pageSize ∣ off) {t voff k : ℕ} {nb : NewBlock} {e : ℤ}
    (hpc : st.pc t = .haveSlot voff k nb (g.blockAt off (g.metaBlock 0)) e) :
    ∃ st' m, Inserts.Step cfg st .link st' ∧ m.pmTop = g.blockAt off (g.metaBlock 0) ∧
      st'.ses.Layered g off es ∧ (∀ u, u ≠ t → st'.pc u = st.pc u) ∧ st'.reads = st.reads ∧
      st'.ses.s = st.ses.s ∧
      st'.ses.cow.entries.Perm (slotEntry cfg m nb voff e :: st.ses.cow.entries) := by
  obtain ⟨m, hm, htop, hlay⟩ := h.fgCounter hcfg hdvd hoff
  refine ⟨_, m, .link hpc hm, htop, ⟨hlay.layer, hlay.super, hlay.ring, hlay.size_lt⟩,
    fun u hu => ?_,
    rfl, rfl, CowTables.entries_link (Nat.mod_lt _ (by decide)) _⟩
  simp only [Function.update_of_ne hu]

/-- What a call reads right after its append to the first segment. -/
theorem Session.Layered.reads {ses : Session} (h : ses.Layered g off es) {k : ℕ}
    (hlen : es.length = k + 1) (hk : k < g.perSeg) :
    ses.s.activeMetaOff = g.blockAt off (g.metaBlock 0) ∧
      ses.s.activeMeta.counter - 1 = (k % g.perSeg : ℕ) := by
  have hsuper := h.super
  rw [hlen] at hsuper
  refine ⟨?_, hsuper.counter_sub_one⟩
  rw [hsuper.activeMetaOff, show g.lastSeg (k + 1) = k / g.perSeg from rfl, Nat.div_eq_of_lt hk]

section Runs

variable {ses : Session} {v v' : ℕ} {s s' : Super} {r r' : Ring} {nb nb' : NewBlock}
  {ops ops' : List FileOp}

/-- The appends of two calls, with anything in between that leaves the session alone and the second
thread out of a call. -/
theorem Inserts.exists_second (h : ses.Layered g off es)
    (hbucket : bucketNumber g.blockSize v ≠ bucketNumber g.blockSize v')
    (hnb : newBlock cfg ses.file ses.s ses.ring 0 0 v = .ok (s, r, nb, ops))
    (hnb' : newBlock cfg ({ ses.issue ops with s, ring := r } : Session).file s r 0 0 v' =
      .ok (s', r', nb', ops')) {st : Inserts} (hses : st.ses = { ses.issue ops with s, ring := r })
    {k : ℕ} (hcall : (st.pc 0).call = some (v, k)) (hidle : ∀ u, u ≠ 0 → st.pc u = .idle) :
    ∃ st', Inserts.Step cfg st .insert st' ∧ st'.pc 1 = .appended v' (es.length + 1) nb' ∧
      (∀ u, u ≠ 1 → st'.pc u = st.pc u) ∧ st'.reads = st.reads ∧
      st'.ses.Layered g off (es ++ [g.blockOf v] ++ [g.blockOf v']) ∧
      st'.ses.cow = ses.cow ∧ st.ses.s.entryNum = es.length + 1 := by
  have h₁ := (h.newBlock hnb).1
  have h₂ := (h₁.newBlock hnb').1
  have hnum : s.entryNum = es.length + 1 := by
    rw [h₁.super.entryNum, List.length_append, List.length_singleton]
  have hbs : u64 st.ses.s.blockSize = g.blockSize := by
    rw [hses]
    exact h₁.super.u64_blockSize
  have hother : ∀ u x, (st.pc u).call = some x → bucketNumber (u64 st.ses.s.blockSize) x.1 ≠
      bucketNumber (u64 st.ses.s.blockSize) v' := by
    intro u x hx
    by_cases hu : u = 0
    · rw [hu, hcall] at hx
      cases hx
      rw [hbs]
      exact hbucket
    · rw [hidle u hu] at hx
      cases hx
  have hnb₁ : newBlock cfg st.ses.file st.ses.s st.ses.ring 0 0 v' = .ok (s', r', nb', ops') := by
    rw [hses]
    exact hnb'
  have hnum₁ : st.ses.s.entryNum = es.length + 1 := by
    rw [hses]
    exact hnum
  obtain ⟨st', hstep, hpc, hrest, hses', hreads⟩ :=
    st.exists_insert (hidle 1 Nat.one_ne_zero) hother hnb₁
  rw [hnum₁] at hpc
  refine ⟨st', hstep, hpc, hrest, hreads, ?_, ?_, hnum₁⟩
  · rw [hses', hses]
    exact h₂
  · rw [hses', hses]
    rfl

/-- **Two calls one after the other**: the second one appends when the first one has read its
slot. -/
theorem Inserts.exists_separate (h : ses.Layered g off es) (hcfg : cfg.entrySize = 8)
    (hdvd : pageSize ∣ g.blockSize) (hoff : pageSize ∣ off) (hroom : es.length + 1 < g.perSeg)
    (hbucket : bucketNumber g.blockSize v ≠ bucketNumber g.blockSize v')
    (hnb : newBlock cfg ses.file ses.s ses.ring 0 0 v = .ok (s, r, nb, ops))
    (hnb' : newBlock cfg ({ ses.issue ops with s, ring := r } : Session).file s r 0 0 v' =
      .ok (s', r', nb', ops')) :
    ∃ st x y, Relation.ReflTransGen (fun a b => ∃ op, a.Meets op ∧ Inserts.Step cfg a op b)
        (Inserts.start ses) st ∧ st.reads = [y, x] ∧ x.voff = v ∧ y.voff = v' ∧
      st.ses.cow.entries.length = ses.cow.entries.length + 2 := by
  have h₁ := (h.newBlock hnb).1
  have hmax : s.maxPerSeg = g.perSeg := h₁.super.maxPerSeg
  have hnum : ses.s.entryNum = es.length := h.super.entryNum
  obtain ⟨st₁, hstep₁, hpc₁, hrest₁, hses₁, hreads₁⟩ := (Inserts.start ses).exists_insert
    (t := 0) rfl (fun u x hx => by cases hx) hnb
  rw [show (Inserts.start ses).ses = ses from rfl, hnum] at hpc₁
  obtain ⟨st₂, hrun₂, hpc₂, hrest₂, hses₂, hreads₂⟩ := Inserts.exists_reads cfg hpc₁
  have hlay₁ : st₁.ses.Layered g off (es ++ [g.blockOf v]) := by
    rw [hses₁]
    exact h₁
  obtain ⟨ha, he⟩ := hlay₁.reads (by simp) (show es.length < g.perSeg by omega)
  rw [ha, he] at hpc₂
  have hidle₂ : ∀ u, u ≠ 0 → st₂.pc u = .idle := by
    intro u hu
    rw [hrest₂ u hu, hrest₁ u hu]
    rfl
  obtain ⟨st₃, hstep₃, hpc₃, hrest₃, hreads₃, hlay₃, hcow₃, hnum₂⟩ :=
    Inserts.exists_second h hbucket
    hnb hnb' (hses₂.trans hses₁) (by rw [hpc₂]; rfl) hidle₂
  have hpc₃' := (hrest₃ 0 Nat.zero_ne_one).trans hpc₂
  obtain ⟨st₄, m, hstep₄, -, hlay₄, hrest₄, hreads₄, -, hcow₄⟩ :=
    Inserts.exists_link hlay₃ hcfg hdvd hoff hpc₃'
  obtain ⟨st₅, hrun₅, hpc₅, -, hses₅, hreads₅⟩ := Inserts.exists_reads cfg
    ((hrest₄ 1 Nat.one_ne_zero).trans hpc₃)
  obtain ⟨ha', he'⟩ := hlay₄.reads (k := es.length + 1) (by simp) hroom
  rw [ha', he'] at hpc₅
  have hlay₅ : st₅.ses.Layered g off (es ++ [g.blockOf v] ++ [g.blockOf v']) := by
    rw [hses₅]
    exact hlay₄
  obtain ⟨st₆, m', hstep₆, -, -, -, hreads₆, -, hcow₆⟩ :=
    Inserts.exists_link hlay₅ hcfg hdvd hoff hpc₅
  -- the appends meet the condition, and the other steps need not
  have hread : ∀ {a b : Inserts},
      Relation.ReflTransGen (fun a b => Inserts.Step cfg a .read b) a b →
      Relation.ReflTransGen (fun a b => ∃ op, a.Meets op ∧ Inserts.Step cfg a op b) a b :=
    Relation.ReflTransGen.mono (fun a b hab =>
      ⟨.read, Inserts.meets_of_ne (by decide) (by decide), hab⟩) _ _
  have hlink : ∀ (a : Inserts), a.Meets .link := fun a =>
    Inserts.meets_of_ne (by decide) (by decide)
  have hmeets₁ : (Inserts.start ses).Meets .insert := by
    refine ⟨fun _ t ht => ht.elim, fun _ => ?_⟩
    rw [show (Inserts.start ses).ses = ses from rfl, hnum, h.super.maxPerSeg]
    omega
  have hmeets₃ : st₂.Meets .insert := by
    refine ⟨fun _ t ht => ?_, fun _ => ?_⟩
    · by_cases ht0 : t = 0
      · rw [ht0, hpc₂] at ht
        exact ht
      · rw [hidle₂ t ht0] at ht
        exact ht
    · rw [hnum₂, hses₂, hlay₁.super.maxPerSeg]
      omega
  rw [hreads₅, hreads₄, hreads₃, hreads₂, hreads₁] at hreads₆
  refine ⟨st₆, _, _, .tail (.trans (.tail (.tail (.head ⟨_, hmeets₁, hstep₁⟩ (hread hrun₂))
    ⟨_, hmeets₃, hstep₃⟩) ⟨_, hlink _, hstep₄⟩) (hread hrun₅)) ⟨_, hlink _, hstep₆⟩,
    hreads₆, rfl, rfl, ?_⟩
  · rw [hcow₆.length_eq, List.length_cons, hses₅, hcow₄.length_eq, List.length_cons, hcow₃]

/-- **Two calls read the same slot**: both append before any of them reads. Then the entries of the
table share the slot of the second one. -/
theorem Inserts.exists_overlapping (h : ses.Layered g off es) (hcfg : cfg.entrySize = 8)
    (hdvd : pageSize ∣ g.blockSize) (hoff : pageSize ∣ off) (hroom : es.length + 1 < g.perSeg)
    (hbucket : bucketNumber g.blockSize v ≠ bucketNumber g.blockSize v')
    (hnb : newBlock cfg ses.file ses.s ses.ring 0 0 v = .ok (s, r, nb, ops))
    (hnb' : newBlock cfg ({ ses.issue ops with s, ring := r } : Session).file s r 0 0 v' =
      .ok (s', r', nb', ops')) (hcow : ses.cow.entries = []) :
    ∃ st x y, Relation.ReflTransGen (fun a b => ∃ op, Inserts.Step cfg a op b)
        (Inserts.start ses) st ∧ st.reads = [y, x] ∧ x.voff = v ∧ x.k = es.length ∧ y.voff = v' ∧
      (x.activeMetaOff, x.entryN) = (y.activeMetaOff, y.entryN) ∧
      x.entryN = ((es.length + 1) % g.perSeg : ℕ) ∧
      ∃ ce ce', st.ses.cow.entries.Perm [ce', ce] ∧ ce.faultVoffAligned = v ∧
        ce'.faultVoffAligned = v' ∧ ce.metaEntry = ce'.metaEntry := by
  have h₁ := (h.newBlock hnb).1
  have hnum : ses.s.entryNum = es.length := h.super.entryNum
  obtain ⟨st₁, hstep₁, hpc₁, hrest₁, hses₁, hreads₁⟩ := (Inserts.start ses).exists_insert
    (t := 0) rfl (fun u x hx => by cases hx) hnb
  rw [show (Inserts.start ses).ses = ses from rfl, hnum] at hpc₁
  have hidle₁ : ∀ u, u ≠ 0 → st₁.pc u = .idle := fun u hu => by rw [hrest₁ u hu]; rfl
  obtain ⟨st₂, hstep₂, hpc₂, hrest₂, hreads₂, hlay₂, hcow₂, -⟩ := Inserts.exists_second h hbucket
    hnb hnb' hses₁ (by rw [hpc₁]; rfl) hidle₁
  obtain ⟨ha, he⟩ := hlay₂.reads (k := es.length + 1) (by simp) hroom
  obtain ⟨st₃, hrun₃, hpc₃, hrest₃, hses₃, hreads₃⟩ := Inserts.exists_reads cfg
    ((hrest₂ 0 Nat.zero_ne_one).trans hpc₁)
  obtain ⟨st₄, hrun₄, hpc₄, hrest₄, hses₄, hreads₄⟩ := Inserts.exists_reads cfg
    ((hrest₃ 1 Nat.one_ne_zero).trans hpc₂)
  rw [hses₃] at hpc₄ hreads₄
  rw [ha, he] at hpc₃ hpc₄ hreads₃ hreads₄
  have hlay₄ : st₄.ses.Layered g off (es ++ [g.blockOf v] ++ [g.blockOf v']) := by
    rw [hses₄, hses₃]
    exact hlay₂
  obtain ⟨st₅, m, hstep₅, hm, hlay₅, hrest₅, hreads₅, -, hcow₅⟩ :=
    Inserts.exists_link hlay₄ hcfg hdvd hoff ((hrest₄ 0 Nat.zero_ne_one).trans hpc₃)
  obtain ⟨st₆, m', hstep₆, hm', -, -, hreads₆, -, hcow₆⟩ :=
    Inserts.exists_link hlay₅ hcfg hdvd hoff ((hrest₅ 1 Nat.one_ne_zero).trans hpc₄)
  have hread : ∀ {a b : Inserts},
      Relation.ReflTransGen (fun a b => Inserts.Step cfg a .read b) a b →
      Relation.ReflTransGen (fun a b => ∃ op, Inserts.Step cfg a op b) a b :=
    Relation.ReflTransGen.mono (fun a b hab => ⟨.read, hab⟩) _ _
  rw [hreads₅, hreads₄, hreads₃, hreads₂, hreads₁] at hreads₆
  rw [hses₄, hses₃, hcow₂, hcow] at hcow₅
  refine ⟨st₆, _, _, .head ⟨_, hstep₁⟩ (.head ⟨_, hstep₂⟩ (((hread hrun₃).trans
    (hread hrun₄)).trans (.tail (.single ⟨_, hstep₅⟩) ⟨_, hstep₆⟩))), hreads₆, rfl, rfl, rfl, rfl,
    rfl, _, _, hcow₆.trans (.cons _ hcow₅), rfl, rfl, ?_⟩
  rw [slotEntry, slotEntry, hm, hm']

end Runs

/-- Two calls, the second of which begins when the first has read its slot. -/
theorem inserts_own_slot_two : ∃ (fs : Fs) (ses : Session) (st : Inserts) (x y : SlotRead),
    IsImage (Geometry.twoPages .shipped) ((fs [1]).getD .empty) [[0]] [] ∧
      Session.fmmap .shipped fs [1] (8192 * 2) 0 = .ok (some ses) ∧
      Relation.ReflTransGen (fun a b => ∃ op, a.Meets op ∧ Inserts.Step .shipped a op b)
        (Inserts.start ses) st ∧ st.reads = [y, x] ∧ x.voff = 0 ∧ y.voff = 8192 ∧
      x.Own (Geometry.twoPages .shipped) ((Geometry.twoPages .shipped).chainEnd 0 [[0]]) ∧
      y.Own (Geometry.twoPages .shipped) ((Geometry.twoPages .shipped).chainEnd 0 [[0]]) ∧
      st.ses.cow.entries.length = 2 ∧ (st.ses.cow.entries.map CowEntry.metaEntry).Nodup := by
  obtain ⟨f, ses, s, r, nb, ops, ⟨s', r', nb', ops'⟩, himage, hopen, hcow, hnb, hnb'⟩ :=
    exists_twoBlocks 0 8192
  have hper : 0 + 1 < (Geometry.twoPages .shipped).perSeg := by decide
  have hbucket : bucketNumber (Geometry.twoPages .shipped).blockSize 0 ≠
      bucketNumber (Geometry.twoPages .shipped).blockSize 8192 := by decide
  have hdvd : pageSize ∣ (Geometry.twoPages .shipped).blockSize := by decide
  obtain ⟨low, hpaged⟩ := @IsChain.paged_of_fmmap _ _ (fun _ => some f) [1] _ _ ses _ _
    himage.isChain himage.size_lt hdvd hopen
  obtain ⟨st, x, y, hrun, hreads, hx, hy, hlen⟩ := Inserts.exists_separate hpaged.toLayered rfl hdvd
    hpaged.off_dvd hper hbucket hnb hnb'
  obtain ⟨es', -, hown, -, -, hslots⟩ :=
    @inserts_own_slot .shipped _ _ (fun _ => some f) [1] [[0]] _ _
    ses st rfl himage.isChain himage.size_lt hdvd hopen hrun
  rw [hcow] at hlen
  refine ⟨fun _ => some f, ses, st, x, y, himage, hopen, hrun, hreads, hx, hy, (hown x ?_).1,
    (hown y ?_).1, hlen, hslots⟩
  · rw [hreads]
    exact List.mem_cons_of_mem _ (List.mem_singleton_self x)
  · rw [hreads]
    exact List.mem_cons_self

/-- **Two calls read the same slot.** Both threads append before any of them reads: the pair they
read is that of the second entry, and not that of the first one, and both entries of the table point
to it. -/
theorem inserts_share_slot : ∃ (fs : Fs) (ses : Session) (st : Inserts) (x y : SlotRead)
    (ce ce' : CowEntry),
    IsImage (Geometry.twoPages .shipped) ((fs [1]).getD .empty) [[0]] [] ∧
      Session.fmmap .shipped fs [1] (8192 * 2) 0 = .ok (some ses) ∧
      Relation.ReflTransGen (fun a b => ∃ op, Inserts.Step .shipped a op b) (Inserts.start ses) st ∧
      st.reads = [y, x] ∧ x.voff = 0 ∧ y.voff = 8192 ∧
      (x.activeMetaOff, x.entryN) = (y.activeMetaOff, y.entryN) ∧
      ¬x.Own (Geometry.twoPages .shipped) ((Geometry.twoPages .shipped).chainEnd 0 [[0]]) ∧
      st.ses.cow.entries.Perm [ce', ce] ∧ ce.faultVoffAligned = 0 ∧ ce'.faultVoffAligned = 8192 ∧
      ce.metaEntry = ce'.metaEntry := by
  obtain ⟨f, ses, s, r, nb, ops, ⟨s', r', nb', ops'⟩, himage, hopen, hcow, hnb, hnb'⟩ :=
    exists_twoBlocks 0 8192
  have hper : 0 + 1 < (Geometry.twoPages .shipped).perSeg := by decide
  have hbucket : bucketNumber (Geometry.twoPages .shipped).blockSize 0 ≠
      bucketNumber (Geometry.twoPages .shipped).blockSize 8192 := by decide
  have hdvd : pageSize ∣ (Geometry.twoPages .shipped).blockSize := by decide
  obtain ⟨low, hpaged⟩ := @IsChain.paged_of_fmmap _ _ (fun _ => some f) [1] _ _ ses _ _
    himage.isChain himage.size_lt hdvd hopen
  obtain ⟨st, x, y, hrun, hreads, hx, hk, hy, heq, hentry, ce, ce', hperm, hce, hce', hslot⟩ :=
    Inserts.exists_overlapping hpaged.toLayered rfl hdvd hpaged.off_dvd hper hbucket hnb hnb'
      (by rw [hcow]; rfl)
  refine ⟨fun _ => some f, ses, st, x, y, ce, ce', himage, hopen, hrun, hreads, hx, hy, heq,
    fun hown => ?_, hperm, hce, hce', hslot⟩
  -- the first call has read the index of the second entry
  have hindex := hown.2
  rw [hentry, hk] at hindex
  exact absurd hindex (by decide)

end Pcow
