import Pcow.Bitmap
import Mathlib.Algebra.BigOperators.Group.Finset.Basic

/-!
# The books of the table

Three counters follow the table of incomplete blocks: `cow_ht.size`, the field `fg_counter` of the
meta blocks, which is in the image, and `copied_counter` of each entry. An entry leaves its chain by
two routes. `delete_ht` brings the counters down; `search_ht`, which unlinks the first entry of a
chain, does not. `cow_handler` brings `copied_counter` up by the number of the unit it copies, where
one unit is copied.

So the books are right in a run whose searches are not for the first entry of a chain and whose
copies are of the second unit of a block (`books_right`). In such a run `delete_ht` removes an entry
if there is another one behind it: after the last entry of a chain its loop follows a null pointer,
and where there is no entry with the key it counts one down nevertheless.
-/

namespace Pcow

variable {cfg : Config} {g : Geometry cfg} {f f' : ByteFile} {fs : Fs} {fd : Path}
  {off b v k i key : ℕ} {es : List ℕ} {ls : List (List ℕ)} {low : PageTable Path}

/-! ### The loop of `delete_ht` -/

/-- The loop of `delete_ht` over a chain: the chain afterwards, and the entries that were taken out
of it. After it has unlinked an entry it goes on behind the one that follows, which it expects to
exist. -/
def deleteLoop (key : ℕ) : List CowEntry → Except Fault (List CowEntry × List CowEntry)
  | [] => .ok ([], [])
  | [e] => if e.faultVoffAligned = key then .error .sigsegv else .ok ([e], [])
  | e :: e' :: l =>
    if e.faultVoffAligned = key then (deleteLoop key l).map fun x => (e' :: x.1, e :: x.2)
    else (deleteLoop key (e' :: l)).map fun x => (e :: x.1, x.2)

/-- It leaves a chain without the key alone. -/
theorem deleteLoop_of_not_mem {l : List CowEntry} (h : ∀ e ∈ l, e.faultVoffAligned ≠ key) :
    deleteLoop key l = .ok (l, []) := by
  induction l with
  | nil => rfl
  | cons e l ih =>
    rw [List.forall_mem_cons] at h
    rcases l with _ | ⟨e', l⟩
    · rw [deleteLoop, if_neg h.1]
    · rw [deleteLoop, if_neg h.1, ih h.2]
      rfl

/-- **What it does to the entry with the key**, in a chain that has one: it takes it out if there is
another entry behind it. -/
theorem deleteLoop_middle {l₁ l₂ : List CowEntry} {ce : CowEntry}
    (hl₁ : ∀ e ∈ l₁, e.faultVoffAligned ≠ key) (hkey : ce.faultVoffAligned = key)
    (hl₂ : ∀ e ∈ l₂, e.faultVoffAligned ≠ key) : deleteLoop key (l₁ ++ ce :: l₂) =
      if l₂ = [] then .error .sigsegv else .ok (l₁ ++ l₂, [ce]) := by
  induction l₁ with
  | nil =>
    rcases l₂ with _ | ⟨e', l₂⟩
    · rw [List.nil_append, deleteLoop, if_pos hkey, if_pos rfl]
    · rw [List.forall_mem_cons] at hl₂
      rw [List.nil_append, deleteLoop, if_pos hkey, deleteLoop_of_not_mem hl₂.2,
        if_neg (List.cons_ne_nil _ _)]
      rfl
  | cons e l₁ ih =>
    rw [List.forall_mem_cons] at hl₁
    obtain ⟨e', l, hl⟩ : ∃ e' l, l₁ ++ ce :: l₂ = e' :: l :=
      List.exists_cons_of_ne_nil (List.append_ne_nil_of_right_ne_nil _ (List.cons_ne_nil _ _))
    rw [List.cons_append, hl, deleteLoop, if_neg hl₁.1, ← hl, ih hl₁.2]
    split_ifs
    · rfl
    · rfl

/-- A key is that of one entry of its chain. -/
theorem CowTables.Ok.key_ne_of_middle {c : CowTables} {n : ℕ} (h : c.Ok n) {ce : CowEntry}
    {l₁ l₂ : List CowEntry} (hl : c.buckets i = l₁ ++ ce :: l₂) (hkey : ce.faultVoffAligned = key) :
    (∀ e ∈ l₁, e.faultVoffAligned ≠ key) ∧ ∀ e ∈ l₂, e.faultVoffAligned ≠ key := by
  have hnd := h.nodup i
  rw [hl, List.map_append, List.map_cons, List.nodup_middle, List.nodup_cons, ← List.map_append,
    hkey] at hnd
  have hne : ∀ e ∈ l₁ ++ l₂, e.faultVoffAligned ≠ key := fun e he heq =>
    hnd.1 (List.mem_map.mpr ⟨e, he, heq⟩)
  exact ⟨fun e he => hne e (List.mem_append_left _ he),
    fun e he => hne e (List.mem_append_right _ he)⟩

/-! ### The number of entries -/

/-- The number of entries of the table with a property. -/
def CowTables.chained (c : CowTables) (p : CowEntry → Bool) : ℕ :=
  ∑ i ∈ Finset.range bucketNum, (c.buckets i).countP p

section Chained

variable {c c' : CowTables} {p q : CowEntry → Bool} {l l₁ l₂ : List CowEntry} {ce : CowEntry}

theorem CowTables.chained_congr (h : ∀ i, (c'.buckets i).countP q = (c.buckets i).countP p) :
    c'.chained q = c.chained p :=
  Finset.sum_congr rfl fun i _ => h i

/-- The chain of a bucket is replaced. -/
theorem CowTables.chained_setBucket (hb : b < bucketNum) :
    (c.setBucket b l).chained p + (c.buckets b).countP p = c.chained p + l.countP p := by
  have hmem : b ∈ Finset.range bucketNum := Finset.mem_range.mpr hb
  have hself : (c.setBucket b l).buckets b = l := Function.update_self _ _ _
  have hother : ∀ i ∈ (Finset.range bucketNum).erase b,
      ((c.setBucket b l).buckets i).countP p = (c.buckets i).countP p := by
    intro i hi
    have : (c.setBucket b l).buckets i = c.buckets i :=
      Function.update_of_ne (Finset.ne_of_mem_erase hi) _ _
    rw [this]
  rw [chained, chained, ← Finset.add_sum_erase _ _ hmem, ← Finset.add_sum_erase _ _ hmem, hself,
    Finset.sum_congr rfl hother]
  omega

/-- An entry is linked. -/
theorem CowTables.chained_link (hb : b < bucketNum) :
    (c.link b ce).chained p = c.chained p + if p ce then 1 else 0 := by
  have h := c.chained_setBucket (p := p) (l := ce :: c.buckets b) hb
  rw [List.countP_cons] at h
  have hlink : (c.link b ce).chained p = (c.setBucket b (ce :: c.buckets b)).chained p := rfl
  rw [hlink]
  omega

/-- An entry is unlinked. -/
theorem CowTables.chained_unlink (hb : b < bucketNum) (hl : c.buckets b = l₁ ++ ce :: l₂) :
    (c.setBucket b (l₁ ++ l₂)).chained p + (if p ce then 1 else 0) = c.chained p := by
  have h := c.chained_setBucket (p := p) (l := l₁ ++ l₂) hb
  rw [hl, List.countP_append, List.countP_cons, List.countP_append] at h
  omega

/-- An entry is changed, but not in the property. -/
theorem CowTables.chained_modify {F : CowEntry → CowEntry} (hF : ∀ e, p (F e) = p e) :
    (c.modify b key F).chained p = c.chained p := by
  refine chained_congr fun i => ?_
  by_cases hi : i = b
  · have hself : (c.modify b key F).buckets b =
        (c.buckets b).map fun e => if e.faultVoffAligned = key then F e else e :=
      Function.update_self _ _ _
    rw [hi, hself, List.countP_map]
    congr 1
    funext e
    rw [Function.comp_apply]
    split_ifs
    · exact hF e
    · rfl
  · have hother : (c.modify b key F).buckets i = c.buckets i := Function.update_of_ne hi _ _
    rw [hother]

end Chained

/-! ### The counters of the meta blocks -/

/-- The bytes of the fields `fg_counter`. -/
def CounterByte (g : Geometry cfg) (off a : ℕ) : Prop :=
  ∃ i, g.blockAt off (g.metaBlock i) + 4 ≤ a ∧ a < g.blockAt off (g.metaBlock i) + 8

/-- The fields `fg_counter` are left alone. -/
def SameCounters (g : Geometry cfg) (off : ℕ) (f f' : ByteFile) : Prop :=
  ∀ i, f'.loadInt (g.blockAt off (g.metaBlock i) + 4) =
    f.loadInt (g.blockAt off (g.metaBlock i) + 4)

section Counters

variable {a : ℕ}

theorem sameCounters_of_byte (h : ∀ a, CounterByte g off a → f'.byte a = f.byte a) :
    SameCounters g off f f' :=
  fun i => ByteFile.loadInt_congr fun a h₁ h₂ => h a ⟨i, h₁, by omega⟩

theorem Geometry.counter_not_slot (h : CounterByte g off a) (j : ℕ) :
    a < g.slot off j ∨ g.slot off j + cfg.entrySize ≤ a := by
  obtain ⟨i, h₁, h₂⟩ := h
  exact Geometry.slot_not_line (i := i) (by omega) (by omega)

theorem Geometry.counter_not_data (h : CounterByte g off a) (j : ℕ) :
    ¬(g.dataOff off j ≤ a ∧ a < g.dataOff off j + g.blockSize) := by
  obtain ⟨i, h₁, h₂⟩ := h
  have hbs := g.entry_le
  exact g.blockAt_disjoint (i := g.metaBlock i) Geometry.metaBlock_ne_dataBlock (by omega)
    (by omega)

/-- **`new_block` leaves the counters alone**, as long as there is room in the first meta block. -/
theorem AppendByte.not_counter (h : AppendByte g off k a) (hk : k < g.perSeg) :
    ¬CounterByte g off a := by
  intro hc
  have hbs := g.entry_le
  have hslot := Geometry.counter_not_slot hc k
  rcases h with ⟨h₁, h₂⟩ | ⟨-, h₁, h₂⟩ | ⟨hfull, -⟩
  · omega
  · obtain ⟨i, h₃, h₄⟩ := hc
    by_cases hi : g.metaBlock i = g.metaBlock (g.lastSeg k)
    · rw [hi] at h₃
      omega
    · exact g.blockAt_disjoint (i := g.metaBlock (g.lastSeg k)) (Ne.symm hi) h₁ (by omega)
        ⟨Nat.le_of_add_right_le h₃, by omega⟩
  · have : k - g.lastSeg k * g.perSeg ≤ k := Nat.sub_le _ _
    omega

/-- The counter of a meta block is stored to. -/
theorem loadInt_storeCounter {j : ℕ} (hs : g.blockAt off (g.metaBlock j) + 8 ≤ f.size) (z : ℤ) :
    (f.store (g.blockAt off (g.metaBlock j) + 4) 4 (u32 (i32 z))).loadInt
        (g.blockAt off (g.metaBlock i) + 4) =
      if i = j then i32 z else f.loadInt (g.blockAt off (g.metaBlock i) + 4) := by
  split_ifs with hij
  · rw [hij]
    exact ByteFile.loadInt_store_self (by omega) (i32_range z).1 (i32_range z).2
  · have hne : g.metaBlock i ≠ g.metaBlock j := fun h => hij (Geometry.metaBlock_injective h)
    refine ByteFile.loadInt_store_disjoint ?_
    have hbs := g.entry_le
    rcases lt_or_gt_of_ne hne with hlt | hlt
    · have := g.blockAt_add_le off hlt
      omega
    · have := g.blockAt_add_le off hlt
      omega

end Counters

/-! ### The operations on the table -/

namespace Session

variable {ses ses' : Session} {n n' : ℕ} {ops : List FileOp} {ce : CowEntry}

/-- The decrement of the field `fg_counter` in `delete_ht`. -/
def fgCounterDec (f : ByteFile) (m : Meta) : List FileOp :=
  [storeInt (m.pmTop + 4) (i32 (f.loadInt (m.pmTop + 4) - 1)), .flush m.pmTop, .fence]

/-- `delete_ht`, with what it hands to `free`. Where it has found no entry that is a pointer it has
never assigned. -/
def deleteHt (ses : Session) (key : ℕ) : Except Fault (Session × Option CowEntry) :=
  let bucket := bucketNumber (u64 ses.s.blockSize) key
  (deleteLoop key (ses.cow.buckets bucket)).map fun x =>
    let ses₁ := x.2.foldl (fun ses ce => ses.issue (fgCounterDec ses.file ce.m)) ses
    ({ ses₁ with cow := { ses₁.cow.setBucket bucket x.1 with htSize := ses₁.cow.htSize - 1 } },
      x.2.getLast?)

/-- A call of `search_ht`. -/
def searchTable (ses : Session) (key : ℕ) : Session :=
  let bucket := bucketNumber (u64 ses.s.blockSize) key
  match searchHt key 0 (ses.cow.buckets bucket) with
  | none => ses
  | some (_, _, rest) => { ses with cow := ses.cow.setBucket bucket rest }

/-- The block of `v`, as `cow_handler` and `insert_list` compute it. -/
def alignedOf (ses : Session) (v : ℕ) : ℕ := v / u64 ses.s.blockSize * u64 ses.s.blockSize

/-- The chain of that block. -/
def chainOf (ses : Session) (v : ℕ) : List CowEntry :=
  ses.cow.buckets (bucketNumber (u64 ses.s.blockSize) (ses.alignedOf v))

/-- The operations on the table, each for the block of an offset. -/
inductive TableOp
  | insert (v : ℕ) : TableOp
  | search (v : ℕ) : TableOp
  | delete (v : ℕ) : TableOp
  | copy (v : ℕ) : TableOp

/-- **The steps**: `insert_ht` is called for a block that is not in the table, and as long as there
is room in the first meta block. -/
inductive TableStep (cfg : Config) (ses : Session) : TableOp → Session → Prop
  | insert {ses' : Session} {ce : CowEntry} {ops : List FileOp} {n n' v : ℕ} :
      v < ses.s.fmmapLength →
      (∀ e ∈ ses.chainOf v, e.faultVoffAligned ≠ ses.alignedOf v) →
      ses.s.toAllocNum ≤ ses.s.maxPerSeg →
      ses.insertHt cfg n n' (ses.alignedOf v) = .ok (ses', ce, ops) →
        TableStep cfg ses (.insert v) ses'
  | search (v : ℕ) : TableStep cfg ses (.search v) (ses.searchTable (ses.alignedOf v))
  | delete {ses' : Session} {x : Option CowEntry} {v : ℕ} :
      ses.deleteHt (ses.alignedOf v) = .ok (ses', x) → TableStep cfg ses (.delete v) ses'
  | copy {ses' : Session} {ops : List FileOp} {n n' v : ℕ} : v < ses.s.fmmapLength →
      (ses.NeedsBlock v → ses.s.toAllocNum ≤ ses.s.maxPerSeg) →
      ses.cowHandler cfg n n' v = .ok (ses', ops) → TableStep cfg ses (.copy v) ses'

/-- The block of `v` is the first of its chain. -/
def Heads (ses : Session) (v : ℕ) : Prop :=
  ∃ ce l, ses.chainOf v = ce :: l ∧ ce.faultVoffAligned = ses.alignedOf v

/-- The block of `v` has an entry, and there is another one behind it. -/
def Followed (ses : Session) (v : ℕ) : Prop :=
  ∃ l₁ ce l₂, ses.chainOf v = l₁ ++ ce :: l₂ ∧ ce.faultVoffAligned = ses.alignedOf v ∧ l₂ ≠ []

/-- **The operations the counters follow.** -/
def Counted (ses : Session) : TableOp → Prop
  | .insert _ => True
  | .search v => ¬ses.Heads v
  | .delete v => ses.Followed v
  | .copy v => v > u64 (ses.globalLength - ses.s.blockSize) ∨
      ses.cow.InList (v / cowUnit * cowUnit) ∨
      (¬ses.Heads v ∧ v % u64 ses.s.blockSize / cowUnit = 1)

/-- The slot of an entry lies in meta block `i`. -/
def slotIn (g : Geometry cfg) (off i : ℕ) (ce : CowEntry) : Bool :=
  g.blockAt off (g.metaBlock i) ≤ ce.metaEntry ∧
    ce.metaEntry < g.blockAt off (g.metaBlock i) + g.blockSize

/-- **The books are right**; `f` is the file at the start. -/
structure BooksRight (ses : Session) (g : Geometry cfg) (off : ℕ) (f : ByteFile) : Prop where
  /-- A chain has keys of its bucket only, and none twice. -/
  chains : ses.cow.Ok g.blockSize
  size : ses.cow.htSize = ses.cow.chained fun _ => true
  fgCounter : ∀ i, ses.file.loadInt (g.blockAt off (g.metaBlock i) + 4) =
    i32 (f.loadInt (g.blockAt off (g.metaBlock i) + 4) + ses.cow.chained (slotIn g off i))
  copied : ∀ i, ∀ ce ∈ ses.cow.buckets i, ce.copiedCounter = ce.moved.length ∧ ce.moved.Nodup

/-- **`delete_ht` removes exactly the entry of the block of `v`**, and changes nothing if there is
none. Besides the table there are its counter and the one of its meta block. -/
def DeletesExactly (ses : Session) (v : ℕ) : Prop :=
  ∃ ses' x, ses.deleteHt (ses.alignedOf v) = .ok (ses', x) ∧
    (((∀ e ∈ ses.chainOf v, e.faultVoffAligned ≠ ses.alignedOf v) ∧ ses' = ses) ∨
    ∃ l₁ ce l₂, ses.chainOf v = l₁ ++ ce :: l₂ ∧ ce.faultVoffAligned = ses.alignedOf v ∧
      x = some ce ∧
      ses' = { ses.issue (fgCounterDec ses.file ce.m) with
        cow := { ses.cow.setBucket (bucketNumber (u64 ses.s.blockSize) (ses.alignedOf v))
          (l₁ ++ l₂) with
          htSize := ses.cow.htSize - 1 } })

/-! ### What the operations do to the counters -/

theorem Layered.alignedOf_eq (h : ses.Layered g off es) (v : ℕ) :
    ses.alignedOf v = v / g.blockSize * g.blockSize := by
  rw [alignedOf, h.super.u64_blockSize]

theorem Layered.bucketNumber_eq (h : ses.Layered g off es) (v : ℕ) :
    bucketNumber (u64 ses.s.blockSize) (ses.alignedOf v) = v / g.blockSize % bucketNum := by
  rw [h.alignedOf_eq, bucketNumber, h.super.u64_blockSize, Nat.mul_div_cancel _ g.blockSize_pos]

theorem Layered.chainOf_eq (h : ses.Layered g off es) (v : ℕ) :
    ses.chainOf v = ses.cow.buckets (v / g.blockSize % bucketNum) := by
  rw [chainOf, h.bucketNumber_eq]

/-- `new_block`. -/
theorem Layered.counters_newBlock (h : ses.Layered g off es) (hroom : es.length < g.perSeg)
    {s' : Super}
    {r' : Ring} {nb : NewBlock} {faultOff : ℕ}
    (hr : Pcow.newBlock cfg ses.file ses.s ses.ring n n' faultOff = .ok (s', r', nb, ops)) :
    SameCounters g off ses.file ({ ses.issue ops with s := s', ring := r' } : Session).file := by
  obtain ⟨-, -, -, henv, happ, -, -⟩ := h.layer.newBlock h.size_lt h.super h.ring hr
  rw [file_issue_of_fd henv.1]
  exact sameCounters_of_byte fun a ha => FileOp.byte_run_of_not_touches fun o ho ht =>
    (happ.touches o ho a ht).not_counter hroom ha

/-- The second half of `insert_ht`, for an entry of the first meta block. -/
theorem counters_linkEntry {nb : NewBlock} (hm : ce.m.pmTop = g.blockAt off (g.metaBlock 0))
    (hs : g.blockAt off (g.metaBlock 0) + 8 ≤ ses.file.size)
    (hr : ses.linkEntry cfg nb key = .ok (ses', ce, ops)) :
    ses'.file.loadInt (g.blockAt off (g.metaBlock i) + 4) =
      if i = 0 then i32 (ses.file.loadInt (g.blockAt off (g.metaBlock 0) + 4) + 1)
      else ses.file.loadInt (g.blockAt off (g.metaBlock i) + 4) := by
  obtain ⟨m, -, hce, hses', hops⟩ := linkEntry_ok hr
  have hpm : m.pmTop = g.blockAt off (g.metaBlock 0) := by
    rw [← hm, hce]
    rfl
  have hfile : ses'.file = FileOp.run ops ses.file := by
    rw [← file_issue, hses']
    rfl
  have hstore : FileOp.run ops ses.file =
      ses.file.store (m.pmTop + 4) 4 (u32 (i32 (ses.file.loadInt (m.pmTop + 4) + 1))) := by
    rw [hops]
    rfl
  rw [hfile, hstore, hpm]
  exact loadInt_storeCounter hs _

/-- `insert_ht`. -/
theorem Layered.counters_insertHt (h : ses.Layered g off es) (hcfg : cfg.entrySize = 8)
    (hdvd : pageSize ∣ g.blockSize) (hroom : es.length < g.perSeg)
    (hr : ses.insertHt cfg n n' key = .ok (ses', ce, ops)) (i : ℕ) :
    ses'.file.loadInt (g.blockAt off (g.metaBlock i) + 4) =
      i32 (ses.file.loadInt (g.blockAt off (g.metaBlock i) + 4) + if i = 0 then 1 else 0) := by
  obtain ⟨hm, -⟩ := h.insertHt_locatesEntry hdvd hroom hr
  rw [Nat.div_eq_of_lt hroom] at hm
  obtain ⟨s', r', nb, ops₁, ops₂, hnb, hlink, -⟩ := insertHt_ok hr
  obtain ⟨h₁, -, -, -⟩ := h.newBlock hnb
  have hsize := h₁.layer.slot_lt_size (k := es.length) (by simp)
  have hslot := g.slot_mem off es.length
  rw [Nat.div_eq_of_lt hroom] at hslot
  have hsame := h.counters_newBlock hroom hnb
  rw [counters_linkEntry hm (by omega) hlink, hsame, hsame]
  split_ifs with hi
  · rw [hi]
  · rw [add_zero]
    exact (i32_of_range (i32_range _).1 (i32_range _).2).symm

/-- The copy of a unit. -/
theorem counters_copyUnit {aligned d : ℕ} (hdata : ce.blockOff = g.dataOff off k)
    (hentry : ce.metaEntry = g.slot off k) (hle : d + cowUnit ≤ g.blockSize)
    (hr : ses.copyUnit cfg ⟨aligned + d, cowUnit⟩ ce aligned = .ok (ses', ops)) :
    SameCounters g off ses.file ses'.file := by
  obtain ⟨ses₁, hses₁, hfile⟩ := file_copyUnit hr
  refine sameCounters_of_byte fun a ha => ?_
  have hslot := Geometry.counter_not_slot ha k
  have hnot := Geometry.counter_not_data ha k
  rw [hfile, hentry, file_entryStore, ByteFile.byte_store_of_notMem hslot, file_copied hses₁]
  refine FileOp.byte_run_of_not_touches fun o ho ht => ?_
  obtain ⟨h₁, h₂⟩ := FileOp.touches_memcpy ho ht
  rw [hdata] at h₁ h₂
  exact hnot ⟨by omega, by omega⟩

/-! ### The steps that keep the books -/

/-- **The books are in order**, and what they are about as well. -/
structure Booked (ses : Session) (g : Geometry cfg) (off : ℕ) (es : List ℕ)
    (low : PageTable Path) (f : ByteFile) : Prop extends ses.Marked g off es low where
  right : ses.BooksRight g off f
  top : ∀ i, ∀ ce ∈ ses.cow.buckets i, ce.m.pmTop = g.blockAt off (g.metaBlock 0)

/-- The slots of the table are in the first meta block. -/
theorem Marked.slotIn_iff (h : ses.Marked g off es low) {j : ℕ} (hce : ce ∈ ses.cow.buckets j) :
    slotIn g off i ce = true ↔ i = 0 := by
  obtain ⟨k, hk⟩ := h.marked j ce hce
  have hmem := g.slot_mem off k
  rw [Nat.div_eq_of_lt hk.first, ← hk.entry] at hmem
  have hbs := entrySize_ge cfg
  rw [slotIn, decide_eq_true_eq]
  constructor
  · rintro ⟨h₁, h₂⟩
    by_contra hi
    have hne : g.metaBlock i ≠ g.metaBlock 0 := fun heq => hi (Geometry.metaBlock_injective heq)
    exact g.blockAt_disjoint hne h₁ h₂ ⟨by omega, by omega⟩
  · rintro rfl
    omega

theorem Marked.slotIn_count (h : ses.Marked g off es low) {j : ℕ} (hce : ce ∈ ses.cow.buckets j) :
    (if slotIn g off i ce then 1 else 0) = if i = 0 then 1 else 0 := by
  simp only [h.slotIn_iff hce]

theorem insertHt_copiedCounter (hr : ses.insertHt cfg n n' key = .ok (ses', ce, ops)) :
    ce.copiedCounter = 0 := by
  obtain ⟨s', r', nb, ops₁, ops₂, -, hlink, -⟩ := insertHt_ok hr
  obtain ⟨m, -, hce, -⟩ := linkEntry_ok hlink
  rw [hce]
  rfl

/-- **`insert_ht`**. -/
theorem Booked.insertHt (h : ses.Booked g off es low f) (hcfg : cfg.entrySize = 8)
    (hv : v < ses.s.fmmapLength) (hroom : es.length < g.perSeg)
    (hnone : ∀ e ∈ ses.cow.buckets (v / g.blockSize % bucketNum),
      e.faultVoffAligned ≠ v / g.blockSize * g.blockSize)
    (hr : ses.insertHt cfg n n' (v / g.blockSize * g.blockSize) = .ok (ses', ce, ops)) :
    ses'.Booked g off (es ++ [v / g.blockSize]) low f := by
  have h' := h.toMarked.insertHt hcfg hv hroom hnone hr
  obtain ⟨hcow, -, hnil, -⟩ := h.toLayered.insertHt_cow hr
  obtain ⟨-, hmem, -, -, -, hold, -, -⟩ := h.toTabled.insertHt_table hnone hr
  obtain ⟨htop, -⟩ := h.toLayered.insertHt_locatesEntry h.page_dvd hroom hr
  rw [Nat.div_eq_of_lt hroom] at htop
  have hb : v / g.blockSize % bucketNum < bucketNum := Nat.mod_lt _ (by decide)
  refine ⟨h', ⟨h'.tables, ?_, fun i => ?_, fun i e he => ?_⟩, fun i e he => ?_⟩
  · have hsize : ses'.cow.htSize = ses.cow.htSize + 1 := by rw [hcow]; rfl
    rw [hsize, h.right.size, hcow, CowTables.chained_link hb]
    rfl
  · rw [h.toLayered.counters_insertHt hcfg h.page_dvd hroom hr i, h.right.fgCounter i,
      i32_add, hcow, CowTables.chained_link hb, h'.slotIn_count hmem]
    push_cast
    ring_nf
  · rcases hold i e he with rfl | he
    · exact ⟨by rw [insertHt_copiedCounter hr, hnil]; rfl, by rw [hnil]; exact List.nodup_nil⟩
    · exact h.right.copied i e he
  · rcases hold i e he with rfl | he
    · exact htop
    · exact h.top i e he

/-- The lists of recent copies do not matter. -/
theorem Booked.setLists (h : ses.Booked g off es low f) {c : CowTables}
    (hc : c.buckets = ses.cow.buckets) (hsize : c.htSize = ses.cow.htSize) :
    ({ ses with cow := c } : Session).Booked g off es low f := by
  have hcount : ∀ p, c.chained p = ses.cow.chained p := fun p =>
    CowTables.chained_congr fun i => by rw [hc]
  refine ⟨h.toMarked.setLists hc, ⟨h.tables.congr hc, ?_, fun i => ?_, ?_⟩, ?_⟩
  · rw [hsize, hcount]
    exact h.right.size
  · rw [hcount]
    exact h.right.fgCounter i
  · rw [hc]
    exact h.right.copied
  · rw [hc]
    exact h.top

/-- A search that is not for the first entry of a chain changes nothing. -/
theorem searchTable_eq (hno : ¬ses.Heads v) : ses.searchTable (ses.alignedOf v) = ses := by
  rw [searchTable]
  split
  · rfl
  · rename_i e full rest hsearch
    rcases full with _ | _
    · obtain ⟨-, -, -, ⟨hfull, -⟩ | ⟨-, -, rfl⟩⟩ := searchHt_eq_some hsearch
      · cases hfull
      · have hcow : ses.cow.setBucket (bucketNumber (u64 ses.s.blockSize) (ses.alignedOf v))
            (ses.cow.buckets (bucketNumber (u64 ses.s.blockSize) (ses.alignedOf v))) = ses.cow := by
          rw [CowTables.setBucket, Function.update_eq_self]
        rw [hcow]
    · obtain ⟨e₀, hl, hkey, -⟩ := searchHt_full hsearch
      exact absurd ⟨e₀, rest, hl, hkey⟩ hno

/-- **The copy of the second unit of a block**: `copied_counter` goes up by the number of the unit,
which is one. -/
theorem Booked.copiesUnit (h : ses.Booked g off es low f) (hcfg : cfg.entrySize = 8)
    (hv : v < ses.s.fmmapLength) (hce : ce ∈ ses.cow.buckets (v / g.blockSize % bucketNum))
    (hkey : ce.faultVoffAligned = v / g.blockSize * g.blockSize)
    (hsecond : v % g.blockSize / cowUnit = 1) {fr : Option CowEntry}
    (hcopy : ses.CopiesUnit cfg n n' ce (v / cowUnit * cowUnit) (v / g.blockSize * g.blockSize)
      ses' fr) : ses'.Booked g off es low f := by
  obtain ⟨k, hk⟩ := h.marked _ ce hce
  obtain ⟨hunit, hdle⟩ := g.unit_eq h.page_dvd v
  rw [hsecond, Nat.one_mul] at hunit hdle
  have hne : (cowUnit : ℤ) ≠ ses.s.blockSize := by
    have : 0 < cowUnit := by decide
    rw [h.super.blockSize]
    omega
  obtain ⟨es', -, hsame, h'⟩ := h.toMarked.copiesUnit hcfg hv hce hkey hcopy
  rw [hsame hne] at h'
  have hcow := hcopy.cow
  rw [hunit] at hcopy hcow
  rcases hcopy with ⟨-, -, ops, hr⟩ | ⟨heq, -⟩
  · rcases hcow with ⟨heq, -⟩ | ⟨-, -, hcow⟩
    · exact absurd heq hne
    rw [Nat.add_sub_cancel_left, bucketNumber, h.super.u64_blockSize,
      Nat.mul_div_cancel _ g.blockSize_pos] at hcow
    have hfresh : cowUnit ∉ ce.moved := by
      rw [Session.copyUnit, Nat.add_sub_cancel_left] at hr
      split_ifs at hr with hmoved
      exact hmoved
    have hcount : ∀ p : CowEntry → Bool, (∀ e, p (CowEntry.moveOut cowUnit e) = p e) →
        ses'.cow.chained p = ses.cow.chained p := fun p hp => by
      rw [hcow, CowTables.chained_modify hp]
    refine ⟨h', ⟨h'.tables, ?_, fun i => ?_, fun i e he => ?_⟩, fun i e he => ?_⟩
    · have hsize : ses'.cow.htSize = ses.cow.htSize := by rw [hcow]; rfl
      rw [hsize, hcount _ fun _ => rfl]
      exact h.right.size
    · rw [counters_copyUnit hk.data hk.entry hdle hr i, hcount _ fun _ => rfl]
      exact h.right.fgCounter i
    · rw [hcow] at he
      rcases h.tables.mem_modify g.blockSize_pos hce hkey he with rfl | ⟨he, -⟩
      · obtain ⟨hcopied, hnodup⟩ := h.right.copied _ ce hce
        refine ⟨?_, List.nodup_cons.mpr ⟨hfresh, hnodup⟩⟩
        rw [CowEntry.moveOut, hcopied, List.length_cons, Nat.div_self (by decide)]
        push_cast
        rfl
      · exact h.right.copied i e he
    · rw [hcow] at he
      rcases h.tables.mem_modify g.blockSize_pos hce hkey he with rfl | ⟨he, -⟩
      · exact h.top _ ce hce
      · exact h.top i e he
  · exact absurd heq hne

/-- **`cow_handler`**, for a block that is not the first of its chain, and the second unit of it. -/
theorem Booked.cowHandler (h : ses.Booked g off es low f) (hfine : cfg.finegrainedCow = true)
    (hv : v < ses.s.fmmapLength) (hroom : ses.NeedsBlock v → es.length < g.perSeg)
    (hcounted : ses.Counted (.copy v)) (hr : ses.cowHandler cfg n n' v = .ok (ses', ops)) :
    ∃ es', ses'.Booked g off es' low f := by
  have hcfg : cfg.entrySize = 8 := by rw [Config.entrySize, hfine]; rfl
  rcases hcounted with hout | hlist | ⟨hno, hsecond⟩
  · rw [Session.cowHandler, if_pos hout] at hr
    cases hr
    exact ⟨es, h⟩
  · rw [Session.cowHandler] at hr
    simp only [hfine, if_true, if_pos hlist] at hr
    split_ifs at hr
    · cases hr
      exact ⟨es, h⟩
    · cases hr
      exact ⟨es, h⟩
  · rw [h.super.u64_blockSize] at hsecond
    rcases h.toLayered.cowHandler_cases h.page_dvd hfine hr with ⟨rfl, -⟩ |
      ⟨c, ce, l, hl, hkey, -⟩ | ⟨c, ce, hce, hkey, hc, hsize, -, hcopy⟩ |
      ⟨c, ses₁, ce, ops₁, hnone, hins, hc, hsize, hcopy⟩
    · exact ⟨es, h⟩
    · refine absurd ⟨ce, l, ?_, ?_⟩ hno
      · rw [h.toLayered.chainOf_eq, hl]
      · rw [h.toLayered.alignedOf_eq, hkey]
    · exact ⟨es, (h.setLists hc hsize).copiesUnit hcfg hv (hc ▸ hce) hkey hsecond hcopy⟩
    · obtain ⟨-, hmem, hkey, -⟩ := h.toTabled.insertHt_table hnone hins
      have hneeds : ses.NeedsBlock v := by
        rw [NeedsBlock, h.super.u64_blockSize]
        exact searchHt_eq_none.mpr hnone
      have h₁ := (h.insertHt hcfg hv (hroom hneeds) hnone hins).setLists hc hsize
      have hv₁ : v < ({ ses₁ with cow := c } : Session).s.fmmapLength :=
        (insertHt_sameFixed hins).1.fmmapLength.symm ▸ hv
      exact ⟨_, h₁.copiesUnit hcfg hv₁ (hc ▸ hmem) hkey hsecond hcopy⟩

/-! ### `delete_ht` -/

/-- **What `delete_ht` does for a key of the table**. -/
theorem deleteHt_middle (hok : ses.cow.Ok n) {l₁ l₂ : List CowEntry}
    (hl : ses.chainOf v = l₁ ++ ce :: l₂)
    (hkey : ce.faultVoffAligned = ses.alignedOf v) : ses.deleteHt (ses.alignedOf v) =
      if l₂ = [] then .error .sigsegv
      else .ok ({ ses.issue (fgCounterDec ses.file ce.m) with
        cow := { ses.cow.setBucket (bucketNumber (u64 ses.s.blockSize) (ses.alignedOf v))
          (l₁ ++ l₂) with
          htSize := ses.cow.htSize - 1 } }, some ce) := by
  obtain ⟨hl₁, hl₂⟩ := hok.key_ne_of_middle hl hkey
  rw [deleteHt]
  rw [chainOf] at hl
  rw [hl, deleteLoop_middle hl₁ hkey hl₂]
  split_ifs
  · rfl
  · rfl

/-- For another key it counts one down. -/
theorem deleteHt_of_not_mem (hno : ∀ e ∈ ses.chainOf v, e.faultVoffAligned ≠ ses.alignedOf v) :
    ∃ ses', ses.deleteHt (ses.alignedOf v) = .ok (ses', none) ∧ ses'.fs = ses.fs ∧
      ses'.cow.buckets = ses.cow.buckets ∧ ses'.cow.htSize = ses.cow.htSize - 1 := by
  rw [deleteHt]
  rw [chainOf] at hno
  rw [deleteLoop_of_not_mem hno]
  exact ⟨_, rfl, rfl, Function.update_eq_self _ _, rfl⟩

/-- The decrement of the counter of the first meta block. -/
theorem counters_counterDec {m : Meta} (hm : m.pmTop = g.blockAt off (g.metaBlock 0))
    (hs : g.blockAt off (g.metaBlock 0) + 8 ≤ ses.file.size) (i : ℕ) :
    (ses.issue (fgCounterDec ses.file m)).file.loadInt (g.blockAt off (g.metaBlock i) + 4) =
      i32 (ses.file.loadInt (g.blockAt off (g.metaBlock i) + 4) - if i = 0 then 1 else 0) := by
  have hrun : FileOp.run (fgCounterDec ses.file m) ses.file =
      ses.file.store (m.pmTop + 4) 4 (u32 (i32 (ses.file.loadInt (m.pmTop + 4) - 1))) := rfl
  rw [file_issue, hrun, hm, loadInt_storeCounter hs]
  split_ifs with hi
  · rw [hi]
  · rw [sub_zero]
    exact (i32_of_range (i32_range _).1 (i32_range _).2).symm

/-- It leaves everything else alone. -/
theorem Marked.issue_counterDec (h : ses.Marked g off es low) (hcfg : cfg.entrySize = 8) {m : Meta}
    (hm : m.pmTop = g.blockAt off (g.metaBlock 0)) :
    (ses.issue (fgCounterDec ses.file m)).Marked g off es low := by
  have hrun : FileOp.run (fgCounterDec ses.file m) ses.file =
      ses.file.store (m.pmTop + 4) 4 (u32 (i32 (ses.file.loadInt (m.pmTop + 4) - 1))) := rfl
  have hbyte : ∀ x, x < m.pmTop + 4 ∨ m.pmTop + 8 ≤ x →
      (FileOp.run (fgCounterDec ses.file m) ses.file).byte x = ses.file.byte x := by
    intro x hx
    rw [hrun]
    exact ByteFile.byte_store_of_notMem (by omega)
  have hmark : MarkWord off m.pmTop := by
    have hblock : g.blockAt off (g.metaBlock 0) = off + g.blockSize := by
      rw [Geometry.blockAt, Geometry.metaBlock]
      ring
    have hbs := g.entry_le
    have h8 : 8 ∣ off + g.blockSize :=
      Nat.dvd_add (Nat.dvd_trans (by norm_num) h.off_dvd) (Nat.dvd_trans (by norm_num) h.page_dvd)
    rw [hm, hblock]
    exact ⟨h8, by omega, by omega⟩
  have hl := h.toLayered.mark h.page_dvd h.off_dvd hcfg hmark (by rw [hrun]; rfl) hbyte
  have hp : (ses.issue (fgCounterDec ses.file m)).Paged g off es low :=
    h.toPaged.of_layered_same hl rfl rfl (fun p e he => Or.inl he) fun i e he => Or.inl ⟨i, he⟩
  refine h.of_sameWords (List.prefix_refl _) ⟨hp, h.tables⟩ rfl fun k _ => ?_
  rw [file_issue]
  refine word_congr hcfg fun a ha => hbyte a ?_
  by_contra hmem
  rw [hm] at hmem
  exact ha (Geometry.slot_not_line (i := 0) (by omega) (by omega))

/-- **`delete_ht`** of an entry with another one behind it. -/
theorem Booked.deleteHt (h : ses.Booked g off es low f) (hcfg : cfg.entrySize = 8)
    (hfollowed : ses.Followed v) {x : Option CowEntry}
    (hr : ses.deleteHt (ses.alignedOf v) = .ok (ses', x)) : ses'.Booked g off es low f := by
  obtain ⟨l₁, ce, l₂, hl, hkey, hne⟩ := hfollowed
  rw [deleteHt_middle h.tables hl hkey, if_neg hne] at hr
  rw [h.toLayered.chainOf_eq] at hl
  rw [h.toLayered.alignedOf_eq] at hkey
  rw [h.toLayered.bucketNumber_eq] at hr
  obtain ⟨c, hc, hsize, rfl⟩ : ∃ c : CowTables,
      c.buckets = (ses.cow.setBucket (v / g.blockSize % bucketNum) (l₁ ++ l₂)).buckets ∧
      c.htSize = ses.cow.htSize - 1 ∧
      ses' = ({ ses.issue (fgCounterDec ses.file ce.m) with cow := c } : Session) :=
    ⟨{ ses.cow.setBucket _ (l₁ ++ l₂) with htSize := ses.cow.htSize - 1 }, rfl, rfl,
      (congrArg Prod.fst (Except.ok.inj hr)).symm⟩
  have hb : v / g.blockSize % bucketNum < bucketNum := Nat.mod_lt _ (by decide)
  have hce : ce ∈ ses.cow.buckets (v / g.blockSize % bucketNum) := by
    rw [hl]
    exact List.mem_append_right _ List.mem_cons_self
  have hmem : ∀ i, ∀ e ∈ c.buckets i, e ∈ ses.cow.buckets i := fun i e he => by
    rw [hc] at he
    exact (h.tables.mem_unlink g.blockSize_pos hl hkey he).1
  have hcount : ∀ p : CowEntry → Bool, c.chained p + (if p ce then 1 else 0) =
      ses.cow.chained p := by
    intro p
    have hsame : c.chained p =
        (ses.cow.setBucket (v / g.blockSize % bucketNum) (l₁ ++ l₂)).chained p :=
      CowTables.chained_congr fun i => by rw [hc]
    rw [hsame, ses.cow.chained_unlink hb hl]
  have hm := h.top _ ce hce
  have hok : c.Ok g.blockSize := (h.tables.unlink g.blockSize_pos hl hkey).1.congr hc
  have h' := (h.toMarked.issue_counterDec hcfg hm).setCow hok hmem
  refine ⟨h', ⟨hok, ?_, fun i => ?_, fun i e he => ?_⟩, fun i e he => ?_⟩
  · have hall := hcount fun _ => true
    have hold := h.right.size
    rw [if_pos rfl] at hall
    change c.htSize = (c.chained fun _ => true : ℕ)
    omega
  · obtain ⟨k, hk⟩ := h.marked _ ce hce
    have hfit := h.layer.slot_lt_size hk.lt_length
    have hslot := g.slot_mem off k
    rw [Nat.div_eq_of_lt hk.first] at hslot
    have hin := hcount (slotIn g off i)
    rw [h.toMarked.slotIn_count hce] at hin
    have hfile := @counters_counterDec cfg g off ses _ hm (by omega) i
    rw [h.right.fgCounter i, sub_eq_add_neg, i32_add, ← hin] at hfile
    refine hfile.trans (congrArg i32 ?_)
    push_cast
    ring
  · exact h.right.copied i e (hmem i e he)
  · exact h.top i e (hmem i e he)

/-- **`delete_ht` removes exactly the entry with the key if there is another one behind it**, and in
no other case. -/
theorem Booked.deletesExactly_iff (h : ses.Booked g off es low f) :
    ses.DeletesExactly v ↔ ses.Followed v := by
  constructor
  · rintro ⟨ses', x, hr, ⟨hno, rfl⟩ | ⟨l₁, ce, l₂, hl, hkey, -⟩⟩
    · obtain ⟨ses₁, hr₁, -, -, hsize⟩ := deleteHt_of_not_mem hno
      rw [hr] at hr₁
      cases hr₁
      omega
    · refine ⟨l₁, ce, l₂, hl, hkey, ?_⟩
      rintro rfl
      rw [deleteHt_middle h.tables hl hkey, if_pos rfl] at hr
      cases hr
  · rintro ⟨l₁, ce, l₂, hl, hkey, hne⟩
    have hr := deleteHt_middle h.tables hl hkey
    rw [if_neg hne] at hr
    exact ⟨_, _, hr, Or.inr ⟨l₁, ce, l₂, hl, hkey, rfl, rfl⟩⟩

/-! ### Runs -/

/-- **Every operation that is counted keeps the books.** -/
theorem Booked.step (h : ses.Booked g off es low f) (hfine : cfg.finegrainedCow = true)
    {op : TableOp}
    (hcounted : ses.Counted op) (hstep : ses.TableStep cfg op ses') :
    ∃ es', ses'.Booked g off es' low f := by
  have hcfg : cfg.entrySize = 8 := by rw [Config.entrySize, hfine]; rfl
  have hfirst : ses.s.toAllocNum ≤ ses.s.maxPerSeg → es.length < g.perSeg := by
    intro hroom
    rw [h.super.toAllocNum, h.super.maxPerSeg] at hroom
    omega
  cases hstep with
  | insert hv hnone hroom hr =>
    rw [h.toLayered.chainOf_eq, h.toLayered.alignedOf_eq] at hnone
    rw [h.toLayered.alignedOf_eq] at hr
    exact ⟨_, h.insertHt hcfg hv (hfirst hroom) hnone hr⟩
  | search v =>
    rw [searchTable_eq hcounted]
    exact ⟨es, h⟩
  | delete hr => exact ⟨es, h.deleteHt hcfg hcounted hr⟩
  | copy hv hroom hr =>
      exact h.cowHandler hfine hv (fun hneeds => hfirst (hroom hneeds)) hcounted hr

/-- **So does every run of them.** -/
theorem Booked.run (h : ses.Booked g off es low f) (hfine : cfg.finegrainedCow = true)
    (hrun : Relation.ReflTransGen (fun a b => ∃ op, a.Counted op ∧ TableStep cfg a op b) ses ses') :
    ∃ es', ses'.Booked g off es' low f := by
  induction hrun with
  | refl => exact ⟨es, h⟩
  | tail _ hstep ih =>
    obtain ⟨op, hcounted, hstep⟩ := hstep
    obtain ⟨es₁, h₁⟩ := ih
    exact h₁.step hfine hcounted hstep

/-- The session `fmmap` starts. -/
theorem booked_of_fmmap {length offset : ℕ} (h : IsChain g ((fs fd).getD .empty) 0 (ls ++ [es]))
    (hf : ((fs fd).getD .empty).size < 2 ^ 63) (hdvd : pageSize ∣ g.blockSize)
    (hopen : Session.fmmap cfg fs fd length offset = .ok (some ses)) :
    ∃ low, ses.Booked g (g.chainEnd 0 ls) es low ses.file := by
  obtain ⟨low, hm⟩ := marked_of_fmmap h hf hdvd hopen
  obtain ⟨-, x, -, hses⟩ := h.fmmap_ok rfl hf hopen
  have hcow : ses.cow = initFgcow := by
    rw [hses]
    rfl
  have hzero : ∀ p, ses.cow.chained p = 0 := fun p => by
    rw [hcow]
    exact Finset.sum_eq_zero fun _ _ => rfl
  refine ⟨low, hm, ⟨hm.tables, ?_, fun i => ?_, fun i ce hce => ?_⟩, fun i ce hce => ?_⟩
  · rw [hzero, hcow]
    rfl
  · rw [hzero, Nat.cast_zero, add_zero]
    exact (i32_of_range (i32_range _).1 (i32_range _).2).symm
  · rw [hcow] at hce
    cases hce
  · rw [hcow] at hce
    cases hce

/-! ### The operations that are not counted -/

/-- The unit of a copy is counted as its number: where the books are right after the copy it is the
second one. -/
theorem CopiesUnit.second {fr : Option CowEntry}
    (hcopy : ses.CopiesUnit cfg n n' ce (v / cowUnit * cowUnit) (v / g.blockSize * g.blockSize)
      ses' fr)
    (hbs : u64 ses.s.blockSize = g.blockSize) (hdvd : pageSize ∣ g.blockSize)
    (hne : (cowUnit : ℤ) ≠ ses.s.blockSize)
    (hce : ce ∈ ses.cow.buckets (v / g.blockSize % bucketNum))
    (hkey : ce.faultVoffAligned = v / g.blockSize * g.blockSize)
    (hold : ce.copiedCounter = ce.moved.length)
    (hright : ∀ i, ∀ e ∈ ses'.cow.buckets i, e.copiedCounter = e.moved.length) :
    v % g.blockSize / cowUnit = 1 := by
  obtain ⟨hunit, -⟩ := g.unit_eq hdvd v
  rcases hcopy.cow with ⟨heq, -⟩ | ⟨-, -, hcow⟩
  · exact absurd heq hne
  rw [hunit, Nat.add_sub_cancel_left, bucketNumber, hbs,
    Nat.mul_div_cancel _ g.blockSize_pos] at hcow
  have hnew := hright (v / g.blockSize % bucketNum)
    (CowEntry.moveOut (v % g.blockSize / cowUnit * cowUnit) ce) (by
      rw [hcow]
      exact CowTables.mem_modify_self hce hkey)
  have hnum : v % g.blockSize / cowUnit * cowUnit / cowUnit = v % g.blockSize / cowUnit :=
    Nat.mul_div_cancel _ (by decide)
  have hsum : ce.copiedCounter + (v % g.blockSize / cowUnit * cowUnit / cowUnit : ℕ) =
      (ce.moved.length + 1 : ℕ) := hnew
  rw [hnum, hold] at hsum
  omega

/-- **An operation that is not counted leaves the books wrong**, or does not return. -/
theorem Booked.counted (h : ses.Booked g off es low f) (hfine : cfg.finegrainedCow = true)
    (hlt : cowUnit < g.blockSize) {op : TableOp} (hstep : ses.TableStep cfg op ses')
    (hright : ses'.BooksRight g off f) : ses.Counted op := by
  have hne : (cowUnit : ℤ) ≠ ses.s.blockSize := by
    rw [h.super.blockSize]
    omega
  -- an entry that leaves its chain and is not taken off the size
  have hleft : ∀ (v : ℕ) (ce : CowEntry) (l : List CowEntry),
      ses.cow.buckets (v / g.blockSize % bucketNum) = ce :: l → ∀ c : CowTables,
      c.buckets = (ses.cow.setBucket (v / g.blockSize % bucketNum) l).buckets →
      c.htSize = ses.cow.htSize → c.htSize ≠ c.chained fun _ => true := by
    intro v ce l hl c hc hsize heq
    have hl' : ses.cow.buckets (v / g.blockSize % bucketNum) = [] ++ ce :: l := hl
    have hcount := ses.cow.chained_unlink (p := fun _ => true)
      (Nat.mod_lt (v / g.blockSize) (show 0 < bucketNum by decide)) hl'
    have hsame : (c.chained fun _ => true) =
        (ses.cow.setBucket (v / g.blockSize % bucketNum) ([] ++ l)).chained fun _ => true :=
      CowTables.chained_congr fun i => by rw [hc, List.nil_append]
    have hold := h.right.size
    rw [if_pos rfl] at hcount
    omega
  cases hstep with
  | insert => exact trivial
  | search v =>
    rintro ⟨ce, l, hl, hkey⟩
    have hsearch : ses.searchTable (ses.alignedOf v) = { ses with
        cow := ses.cow.setBucket (bucketNumber (u64 ses.s.blockSize) (ses.alignedOf v)) l } := by
      rw [chainOf] at hl
      rw [searchTable, hl, searchHt_head hkey]
    rw [hsearch, h.toLayered.bucketNumber_eq] at hright
    rw [h.toLayered.chainOf_eq] at hl
    exact hleft v ce l hl _ rfl rfl hright.size
  | @delete ses' x v hr =>
    by_cases hin : ∀ e ∈ ses.chainOf v, e.faultVoffAligned ≠ ses.alignedOf v
    · obtain ⟨ses₁, hr₁, -, hbuckets, hsize⟩ := deleteHt_of_not_mem hin
      rw [hr] at hr₁
      cases hr₁
      have hsame : (ses'.cow.chained fun _ => true) = ses.cow.chained fun _ => true :=
        CowTables.chained_congr fun i => by rw [hbuckets]
      have hold := h.right.size
      have hnew := hright.size
      omega
    · push Not at hin
      obtain ⟨ce, hce, hkey⟩ := hin
      obtain ⟨l₁, l₂, hl⟩ := List.append_of_mem hce
      refine ⟨l₁, ce, l₂, hl, hkey, ?_⟩
      rintro rfl
      rw [deleteHt_middle h.tables hl hkey, if_pos rfl] at hr
      cases hr
  | @copy ses' ops n n' v hv hroom hr =>
    have hu := h.super.u64_blockSize
    rw [Counted, Heads, h.toLayered.chainOf_eq, h.toLayered.alignedOf_eq, hu]
    rcases h.toLayered.cowHandler_cases h.page_dvd hfine hr with ⟨-, -, hout | hlist⟩ |
      ⟨c, ce, l, hl, hkey, hc, hsize, -, ops₂, hcopy⟩ |
      ⟨c, ce, hce, hkey, hc, hsize, hhead, hcopy⟩ |
      ⟨c, ses₁, ce, ops₁, hnone, hins, hc, hsize, hcopy⟩
    · exact Or.inl hout
    · exact Or.inr (Or.inl hlist)
    · have hcow : ses'.cow = c := copyWhole_cow hcopy
      exact absurd (hcow ▸ hright.size) (hleft v ce l hl c hc hsize)
    · refine Or.inr (Or.inr ⟨?_, ?_⟩)
      · rintro ⟨e, l, hl, he⟩
        exact hhead e l hl he
      · exact hcopy.second hu h.page_dvd hne (hc ▸ hce) hkey (h.right.copied _ ce hce).1
          fun i e he => (hright.copied i e he).1
    · obtain ⟨hfixed, -⟩ := insertHt_sameFixed hins
      obtain ⟨-, hmem, hkey, hnil, -⟩ := h.toTabled.insertHt_table hnone hins
      refine Or.inr (Or.inr ⟨?_, ?_⟩)
      · rintro ⟨e, l, hl, he⟩
        exact hnone e (hl ▸ List.mem_cons_self) he
      · refine hcopy.second ?_ h.page_dvd ?_ (hc ▸ hmem) hkey ?_
          fun i e he => (hright.copied i e he).1
        · exact hfixed.blockSize ▸ hu
        · exact hfixed.blockSize ▸ hne
        · rw [insertHt_copiedCounter hins, hnil]
          rfl

end Session

/-- A session in which the second unit of a block was copied, which is counted. -/
theorem exists_secondUnit : ∃ (f : ByteFile) (ses ses' : Session) (ops : List FileOp),
    IsImage (Geometry.twoPages .shipped) f [[0]] [] ∧ f.byte 16 = 0 ∧
      Session.fmmap .shipped (fun _ => some f) [1] (8192 * 2) 0 = .ok (some ses) ∧
      ses.cowHandler .shipped 0 0 4096 = .ok (ses', ops) ∧
      (∃ op, ses.Counted op ∧ ses.TableStep .shipped op ses') ∧
      ∃ low, ses'.Marked (Geometry.twoPages .shipped)
        ((Geometry.twoPages .shipped).chainEnd 0 [[0]]) [0] low ∧
        ∃ i, ∃ ce ∈ ses'.cow.buckets i, ce.faultVoffAligned = 0 := by
  obtain ⟨f, ses, ses', ops, himage, hname, hopen, -, hr, -, hs, hempty, low, h', i, ce, hce,
      hkey, -⟩ :=
    @exists_firstCopy 4096 (Geometry.twoPages .shipped) (by decide) (by decide) (by decide)
      (by decide)
      (by decide)
  have hbase : BaseIs (Geometry.twoPages .shipped) (fun _ => some f) (baseImageName f 0) [] :=
    Or.inl ⟨baseImageName_eq_nil hname, rfl⟩
  have hopened := himage.isChain.fmmap rfl himage.size_lt hbase hopen
  have hcounted : ses.Counted (.copy 4096) := by
    refine Or.inr (Or.inr ⟨?_, ?_⟩)
    · rintro ⟨e, l, hl, -⟩
      rw [Session.chainOf, hempty] at hl
      cases hl
    · rw [hs.u64_blockSize]
      decide
  refine ⟨f, ses, ses', ops, himage, hname, hopen, hr,
    ⟨.copy 4096, hcounted, .copy ?_ (fun _ => ?_) hr⟩,
    low, h', i, ce, hce, hkey⟩
  · rw [hopened.fmmapLength]
    decide
  · rw [hs.toAllocNum, hs.maxPerSeg]
    decide

/-- **The books are right in every run of operations that are counted.** The chains have keys of
their buckets and none twice; the size, the counters of the meta blocks and those of the entries are
right; `delete_ht` removes exactly an entry that is not the last of its chain. If the blocks are
larger than a unit, any other operation leaves the books wrong. -/
theorem books_right {length offset : ℕ} {ses ses' : Session}
    (hfine : cfg.finegrainedCow = true) (h : IsChain g ((fs fd).getD .empty) 0 (ls ++ [es]))
    (hf : ((fs fd).getD .empty).size < 2 ^ 63) (hdvd : cowUnit ∣ g.blockSize)
    (hopen : Session.fmmap cfg fs fd length offset = .ok (some ses))
    (hrun : Relation.ReflTransGen (fun a b => ∃ op, a.Counted op ∧ Session.TableStep cfg a op b)
      ses ses') :
    ses'.BooksRight g (g.chainEnd 0 ls) ses.file ∧
      (∀ v, ses'.DeletesExactly v ↔ ses'.Counted (.delete v)) ∧
      (cowUnit < g.blockSize → ∀ op ses'', ses'.TableStep cfg op ses'' →
        (ses''.BooksRight g (g.chainEnd 0 ls) ses.file ↔ ses'.Counted op)) := by
  obtain ⟨low, hbooked⟩ := Session.booked_of_fmmap h hf hdvd hopen
  obtain ⟨es', h⟩ := hbooked.run hfine hrun
  refine ⟨h.right, fun v => h.deletesExactly_iff, fun hlt op ses'' hstep =>
    ⟨h.counted hfine hlt hstep,
    fun hcounted => ?_⟩⟩
  obtain ⟨es'', h''⟩ := h.step hfine hcounted hstep
  exact h''.right

/-- A run of one copy. -/
theorem books_right_secondUnit : ∃ (fs : Fs) (ses ses' : Session) (ops : List FileOp),
    IsImage (Geometry.twoPages .shipped) ((fs [1]).getD .empty) [[0]] [] ∧
      Session.fmmap .shipped fs [1] (8192 * 2) 0 = .ok (some ses) ∧
      ses.cowHandler .shipped 0 0 4096 = .ok (ses', ops) ∧ (∃ i, ses'.cow.buckets i ≠ []) ∧
      ses'.BooksRight (Geometry.twoPages .shipped)
        ((Geometry.twoPages .shipped).chainEnd 0 [[0]]) ses.file := by
  obtain ⟨f, ses, ses', ops, himage, -, hopen, hr, hstep, -, -, i, ce, hce, -⟩ := exists_secondUnit
  have hright := @books_right .shipped (.twoPages .shipped) (fun _ => some f) [1] _ _ _ _ _ _ rfl
    himage.isChain himage.size_lt (by decide) hopen (.single hstep)
  exact ⟨fun _ => some f, ses, ses', ops, himage, hopen, hr, ⟨i, List.ne_nil_of_mem hce⟩, hright.1⟩

/-- **`delete_ht` of the last entry of a chain** follows a null pointer: after the first copy of a
unit in a session, the table has one entry. -/
theorem delete_last_faults : ∃ (fs : Fs) (ses ses' : Session) (ops : List FileOp),
    IsImage (Geometry.twoPages .shipped) ((fs [1]).getD .empty) [[0]] [] ∧
      Session.fmmap .shipped fs [1] (8192 * 2) 0 = .ok (some ses) ∧
      ses.cowHandler .shipped 0 0 4096 = .ok (ses', ops) ∧
      (∃ ce ∈ ses'.chainOf 0, ce.faultVoffAligned = ses'.alignedOf 0) ∧
      ses'.deleteHt (ses'.alignedOf 0) = .error .sigsegv ∧ ¬ses'.DeletesExactly 0 := by
  obtain ⟨f, ses, ses', ops, himage, -, hopen, hr, -, low, h', i, ce, hce, hkey⟩ :=
    exists_secondUnit
  have haligned : ses'.alignedOf 0 = 0 := by
    rw [h'.toLayered.alignedOf_eq, Nat.zero_div, Nat.zero_mul]
  -- the layer has one entry, so that every entry of the table is for the same block
  have hzero : ∀ j, ∀ e ∈ ses'.cow.buckets j, e.faultVoffAligned = 0 := by
    intro j e he
    obtain ⟨k, hk⟩ := h'.marked j e he
    obtain ⟨b, hb, hkey, -⟩ := hk.block
    obtain rfl : k = 0 := by
      have := hk.lt_length
      simpa using this
    cases hb
    rw [hkey, Nat.zero_mul]
  have hmem : ce ∈ ses'.chainOf 0 := by
    obtain ⟨b, hb, hi⟩ := h'.tables.bucket i ce hce
    rw [h'.toLayered.chainOf_eq, Nat.zero_div]
    have : b = 0 := (Nat.mul_eq_zero.mp (hb.symm.trans hkey)).resolve_right (by decide)
    rw [this] at hi
    exact hi ▸ hce
  obtain ⟨l₁, l₂, hl⟩ := List.append_of_mem hmem
  have hkey' : ce.faultVoffAligned = ses'.alignedOf 0 := hkey.trans haligned.symm
  have hlast : l₂ = [] := by
    obtain ⟨-, hl₂⟩ := h'.tables.key_ne_of_middle hl hkey'
    refine List.eq_nil_iff_forall_not_mem.mpr fun e he => hl₂ e he ?_
    rw [haligned]
    refine hzero (bucketNumber (u64 ses'.s.blockSize) (ses'.alignedOf 0)) e ?_
    rw [← Session.chainOf, hl]
    exact List.mem_append_right _ (List.mem_cons_of_mem _ he)
  have hfault := Session.deleteHt_middle h'.tables hl hkey'
  rw [if_pos hlast] at hfault
  refine ⟨fun _ => some f, ses, ses', ops, himage, hopen, hr, ⟨ce, hmem, hkey'⟩, hfault, ?_⟩
  rintro ⟨ses₁, x, hr₁, -⟩
  rw [hfault] at hr₁
  cases hr₁

end Pcow
