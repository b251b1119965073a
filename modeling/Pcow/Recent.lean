import Pcow.Bitmap
import Pcow.Lib.LinkedList
import Mathlib.Data.List.DropRight

/-!
# The recent lists

The lists `cow_l` as they are in memory: a list begins with a node that is not an entry. `in_list`
and `insert_list` walk from it to the next node as long as there is one. `insert_list` appends a
node and then, if the list has become full, advances the head: the node before the entries is freed,
and the oldest entry takes its place. What the new entry records is stored last, when the table of
incomplete blocks has decided whether the block is copied as a whole.

The lists hold what `CowTables.pushList` says (`RecentLists.Holds.insertList`), and so the entries
created last (`recent_lists`).
-/

namespace Pcow

open LinkedList

/-- The comparison of both functions, which is one of 64 bits, for offsets that do not exceed the
address space. -/
theorem CowLEntry.covers_iff {e : CowLEntry} {voff : ℕ} (hv : voff < 2 ^ 63) (he : e.voff < 2 ^ 63)
    (hsize : 0 ≤ e.copySize) (hint : e.copySize < 2 ^ 31) :
    e.Covers voff ↔ e.voff ≤ voff ∧ u64 (voff + cowUnit) ≤ u64 (e.voff + e.copySize) := by
  rw [Covers, u64, u64]
  simp only [cowUnit]
  omega

/-- The middle of `insert_list`, under the lock of the bucket: the entry of the block of the unit at
`voff`, from the table or new to it, and the range that is to be copied. -/
def Session.searchOrInsert (cfg : Config) (ses : Session) (n n' voff : ℕ) :
    Except Fault (Session × CowLEntry × CowEntry × List FileOp) :=
  let blockSize := u64 ses.s.blockSize
  let key := voff / blockSize * blockSize
  let bucket := bucketNumber blockSize voff
  match searchHt key 0 (ses.cow.buckets bucket) with
  | some (ce, full, rest) =>
    .ok ({ ses with cow := ses.cow.setBucket bucket rest },
      if full then ⟨key, ses.s.blockSize⟩ else ⟨voff, cowUnit⟩, ce, [])
  | none => (Session.insertHt cfg ses n n' key).map fun (ses₁, ce, ops) =>
      (ses₁, ⟨voff, cowUnit⟩, ce, ops)

/-- The lists in memory: the nodes, and for each list its head and its size. -/
structure RecentLists where
  /-- The nodes. -/
  node : ℕ → Node CowLEntry
  /-- `cow_l[i].head`. -/
  head : ℕ → ℕ
  /-- `cow_l[i].size`. -/
  size : ℕ → ℤ

namespace RecentLists

/-- `in_list`, to the bound `fuel` on the nodes it looks at. -/
def inList (m : RecentLists) (fuel voff : ℕ) : Option Bool :=
  (scan (CowLEntry.Covers · voff) m.node fuel (m.head (listNum voff))).map (·.1)

/-- The node `a`, just allocated, is linked behind the node `p`. Its copy size is not set yet. -/
def link (m : RecentLists) (p a voff : ℕ) : RecentLists :=
  { m with
    node := Function.update (Function.update m.node p { m.node p with next := some a }) a
      ⟨{ (m.node a).val with voff := voff }, none⟩
    size := Function.update m.size (listNum voff) (m.size (listNum voff) + 1) }

/-- A list that has become full advances its head. -/
def evict (m : RecentLists) (i : ℕ) : RecentLists :=
  if m.size i ≥ maxConcurrent then
    { m with
      head := Function.update m.head i ((m.node (m.head i)).next.getD 0)
      size := Function.update m.size i (m.size i - 1) }
  else m

/-- What the entry of a node records is set. -/
def setEntry (m : RecentLists) (a : ℕ) (le : CowLEntry) : RecentLists :=
  { m with node := Function.update m.node a { m.node a with val := le } }

/-- `insert_list`, with the lists in memory: `a` is the node it allocates. The result is none, for
`NULL`, if the unit is in the list; otherwise it is what the new entry records. -/
def insertList (cfg : Config) (ses : Session) (m : RecentLists) (fuel a n n' voff : ℕ) :
    Except Fault (Session × RecentLists × Option (CowLEntry × CowEntry) × List FileOp) :=
  match scan (CowLEntry.Covers · voff) m.node fuel (m.head (listNum voff)) with
  | none => .error .endless
  | some (true, _) => .ok (ses, m, none, [])
  | some (false, p) => (ses.searchOrInsert cfg n n' voff).map fun (ses₁, le, ce, ops) =>
      (ses₁, ((m.link p a voff).evict (listNum voff)).setEntry a le, some (le, ce), ops)

/-! ### What the lists hold -/

/-- **The lists hold the entries `c`**: the nodes `as i` follow the head of list `i`, all nodes
differ, and their values are the entries of the list. -/
structure Holds (m : RecentLists) (as : ℕ → List ℕ) (c : ℕ → CowList) : Prop where
  chain : ∀ i < maxThreadNum, Chain m.node (m.head i) (as i)
  nodup : ∀ i < maxThreadNum, (m.head i :: as i).Nodup
  disjoint : ∀ i < maxThreadNum, ∀ j < maxThreadNum, i ≠ j →
    List.Disjoint (m.head i :: as i) (m.head j :: as j)
  entries : ∀ i < maxThreadNum, (as i).map (fun a => (m.node a).val) = (c i).entries
  size : ∀ i < maxThreadNum, m.size i = (c i).size

/-- Memory that `malloc` may return: no node of a list. -/
def Unused (m : RecentLists) (a : ℕ) : Prop :=
  ∀ i < maxThreadNum, ∀ l, Chain m.node (m.head i) l → a ∉ m.head i :: l

/-- The lists after `init_fgcow`: nothing but the nodes before the entries. -/
structure IsInit (m : RecentLists) : Prop where
  next : ∀ i < maxThreadNum, (m.node (m.head i)).next = none
  head : Set.InjOn m.head (Set.Iio maxThreadNum)
  size : ∀ i < maxThreadNum, m.size i = 0

variable {cfg : Config} {ses ses' : Session} {n n' : ℕ} {m m' : RecentLists} {as : ℕ → List ℕ}
  {c : ℕ → CowList} {a voff fuel i : ℕ} {le : CowLEntry}

theorem listNum_lt : listNum voff < maxThreadNum := Nat.mod_lt _ (by decide)

theorem IsInit.holds (h : m.IsInit) : m.Holds (fun _ => []) initFgcow.cowL where
  chain i hi := .nil (h.next i hi)
  nodup _ _ := List.nodup_singleton _
  disjoint i hi j hj hne := by
    rw [List.disjoint_singleton, List.mem_singleton]
    exact fun heq => hne (h.head hi hj heq.symm)
  entries _ _ := rfl
  size i hi := h.size i hi

/-- **The loop of both functions** finds an entry exactly if one covers the unit, and otherwise
comes to the last node. -/
theorem Holds.scan_eq (h : m.Holds as c) (hfuel : (as (listNum voff)).length < fuel) :
    ((∃ e ∈ (c (listNum voff)).entries, e.Covers voff) → ∃ r,
      scan (CowLEntry.Covers · voff) m.node fuel (m.head (listNum voff)) = some (true, r)) ∧
    ((¬∃ e ∈ (c (listNum voff)).entries, e.Covers voff) →
      scan (CowLEntry.Covers · voff) m.node fuel (m.head (listNum voff)) = some (false,
        (m.head (listNum voff) :: as (listNum voff)).getLast (List.cons_ne_nil _ _))) := by
  obtain ⟨hfound, hnone⟩ :=
    (h.chain _ listNum_lt).scan_eq (P := (CowLEntry.Covers · voff)) hfuel
  rw [← h.entries _ listNum_lt]
  simp only [List.mem_map, exists_exists_and_eq_and]
  refine ⟨fun hex => hfound hex, fun hno => hnone fun a ha hP => hno ⟨a, ha, hP⟩⟩

/-- The node behind which `insert_list` links. -/
def lastNode (m : RecentLists) (as : ℕ → List ℕ) (i : ℕ) : ℕ :=
  (m.head i :: as i).getLast (List.cons_ne_nil _ _)

theorem lastNode_mem : m.lastNode as i ∈ m.head i :: as i := List.getLast_mem _

/-- What the new entry records may be set before the head advances. -/
theorem setEntry_evict : (m.evict i).setEntry a le = (m.setEntry a le).evict i := by
  have hnext : ∀ b, (Function.update m.node a { m.node a with val := le } b).next =
      (m.node b).next := by
    intro b
    rcases eq_or_ne b a with rfl | hne
    · rw [Function.update_self]
    · rw [Function.update_of_ne hne]
  by_cases hfull : m.size i ≥ maxConcurrent
  · rw [evict, if_pos hfull, evict,
      if_pos (show (m.setEntry a le).size i ≥ maxConcurrent from hfull)]
    simp only [setEntry, hnext]
  · rw [evict, if_neg hfull, evict,
      if_neg (show ¬(m.setEntry a le).size i ≥ maxConcurrent from hfull)]

/-- The nodes after one was linked and its entry set. -/
theorem node_append {p : ℕ} : ((m.link p a voff).setEntry a le).node =
    Function.update (Function.update m.node p { m.node p with next := some a }) a ⟨le, none⟩ := by
  simp only [link, setEntry, Function.update_idem, Function.update_self]

/-- **A node is linked behind the last one of its list.** -/
theorem Holds.append (h : m.Holds as c) (ha : m.Unused a) (hi : listNum voff = i)
    (le : CowLEntry) :
    ((m.link (m.lastNode as i) a voff).setEntry a le).Holds (Function.update as i (as i ++ [a]))
      (Function.update c i ⟨(c i).entries ++ [le], (c i).size + 1⟩) := by
  have hlt : i < maxThreadNum := hi ▸ listNum_lt
  have hunused : ∀ j < maxThreadNum, a ∉ m.head j :: as j := fun j hj => ha j hj _ (h.chain j hj)
  have hne : m.lastNode as i ≠ a := fun heq => hunused i hlt (heq ▸ lastNode_mem)
  obtain ⟨m', hm'⟩ : ∃ x, x = (m.link (m.lastNode as i) a voff).setEntry a le := ⟨_, rfl⟩
  have hnode : m'.node = Function.update (Function.update m.node (m.lastNode as i)
      { m.node (m.lastNode as i) with next := some a }) a ⟨le, none⟩ := by rw [hm', node_append]
  have hhead : m'.head = m.head := by
    rw [hm']
    rfl
  have hsize : m'.size = Function.update m.size i (m.size i + 1) := by
    rw [hm', ← hi]
    rfl
  have hval : ∀ b, b ≠ a → (m'.node b).val = (m.node b).val := by
    intro b hb
    rw [hnode, Function.update_of_ne hb]
    rcases eq_or_ne b (m.lastNode as i) with rfl | hl
    · rw [Function.update_self]
    · rw [Function.update_of_ne hl]
  have hself : m'.node a = ⟨le, none⟩ := by rw [hnode, Function.update_self]
  have hnext : ∀ b, b ≠ a → b ≠ m.lastNode as i → (m'.node b).next = (m.node b).next := by
    intro b hb hl
    rw [hnode, Function.update_of_ne hb, Function.update_of_ne hl]
  rw [← hm']
  refine ⟨fun j hj => ?_, fun j hj => ?_, fun j hj k hk hjk => ?_, fun j hj => ?_, fun j hj => ?_⟩
  · rw [hhead]
    rcases eq_or_ne j i with rfl | hji
    · rw [Function.update_self]
      refine (h.chain j hj).append (h.nodup j hj) ?_ (fun b hb hl => ?_) ?_
      · change (m'.node (m.lastNode as j)).next = some a
        rw [hnode, Function.update_of_ne hne, Function.update_self]
      · exact hnext b (fun heq => hunused j hj (heq ▸ hb)) hl
      · rw [hself]
    · rw [Function.update_of_ne hji]
      refine (h.chain j hj).congr fun b hb => hnext b (fun heq => hunused j hj (heq ▸ hb)) ?_
      rintro rfl
      exact h.disjoint j hj i hlt hji hb lastNode_mem
  · rw [hhead]
    rcases eq_or_ne j i with rfl | hji
    · rw [Function.update_self, ← List.cons_append, ← List.concat_eq_append, List.nodup_concat]
      exact ⟨hunused j hj, h.nodup j hj⟩
    · rw [Function.update_of_ne hji]
      exact h.nodup j hj
  · rw [hhead]
    have hmem : ∀ j' < maxThreadNum, ∀ b ∈ m.head j' :: Function.update as i (as i ++ [a]) j',
        b ∈ m.head j' :: as j' ∨ j' = i ∧ b = a := by
      intro j' _ b hb
      rcases eq_or_ne j' i with rfl | hji
      · rw [Function.update_self, ← List.cons_append, List.mem_append, List.mem_singleton] at hb
        exact hb.imp id fun hba => ⟨rfl, hba⟩
      · rw [Function.update_of_ne hji] at hb
        exact Or.inl hb
    intro b hb hb'
    rcases hmem j hj b hb with hold | ⟨hji, hba⟩
    · rcases hmem k hk b hb' with hold' | ⟨-, hba⟩
      · exact h.disjoint j hj k hk hjk hold hold'
      · exact hunused j hj (hba ▸ hold)
    · rcases hmem k hk b hb' with hold' | ⟨hki, -⟩
      · exact hunused k hk (hba ▸ hold')
      · exact hjk (hji.trans hki.symm)
  · have hold : (as j).map (fun b => (m'.node b).val) = (c j).entries := by
      rw [← h.entries j hj]
      refine List.map_congr_left fun b hb => hval b ?_
      rintro rfl
      exact hunused j hj (List.mem_cons_of_mem _ hb)
    rcases eq_or_ne j i with rfl | hji
    · rw [Function.update_self, Function.update_self, List.map_append, hold,
        List.map_singleton, hself]
    · rw [Function.update_of_ne hji, Function.update_of_ne hji, hold]
  · rw [hsize]
    rcases eq_or_ne j i with rfl | hji
    · rw [Function.update_self, Function.update_self, h.size j hj]
    · rw [Function.update_of_ne hji, Function.update_of_ne hji]
      exact h.size j hj

/-- **The head advances.** The oldest entry takes the place of the node before the entries. -/
theorem Holds.evict (h : m.Holds as c) (hi : i < maxThreadNum) (hne : (c i).entries ≠ []) :
    (m.evict i).Holds
      (if (c i).size ≥ maxConcurrent then Function.update as i (as i).tail else as)
      (if (c i).size ≥ maxConcurrent then
        Function.update c i ⟨(c i).entries.tail, (c i).size - 1⟩ else c) := by
  rw [RecentLists.evict, h.size i hi]
  split_ifs with hfull
  swap
  · exact h
  obtain ⟨q, l, hl⟩ : ∃ q l, as i = q :: l := by
    refine List.exists_cons_of_ne_nil fun hnil => hne ?_
    rw [← h.entries i hi, hnil, List.map_nil]
  have hchain := h.chain i hi
  have hnd := h.nodup i hi
  rw [hl] at hchain hnd
  have hnext : (m.node (m.head i)).next.getD 0 = q := by
    cases hchain with
    | cons hp _ => rw [hp, Option.getD_some]
  have hcons : ∀ j, Function.update m.head i q j :: Function.update as i (as i).tail j ⊆
      m.head j :: as j := by
    intro j
    rcases eq_or_ne j i with rfl | hji
    · rw [Function.update_self, Function.update_self, hl]
      exact List.subset_cons_self _ _
    · rw [Function.update_of_ne hji, Function.update_of_ne hji]
      exact List.Subset.refl _
  rw [hnext]
  refine ⟨fun j hj => ?_, fun j hj => ?_, fun j hj k hk hjk => ?_, fun j hj => ?_, fun j hj => ?_⟩
  · dsimp only
    rcases eq_or_ne j i with rfl | hji
    · rw [Function.update_self, Function.update_self, hl]
      exact hchain.tail
    · rw [Function.update_of_ne hji, Function.update_of_ne hji]
      exact h.chain j hj
  · dsimp only
    rcases eq_or_ne j i with rfl | hji
    · rw [Function.update_self, Function.update_self, hl]
      exact hnd.of_cons
    · rw [Function.update_of_ne hji, Function.update_of_ne hji]
      exact h.nodup j hj
  · exact fun b hb hb' => h.disjoint j hj k hk hjk (hcons j hb) (hcons k hb')
  · rcases eq_or_ne j i with rfl | hji
    · rw [Function.update_self, Function.update_self, List.map_tail, h.entries j hj]
    · rw [Function.update_of_ne hji, Function.update_of_ne hji]
      exact h.entries j hj
  · dsimp only
    rcases eq_or_ne j i with rfl | hji
    · rw [Function.update_self, Function.update_self]
    · rw [Function.update_of_ne hji, Function.update_of_ne hji]
      exact h.size j hj

/-- **An insertion**, where the loop has come to the last node: the lists hold one entry more. -/
theorem Holds.insert (h : m.Holds as c) (ha : m.Unused a) (le : CowLEntry) : ∃ as',
    (((m.link (m.lastNode as (listNum voff)) a voff).evict (listNum voff)).setEntry a le).Holds as'
      (Function.update c (listNum voff) ((c (listNum voff)).push le)) := by
  obtain ⟨i, hi⟩ : ∃ x, x = listNum voff := ⟨_, rfl⟩
  rw [← hi]
  have happ := (h.append ha hi.symm le).evict (hi ▸ listNum_lt) (by
    rw [Function.update_self]
    exact List.append_ne_nil_of_right_ne_nil _ (List.cons_ne_nil _ _))
  have hpush : Function.update c i ((c i).push le) =
      if (c i).size + 1 ≥ maxConcurrent then
        Function.update c i ⟨((c i).entries ++ [le]).tail, (c i).size + 1 - 1⟩
      else Function.update c i ⟨(c i).entries ++ [le], (c i).size + 1⟩ := by
    rw [CowList.push]
    split_ifs
    · rw [add_sub_cancel_right]
    · rfl
  simp only [Function.update_self, Function.update_idem] at happ
  rw [← setEntry_evict, ← hpush] at happ
  exact ⟨_, happ⟩

/-- `in_list` says whether an entry covers the unit. -/
theorem Holds.inList_eq (h : m.Holds as c) (hfuel : (as (listNum voff)).length < fuel) :
    m.inList fuel voff = some (decide (∃ e ∈ (c (listNum voff)).entries, e.Covers voff)) := by
  obtain ⟨hfound, hnone⟩ := h.scan_eq hfuel
  rw [inList]
  by_cases hcov : ∃ e ∈ (c (listNum voff)).entries, e.Covers voff
  · obtain ⟨r, hr⟩ := hfound hcov
    rw [hr, Option.map_some, decide_eq_true hcov]
  · rw [hnone hcov, Option.map_some, decide_eq_false hcov]

/-- More fuel does not change what `insert_list` does. -/
theorem insertList_mono {fuel' : ℕ}
    {x : Session × RecentLists × Option (CowLEntry × CowEntry) × List FileOp}
    (hr : insertList cfg ses m fuel a n n' voff = .ok x) (hle : fuel ≤ fuel') :
    insertList cfg ses m fuel' a n n' voff = .ok x := by
  rw [insertList] at hr
  rcases hscan : scan (CowLEntry.Covers · voff) m.node fuel (m.head (listNum voff)) with _ | r
  · rw [hscan] at hr
    cases hr
  · rw [insertList, scan_mono hscan hle, ← hr, hscan]

/-- `insert_list` for a unit that an entry covers. -/
theorem Holds.insertList_of_covers (h : m.Holds as c) (hfuel : (as (listNum voff)).length < fuel)
    (hcov : ∃ e ∈ (c (listNum voff)).entries, e.Covers voff) :
    insertList cfg ses m fuel a n n' voff = .ok (ses, m, none, []) := by
  obtain ⟨r, hr⟩ := (h.scan_eq hfuel).1 hcov
  rw [insertList, hr]

/-- `insert_list` for a unit that no entry covers. -/
theorem Holds.insertList_of_not_covers (h : m.Holds as c)
    (hfuel : (as (listNum voff)).length < fuel)
    (hcov : ¬∃ e ∈ (c (listNum voff)).entries, e.Covers voff) :
    insertList cfg ses m fuel a n n' voff =
      (ses.searchOrInsert cfg n n' voff).map fun (ses₁, le, ce, ops) =>
        (ses₁, ((m.link (m.lastNode as (listNum voff)) a voff).evict (listNum voff)).setEntry a le,
          some (le, ce), ops) := by
  rw [insertList, (h.scan_eq hfuel).2 hcov]
  rfl

/-- **What a call of `insert_list` does**, by whether an entry covers the unit. -/
theorem Holds.insertList_cases (h : m.Holds as c) {r : Option (CowLEntry × CowEntry)}
    {ops : List FileOp} (hr : insertList cfg ses m fuel a n n' voff = .ok (ses', m', r, ops)) :
    ((∃ e ∈ (c (listNum voff)).entries, e.Covers voff) ∧
      ses' = ses ∧ m' = m ∧ r = none ∧ ops = []) ∨
    ((¬∃ e ∈ (c (listNum voff)).entries, e.Covers voff) ∧ ∃ le ce, r = some (le, ce) ∧
      ses.searchOrInsert cfg n n' voff = .ok (ses', le, ce, ops) ∧
      m' = ((m.link (m.lastNode as (listNum voff)) a voff).evict (listNum voff)).setEntry a
        le) := by
  have hr' := insertList_mono hr (le_max_left fuel ((as (listNum voff)).length + 1))
  have hfuel : (as (listNum voff)).length < max fuel ((as (listNum voff)).length + 1) :=
    Nat.lt_of_succ_le (le_max_right _ _)
  by_cases hcov : ∃ e ∈ (c (listNum voff)).entries, e.Covers voff
  · rw [h.insertList_of_covers hfuel hcov] at hr'
    cases hr'
    exact Or.inl ⟨hcov, rfl, rfl, rfl, rfl⟩
  · rw [h.insertList_of_not_covers hfuel hcov] at hr'
    rcases htable : ses.searchOrInsert cfg n n' voff with e | ⟨ses₂, le, ce, ops₂⟩
    · rw [htable] at hr'
      cases hr'
    · rw [htable] at hr'
      cases hr'
      exact Or.inr ⟨hcov, le, ce, rfl, rfl, rfl⟩

/-! ### What is in the session

The tables of a session have a list as the list of its entries. This is what the lists in memory
hold.
-/

/-- `insert_list` of a session, in its parts. -/
theorem sessionInsertList_eq : ses.insertList cfg n n' voff =
    if ses.cow.InList voff then .ok (ses, none, [])
    else (ses.searchOrInsert cfg n n' voff).map fun (ses₁, le, ce, ops) =>
      ({ ses₁ with cow := ses₁.cow.pushList voff le }, some (le, ce), ops) := by
  rw [Session.insertList, Session.searchOrInsert]
  refine if_congr Iff.rfl rfl ?_
  dsimp only
  rcases searchHt _ _ _ with _ | ⟨ce, full, rest⟩
  · dsimp only
    rcases Session.insertHt cfg ses n n' _ with e | x
    · rfl
    · rfl
  · rfl

/-- The table leaves the lists alone. -/
theorem searchOrInsert_cowL {x : Session × CowLEntry × CowEntry × List FileOp}
    (hr : ses.searchOrInsert cfg n n' voff = .ok x) : x.1.cow.cowL = ses.cow.cowL := by
  rw [Session.searchOrInsert] at hr
  dsimp only at hr
  rcases hsearch : searchHt _ _ _ with _ | ⟨ce, full, rest⟩
  · rw [hsearch] at hr
    rcases hins : Session.insertHt cfg ses n n' _ with e | ⟨ses₁, ce, ops⟩
    · rw [hins] at hr
      cases hr
    · rw [hins] at hr
      cases hr
      obtain ⟨s', r', nb, ops₁, ops₂, -, hlink, -⟩ := Session.insertHt_ok hins
      obtain ⟨_, -, -, hses₁, -⟩ := Session.linkEntry_ok hlink
      rw [hses₁]
      rfl
  · rw [hsearch] at hr
    cases hr
    rfl

/-- **The lists in memory refine those of the session**: a call of `insert_list` on them does what a
call on the session does, and they hold its lists again. -/
theorem Holds.refines (h : m.Holds as ses.cow.cowL) (ha : m.Unused a) {ses₁ : Session}
    {r : Option (CowLEntry × CowEntry)} {ops : List FileOp}
    (hr : insertList cfg ses m fuel a n n' voff = .ok (ses₁, m', r, ops)) :
    ∃ c, ses.insertList cfg n n' voff =
      .ok ({ ses₁ with cow := { ses₁.cow with cowL := c } }, r, ops) ∧
      ∃ as', m'.Holds as' c := by
  rw [sessionInsertList_eq]
  rcases h.insertList_cases hr with ⟨hcov, rfl, rfl, rfl, rfl⟩ | ⟨hcov, le, ce, rfl, htable, rfl⟩
  · exact ⟨ses₁.cow.cowL, if_pos hcov, as, h⟩
  · refine ⟨(ses₁.cow.pushList voff le).cowL, ?_, ?_⟩
    · rw [htable]
      exact if_neg hcov
    · rw [CowTables.pushList, searchOrInsert_cowL htable]
      exact h.insert ha le

end RecentLists

/-! ### The calls of `insert_list` -/

/-- The list that holds the last of the entries `l`. -/
def CowList.recent (l : List CowLEntry) : CowList :=
  ⟨l.rtake (maxConcurrent - 1), (l.rtake (maxConcurrent - 1)).length⟩

theorem CowList.recent_entries (l : List CowLEntry) :
    (recent l).entries = l.rtake (maxConcurrent - 1) := by rw [recent]

theorem CowList.recent_size (l : List CowLEntry) :
    (recent l).size = (l.rtake (maxConcurrent - 1)).length := by rw [recent]

theorem CowList.recent_nil : recent [] = ⟨[], 0⟩ := by
  rw [recent, List.rtake_nil]
  rfl

theorem length_rtake {α : Type*} (l : List α) (k : ℕ) : (l.rtake k).length = min l.length k := by
  rw [List.rtake, List.length_drop]
  omega

/-- An entry appended: the list holds the last of one entry more. -/
theorem CowList.recent_push (l : List CowLEntry) (e : CowLEntry) :
    (recent l).push e = recent (l ++ [e]) := by
  have hlen : (l ++ [e]).length = l.length + 1 := by rw [List.length_append, List.length_singleton]
  simp only [recent, push, length_rtake, hlen]
  by_cases hfull : maxConcurrent - 1 ≤ l.length
  · have hsub : l.length + 1 - (maxConcurrent - 1) = l.length - (maxConcurrent - 1) + 1 := by omega
    have hge : ((maxConcurrent - 1 : ℕ) : ℤ) + 1 ≥ maxConcurrent := by decide
    rw [min_eq_right hfull, min_eq_right (hfull.trans (Nat.le_succ _)), if_pos hge, List.rtake,
      List.rtake, hlen, hsub, ← List.tail_drop, List.drop_append_of_le_length (Nat.sub_le _ _)]
  · have hlt : l.length + 1 ≤ maxConcurrent - 1 := not_le.mp hfull
    have hnot : ¬(l.length : ℤ) + 1 ≥ maxConcurrent := by
      simp only [maxConcurrent] at hlt ⊢
      omega
    rw [min_eq_left (Nat.le_of_succ_le hlt), min_eq_left hlt, if_neg hnot, List.rtake,
      List.rtake, hlen,
      Nat.sub_eq_zero_of_le (Nat.le_of_succ_le hlt), Nat.sub_eq_zero_of_le hlt, List.drop_zero,
      List.drop_zero, Nat.cast_add, Nat.cast_one]

/-- A run: calls of `insert_list`, and between them anything that leaves the lists alone. `created`
are the entries created in each list since `init_fgcow`, the oldest first. -/
inductive Calls (cfg : Config) : Session → RecentLists → (ℕ → List CowLEntry) → Prop
  | init {ses : Session} {m : RecentLists} : m.IsInit → Calls cfg ses m fun _ => []
  | created {ses ses' : Session} {m m' : RecentLists} {created : ℕ → List CowLEntry}
      {fuel a n n' u : ℕ} {le : CowLEntry} {ce : CowEntry} {ops : List FileOp} :
      Calls cfg ses m created → m.Unused a →
      m.insertList cfg ses fuel a n n' u = .ok (ses', m', some (le, ce), ops) →
      Calls cfg ses' m' (Function.update created (listNum u) (created (listNum u) ++ [le]))
  | found {ses ses' : Session} {m m' : RecentLists} {created : ℕ → List CowLEntry}
      {fuel a n n' u : ℕ} {ops : List FileOp} : Calls cfg ses m created →
      m.insertList cfg ses fuel a n n' u = .ok (ses', m', none, ops) → Calls cfg ses' m' created
  | other {ses ses' : Session} {m : RecentLists} {created : ℕ → List CowLEntry} :
      Calls cfg ses m created → Calls cfg ses' m created

variable {cfg : Config} {ses : Session} {m : RecentLists} {created : ℕ → List CowLEntry}

/-- The lists of a run hold the entries created last. -/
theorem Calls.holds (h : Calls cfg ses m created) :
    ∃ as, m.Holds as fun i => .recent (created i) := by
  induction h with
  | init hm =>
    refine ⟨fun _ => [], ?_⟩
    simp only [CowList.recent_nil]
    exact hm.holds
  | @created _ _ _ _ created _ _ _ _ u le ce _ _ ha hr ih =>
    obtain ⟨as, h⟩ := ih
    rcases h.insertList_cases hr with ⟨-, -, -, hnone, -⟩ | ⟨-, le', ce', hsome, -, rfl⟩
    · cases hnone
    · cases hsome
      obtain ⟨as', h'⟩ := h.insert ha le
      refine ⟨as', ?_⟩
      convert h' using 1
      funext i
      rcases eq_or_ne i (listNum u) with rfl | hne
      · rw [Function.update_self, Function.update_self, CowList.recent_push]
      · rw [Function.update_of_ne hne, Function.update_of_ne hne]
  | found _ hr ih =>
    obtain ⟨as, h⟩ := ih
    rcases h.insertList_cases hr with ⟨-, -, rfl, -, -⟩ | ⟨-, le, ce, hsome, -, -⟩
    · exact ⟨as, h⟩
    · cases hsome
  | other _ ih => exact ih

/-- **The recent lists.** In every run of calls of `insert_list`, list `i` holds the last entries
created in it, up to `MAX_CONCURRENT - 1`, in the order of their creation, and its size is their
number. For every unit, `in_list` returns 1 exactly if one of the entries held in the list of the
unit covers it, and `insert_list` returns `NULL` exactly then, without a change. -/
theorem recent_lists (h : Calls cfg ses m created) : (∀ i < maxThreadNum, ∃ as,
      Chain m.node (m.head i) as ∧
      as.map (fun a => (m.node a).val) = (created i).rtake (maxConcurrent - 1) ∧
      m.size i = as.length ∧ as.length = min (created i).length (maxConcurrent - 1)) ∧
    ∀ u, ∀ fuel ≥ maxConcurrent,
      (m.inList fuel u = some true ↔
        ∃ e ∈ (created (listNum u)).rtake (maxConcurrent - 1), e.Covers u) ∧
      (m.inList fuel u = some false ↔
        ¬∃ e ∈ (created (listNum u)).rtake (maxConcurrent - 1), e.Covers u) ∧
      ∀ a n n',
        ((∃ e ∈ (created (listNum u)).rtake (maxConcurrent - 1), e.Covers u) ↔
          m.insertList cfg ses fuel a n n' u = .ok (ses, m, none, [])) ∧
        ((∃ e ∈ (created (listNum u)).rtake (maxConcurrent - 1), e.Covers u) ↔
          ∃ ses' m' ops, m.insertList cfg ses fuel a n n' u = .ok (ses', m', none, ops)) := by
  obtain ⟨as, hm⟩ := h.holds
  have hentries : ∀ i < maxThreadNum,
      (as i).map (fun a => (m.node a).val) = (created i).rtake (maxConcurrent - 1) := by
    intro i hi
    rw [hm.entries i hi, CowList.recent_entries]
  have hlength : ∀ i < maxThreadNum,
      (as i).length = ((created i).rtake (maxConcurrent - 1)).length := by
    intro i hi
    rw [← hentries i hi, List.length_map]
  refine ⟨fun i hi => ⟨as i, hm.chain i hi, hentries i hi, ?_, ?_⟩, fun u fuel hle => ?_⟩
  · rw [hm.size i hi, CowList.recent_size, hlength i hi]
  · rw [hlength i hi, length_rtake]
  have hfuel : (as (listNum u)).length < fuel := by
    rw [hlength _ RecentLists.listNum_lt, length_rtake]
    exact (min_le_right _ _).trans_lt hle
  rw [hm.inList_eq hfuel, Option.some_inj, Option.some_inj, decide_eq_true_iff,
    decide_eq_false_iff_not, ← CowList.recent_entries]
  refine ⟨Iff.rfl, Iff.rfl, fun a n n' => ⟨⟨fun hcov => ?_, fun hr => ?_⟩,
    ⟨fun hcov => ?_, fun ⟨ses', m', ops, hr⟩ => ?_⟩⟩⟩
  · exact hm.insertList_of_covers hfuel hcov
  · rcases hm.insertList_cases hr with ⟨hcov, -⟩ | ⟨-, le, ce, hsome, -⟩
    · exact hcov
    · cases hsome
  · exact ⟨ses, m, [], hm.insertList_of_covers hfuel hcov⟩
  · rcases hm.insertList_cases hr with ⟨hcov, -⟩ | ⟨-, le, ce, hsome, -⟩
    · exact hcov
    · cases hsome

/-! ### A list that becomes full -/

/-- A node that no list holds. -/
theorem RecentLists.Holds.exists_unused {as : ℕ → List ℕ} {c : ℕ → CowList} (h : m.Holds as c) :
    ∃ a, m.Unused a := by
  have hfinite : {a | ∃ i < maxThreadNum, a ∈ m.head i :: as i}.Finite := by
    have hunion := (Set.finite_lt_nat maxThreadNum).biUnion fun i _ =>
      List.finite_toSet (m.head i :: as i)
    refine hunion.subset ?_
    rintro a ⟨i, hi, ha⟩
    exact Set.mem_biUnion hi ha
  obtain ⟨a, ha⟩ := hfinite.exists_notMem
  refine ⟨a, ?_⟩
  intro i hi l hl hmem
  rw [← (h.chain i hi).unique hl] at hmem
  exact ha ⟨i, hi, hmem⟩

/-- A unit whose block is the first one of its chain in the table is copied with the whole block. -/
theorem Session.searchOrInsert_head {key : ℕ} {e : CowEntry} {l : List CowEntry} {n n' u : ℕ}
    (hkey : u / u64 ses.s.blockSize * u64 ses.s.blockSize = key) (he : e.faultVoffAligned = key)
    (hl : ses.cow.buckets (bucketNumber (u64 ses.s.blockSize) u) = e :: l) :
    ∃ ses' ce, ses.searchOrInsert cfg n n' u = .ok (ses', ⟨key, ses.s.blockSize⟩, ce, []) ∧
      ses'.s = ses.s := by
  refine ⟨{ ses with cow := ses.cow.setBucket (bucketNumber (u64 ses.s.blockSize) u) l },
    { e with copiedCounter := -1 }, ?_, rfl⟩
  rw [searchOrInsert]
  dsimp only
  rw [hl, searchHt_head (he.trans hkey.symm)]
  dsimp only
  rw [if_pos (Eq.refl true), hkey]

/-- **One more entry** of a run, for a unit that no entry held covers: another fault on its block
has made the table hold the block. -/
theorem Calls.exists_created (h : Calls cfg ses m created) {u : ℕ}
    (hcov : ¬∃ e ∈ (created (listNum u)).rtake (maxConcurrent - 1), e.Covers u) :
    ∃ ses' m', Calls cfg ses' m' (Function.update created (listNum u) (created (listNum u) ++
      [⟨u / u64 ses.s.blockSize * u64 ses.s.blockSize, ses.s.blockSize⟩])) ∧ ses'.s = ses.s := by
  obtain ⟨as, hm⟩ := h.holds
  obtain ⟨a, ha⟩ := hm.exists_unused
  obtain ⟨key, hkey⟩ : ∃ x, x = u / u64 ses.s.blockSize * u64 ses.s.blockSize := ⟨_, rfl⟩
  obtain ⟨e, he⟩ : ∃ e : CowEntry, e.faultVoffAligned = key :=
    ⟨{ (default : CowEntry) with faultVoffAligned := key }, rfl⟩
  obtain ⟨b, hb⟩ : ∃ x, x = bucketNumber (u64 ses.s.blockSize) u := ⟨_, rfl⟩
  obtain ⟨ses₁, hses₁⟩ : ∃ x, x = { ses with cow := ses.cow.setBucket b [e] } := ⟨_, rfl⟩
  have hs : ses₁.s = ses.s := by rw [hses₁]
  have hbucket : ses₁.cow.buckets (bucketNumber (u64 ses₁.s.blockSize) u) = [e] := by
    rw [hs, ← hb, hses₁]
    exact Function.update_self _ _ _
  obtain ⟨ses₂, ce, htable, hs₂⟩ :=
    @Session.searchOrInsert_head cfg ses₁ key e [] 0 0 u (by rw [hs, hkey]) he hbucket
  have hcall : m.insertList cfg ses₁ ((as (listNum u)).length + 1) a 0 0 u = _ :=
    hm.insertList_of_not_covers (Nat.lt_succ_self _) (by rwa [CowList.recent_entries])
  rw [htable] at hcall
  have hrun := h.other.created ha hcall
  rw [hs, hkey] at hrun
  exact ⟨ses₂, _, hrun, hs₂.trans hs⟩

/-- The entries of list 0 after write faults on its first `k` units, each copied with a block of two
units. -/
def listZero (k : ℕ) : List CowLEntry :=
  (List.range k).map fun j => ⟨j * (maxThreadNum * cowUnit), 8192⟩

theorem length_listZero (k : ℕ) : (listZero k).length = k := by
  rw [listZero, List.length_map, List.length_range]

/-- But for the first one, they are of units behind the first. -/
theorem listZero_succ (k : ℕ) : listZero (k + 1) = ⟨0, 8192⟩ ::
    (List.range k).map fun j => ⟨(j + 1) * (maxThreadNum * cowUnit), 8192⟩ := by
  rw [listZero, List.range_succ_eq_map, List.map_cons, List.map_map, Nat.zero_mul]
  rfl

theorem listNum_listZero (k : ℕ) : listNum (k * (maxThreadNum * cowUnit)) = 0 := by
  rw [listNum]
  simp only [maxThreadNum, cowUnit]
  omega

/-- No entry covers a unit of another one's. -/
theorem covers_listZero {j k : ℕ} :
    CowLEntry.Covers ⟨j * (maxThreadNum * cowUnit), 8192⟩ (k * (maxThreadNum * cowUnit)) ↔
      j = k := by
  rw [CowLEntry.Covers]
  simp only [maxThreadNum, cowUnit]
  omega

/-- A run in which list 0 has as many entries created as one likes. -/
theorem exists_calls (hses : ses.s.blockSize = 8192) (k : ℕ) :
    ∃ ses' m created, Calls .shipped ses' m created ∧ created 0 = listZero k ∧
      ses'.s.blockSize = 8192 := by
  induction k with
  | zero =>
    refine ⟨ses, ⟨fun _ => ⟨default, none⟩, id, fun _ => 0⟩, fun _ => [], .init ?_, rfl, hses⟩
    exact ⟨fun _ _ => rfl, Set.injOn_id _, fun _ _ => rfl⟩
  | succ k ih =>
    obtain ⟨ses₁, m, created, hrun, hzero, hses₁⟩ := ih
    have hcov : ¬∃ e ∈ (created (listNum (k * (maxThreadNum * cowUnit)))).rtake (maxConcurrent - 1),
        e.Covers (k * (maxThreadNum * cowUnit)) := by
      rintro ⟨e, he, hcov⟩
      rw [listNum_listZero, hzero] at he
      obtain ⟨j, hj, rfl⟩ := List.mem_map.mp (List.mem_of_mem_drop he)
      exact absurd (covers_listZero.mp hcov) (Nat.ne_of_lt (List.mem_range.mp hj))
    obtain ⟨ses₂, m', hrun', hs⟩ := hrun.exists_created hcov
    refine ⟨ses₂, m', _, hrun', ?_, by rw [hs, hses₁]⟩
    have hkey : k * (maxThreadNum * cowUnit) / u64 8192 * u64 8192 = k * (maxThreadNum * cowUnit) :=
      Nat.div_mul_cancel (Dvd.dvd.mul_left (by decide) _)
    rw [listNum_listZero, Function.update_self, hzero, hses₁, hkey, listZero, listZero,
      List.range_succ, List.map_append, List.map_singleton]

/-- The 128th entry of a list has made the oldest one leave it: of the units of the 128 faults the
first one is not in the list any more, and the last one is. -/
theorem recent_lists_full : ∃ (ses : Session) (m : RecentLists) (created : ℕ → List CowLEntry),
    Calls .shipped ses m created ∧ (created 0).length = maxConcurrent ∧
      m.size 0 = (maxConcurrent - 1 : ℕ) ∧ m.inList maxConcurrent 0 = some false ∧
      m.inList maxConcurrent (127 * (maxThreadNum * cowUnit)) = some true := by
  obtain ⟨-, ses₀, -, -, -, -, -, -, -, -, hs, -⟩ :=
    @exists_firstCopy 0 (Geometry.twoPages .shipped) (by decide) (by decide) (by decide) (by decide)
      (by decide)
  obtain ⟨ses, m, created, hrun, hzero, -⟩ := @exists_calls ses₀ hs.blockSize maxConcurrent
  obtain ⟨hlists, hunits⟩ := recent_lists hrun
  obtain ⟨as, -, -, hsize, hlen⟩ := hlists 0 (by decide)
  have hheld : (created 0).rtake (maxConcurrent - 1) =
      (List.range 127).map fun j => ⟨(j + 1) * (maxThreadNum * cowUnit), 8192⟩ := by
    rw [hzero, List.rtake, length_listZero]
    exact congrArg List.tail (listZero_succ 127)
  refine ⟨ses, m, created, hrun, ?_, ?_, ((hunits 0 _ le_rfl).2.1).mpr ?_,
    ((hunits (127 * (maxThreadNum * cowUnit)) _ le_rfl).1).mpr ?_⟩
  · rw [hzero, length_listZero]
  · rw [hsize, hlen, hzero, length_listZero]
    rfl
  · rintro ⟨e, he, hcov⟩
    rw [← Nat.zero_mul (maxThreadNum * cowUnit), listNum_listZero, hheld] at he
    obtain ⟨j, -, rfl⟩ := List.mem_map.mp he
    rw [← Nat.zero_mul (maxThreadNum * cowUnit), covers_listZero] at hcov
    exact Nat.succ_ne_zero j hcov
  · rw [listNum_listZero, hheld]
    exact ⟨_, List.mem_map_of_mem (List.mem_range.mpr (Nat.lt_succ_self 126)),
      covers_listZero.mpr rfl⟩

end Pcow
