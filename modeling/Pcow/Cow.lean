import Pcow.PreAlloc
import Mathlib.Data.List.Nodup

/-!
# The tables of incomplete copies

The data structures of `cow.c`. A block that is copied on write unit by unit has an
entry in the table `cow_ht`, a chain for each of the `BUCKET_NUM` buckets, from its
first copied unit until it is copied as a whole. The recent lists `cow_l` record
what was copied last, so that a fault on a unit that has been copied in the
meantime returns at once; each drops its oldest entry when it is full.

A list of the source begins with a dummy entry. Here it is the list of the entries
after the dummy, so that advancing the head to the next entry drops the first
one.
-/

namespace Pcow

/-- `struct Cow_entry`: a block of which some units are copied. -/
structure CowEntry where
  /-- The virtual offset of the block, which is the key. -/
  faultVoffAligned : ℕ
  /-- The meta block the entry is taken to be in. -/
  m : Meta
  /-- The file offset `meta_entry` points to. -/
  metaEntry : ℕ
  /-- The file offset of the block. -/
  blockOff : ℕ
  /-- The offsets of the units that were moved out of the mapping `map_addr`. -/
  moved : List ℕ
  /-- `copied_counter`. -/
  copiedCounter : ℤ
deriving DecidableEq, Inhabited

/-- `struct Cow_l_entry`: a range that was copied. -/
structure CowLEntry where
  /-- The virtual offset of the range. -/
  voff : ℕ
  /-- The length of the range. -/
  copySize : ℤ
deriving DecidableEq, Inhabited

/-- `struct Cow_list`. -/
structure CowList where
  /-- The entries after the head, the oldest first. -/
  entries : List CowLEntry
  /-- `size`. -/
  size : ℤ

/-- The tables: `cow_l` and `cow_ht`. -/
structure CowTables where
  /-- `cow_l`. -/
  cowL : ℕ → CowList
  /-- The chains of `cow_ht`. -/
  buckets : ℕ → List CowEntry
  /-- `cow_ht.size`. -/
  htSize : ℤ

/-- `init_fgcow`. -/
def initFgcow : CowTables := ⟨fun _ => ⟨[], 0⟩, fun _ => [], 0⟩

/-! ### The recent lists -/

/-- The range of the entry holds the unit at `voff`. -/
def CowLEntry.Covers (e : CowLEntry) (voff : ℕ) : Prop :=
  e.voff ≤ voff ∧ (voff : ℤ) + cowUnit ≤ e.voff + e.copySize

instance (e : CowLEntry) (voff : ℕ) : Decidable (e.Covers voff) :=
  inferInstanceAs (Decidable (_ ∧ _))

/-- The list a unit belongs to. -/
def listNum (voff : ℕ) : ℕ := voff / cowUnit % maxThreadNum

/-- `in_list`. -/
def CowTables.InList (c : CowTables) (voff : ℕ) : Prop :=
  ∃ e ∈ (c.cowL (listNum voff)).entries, e.Covers voff

instance (c : CowTables) (voff : ℕ) : Decidable (c.InList voff) :=
  inferInstanceAs (Decidable (∃ e ∈ _, _))

/-- Append an entry to a list; a list that has become full advances its head. -/
def CowList.push (l : CowList) (e : CowLEntry) : CowList :=
  if l.size + 1 ≥ maxConcurrent then ⟨(l.entries ++ [e]).tail, l.size⟩
  else ⟨l.entries ++ [e], l.size + 1⟩

/-- Append an entry to the list of the unit at `voff`. -/
def CowTables.pushList (c : CowTables) (voff : ℕ) (e : CowLEntry) : CowTables :=
  { c with cowL := Function.update c.cowL (listNum voff) ((c.cowL (listNum voff)).push e) }

theorem CowTables.cowL_pushList_of_ne {c : CowTables} {voff i : ℕ} {e : CowLEntry}
    (h : i ≠ listNum voff) : (c.pushList voff e).cowL i = c.cowL i := Function.update_of_ne h _ _

/-- An entry of a list after a push was there before, or is the one pushed. -/
theorem CowList.mem_push {l : CowList} {e e' : CowLEntry} (h : e' ∈ (l.push e).entries) :
    e' ∈ l.entries ∨ e' = e := by
  have hmem : e' ∈ l.entries ++ [e] := by
    rw [push] at h
    split at h
    · exact List.mem_of_mem_tail h
    · exact h
  rcases List.mem_append.mp hmem with h | h
  · exact Or.inl h
  · exact Or.inr (List.mem_singleton.mp h)

/-! ### The table of incomplete blocks -/

/-- `search_ht` in a chain, from the given rank on: the entry found, whether the
block is to be copied as a whole, and the chain afterwards. -/
def searchHt (key : ℕ) : ℕ → List CowEntry → Option (CowEntry × Bool × List CowEntry)
  | _, [] => none
  | rank, e :: l =>
    if e.faultVoffAligned = key then
      if rank + 1 < recentRankThreshold then some ({ e with copiedCounter := -1 }, true, l)
      else some (e, false, e :: l)
    else (searchHt key (rank + 1) l).map fun x => (x.1, x.2.1, e :: x.2.2)

/-- The bucket of a block. -/
def bucketNumber (blockSize voff : ℕ) : ℕ := voff / blockSize % bucketNum

/-- Replace the chain of a bucket. -/
def CowTables.setBucket (c : CowTables) (b : ℕ) (l : List CowEntry) : CowTables :=
  { c with buckets := Function.update c.buckets b l }

/-- The end of `insert_ht`: the new entry becomes the first of its chain. -/
def CowTables.link (c : CowTables) (b : ℕ) (e : CowEntry) : CowTables :=
  { c.setBucket b (e :: c.buckets b) with htSize := c.htSize + 1 }

/-- Change the entry of a block, wherever it is in its chain. -/
def CowTables.modify (c : CowTables) (b key : ℕ) (h : CowEntry → CowEntry) : CowTables :=
  c.setBucket b ((c.buckets b).map fun e => if e.faultVoffAligned = key then h e else e)

/-- A search that finds nothing: no entry of the chain has the key. -/
theorem searchHt_eq_none {key rank : ℕ} {l : List CowEntry} :
    searchHt key rank l = none ↔ ∀ e ∈ l, e.faultVoffAligned ≠ key := by
  induction l generalizing rank with
  | nil => simp [searchHt]
  | cons e l ih =>
    rw [searchHt]
    split
    · rename_i hkey
      split
      · simp [hkey]
      · simp [hkey]
    · rename_i hkey
      rw [Option.map_eq_none_iff, ih, List.forall_mem_cons]
      exact ⟨fun h => ⟨hkey, h⟩, fun h => h.2⟩

/-- **What a search finds**: an entry with the key. If the block is to be copied as
a whole the entry leaves the chain, which loses nothing else; otherwise the chain
stays. -/
theorem searchHt_eq_some {key rank : ℕ} {l rest : List CowEntry} {e : CowEntry} {full : Bool}
    (h : searchHt key rank l = some (e, full, rest)) :
    ∃ e₀ ∈ l, e₀.faultVoffAligned = key ∧
      ((full = true ∧ e = { e₀ with copiedCounter := -1 } ∧ ∃ l₁ l₂, l = l₁ ++ e₀ :: l₂ ∧
        rest = l₁ ++ l₂) ∨ full = false ∧ e = e₀ ∧ rest = l) := by
  induction l generalizing rank rest with
  | nil => cases h
  | cons e' l ih =>
    rw [searchHt] at h
    split at h
    · rename_i hkey
      split at h
      · cases h
        exact ⟨e', List.mem_cons_self, hkey, Or.inl ⟨rfl, rfl, [], l, rfl, rfl⟩⟩
      · cases h
        exact ⟨e, List.mem_cons_self, hkey, Or.inr ⟨rfl, rfl, rfl⟩⟩
    · rw [Option.map_eq_some_iff] at h
      obtain ⟨⟨a, b, c⟩, hrec, heq⟩ := h
      cases heq
      obtain ⟨e₀, hmem, hkey, hcase⟩ := ih hrec
      refine ⟨e₀, List.mem_cons_of_mem _ hmem, hkey, ?_⟩
      rcases hcase with ⟨hfull, he, l₁, l₂, rfl, rfl⟩ | ⟨hfull, he, rfl⟩
      · exact Or.inl ⟨hfull, he, e' :: l₁, l₂, rfl, rfl⟩
      · exact Or.inr ⟨hfull, he, rfl⟩

/-- A block is copied as a whole if it comes early enough in its chain. -/
theorem searchHt_rank {key rank : ℕ} {l rest : List CowEntry} {e : CowEntry}
    (h : searchHt key rank l = some (e, true, rest)) : rank + 1 < recentRankThreshold := by
  induction l generalizing rank rest with
  | nil => cases h
  | cons e' l ih =>
    rw [searchHt] at h
    split_ifs at h with hkey hrank
    · exact hrank
    · cases h
    · rw [Option.map_eq_some_iff] at h
      obtain ⟨⟨a, c, r⟩, hrec, heq⟩ := h
      cases heq
      exact lt_trans (Nat.lt_succ_self _) (ih hrec)

/-- The first block of a chain is. -/
theorem searchHt_head {key : ℕ} {l : List CowEntry} {e : CowEntry}
    (hkey : e.faultVoffAligned = key) :
    searchHt key 0 (e :: l) = some ({ e with copiedCounter := -1 }, true, l) := by
  rw [searchHt, if_pos hkey, if_pos (by decide)]

/-- No other one is. -/
theorem searchHt_full {key : ℕ} {l rest : List CowEntry} {e : CowEntry}
    (h : searchHt key 0 l = some (e, true, rest)) :
    ∃ e₀, l = e₀ :: rest ∧ e₀.faultVoffAligned = key ∧ e = { e₀ with copiedCounter := -1 } := by
  rcases l with _ | ⟨e₀, l⟩
  · cases h
  · rw [searchHt] at h
    split_ifs at h with hkey hrank
    · cases h
      exact ⟨e₀, rfl, hkey, rfl⟩
    · cases h
    · rw [Option.map_eq_some_iff] at h
      obtain ⟨⟨a, c, r⟩, hrec, heq⟩ := h
      cases heq
      exact absurd (searchHt_rank hrec) (lt_irrefl _)

/-! ### The copied units of a block -/

/-- The units of block `b` that the table has as copied, if the block is in the
table; blocks have size `n`. -/
def CowTables.movedOf (c : CowTables) (n b : ℕ) : Option (List ℕ) :=
  ((c.buckets (b % bucketNum)).find? fun ce => ce.faultVoffAligned = b * n).map (·.moved)

/-- The table is in order: an entry is in the bucket of its block, and a block has
one entry at most. -/
structure CowTables.Ok (c : CowTables) (n : ℕ) : Prop where
  bucket : ∀ i, ∀ ce ∈ c.buckets i, ∃ b, ce.faultVoffAligned = b * n ∧ i = b % bucketNum
  nodup : ∀ i, ((c.buckets i).map (·.faultVoffAligned)).Nodup

/-- An empty table is. -/
theorem CowTables.ok_init {n : ℕ} : initFgcow.Ok n where
  bucket := fun i ce hce => by cases hce
  nodup := fun i => List.nodup_nil

/-- The entry with a given key, in a chain whose keys differ. -/
theorem find?_key {l : List CowEntry} (hl : (l.map (·.faultVoffAligned)).Nodup) {ce : CowEntry}
    (hce : ce ∈ l) {key : ℕ} (hkey : ce.faultVoffAligned = key) :
    l.find? (fun ce => ce.faultVoffAligned = key) = some ce := by
  induction l with
  | nil => cases hce
  | cons e l ih =>
    rw [List.map_cons, List.nodup_cons] at hl
    rcases List.mem_cons.mp hce with rfl | hmem
    · rw [List.find?_cons_of_pos (by simpa using hkey)]
    · have hne : e.faultVoffAligned ≠ key := by
        rintro he
        exact hl.1 (List.mem_map.mpr ⟨ce, hmem, hkey.trans he.symm⟩)
      rw [List.find?_cons_of_neg (by simpa using hne), ih hl.2 hmem]

section MovedOf

variable {c : CowTables} {n b : ℕ}

theorem CowTables.Ok.movedOf_of_mem (h : c.Ok n) {ce : CowEntry}
    (hce : ce ∈ c.buckets (b % bucketNum)) (hkey : ce.faultVoffAligned = b * n) :
    c.movedOf n b = some ce.moved := by
  rw [movedOf, find?_key (h.nodup _) hce hkey, Option.map_some]

theorem CowTables.movedOf_eq_some {mv : List ℕ} (h : c.movedOf n b = some mv) :
    ∃ ce ∈ c.buckets (b % bucketNum), ce.faultVoffAligned = b * n ∧ ce.moved = mv := by
  rw [movedOf, Option.map_eq_some_iff] at h
  obtain ⟨ce, hfind, hmv⟩ := h
  exact ⟨ce, List.mem_of_find?_eq_some hfind, by simpa using List.find?_some hfind, hmv⟩

theorem CowTables.movedOf_eq_none : c.movedOf n b = none ↔
    ∀ ce ∈ c.buckets (b % bucketNum), ce.faultVoffAligned ≠ b * n := by
  rw [movedOf, Option.map_eq_none_iff, List.find?_eq_none]
  simp only [decide_eq_true_eq, ne_eq]

/-- A table that differs in the chain of one block only, and there for that block
only. -/
theorem CowTables.movedOf_update {c' : CowTables} {r : Option (List ℕ)}
    (hother : ∀ i, i ≠ b % bucketNum → c'.buckets i = c.buckets i) (hb : c'.movedOf n b = r)
    (hsame : ∀ d, d ≠ b → d % bucketNum = b % bucketNum → c'.movedOf n d = c.movedOf n d) :
    c'.movedOf n = Function.update (c.movedOf n) b r := by
  funext d
  by_cases hd : d = b
  · rw [hd, hb, Function.update_self]
  · rw [Function.update_of_ne hd]
    by_cases hm : d % bucketNum = b % bucketNum
    · exact hsame d hd hm
    · rw [movedOf, hother _ hm, movedOf]

/-- A new entry, for a block that has none. -/
theorem CowTables.Ok.link (h : c.Ok n) (hn : 0 < n) {ce : CowEntry}
    (hkey : ce.faultVoffAligned = b * n) (hnone : c.movedOf n b = none) :
    (c.link (b % bucketNum) ce).Ok n ∧
      (c.link (b % bucketNum) ce).movedOf n = Function.update (c.movedOf n) b (some ce.moved) := by
  have hself : (c.link (b % bucketNum) ce).buckets (b % bucketNum) =
      ce :: c.buckets (b % bucketNum) := Function.update_self _ _ _
  have hother : ∀ i, i ≠ b % bucketNum → (c.link (b % bucketNum) ce).buckets i = c.buckets i :=
    fun i hi => Function.update_of_ne hi _ _
  have hok : (c.link (b % bucketNum) ce).Ok n := by
    constructor
    · intro i e he
      by_cases hi : i = b % bucketNum
      · rw [hi, hself, List.mem_cons] at he
        rcases he with rfl | he
        · exact ⟨b, hkey, hi⟩
        · exact h.bucket i e (hi ▸ he)
      · rw [hother i hi] at he
        exact h.bucket i e he
    · intro i
      by_cases hi : i = b % bucketNum
      · rw [hi, hself, List.map_cons, List.nodup_cons, hkey]
        refine ⟨fun hmem => ?_, h.nodup _⟩
        obtain ⟨e, he, hek⟩ := List.mem_map.mp hmem
        exact movedOf_eq_none.mp hnone e he hek
      · rw [hother i hi]
        exact h.nodup i
  refine ⟨hok, movedOf_update hother ?_ fun d hd hm => ?_⟩
  · exact hok.movedOf_of_mem (by rw [hself]; exact List.mem_cons_self) hkey
  · have hne : ce.faultVoffAligned ≠ d * n := by
      intro he
      exact hd (Nat.eq_of_mul_eq_mul_right hn (he.symm.trans hkey))
    rw [movedOf, hm, hself, List.find?_cons_of_neg (by simpa using hne), movedOf, hm]

/-- A chain that loses the entry of a block. -/
theorem CowTables.Ok.unlink (h : c.Ok n) (hn : 0 < n) {ce : CowEntry} {l₁ l₂ : List CowEntry}
    (hl : c.buckets (b % bucketNum) = l₁ ++ ce :: l₂) (hkey : ce.faultVoffAligned = b * n) :
    (c.setBucket (b % bucketNum) (l₁ ++ l₂)).Ok n ∧
      (c.setBucket (b % bucketNum) (l₁ ++ l₂)).movedOf n =
        Function.update (c.movedOf n) b none := by
  have hself : (c.setBucket (b % bucketNum) (l₁ ++ l₂)).buckets (b % bucketNum) = l₁ ++ l₂ :=
    Function.update_self _ _ _
  have hother : ∀ i, i ≠ b % bucketNum →
      (c.setBucket (b % bucketNum) (l₁ ++ l₂)).buckets i = c.buckets i :=
    fun i hi => Function.update_of_ne hi _ _
  have hsub : ∀ e ∈ l₁ ++ l₂, e ∈ c.buckets (b % bucketNum) := by
    intro e he
    rw [hl]
    rcases List.mem_append.mp he with he | he
    · exact List.mem_append_left _ he
    · exact List.mem_append_right _ (List.mem_cons_of_mem _ he)
  have hnd := h.nodup (b % bucketNum)
  rw [hl, List.map_append, List.map_cons, List.nodup_middle, List.nodup_cons] at hnd
  refine ⟨⟨fun i e he => ?_, fun i => ?_⟩, movedOf_update hother ?_ fun d hd hm => ?_⟩
  · by_cases hi : i = b % bucketNum
    · rw [hi, hself] at he
      exact hi ▸ h.bucket _ e (hsub e he)
    · rw [hother i hi] at he
      exact h.bucket i e he
  · by_cases hi : i = b % bucketNum
    · rw [hi, hself, List.map_append]
      exact hnd.2
    · rw [hother i hi]
      exact h.nodup i
  · rw [movedOf_eq_none, hself]
    intro e he hek
    refine hnd.1 ?_
    rw [hkey, ← List.map_append]
    exact List.mem_map.mpr ⟨e, he, hek⟩
  · have hne : ce.faultVoffAligned ≠ d * n := by
      intro he
      exact hd (Nat.eq_of_mul_eq_mul_right hn (he.symm.trans hkey))
    rw [movedOf, hm, hself, movedOf, hm, hl, List.find?_append, List.find?_append,
      List.find?_cons_of_neg (by simpa using hne)]

/-- The entry of a block is changed, but for its key. -/
theorem CowTables.Ok.modify (h : c.Ok n) (hn : 0 < n) {ce : CowEntry} {F : CowEntry → CowEntry}
    (hF : ∀ e, (F e).faultVoffAligned = e.faultVoffAligned)
    (hce : ce ∈ c.buckets (b % bucketNum)) (hkey : ce.faultVoffAligned = b * n) :
    (c.modify (b % bucketNum) (b * n) F).Ok n ∧
      (c.modify (b % bucketNum) (b * n) F).movedOf n =
        Function.update (c.movedOf n) b (some (F ce).moved) := by
  have hself : (c.modify (b % bucketNum) (b * n) F).buckets (b % bucketNum) =
      (c.buckets (b % bucketNum)).map fun e => if e.faultVoffAligned = b * n then F e else e :=
    Function.update_self _ _ _
  have hother : ∀ i, i ≠ b % bucketNum →
      (c.modify (b % bucketNum) (b * n) F).buckets i = c.buckets i :=
    fun i hi => Function.update_of_ne hi _ _
  have hkeys : ∀ e : CowEntry,
      (if e.faultVoffAligned = b * n then F e else e).faultVoffAligned = e.faultVoffAligned := by
    intro e
    split
    · exact hF e
    · rfl
  have hok : (c.modify (b % bucketNum) (b * n) F).Ok n := by
    constructor
    · intro i e he
      by_cases hi : i = b % bucketNum
      · rw [hi, hself, List.mem_map] at he
        obtain ⟨e₀, he₀, rfl⟩ := he
        rw [hkeys]
        exact hi ▸ h.bucket _ e₀ he₀
      · rw [hother i hi] at he
        exact h.bucket i e he
    · intro i
      by_cases hi : i = b % bucketNum
      · rw [hi, hself, List.map_map]
        have : ((fun e : CowEntry => e.faultVoffAligned) ∘ fun e : CowEntry =>
            if e.faultVoffAligned = b * n then F e else e) = (·.faultVoffAligned) := funext hkeys
        rw [this]
        exact h.nodup _
      · rw [hother i hi]
        exact h.nodup i
  refine ⟨hok, movedOf_update hother ?_ fun d hd hm => ?_⟩
  · refine hok.movedOf_of_mem ?_ ((hF ce).trans hkey)
    rw [hself]
    exact List.mem_map.mpr ⟨ce, hce, if_pos hkey⟩
  · rw [movedOf, hm, hself, List.find?_map]
    have hpred : ((fun e : CowEntry => decide (e.faultVoffAligned = d * n)) ∘ fun e : CowEntry =>
        if e.faultVoffAligned = b * n then F e else e) = fun e =>
          decide (e.faultVoffAligned = d * n) := by
      funext e
      simp only [Function.comp_apply, hkeys]
    rw [hpred, movedOf, hm, Option.map_map]
    rcases hfind : (c.buckets (b % bucketNum)).find? _ with _ | e
    · rfl
    · have hek : e.faultVoffAligned = d * n := by simpa using List.find?_some hfind
      have hne : e.faultVoffAligned ≠ b * n := by
        intro he
        exact hd (Nat.eq_of_mul_eq_mul_right hn (hek.symm.trans he))
      rw [Option.map_some, Option.map_some, Function.comp_apply, if_neg hne]

/-- An entry of another block is in another bucket, or has another key. -/
theorem CowTables.Ok.key_ne (h : c.Ok n) (hn : 0 < n) {e : CowEntry} {i : ℕ}
    (he : e ∈ c.buckets i) (hi : i ≠ b % bucketNum) : e.faultVoffAligned ≠ b * n := by
  rintro hkey
  obtain ⟨d, hd, hid⟩ := h.bucket i e he
  obtain rfl : d = b := Nat.eq_of_mul_eq_mul_right hn (hd.symm.trans hkey)
  exact hi hid

/-- What is in the table after the entry of a block was changed. -/
theorem CowTables.Ok.mem_modify (h : c.Ok n) (hn : 0 < n) {ce e : CowEntry}
    {F : CowEntry → CowEntry} {i : ℕ} (hce : ce ∈ c.buckets (b % bucketNum))
    (hkey : ce.faultVoffAligned = b * n)
    (he : e ∈ (c.modify (b % bucketNum) (b * n) F).buckets i) :
    e = F ce ∨ (e ∈ c.buckets i ∧ e.faultVoffAligned ≠ b * n) := by
  by_cases hi : i = b % bucketNum
  · have hself : (c.modify (b % bucketNum) (b * n) F).buckets (b % bucketNum) =
        (c.buckets (b % bucketNum)).map fun e => if e.faultVoffAligned = b * n then F e else e :=
      Function.update_self _ _ _
    rw [hi, hself, List.mem_map] at he
    obtain ⟨e₀, he₀, rfl⟩ := he
    by_cases hk : e₀.faultVoffAligned = b * n
    · have huniq : some e₀ = some ce := by
        rw [← find?_key (h.nodup _) he₀ hk, find?_key (h.nodup _) hce hkey]
      rw [if_pos hk, Option.some.inj huniq]
      exact Or.inl rfl
    · rw [if_neg hk, hi]
      exact Or.inr ⟨he₀, hk⟩
  · have hother : (c.modify (b % bucketNum) (b * n) F).buckets i = c.buckets i :=
      Function.update_of_ne hi _ _
    rw [hother] at he
    exact Or.inr ⟨he, h.key_ne hn he hi⟩

theorem CowTables.mem_modify_self {ce : CowEntry} {F : CowEntry → CowEntry} {i key : ℕ}
    (hce : ce ∈ c.buckets i) (hkey : ce.faultVoffAligned = key) :
    F ce ∈ (c.modify i key F).buckets i := by
  have hself : (c.modify i key F).buckets i =
      (c.buckets i).map fun e => if e.faultVoffAligned = key then F e else e :=
    Function.update_self _ _ _
  rw [hself]
  exact List.mem_map.mpr ⟨ce, hce, if_pos hkey⟩

/-- What is in the table after the entry of a block was unlinked. -/
theorem CowTables.Ok.mem_unlink (h : c.Ok n) (hn : 0 < n) {ce e : CowEntry}
    {l₁ l₂ : List CowEntry} {i : ℕ} (hl : c.buckets (b % bucketNum) = l₁ ++ ce :: l₂)
    (hkey : ce.faultVoffAligned = b * n)
    (he : e ∈ (c.setBucket (b % bucketNum) (l₁ ++ l₂)).buckets i) :
    e ∈ c.buckets i ∧ e.faultVoffAligned ≠ b * n := by
  by_cases hi : i = b % bucketNum
  · have hself : (c.setBucket (b % bucketNum) (l₁ ++ l₂)).buckets (b % bucketNum) = l₁ ++ l₂ :=
      Function.update_self _ _ _
    have hnd := h.nodup (b % bucketNum)
    rw [hl, List.map_append, List.map_cons, List.nodup_middle, List.nodup_cons] at hnd
    rw [hi, hself] at he
    refine ⟨?_, fun hk => hnd.1 ?_⟩
    · rw [hi, hl]
      rcases List.mem_append.mp he with he | he
      · exact List.mem_append_left _ he
      · exact List.mem_append_right _ (List.mem_cons_of_mem _ he)
    · rw [hkey, ← List.map_append]
      exact List.mem_map.mpr ⟨e, he, hk⟩
  · have hother : (c.setBucket (b % bucketNum) (l₁ ++ l₂)).buckets i = c.buckets i :=
      Function.update_of_ne hi _ _
    rw [hother] at he
    exact ⟨he, h.key_ne hn he hi⟩

end MovedOf

end Pcow
