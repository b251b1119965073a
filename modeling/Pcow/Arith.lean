import Pcow.Build
import Pcow.Refine
import Pcow.History
import Pcow.Lib.CExpr

/-!
# The arithmetic of offsets and counters

The offsets of the layout and the counters of a layer are computed from `int` values, with casts to
`unsigned long` on some of the factors only. Here the expressions are written down as the source has
them (`CExpr`), with the types of their variables, for every place where an image that is
snapshotted, reopened and appended to evaluates one (`Usage.Evaluates`). Within the sizes that
`fmmap` admits none of them is ever cut, and their values are those that the model has
(`arithmetic_exact`): the layer invariant bounds the counters, and the file the offsets.

The allocator thread evaluates some of them on numbers that it reads while a call of `new_block` is
in progress. These are bounded by what the thread may see (`Super.Sees`), as long as it does not
read the counter of the struct that the call has freed: what it computes from that may be below
zero, as an unsigned number (`prealloc_underflow`).
-/

namespace Pcow

open CType (int uint long ulong)

variable {cfg : Config} {g : Geometry cfg} {f f' : ByteFile} {fd : Path} {off k v : ℕ}
  {es : List ℕ} {ls : List (List ℕ)} {s : Super}

/-! ### The expressions -/

/-- `s->my_off + (unsigned long)s->block_size * (1L + (unsigned long)s->active_meta_num *
(1L + (unsigned long)s->max_per_seg))`, in `read_first_super` and `read_next_super`. -/
def activeMetaOffExpr (myOff blockSize activeMetaNum maxPerSeg : ℤ) : CExpr :=
  .val ulong myOff + .cast ulong (.val int blockSize) *
    (.val long 1 + .cast ulong (.val int activeMetaNum) *
      (.val long 1 + .cast ulong (.val int maxPerSeg)))

/-- `s->my_off + (unsigned long)s->block_size +
(unsigned long)n * (s->max_per_seg + 1) * s->block_size`, in `read_meta`. -/
def metaOffExpr (myOff blockSize n maxPerSeg : ℤ) : CExpr :=
  .val ulong myOff + .cast ulong (.val int blockSize) +
    .cast ulong (.val int n) * (.val int maxPerSeg + .val int 1) * .val int blockSize

/-- `s->my_off + (unsigned long)s->block_size + (unsigned long)s->active_meta_num *
((unsigned long)s->max_per_seg + 1L) * s->block_size`, in `new_block`. -/
def rollOverExpr (myOff blockSize activeMetaNum maxPerSeg : ℤ) : CExpr :=
  .val ulong myOff + .cast ulong (.val int blockSize) +
    .cast ulong (.val int activeMetaNum) * (.cast ulong (.val int maxPerSeg) + .val long 1) *
      .val int blockSize

/-- `s->active_meta_off + (unsigned long)s->block_size * (1L + s->active_meta->pm_top->counter)`,
the `read_off` of `read_next_super` and the `alloc_off` of `new_super`. -/
def endOffExpr (activeMetaOff blockSize counter : ℤ) : CExpr :=
  .val ulong activeMetaOff + .cast ulong (.val int blockSize) * (.val long 1 + .val int counter)

/-- `s->my_off + (unsigned long)s->block_size * (2L + (1L + (unsigned long)s->max_per_seg) * i) +
(unsigned long)s->block_size * j`, in the mapping loops. -/
def dataOffExpr (myOff blockSize maxPerSeg i j : ℤ) : CExpr :=
  .val ulong myOff + .cast ulong (.val int blockSize) *
    (.val long 2 + (.val long 1 + .cast ulong (.val int maxPerSeg)) * .val ulong i) +
      .cast ulong (.val int blockSize) * .val ulong j

/-- `(unsigned long)s->active_meta_off + (unsigned long)s->block_size +
(unsigned long)s->active_meta->counter * s->block_size`, the `alloc_off` of the plain `new_block`
and the `cur_off` of the allocator thread. -/
def curOffExpr (activeMetaOff blockSize counter : ℤ) : CExpr :=
  .cast ulong (.val ulong activeMetaOff) + .cast ulong (.val int blockSize) +
    .cast ulong (.val int counter) * .val int blockSize

/-- `(s->alloc_off - cur_off) / s->block_size`, stored in the `int` `prealloc_n`. -/
def preallocNExpr (allocOff curOff blockSize : ℤ) : CExpr :=
  .cast int ((.val ulong allocOff - .val ulong curOff) / .val int blockSize)

/-- `s->active_meta_num * s->max_per_seg + s->active_meta->counter`, the `alloced_num` of the
allocator thread. -/
def allocedNumExpr (activeMetaNum maxPerSeg counter : ℤ) : CExpr :=
  .val int activeMetaNum * .val int maxPerSeg + .val int counter

/-- `s->active_meta_num * s->max_per_seg + s->active_meta->counter + 1`, the `to_alloc_num` of
`new_block`. -/
def toAllocNumExpr (activeMetaNum maxPerSeg counter : ℤ) : CExpr :=
  allocedNumExpr activeMetaNum maxPerSeg counter + .val int 1

/-- `alloced_num + prealloc_n + 1`. -/
def outOfRangeExpr (activeMetaNum maxPerSeg counter preallocN : ℤ) : CExpr :=
  .cast int (allocedNumExpr activeMetaNum maxPerSeg counter) + .val int preallocN + .val int 1

/-- `(unsigned int)(fault_off / s->block_size)`. -/
def entryExpr (faultOff blockSize : ℤ) : CExpr :=
  .cast uint (.val ulong faultOff / .val int blockSize)

section Computes

variable {B n P i j c : ℕ}

open CExpr

theorem sup_int : int.sup = 2 ^ 31 := rfl

theorem sup_long : long.sup = 2 ^ 63 := rfl

theorem sup_ulong : ulong.sup = 2 ^ 64 := rfl

/-- The block size, cast to `unsigned long`. -/
theorem computes_blockSize (hB : B < 2 ^ 31) : (cast ulong (val int B)).Computes B :=
  .cast (computes_val hB) (by rw [sup_ulong]; omega)

theorem computes_activeMetaOff (hB : 0 < B) (hB' : B < 2 ^ 31) (hn : n < 2 ^ 31) (hP : P < 2 ^ 31)
    (h : off + B * (1 + n * (1 + P)) < 2 ^ 64) :
    (activeMetaOffExpr off B n P).Computes (off + B * (1 + n * (1 + P)) : ℕ) := by
  have hsup := sup_ulong
  have h₁ := Nat.le_mul_of_pos_left (1 + n * (1 + P)) hB
  have hper : (val long 1 + cast ulong (val int P)).Computes (1 + P : ℕ) :=
    .add (computes_val (x := 1) (by decide)) (computes_blockSize hP) rfl (t := ulong) (by omega)
  have hmeta : (cast ulong (val int n) * (val long 1 + cast ulong (val int P))).Computes
      (n * (1 + P) : ℕ) :=
    .mul (computes_blockSize hn) hper rfl (t := ulong) (by omega) (by omega) (by omega)
  exact .add (computes_val (by omega)) (.mul (computes_blockSize hB')
    (.add (computes_val (x := 1) (by decide)) hmeta rfl (t := ulong) (by omega)) rfl (t := ulong)
    (by omega)
    (by omega) (by omega)) rfl (t := ulong) (by omega)

theorem computes_metaOff (hB : 0 < B) (hB' : B < 2 ^ 31) (hn : n < 2 ^ 31) (hP : P + 1 < 2 ^ 31)
    (h : off + B + n * (P + 1) * B < 2 ^ 64) :
    (metaOffExpr off B n P).Computes (off + B + n * (P + 1) * B : ℕ) := by
  have hsup := sup_ulong
  have h₁ := Nat.le_mul_of_pos_right (n * (P + 1)) hB
  have hper : (val int P + val int 1).Computes (P + 1 : ℕ) :=
    .add (computes_val (by rw [sup_int]; omega)) (computes_val (x := 1) (by decide)) rfl hP
  have hmeta : (cast ulong (val int n) * (val int P + val int 1)).Computes (n * (P + 1) : ℕ) :=
    .mul (computes_blockSize hn) hper rfl (t := ulong) (by omega) (by omega) (by omega)
  exact .add (.add (computes_val (by omega)) (computes_blockSize hB') rfl (t := ulong) (by omega))
    (.mul hmeta (computes_val hB') rfl (t := ulong) (by omega) (by omega) (by omega)) rfl
    (t := ulong)
      (by omega)

theorem computes_rollOver (hB : 0 < B) (hB' : B < 2 ^ 31) (hn : n < 2 ^ 31) (hP : P < 2 ^ 31)
    (h : off + B + n * (P + 1) * B < 2 ^ 64) :
    (rollOverExpr off B n P).Computes (off + B + n * (P + 1) * B : ℕ) := by
  have hsup := sup_ulong
  have h₁ := Nat.le_mul_of_pos_right (n * (P + 1)) hB
  have hper : (cast ulong (val int P) + val long 1).Computes (P + 1 : ℕ) :=
    .add (computes_blockSize hP) (computes_val (x := 1) (by decide)) rfl (t := ulong) (by omega)
  have hmeta : (cast ulong (val int n) * (cast ulong (val int P) + val long 1)).Computes
      (n * (P + 1) : ℕ) :=
    .mul (computes_blockSize hn) hper rfl (t := ulong) (by omega) (by omega) (by omega)
  exact .add (.add (computes_val (by omega)) (computes_blockSize hB') rfl (t := ulong) (by omega))
    (.mul hmeta (computes_val hB') rfl (t := ulong) (by omega) (by omega) (by omega)) rfl
    (t := ulong)
      (by omega)

theorem computes_endOff (hB : 0 < B) (hB' : B < 2 ^ 31) (hc : c < 2 ^ 31)
    (h : off + B * (1 + c) < 2 ^ 64) : (endOffExpr off B c).Computes (off + B * (1 + c) : ℕ) := by
  have hsup := sup_ulong
  have h₁ := Nat.le_mul_of_pos_left (1 + c) hB
  have hcount : (val long 1 + val int c).Computes (1 + c : ℕ) :=
    .add (computes_val (x := 1) (by decide)) (computes_val hc) rfl (t := long)
      (by rw [sup_long]; omega)
  exact .add (computes_val (by omega))
    (.mul (computes_blockSize hB') hcount rfl (t := ulong) (by omega)
    (by omega) (by omega)) rfl (t := ulong) (by omega)

theorem computes_dataOff (hB : 0 < B) (hB' : B < 2 ^ 31) (hP : P < 2 ^ 31)
    (h : off + B * (2 + (1 + P) * i) + B * j < 2 ^ 64) :
    (dataOffExpr off B P i j).Computes (off + B * (2 + (1 + P) * i) + B * j : ℕ) := by
  have hsup := sup_ulong
  have h₁ := Nat.le_mul_of_pos_left (2 + (1 + P) * i) hB
  have h₂ := Nat.le_mul_of_pos_left j hB
  have h₃ := Nat.le_mul_of_pos_left i (show 0 < 1 + P by omega)
  have hper : (val long 1 + cast ulong (val int P)).Computes (1 + P : ℕ) :=
    .add (computes_val (x := 1) (by decide)) (computes_blockSize hP) rfl (t := ulong) (by omega)
  have hseg : ((val long 1 + cast ulong (val int P)) * val ulong i).Computes ((1 + P) * i : ℕ) :=
    .mul hper (computes_val (by omega)) rfl (t := ulong) (by omega) (by omega) (by omega)
  have hfirst : (val ulong off + cast ulong (val int B) *
      (val long 2 + (val long 1 + cast ulong (val int P)) * val ulong i)).Computes
        (off + B * (2 + (1 + P) * i) : ℕ) :=
    .add (computes_val (by omega)) (.mul (computes_blockSize hB')
      (.add (computes_val (x := 2) (by decide)) hseg rfl (t := ulong) (by omega)) rfl (t := ulong)
      (by omega) (by omega) (by omega)) rfl (t := ulong) (by omega)
  exact .add hfirst (.mul (computes_blockSize hB') (computes_val (by omega)) rfl (t := ulong)
    (by omega)
    (by omega) (by omega)) rfl (t := ulong) (by omega)

theorem computes_curOff (hB : 0 < B) (hB' : B < 2 ^ 31) (hc : c < 2 ^ 31)
    (h : off + B + c * B < 2 ^ 64) : (curOffExpr off B c).Computes (off + B + c * B : ℕ) := by
  have hsup := sup_ulong
  have h₁ := Nat.le_mul_of_pos_right c hB
  exact .add (.add (.cast (computes_val (t := ulong) (by omega)) (by omega))
    (computes_blockSize hB')
    rfl (t := ulong) (by omega)) (.mul (computes_blockSize hc) (computes_val hB') rfl (t := ulong)
      (by omega) (by omega) (by omega)) rfl (t := ulong) (by omega)

/-- The difference must not be below zero, and the quotient is to fit into an `int`. -/
theorem computes_preallocN {x y : ℕ} (hB : B < 2 ^ 31) (hle : y ≤ x) (hx : x < 2 ^ 64)
    (h : (x - y) / B < 2 ^ 31) : (preallocNExpr x y B).Computes ((x - y) / B : ℕ) := by
  have hsup := sup_ulong
  exact .cast (.div (.sub (computes_val (by omega)) (computes_val (by omega)) rfl (t := ulong) hle
    (by omega)) (computes_val hB) rfl (t := ulong) (by omega) (by omega)) h

theorem computes_allocedNum (hn : n < 2 ^ 31) (hP : P < 2 ^ 31) (h : n * P + c < 2 ^ 31) :
    (allocedNumExpr n P c).Computes (n * P + c : ℕ) :=
  .add (.mul (computes_val hn)
    (computes_val hP) rfl hn hP (lt_of_le_of_lt (Nat.le_add_right _ _) h))
    (computes_val (lt_of_le_of_lt (Nat.le_add_left _ _) h)) rfl h

theorem computes_toAllocNum (hn : n < 2 ^ 31) (hP : P < 2 ^ 31) (h : n * P + c + 1 < 2 ^ 31) :
    (toAllocNumExpr n P c).Computes (n * P + c + 1 : ℕ) :=
  .add (computes_allocedNum hn hP (by omega)) (computes_val (x := 1) (by decide)) rfl h

theorem computes_outOfRange {x : ℕ} (hn : n < 2 ^ 31) (hP : P < 2 ^ 31)
    (h : n * P + c + x + 1 < 2 ^ 31) :
    (outOfRangeExpr n P c x).Computes (n * P + c + x + 1 : ℕ) := by
  have hsup := sup_int
  exact .add (.add (.cast (computes_allocedNum hn hP (by omega)) (by omega))
    (computes_val (by omega))
    rfl (t := int) (by omega)) (computes_val (x := 1) (by decide)) rfl (t := int) (by omega)

theorem computes_entry (hB : B < 2 ^ 31) (hv : v < 2 ^ 64) (h : v / B < 2 ^ 32) :
    (entryExpr v B).Computes (v / B : ℕ) := by
  have hsup := sup_ulong
  exact .cast (.div (computes_val (by omega)) (computes_val hB) rfl (t := ulong) (by omega)
    (by omega)) h

end Computes

/-! ### An image in use -/

/-- **An image in use**: at rest, in a session that allocates blocks on demand, or in one with the
allocator thread. -/
inductive Usage
  | rest (f : ByteFile)
  | plain (f : ByteFile) (s : Super)
  | ahead (st : Threads)

namespace Usage

/-- **A step of the use of an image**: a snapshot, the beginning and the end of a session, and in a
session a call of the plain `new_block` or a step of the threads. A session ends between two calls,
and before a block that `fallocate` has refused is counted. -/
inductive Step (cfg : Config) (fd : Path) : Usage → Usage → Prop
  | snapshot {f : ByteFile} {x : ByteFile × ℤ} : snapshotFile cfg f fd = .ok x →
      Step cfg fd (rest f) (rest x.1)
  | openPlain {f : ByteFile} {s : Super} : cfg.preAlloc = false →
      readLastSuper cfg f fd = .ok (some s) → Step cfg fd (rest f) (plain f (openLayer s).1)
  | openAhead {f : ByteFile} {s : Super} : cfg.preAlloc = true →
      readLastSuper cfg f fd = .ok (some s) →
      Step cfg fd (rest f) (ahead (Threads.start f (openLayer s).1))
  | newBlock {f : ByteFile} {s s' : Super} {v : ℕ} {nb : NewBlock} {ops : List FileOp} :
      newBlockPlain cfg f s v = .ok (s', nb, ops) →
      Step cfg fd (plain f s) (plain (FileOp.run ops f) s')
  | thread {st st' : Threads} : Threads.Step cfg st st' → Step cfg fd (ahead st) (ahead st')
  | closePlain {f : ByteFile} {s : Super} : Step cfg fd (plain f s) (rest f)
  | closeAhead {st : Threads} : st.call = none → st.alloc ≠ .advance false → st.alloc ≠ .dead →
      Step cfg fd (ahead st) (rest st.file)

/-- **The expressions that are evaluated** in a state of the use of an image, each with the value
that the model has for it. -/
inductive Evaluates (cfg : Config) (fd : Path) : Usage → CExpr → ℤ → Prop
  /-- `active_meta_off`, for each layer that the walk visits. -/
  | activeMetaOff {f : ByteFile} {L : List Super} {s : Super} : supers cfg f fd = .ok L → s ∈ L →
      Evaluates cfg fd (rest f)
        (activeMetaOffExpr s.myOff s.blockSize s.activeMetaNum s.maxPerSeg) s.activeMetaOff
  /-- The `read_off` of `read_next_super`, and for the last layer the `alloc_off` of `new_super`. -/
  | readOff {f : ByteFile} {L : List Super} {s : Super} : supers cfg f fd = .ok L → s ∈ L →
      Evaluates cfg fd (rest f)
        (endOffExpr s.activeMetaOff s.blockSize (f.loadInt s.activeMeta.pmTop)) (s.endOff f)
  /-- The `meta_off` of `read_meta`, for the meta blocks of a layer. -/
  | metaOff {f : ByteFile} {L : List Super} {s : Super} {n : ℕ} : supers cfg f fd = .ok L → s ∈ L →
      (n : ℤ) ≤ s.activeMetaNum →
      Evaluates cfg fd (rest f) (metaOffExpr s.myOff s.blockSize n s.maxPerSeg) (s.metaOff n)
  /-- The `data_off` of the mapping loops. -/
  | dataOff {f : ByteFile} {L : List Super} {s : Super} {i j : ℕ} {m : Meta} :
      supers cfg f fd = .ok L → s ∈ L → (i : ℤ) ≤ s.activeMetaNum → readMeta f s i = .ok m →
      (j : ℤ) < m.counter →
      Evaluates cfg fd (rest f) (dataOffExpr s.myOff s.blockSize s.maxPerSeg i j)
        (u64 (s.dataOff i + s.blockSize * j))
  /-- A call of the plain `new_block`. -/
  | toAllocNum {f : ByteFile} {s : Super} : Evaluates cfg fd (plain f s)
      (toAllocNumExpr s.activeMetaNum s.maxPerSeg s.activeMeta.counter) s.toAllocNum
  | nextOff {f : ByteFile} {s : Super} : Evaluates cfg fd (plain f s)
      (curOffExpr s.activeMetaOff s.blockSize s.activeMeta.counter) s.nextOff
  | entry {f : ByteFile} {s : Super} {v : ℕ} : v < regLen →
      Evaluates cfg fd (plain f s) (entryExpr v s.blockSize) (entryOf s v)
  | rollOver {f : ByteFile} {s s' : Super} {v : ℕ} {nb : NewBlock} {ops : List FileOp} :
      ¬s.activeMeta.counter < s.maxPerSeg → newBlockPlain cfg f s v = .ok (s', nb, ops) →
      Evaluates cfg fd (plain f s)
        (rollOverExpr s.myOff s.blockSize s'.activeMetaNum s.maxPerSeg) s'.activeMetaOff
  /-- A call that gets `nb_lock2`. -/
  | enter {st : Threads} : st.call = none → Evaluates cfg fd (ahead st)
      (toAllocNumExpr st.s.activeMetaNum st.s.maxPerSeg st.s.activeMeta.counter) st.s.toAllocNum
  | entryAhead {st : Threads} {c : Call} : st.call = some c → c.faultOff < regLen →
      Evaluates cfg fd (ahead st) (entryExpr c.faultOff st.s.blockSize) (entryOf st.s c.faultOff)
  | setOff {st : Threads} {c : Call} {nb : NewBlock} : st.call = some c → c.pc = .setOff nb →
      st.alloc ≠ .dead → Evaluates cfg fd (ahead st)
        (rollOverExpr st.s.myOff st.s.blockSize st.s.activeMetaNum st.s.maxPerSeg)
        (u64 (st.s.myOff + st.s.blockSize +
          st.s.activeMetaNum * (st.s.maxPerSeg + 1) * st.s.blockSize))
  /-- The allocator thread, whatever the call in progress has done. -/
  | curOff {st : Threads} {a : ℕ} : st.alloc = .haveOff a → Evaluates cfg fd (ahead st)
      (curOffExpr a st.s.blockSize st.s.activeMeta.counter)
      (u64 (a + st.s.blockSize + st.s.activeMeta.counter * st.s.blockSize))
  | preallocN {st : Threads} {cur : ℕ} : st.alloc = .haveCur cur → Evaluates cfg fd (ahead st)
      (preallocNExpr st.s.allocOff cur st.s.blockSize)
      (i32 (u64 (st.s.allocOff - cur) / u64 st.s.blockSize : ℕ))
  | outOfRange {st : Threads} {n num : ℤ} : st.alloc = .haveNum n num → Evaluates cfg fd (ahead st)
      (outOfRangeExpr num st.s.maxPerSeg st.s.activeMeta.counter n)
      (num * st.s.maxPerSeg + st.s.activeMeta.counter + n + 1)

end Usage

/-- **The sizes that are admitted**: the block size is a multiple of the page size and at most half
a GB, and the image is not longer than what `fmmap` maps. -/
structure Admitted (g : Geometry cfg) : Prop where
  dvd : pageSize ∣ g.blockSize
  le : g.blockSize ≤ 2 ^ 29
  length : (g.blockSize : ℤ) * g.maxBlockNum ≤ regLen

theorem Admitted.cap_le (h : Admitted g) : g.cap ≤ 2 ^ 27 := by
  have hle : 4096 ≤ g.blockSize := Nat.le_of_dvd g.blockSize_pos h.dvd
  have hlen := h.length
  have hreg : ((regLen : ℕ) : ℤ) = 4096 * 2 ^ 27 := rfl
  have hle' : (4096 : ℤ) ≤ g.blockSize := by exact_mod_cast hle
  rw [hreg] at hlen
  rw [Geometry.cap]
  by_contra hlt
  have hmax : (2 : ℤ) ^ 27 + 1 ≤ g.maxBlockNum := by omega
  nlinarith

theorem Admitted.perSeg_le (h : Admitted g) : g.perSeg ≤ 2 ^ 27 := by
  have h₁ := g.perSeg_mul_le
  have h₂ := h.le
  have h₃ := entrySize_ge cfg
  nlinarith

/-! ### Images at rest -/

/-- The super blocks of a chain are those of its layers. -/
theorem IsLayers.of_mem_supersOf (h : IsLayers g f off ls) (hs : s ∈ supersOf g fd off ls) :
    ∃ off' es', s = superOf g fd off' es'.length ∧ IsLayer g f off' es' := by
  induction ls generalizing off with
  | nil => cases hs
  | cons e ls ih =>
    obtain ⟨hlayer, hrest⟩ := h
    rcases List.mem_cons.mp hs with rfl | hs
    · exact ⟨off, e, rfl, hlayer⟩
    · exact ih hrest hs

section Layer

variable (hadm : Admitted g) (hf : f.size < 2 ^ 63)

include hadm

/-- The number of a meta block, and what it is multiplied with. -/
theorem Admitted.bounds (hk : k ≤ g.cap) : g.lastSeg k < 2 ^ 31 ∧ g.perSeg + 1 < 2 ^ 31 ∧
    k - g.lastSeg k * g.perSeg < 2 ^ 31 := by
  have h₁ := hadm.cap_le
  have h₂ := hadm.perSeg_le
  have h₃ := g.lastSeg_le (k := k)
  have h₄ := g.counter_le (k := k)
  exact ⟨by omega, by omega, by omega⟩

include hf

theorem IsLayer.computes_activeMetaOff (h : IsLayer g f off es) :
    (activeMetaOffExpr off g.blockSize (g.lastSeg es.length) g.perSeg).Computes
      (g.blockAt off (g.metaBlock (g.lastSeg es.length))) := by
  obtain ⟨h₁, h₂, -⟩ := hadm.bounds h.length_le
  have hlt := h.blockAt_lt hf (g.metaBlock_lt (le_refl (g.lastSeg es.length))).le
  have heq : g.blockAt off (g.metaBlock (g.lastSeg es.length)) =
      off + g.blockSize * (1 + g.lastSeg es.length * (1 + g.perSeg)) := by
    rw [Geometry.blockAt, Geometry.metaBlock, Nat.add_comm g.perSeg 1]
  rw [heq] at hlt ⊢
  exact Pcow.computes_activeMetaOff g.blockSize_pos g.blockSize_lt h₁ (by omega) hlt

theorem IsLayer.computes_metaOff (h : IsLayer g f off es) {n : ℕ} (hn : n ≤ g.lastSeg es.length) :
    (metaOffExpr off g.blockSize n g.perSeg).Computes (g.blockAt off (g.metaBlock n)) := by
  obtain ⟨h₁, h₂, -⟩ := hadm.bounds h.length_le
  have hlt := h.blockAt_lt hf (g.metaBlock_lt hn).le
  have heq : g.blockAt off (g.metaBlock n) = off + g.blockSize +
      n * (g.perSeg + 1) * g.blockSize := by
    rw [Geometry.blockAt, Geometry.metaBlock]
    ring
  rw [heq] at hlt ⊢
  exact Pcow.computes_metaOff g.blockSize_pos g.blockSize_lt (by omega) h₂ hlt

theorem IsLayer.computes_endOff (h : IsLayer g f off es) :
    (endOffExpr (g.blockAt off (g.metaBlock (g.lastSeg es.length))) g.blockSize
      (es.length - g.lastSeg es.length * g.perSeg : ℕ)).Computes (g.endOff off es.length) := by
  obtain ⟨-, -, h₃⟩ := hadm.bounds h.length_le
  have hlt : g.endOff off es.length < 2 ^ 64 := h.blockAt_lt hf le_rfl
  have heq : g.endOff off es.length = g.blockAt off (g.metaBlock (g.lastSeg es.length)) +
      g.blockSize * (1 + (es.length - g.lastSeg es.length * g.perSeg)) := by
    rw [Geometry.endOff, g.blocks_eq, Geometry.blockAt, Geometry.blockAt]
    ring
  rw [heq] at hlt ⊢
  exact Pcow.computes_endOff g.blockSize_pos g.blockSize_lt h₃ hlt

theorem IsLayer.computes_dataOff (h : IsLayer g f off es) {i j : ℕ} (hi : i ≤ g.lastSeg es.length)
    (hj : j < g.fill es.length i) : (dataOffExpr off g.blockSize g.perSeg i j).Computes
      (g.dataOff off (i * g.perSeg + j)) := by
  obtain ⟨-, h₂, -⟩ := hadm.bounds h.length_le
  obtain ⟨hper, hlt⟩ := Geometry.slot_lt hi hj
  have hlt' : g.dataOff off (i * g.perSeg + j) < 2 ^ 64 := h.blockAt_lt hf (g.dataBlock_lt hlt).le
  rw [Geometry.dataOff_seg hper] at hlt' ⊢
  exact Pcow.computes_dataOff g.blockSize_pos g.blockSize_lt (by omega) hlt'

end Layer

namespace Usage

/-- **The expressions evaluated on an image at rest.** -/
theorem computes_rest (hadm : Admitted g) (h : IsImage g f ls es) {e : CExpr} {z : ℤ}
    (he : Evaluates cfg fd (rest f) e z) : e.Computes z := by
  have hlayers := h.isChain.layers
  have hf := h.size_lt
  have hL : ∀ {L : List Super}, supers cfg f fd = .ok L → ∀ s ∈ L,
      ∃ off es', s = superOf g fd off es'.length ∧ IsLayer g f off es' := by
    intro L hL s hs
    rw [h.supers fd] at hL
    cases hL
    exact hlayers.of_mem_supersOf hs
  cases he with
  | activeMetaOff hsup hs =>
    obtain ⟨off, es', rfl, hlayer⟩ := hL hsup _ hs
    exact hlayer.computes_activeMetaOff hadm hf
  | readOff hsup hs =>
    obtain ⟨off, es', rfl, hlayer⟩ := hL hsup _ hs
    rw [hlayer.endOff hf superOf_is]
    have hcounter := hlayer.counter _ le_rfl
    rw [g.fill_lastSeg] at hcounter
    rw [superOf]
    simp only
    rw [hcounter]
    exact hlayer.computes_endOff hadm hf
  | @metaOff _ _ _ n hsup hs hn =>
    obtain ⟨off, es', rfl, hlayer⟩ := hL hsup _ hs
    have hn' : n ≤ g.lastSeg es'.length := Int.ofNat_le.mp hn
    rw [superOf_is.metaOff (hlayer.blockAt_lt hf (g.metaBlock_lt hn').le)]
    exact hlayer.computes_metaOff hadm hf hn'
  | @dataOff _ _ _ i j m hsup hs hi hm hj =>
    obtain ⟨off, es', rfl, hlayer⟩ := hL hsup _ hs
    have hi' : i ≤ g.lastSeg es'.length := Int.ofNat_le.mp hi
    rw [hlayer.readMeta hf superOf_is hi'] at hm
    cases hm
    have hj' : j < g.fill es'.length i := Int.ofNat_lt.mp hj
    rw [hlayer.dataOff_slot hf superOf_is hi' hj']
    exact hlayer.computes_dataOff hadm hf hi' hj'

end Usage

/-! ### Sessions -/

theorem computes_entryOf (hs : s.blockSize = g.blockSize) (hadm : Admitted g) (hv : v < regLen) :
    (entryExpr v s.blockSize).Computes (entryOf s v) := by
  have hbs := g.blockSize_lt
  have hpage : 4096 ≤ g.blockSize := Nat.le_of_dvd g.blockSize_pos hadm.dvd
  rw [show regLen = 549755813888 from rfl] at hv
  have hlt : v / g.blockSize < 2 ^ 32 := Nat.div_lt_of_lt_mul (by omega)
  have hval : entryOf s v = v / g.blockSize := by
    rw [entryOf, hs, u64_natCast (by omega)]
    have := @u32_of_range (v / g.blockSize : ℕ) (Int.natCast_nonneg _) (by exact_mod_cast hlt)
    exact_mod_cast this
  rw [hval, hs]
  exact computes_entry hbs (by omega) hlt

/-- `to_alloc_num` in a layer of `k` entries. -/
theorem Super.Is.computes_toAllocNum (hs : s.Is g off k) (hadm : Admitted g) (hk : k ≤ g.cap) :
    (toAllocNumExpr s.activeMetaNum s.maxPerSeg s.activeMeta.counter).Computes s.toAllocNum := by
  obtain ⟨h₁, h₂, -⟩ := hadm.bounds hk
  have h₃ := hadm.cap_le
  have hle := g.lastSeg_mul_le (k := k)
  have heq : k + 1 = g.lastSeg k * g.perSeg + (k - g.lastSeg k * g.perSeg) + 1 := by omega
  rw [hs.toAllocNum, hs.activeMetaNum, hs.maxPerSeg, hs.counter, heq]
  exact Pcow.computes_toAllocNum h₁ (by omega) (by omega)

/-- `active_meta_off` of a segment that is opened, the one of a layer of `k` entries. -/
theorem computes_rollOver_seg (hadm : Admitted g) (hk : k ≤ g.cap)
    (hlt : g.blockAt off (g.metaBlock (g.lastSeg k)) < 2 ^ 64) :
    (rollOverExpr off g.blockSize (g.lastSeg k) g.perSeg).Computes
      (g.blockAt off (g.metaBlock (g.lastSeg k))) := by
  obtain ⟨h₁, h₂, -⟩ := hadm.bounds hk
  have heq : g.blockAt off (g.metaBlock (g.lastSeg k)) =
      off + g.blockSize + g.lastSeg k * (g.perSeg + 1) * g.blockSize := by
    rw [Geometry.blockAt, Geometry.metaBlock]
    ring
  rw [heq] at hlt ⊢
  exact Pcow.computes_rollOver g.blockSize_pos g.blockSize_lt h₁ (by omega) hlt

/-- The offset after `c` blocks of segment `j`. -/
theorem computes_curOff_seg {q c : ℕ} (hc : c < 2 ^ 31) (hlt : g.blockAt off (q + 1 + c) < 2 ^ 64) :
    (curOffExpr (g.blockAt off q) g.blockSize c).Computes (g.blockAt off (q + 1 + c)) := by
  have heq : g.blockAt off (q + 1 + c) = g.blockAt off q + g.blockSize + c * g.blockSize := by
    rw [Geometry.blockAt, Geometry.blockAt]
    ring
  rw [heq] at hlt ⊢
  exact Pcow.computes_curOff g.blockSize_pos g.blockSize_lt hc hlt

namespace Usage

/-- **The expressions evaluated in a session that allocates on demand.** -/
theorem computes_plain (hadm : Admitted g) (h : IsLayer g f off es) (hf : f.size < 2 ^ 63)
    (hs : s.Is g off es.length) {e : CExpr} {z : ℤ} (he : Evaluates cfg fd (plain f s) e z) :
    e.Computes z := by
  have hend : g.endOff off es.length < 2 ^ 64 := h.blockAt_lt hf le_rfl
  cases he with
  | toAllocNum => exact hs.computes_toAllocNum hadm h.length_le
  | nextOff =>
    obtain ⟨-, -, h₃⟩ := hadm.bounds h.length_le
    rw [hs.nextOff hend, hs.activeMetaOff, hs.blockSize, hs.counter, Geometry.endOff, g.blocks_eq]
    rw [Geometry.endOff, g.blocks_eq] at hend
    exact computes_curOff_seg h₃ hend
  | entry hv => exact computes_entryOf hs.blockSize hadm hv
  | @rollOver _ _ s' v nb ops hfull hr =>
    have hend' : g.endOff off es.length < 2 ^ 63 := lt_of_le_of_lt h.size_le hf
    obtain ⟨hcap, hend₁⟩ := hs.room_of_newBlockPlain hend' hr
    obtain ⟨s₂, ops₂, heq, hs', -⟩ := h.newBlockPlain hf hs hcap hend₁ v
    rw [hr] at heq
    cases heq
    rw [hs.myOff, hs.blockSize, hs.maxPerSeg, hs'.activeMetaNum, hs'.activeMetaOff]
    refine computes_rollOver_seg hadm hcap (lt_of_le_of_lt ?_ (lt_trans hend₁ (by norm_num)))
    exact g.blockAt_mono off (g.metaBlock_lt le_rfl).le

end Usage

namespace Threads

variable {st st' : Threads} {k₀ : ℕ}

/-- **The number of the active meta block that the thread has read** is that of some layer within
the capacity. -/
def NumOk (g : Geometry cfg) (st : Threads) : Prop :=
  ∀ n num, st.alloc = .haveNum n num → ∃ j ≤ g.cap, num = g.lastSeg j

/-- What the threads see of the super block are the values of layers within the capacity. -/
theorem Sim.seen_le (h : Sim g off k₀ f s st) : (st.seen (k₀ + st.returned.length)).1 ≤ g.cap ∧
    (st.seen (k₀ + st.returned.length)).2.1 ≤ g.cap := by
  have hcap := h.cap
  rcases hc : st.call with _ | c
  · rw [Threads.seen, hc]
    exact ⟨hcap, hcap⟩
  · have hcap' := (h.safe.callOk.pc c hc).2
    rw [Threads.seen, hc]
    cases hpc : c.pc <;> simp only [CallPc.seen, hpc] <;> omega

theorem NumOk.step (h : NumOk g st) (hsim : Sim g off k₀ f s st) (hstep : Step cfg st st') :
    NumOk g st' := by
  cases hstep with
  | alloc hr =>
    rw [Threads.allocStep] at hr
    intro n num halloc
    cases hpc : st.alloc with
    | haveAhead n' =>
      rw [hpc] at hr
      cases hr
      cases halloc
      exact ⟨_, hsim.seen_le.2, hsim.safe.callOk.sees.activeMetaNum⟩
    | _ =>
      rw [hpc] at hr
      simp only at hr
      (try split_ifs at hr) <;> cases hr <;> cases halloc
  | call _ hr =>
    intro n num halloc
    rw [(callStep_keeps hr).1] at halloc
    exact h n num halloc
  | enter _ hr =>
    obtain ⟨-, pc, -, rfl⟩ := enter_ok hr
    exact h

end Threads

namespace Usage

open Threads

/-- **The expressions evaluated in a session with the allocator thread**, on what the thread has
read and what it sees while a call is in progress. -/
theorem computes_ahead {st : Threads} {k₀ : ℕ} {s : Super} (hadm : Admitted g)
    (h : Sim g off k₀ f s st) (hnum : NumOk g st) {e : CExpr} {z : ℤ}
    (he : Evaluates cfg fd (ahead st) e z) : e.Computes z := by
  have hsees := h.safe.callOk.sees
  have hbs := hsees.blockSize
  have hu := hsees.u64_blockSize
  have hok := h.safe.allocOk
  rw [AllocOk] at hok
  -- the counter the thread sees is that of some segment
  have hcounter : ∀ c : ℕ, st.s.activeMeta.counter = c → c ≤ 2 ^ 27 := by
    intro c hc
    rw [hsees.activeMeta] at hc
    have h₁ := g.counter_le (k := (st.seen (k₀ + st.returned.length)).1)
    have h₂ := hadm.perSeg_le
    have h₃ : (st.seen (k₀ + st.returned.length)).1 -
        g.lastSeg (st.seen (k₀ + st.returned.length)).1 * g.perSeg = c := Int.ofNat_inj.mp hc
    omega
  cases he with
  | enter hcall =>
    exact (h.safe.is_of_call hcall).computes_toAllocNum hadm h.cap
  | entryAhead _ hv => exact computes_entryOf hbs hadm hv
  | @setOff _ c nb hc hpc hdead =>
    -- the offset of the new meta block, which has been taken
    have hseen : st.seen (k₀ + st.returned.length) =
        (k₀ + st.returned.length + 1, k₀ + st.returned.length + 1, k₀ + st.returned.length) := by
      rw [Threads.seen, hc]
      simp only [hpc, CallPc.seen]
    have htaken : st.taken g (k₀ + st.returned.length) =
        g.blocks (k₀ + st.returned.length + 1) := by
      rw [Threads.taken, hc]
      simp only [hpc, CallPc.taken]
    rw [hseen] at hsees
    have hlt : g.blockAt off (g.metaBlock (g.lastSeg (k₀ + st.returned.length + 1))) < 2 ^ 64 := by
      have hmono : g.blockAt off (g.metaBlock (g.lastSeg (k₀ + st.returned.length + 1))) ≤
          g.blockAt off (st.taken g (k₀ + st.returned.length) + st.ring.nbAvailable) := by
        refine g.blockAt_mono off ?_
        have := g.metaBlock_lt (le_refl (g.lastSeg (k₀ + st.returned.length + 1)))
        omega
      obtain ⟨hoff, hlt⟩ := h.safe.offOk hdead
      have hbehind : st.alloc.behind * g.blockSize ≤ g.blockSize := by
        cases st.alloc <;> simp [AllocPc.behind]
      have hbs' := g.blockSize_lt
      omega
    have hval := (hsees.setOff hlt).activeMetaOff
    simp only at hval
    rw [hval, hsees.myOff, hsees.blockSize, hsees.maxPerSeg, hsees.activeMetaNum]
    exact computes_rollOver_seg hadm (h.safe.callOk.pc c hc).2 hlt
  | @curOff _ a halloc =>
    rw [halloc] at hok
    obtain ⟨j, j', rfl, hoff, hj, -⟩ := hok
    obtain ⟨c, hc, hcle, -⟩ := h.safe.callOk.read hoff hj
    obtain ⟨h₁, h₂⟩ := h.safe.offOk.eq (by simp [halloc]) (by rw [halloc]; rfl)
    have hmono : g.blockAt off (g.metaBlock j + 1 + c) ≤ st.s.allocOff := by
      rw [h₁]
      exact g.blockAt_mono off (by omega)
    rw [hc, curOff_eq hbs (by omega), hbs]
    exact computes_curOff_seg (lt_of_le_of_lt (hcounter c hc) (by norm_num)) (by omega)
  | @preallocN _ cur halloc =>
    rw [halloc] at hok
    obtain ⟨q, hq, rfl, hle⟩ := hok
    obtain ⟨h₁, h₂⟩ := h.safe.offOk.eq (by simp [halloc]) (by rw [halloc]; rfl)
    obtain ⟨n, hn⟩ : ∃ n, st.taken g (k₀ + st.returned.length) + st.ring.nbAvailable = q + n :=
      ⟨_, (Nat.add_sub_cancel' (by omega)).symm⟩
    have hper := hadm.perSeg_le
    have hquot : (g.blockAt off (q + n) - g.blockAt off q) / g.blockSize = n := by
      rw [Geometry.blockAt, Geometry.blockAt, Nat.mul_add, ← Nat.add_assoc, Nat.add_sub_cancel_left,
        Nat.mul_div_cancel_left n g.blockSize_pos]
    rw [hn] at h₁
    rw [h₁] at h₂
    have hcomp := computes_preallocN g.blockSize_lt (g.blockAt_mono off (Nat.le_add_right q n))
      (by omega) (by rw [hquot]; omega)
    rw [hquot] at hcomp
    rw [hu, h₁, preallocN_eq (by omega) (by omega), hbs]
    exact hcomp
  | @outOfRange _ n num halloc =>
    rw [halloc] at hok
    obtain ⟨h₁, h₂⟩ := hok
    obtain ⟨j, hj, rfl⟩ := hnum n num halloc
    obtain ⟨m, rfl⟩ := Int.eq_ofNat_of_zero_le (le_trans (Int.natCast_nonneg _) h₁)
    obtain ⟨c, hc⟩ : ∃ c : ℕ, st.s.activeMeta.counter = c := ⟨_, by rw [hsees.activeMeta]⟩
    obtain ⟨h₃, h₄, -⟩ := hadm.bounds hj
    have h₅ := hcounter c hc
    have h₆ := hadm.cap_le
    have h₇ := g.lastSeg_mul_le (k := j)
    rw [show maxPreNum = 5 from rfl] at h₂
    rw [hc, hsees.maxPerSeg]
    have := @computes_outOfRange (g.lastSeg j) g.perSeg c m h₃ (by omega) (by omega)
    exact_mod_cast this

end Usage

/-! ### Runs -/

/-- A call of the plain `new_block` on an image. -/
theorem IsImage.newBlockPlain {s' : Super} {nb : NewBlock} {ops : List FileOp}
    (h : IsImage g f ls es) (hs : s.Is g (g.chainEnd 0 ls) es.length)
    (hr : Pcow.newBlockPlain cfg f s v = .ok (s', nb, ops)) :
    IsImage g (FileOp.run ops f) ls (es ++ [g.blockOf v]) ∧
      s'.Is g (g.chainEnd 0 ls) (es ++ [g.blockOf v]).length := by
  obtain ⟨hcap, hend⟩ := hs.room_of_newBlockPlain (lt_of_le_of_lt h.endOff_le h.size_lt) hr
  obtain ⟨s₂, ops₂, heq, hs', -, happ, hsz⟩ := h.last.newBlockPlain h.size_lt hs hcap hend v
  rw [hr] at heq
  cases heq
  constructor
  · exact h.appends happ (by rw [hsz]; exact max_lt h.size_lt hend)
  · rwa [List.length_append, List.length_singleton]

/-- Calls of the plain `new_block` on an image, one after the other. -/
theorem IsImage.plainRun {vs : List ℕ} {P : ByteFile} {sP : Super} {nbs : List NewBlock}
    (h : IsImage g f ls es) (hs : s.Is g (g.chainEnd 0 ls) es.length)
    (hr : plainRun cfg f s vs = .ok (P, sP, nbs)) :
    ∃ es', IsImage g P ls es' ∧ es'.length = es.length + vs.length := by
  induction vs generalizing f s es nbs with
  | nil =>
    cases hr
    exact ⟨es, h, rfl⟩
  | cons v vs ih =>
    rw [Pcow.plainRun] at hr
    rcases hnb : Pcow.newBlockPlain cfg f s v with e | ⟨s₁, nb, ops⟩
    · rw [hnb] at hr
      cases hr
    rw [hnb] at hr
    simp only at hr
    obtain ⟨h₁, hs₁⟩ := h.newBlockPlain hs hnb
    rcases hrest : Pcow.plainRun cfg (FileOp.run ops f) s₁ vs with e | ⟨P₁, sP₁, nbs₁⟩
    · rw [hrest] at hr
      cases hr
    rw [hrest] at hr
    cases hr
    obtain ⟨es', h', hlen⟩ := ih h₁ hs₁ hrest
    rw [List.length_append, List.length_singleton] at hlen
    exact ⟨es', h', by rw [hlen, List.length_cons]; omega⟩

/-- An image is known by its bytes, as long as the file holds its last layer. -/
theorem IsImage.congr (h : IsImage g f ls es) (hb : f'.byte = f.byte)
    (hle : g.endOff (g.chainEnd 0 ls) es.length ≤ f'.size) (hsz : f'.size < 2 ^ 63) :
    IsImage g f' ls es := by
  refine h.of_last (fun a _ => by rw [hb]) (h.last.congr hle fun a _ => by rw [hb]) ?_ hsz
  intro a ha hap
  rw [hb]
  exact h.tail a ha hap

/-- **Between two calls the file of a session with the allocator thread is an image**: its bytes are
those that plain calls leave. -/
theorem IsImage.of_sim {st : Threads} (h : IsImage g f ls es)
    (hs : s.Is g (g.chainEnd 0 ls) es.length)
    (hsim : Threads.Sim g (g.chainEnd 0 ls) es.length f s st) (hcall : st.call = none)
    (hadv : st.alloc ≠ .advance false) (hdead : st.alloc ≠ .dead) :
    ∃ es', IsImage g st.file ls es' := by
  have htaken : st.taken g (es.length + st.returned.length) =
      g.blocks (es.length + st.returned.length) := by
    rw [Threads.taken, hcall]
  have hend := hsim.safe.taken_lt hadv hdead
  have hlen : es.length + (st.returned.map Prod.fst).length = es.length +
    st.returned.length := by simp
  rw [htaken] at hend
  have hrun : ∃ x, Pcow.plainRun cfg f s (st.returned.map Prod.fst) = .ok x :=
    exists_plainRun h.last h.size_lt hs (by rw [hlen]; exact hsim.cap) (by rw [hlen]; exact hend)
  obtain ⟨⟨P, sP, nbs⟩, hP⟩ := hrun
  obtain ⟨es', h', hlen'⟩ := h.plainRun hs hP
  have hat := hsim.at_plain P sP nbs hP
  rw [Threads.At, hcall] at hat
  refine ⟨es', h'.congr hat ?_ hsim.reserved.size_lt⟩
  rw [hlen', hlen]
  exact hsim.reserved.le_size _ (by rw [htaken]; omega) hend

namespace Usage

variable {u u' : Usage}

/-- **What the use of an image keeps**: at rest the file is an image; in a session the super block
is that of its last layer, or the threads are simulated by plain calls that began on an image. -/
def Is (g : Geometry cfg) : Usage → Prop
  | rest f => ∃ ls es, IsImage g f ls es
  | plain f s => ∃ ls es, IsImage g f ls es ∧ s.Is g (g.chainEnd 0 ls) es.length
  | ahead st => ∃ f s ls es, IsImage g f ls es ∧ s.Is g (g.chainEnd 0 ls) es.length ∧
      Threads.Sim g (g.chainEnd 0 ls) es.length f s st ∧ Threads.NumOk g st

/-- The super block of a session that begins. -/
theorem openLayer_is {k : ℕ} (hs : s.Is g off k) : (openLayer s).1.Is g off k :=
  ⟨hs.blockSize, hs.maxBlockNum, hs.activeMetaNum, hs.maxPerSeg, hs.myOff, hs.activeMetaOff,
    hs.activeMeta⟩

theorem Is.step (h : u.Is g) (hstep : Step cfg fd u u') : u'.Is g := by
  cases hstep with
  | snapshot hr =>
    obtain ⟨ls, es, h⟩ := h
    exact ⟨ls ++ [es], [], (h.snapshotFile hr).2.1⟩
  | openPlain _ hr =>
    obtain ⟨ls, es, h⟩ := h
    rw [h.readLastSuper fd] at hr
    cases hr
    exact ⟨ls, es, h, openLayer_is superOf_is⟩
  | openAhead _ hr =>
    obtain ⟨ls, es, h⟩ := h
    rw [h.readLastSuper fd] at hr
    cases hr
    have hs : (openLayer (superOf g fd (g.chainEnd 0 ls) es.length)).1.Is g (g.chainEnd 0 ls)
        es.length := openLayer_is superOf_is
    have hend : g.endOff (g.chainEnd 0 ls) es.length < 2 ^ 64 := h.last.blockAt_lt h.size_lt le_rfl
    refine ⟨_, _, ls, es, h, hs,
      Threads.sim_start h.last h.size_lt hs (superOf_is.nextOff hend), ?_⟩
    rintro n num ⟨⟩
  | newBlock hr =>
    obtain ⟨ls, es, h, hs⟩ := h
    exact ⟨ls, _, h.newBlockPlain hs hr⟩
  | thread hr =>
    obtain ⟨f, s, ls, es, h, hs, hsim, hnum⟩ := h
    exact ⟨f, s, ls, es, h, hs, hsim.step h.last h.size_lt hs rfl hr, hnum.step hsim hr⟩
  | closePlain =>
    obtain ⟨ls, es, h, -⟩ := h
    exact ⟨ls, es, h⟩
  | closeAhead hcall hadv hdead =>
    obtain ⟨f, s, ls, es, h, hs, hsim, -⟩ := h
    exact ⟨ls, h.of_sim hs hsim hcall hadv hdead⟩

theorem Is.run (h : u.Is g) (hrun : Relation.ReflTransGen (Step cfg fd) u u') : u'.Is g := by
  induction hrun with
  | refl => exact h
  | tail _ hstep ih => exact ih.step hstep

/-- **The expressions evaluated in a state** are exact. -/
theorem Is.computes (h : u.Is g) (hadm : Admitted g) {e : CExpr} {z : ℤ}
    (he : Evaluates cfg fd u e z) : e.Computes z := by
  cases u with
  | rest f =>
    obtain ⟨ls, es, h⟩ := h
    exact computes_rest hadm h he
  | plain f s =>
    obtain ⟨ls, es, h, hs⟩ := h
    exact computes_plain hadm h.last h.size_lt hs he
  | ahead st =>
    obtain ⟨f, s, ls, es, -, -, hsim, hnum⟩ := h
    exact computes_ahead hadm hsim hnum he

end Usage

end Pcow
