import Pcow.Writers
import Pcow.Lib.LockOrder
import Mathlib.Data.Fintype.Order
import Mathlib.Order.Fin.Basic

/-!
# Locks

The mutexes of `pcow.c`, `cow.c` and `meta.c`, and the functions that take them, as far as they lock
and unlock. Every branch may go either way here, whatever decides it in the source, so that there
are more runs than the source has.

The locks are taken in one order: `cow_lock`, `l_lock`, `ht_lock`, `nb_lock2`, `nb_lock`. Which
element of an array is taken does not matter for it, since no function takes two elements of one
array.
-/

namespace Pcow

namespace Locks

open LockOrder (Stmt Item State Posts Step Ordered)

/-- The mutexes. -/
inductive Lock
  /-- `cow_lock0`, which takes the place of `cow_lock` without `FINEGRAINED_COW`. -/
  | cowLock0
  | cowLock (i : ℕ)
  | lLock (i : ℕ)
  | htLock (i : ℕ)
  | nbLock2
  | nbLock
deriving DecidableEq

/-- The functions that lock, and those between them. -/
inductive Func
  | cowHandler
  | inList
  | insertList
  | insertHt
  | newBlock
  | newMeta
  | newBlockAllocator
deriving DecidableEq

/-- The place of a lock in the order. -/
def Lock.rank : Lock → Fin 5
  | .cowLock0 => 0
  | .cowLock _ => 0
  | .lLock _ => 1
  | .htLock _ => 2
  | .nbLock2 => 3
  | .nbLock => 4

/-- The least place of a lock that a function takes. -/
def Func.least : Func → Fin 5
  | .cowHandler => 0
  | .inList => 1
  | .insertList => 1
  | .insertHt => 3
  | .newBlock => 3
  | .newMeta => 4
  | .newBlockAllocator => 4

/-! ### The functions -/

/-- An `assert`, or the report of an error that ends the process. -/
def orExit : Stmt Lock Func := .ite .exit .skip

/-- The wait for a block that the allocator thread has made. -/
def awaitBlock : Stmt Lock Func :=
  .loop (.block [.lock .nbLock, .ite (.block [.unlock .nbLock, .brk]) .skip, .unlock .nbLock])

/-- `new_meta`. -/
def newMeta (cfg : Config) : Stmt Lock Func :=
  if cfg.preAlloc then .block [awaitBlock, .ret] else .block [orExit, .ret]

/-- `new_block`. -/
def newBlock (cfg : Config) : Stmt Lock Func :=
  if cfg.preAlloc then
    .block [.lock .nbLock2, orExit,
      .ite awaitBlock (.block [.call .newMeta (newMeta cfg), awaitBlock]), .unlock .nbLock2, .ret]
  else .block [orExit, .ite orExit (.block [orExit, .call .newMeta (newMeta cfg), orExit]), .ret]

/-- An iteration of `new_block_allocator`. It is left early where enough blocks are allocated ahead,
and where the file is full. -/
def newBlockAllocator : Stmt Lock Func :=
  .block [.ite .ret .skip, .ite .ret .skip, .lock .nbLock, .unlock .nbLock, orExit]

/-- The loop over a recent list, which returns from its function when an entry covers the unit. -/
def listLoop (voff : ℕ) : Stmt Lock Func :=
  .loop (.ite .brk (.ite (.block [.unlock (.lLock (listNum voff)), .ret]) .skip))

/-- `in_list`. -/
def inList (voff : ℕ) : Stmt Lock Func :=
  .block [.lock (.lLock (listNum voff)), listLoop voff, .unlock (.lLock (listNum voff)), .ret]

/-- `insert_ht`: what follows the allocation reads a meta block. -/
def insertHt (cfg : Config) : Stmt Lock Func :=
  .block [.call .newBlock (newBlock cfg), orExit, .ret]

/-- `insert_list`. -/
def insertList (cfg : Config) (blockSize voff : ℕ) : Stmt Lock Func :=
  .block [.lock (.lLock (listNum voff)), listLoop voff,
    .lock (.htLock (bucketNumber blockSize voff)),
    -- `search_ht` may find the block
    .ite (.call .insertHt (insertHt cfg)) .skip,
    .unlock (.htLock (bucketNumber blockSize voff)), .unlock (.lLock (listNum voff)), .ret]

/-- `cow_handler`. -/
def cowHandler (cfg : Config) (blockSize v : ℕ) : Stmt Lock Func :=
  .seq (.ite .ret .skip)
    (if cfg.finegrainedCow then
      .block [.call .inList (inList (v / cowUnit * cowUnit)), .ite .ret .skip,
        .lock (.cowLock (lockNum blockSize v)),
        .call .insertList (insertList cfg blockSize (v / cowUnit * cowUnit)),
        .ite (.block [.unlock (.cowLock (lockNum blockSize v)), .ret]) .skip,
        orExit, .unlock (.cowLock (lockNum blockSize v))]
    else
      .block [.lock .cowLock0, .call .newBlock (newBlock cfg), orExit, .unlock .cowLock0])

/-! ### The threads -/

/-- The threads: those of the guest, the one of `uf_monitor` and the one of the allocator. -/
inductive Thread (G : Type*)
  | guest (g : G)
  | ufMonitor
  | newBlockAllocator
deriving DecidableEq

/-- What a thread enters. A thread of the guest may fault at any address; for a fault on a missing
page, `uf_monitor` calls `new_block`. -/
inductive Enters {G : Type*} (cfg : Config) (blockSize : ℕ) : Thread G → Func →
    Stmt Lock Func → Prop
  | guest (g : G) (v : ℕ) : Enters cfg blockSize (.guest g) .cowHandler (cowHandler cfg blockSize v)
  | ufMonitor : Enters cfg blockSize .ufMonitor .newBlock (newBlock cfg)
  | newBlockAllocator : cfg.preAlloc = true →
      Enters cfg blockSize .newBlockAllocator .newBlockAllocator newBlockAllocator

/-- At the end of a function, the locks held come before all that it takes. -/
def Leaves (f : Func) (H : List Lock) : Prop := ∀ l ∈ H, l.rank < f.least

/-! ### The locks of each function -/

variable {cfg : Config} {blockSize v : ℕ} {H : List Lock} {P : Posts Lock}

theorem wp_awaitBlock (hH : ∀ l ∈ H, l.rank < 4) (hP : P.normal H) :
    awaitBlock.wp Lock.rank Leaves P H := by
  refine ⟨fun H' => H' = H, rfl, ?_⟩
  rintro H' rfl
  simp only [Stmt.block, Stmt.wp, List.mem_cons_self, List.erase_cons_head, true_and]
  exact ⟨hH, hP, trivial⟩

theorem wp_newMeta (hH : ∀ l ∈ H, l.rank < 4) (hP : P.normal H) :
    (Stmt.call .newMeta (newMeta cfg)).wp Lock.rank Leaves P H := by
  rw [newMeta, Stmt.wp]
  split_ifs
  · exact wp_awaitBlock hH ⟨hH, hP⟩
  · exact ⟨trivial, hH, hP⟩

/-- The locks held after one more was taken. -/
theorem rank_lt_cons {l : Lock} {r : Fin 5} (hH : ∀ k ∈ H, k.rank < l.rank) (hl : l.rank < r) :
    ∀ k ∈ l :: H, k.rank < r := by
  rintro k hk
  rcases List.mem_cons.mp hk with rfl | hk
  · exact hl
  · exact (hH k hk).trans hl

/-- The end of a critical section at the end of a function. -/
theorem wp_unlock_ret {l : Lock} {f : Func} (hH : ∀ k ∈ H, k.rank < f.least) (hP : P.normal H) :
    (Stmt.block [.unlock l, .ret]).wp Lock.rank Leaves (P.call Leaves f) (l :: H) := by
  refine ⟨List.mem_cons_self, ?_⟩
  rw [List.erase_cons_head]
  exact ⟨hH, hP⟩

theorem wp_newBlock (hH : ∀ l ∈ H, l.rank < 3) (hP : P.normal H) :
    (Stmt.call .newBlock (newBlock cfg)).wp Lock.rank Leaves P H := by
  rw [newBlock, Stmt.wp]
  split_ifs
  · have hin : ∀ l ∈ Lock.nbLock2 :: H, l.rank < 4 := rank_lt_cons hH (by decide)
    have hend := wp_unlock_ret (l := .nbLock2) (f := .newBlock) hH hP
    exact ⟨hH, trivial, wp_awaitBlock hin hend, wp_newMeta hin (wp_awaitBlock hin hend)⟩
  · have hmeta : (Stmt.block [.call .newMeta (newMeta cfg), orExit]).wp Lock.rank Leaves
        { P.call Leaves .newBlock with
          normal := (Stmt.block [.ret]).wp Lock.rank Leaves (P.call Leaves .newBlock) } H :=
      wp_newMeta (fun l hl => (hH l hl).trans (by decide)) ⟨trivial, hH, hP⟩
    exact ⟨trivial, ⟨trivial, hH, hP⟩, trivial, hmeta⟩

theorem wp_insertHt (hH : ∀ l ∈ H, l.rank < 3) (hP : P.normal H) :
    (Stmt.call .insertHt (insertHt cfg)).wp Lock.rank Leaves P H :=
  wp_newBlock hH ⟨trivial, hH, hP⟩

/-- The loop over a list, in a function that returns from it. -/
theorem wp_listLoop {f : Func} {b : List Lock → Prop} (hH : ∀ l ∈ H, l.rank < f.least)
    (hP : P.normal H) {N : List Lock → Prop} (hN : N (.lLock (listNum v) :: H)) :
    (listLoop v).wp Lock.rank Leaves ⟨N, b, (P.call Leaves f).ret⟩ (.lLock (listNum v) :: H) := by
  refine ⟨fun H' => H' = .lLock (listNum v) :: H, rfl, ?_⟩
  rintro H' rfl
  refine ⟨hN, ⟨List.mem_cons_self, ?_⟩, rfl⟩
  rw [List.erase_cons_head]
  exact ⟨hH, hP⟩

theorem wp_inList (hH : ∀ l ∈ H, l.rank < 1) (hP : P.normal H) :
    (Stmt.call .inList (inList v)).wp Lock.rank Leaves P H :=
  ⟨hH, wp_listLoop (f := .inList) hH hP (wp_unlock_ret (f := .inList) hH hP)⟩

theorem wp_insertList (hH : ∀ l ∈ H, l.rank < 1) (hP : P.normal H) :
    (Stmt.call .insertList (insertList cfg blockSize v)).wp Lock.rank Leaves P H := by
  have hl : ∀ l ∈ Lock.lLock (listNum v) :: H, l.rank < 2 :=
    rank_lt_cons hH (show (1 : Fin 5) < 2 by decide)
  have hht : ∀ l ∈ Lock.htLock (bucketNumber blockSize v) :: Lock.lLock (listNum v) :: H,
      l.rank < 3 :=
    rank_lt_cons hl (show (2 : Fin 5) < 3 by decide)
  have hend : (Stmt.block [.unlock (.htLock (bucketNumber blockSize v)),
      .unlock (.lLock (listNum v)), .ret]).wp Lock.rank Leaves (P.call Leaves .insertList)
      (.htLock (bucketNumber blockSize v) :: .lLock (listNum v) :: H) := by
    refine ⟨List.mem_cons_self, ?_⟩
    rw [List.erase_cons_head]
    exact wp_unlock_ret hH hP
  exact ⟨hH, wp_listLoop (f := .insertList) hH hP ⟨hl, wp_insertHt hht hend, hend⟩⟩

theorem rank_lt_nil {r : Fin 5} : ∀ l ∈ ([] : List Lock), l.rank < r :=
  fun _ hl => absurd hl List.not_mem_nil

/-- The last lock given back. -/
theorem wp_unlock_last {l : Lock} {N : List Lock → Prop} (hN : N []) : l ∈ [l] ∧
    N ([l].erase l) := by
  rw [List.erase_cons_head]
  exact ⟨List.mem_cons_self, hN⟩

/-- **`cow_handler`** takes its locks in order, and holds none at its end. -/
theorem after_cowHandler : (LockOrder.after Lock.rank Leaves
    [.stmt (cowHandler cfg blockSize v), .fin .cowHandler]).normal [] := by
  have hend : ((LockOrder.after Lock.rank Leaves []).call Leaves .cowHandler).normal [] :=
    ⟨rank_lt_nil, rfl⟩
  have hone : ∀ l : Lock, l.rank = 0 → ∀ k ∈ [l], k.rank < 1 := by
    intro l hl
    refine rank_lt_cons rank_lt_nil ?_
    rw [hl]
    decide
  refine ⟨hend, ?_⟩
  change Stmt.wp _ _ (ite _ _ _) _ []
  split_ifs
  · refine wp_inList rank_lt_nil ⟨hend, rank_lt_nil, ?_⟩
    refine wp_insertList (hone _ rfl) ⟨?_, trivial, ?_⟩
    · exact wp_unlock_last hend
    · exact wp_unlock_last hend
  · refine ⟨rank_lt_nil, wp_newBlock (fun l hl => (hone _ rfl l hl).trans (by decide))
      ⟨trivial, ?_⟩⟩
    exact wp_unlock_last hend

theorem after_newBlock : (LockOrder.after Lock.rank Leaves
    [.stmt (newBlock cfg), .fin .newBlock]).normal [] :=
  wp_newBlock rank_lt_nil rfl

theorem after_newBlockAllocator : (LockOrder.after Lock.rank Leaves
    [.stmt newBlockAllocator, .fin .newBlockAllocator]).normal [] := by
  have hend : ((LockOrder.after Lock.rank Leaves []).call Leaves .newBlockAllocator).normal [] :=
    ⟨rank_lt_nil, rfl⟩
  exact ⟨hend, hend, rank_lt_nil, wp_unlock_last ⟨trivial, hend⟩⟩

/-- The functions that threads enter take their locks in order. -/
theorem Enters.after {G : Type*} {t : Thread G} {f : Func} {s : Stmt Lock Func}
    (h : Enters cfg blockSize t f s) :
    (LockOrder.after Lock.rank Leaves [.stmt s, .fin f]).normal [] := by
  cases h with
  | guest g v => exact after_cowHandler
  | ufMonitor => exact after_newBlock
  | newBlockAllocator _ => exact after_newBlockAllocator

/-- **No lock cycle.** In every state that any number of threads of the guest, the thread of
`uf_monitor` and the allocator thread reach, no threads wait for locks that they hold. A thread that
has left `cow_handler`, or `new_block` where `uf_monitor` calls it, holds no lock, and a thread that
comes to the end of `new_block` anywhere holds none of its locks. -/
theorem no_lock_cycle {G : Type*} [DecidableEq G] {st : State (Thread G) Lock Func}
    (hrun : Relation.ReflTransGen (Step (Enters cfg blockSize)) .init st) :
    ¬st.Deadlocked ∧
    (∀ g, .fin .cowHandler ∉ st.cont (.guest g) → st.held (.guest g) = []) ∧
    (.fin .newBlock ∉ st.cont .ufMonitor → st.held .ufMonitor = []) ∧
    (∀ t K, st.cont t = .fin .cowHandler :: K → st.held t = []) ∧
    ∀ t K, st.cont t = .fin .newBlock :: K → .nbLock2 ∉ st.held t ∧ .nbLock ∉ st.held t := by
  have h : Ordered Lock.rank Leaves (Enters cfg blockSize) st :=
    .run (fun _ _ _ => Enters.after) hrun
  refine ⟨h.not_deadlocked, fun g hout => h.held_eq_nil ?_, fun hout => h.held_eq_nil ?_,
    fun t K hK => ?_, fun t K hK => ⟨fun hmem => ?_, fun hmem => ?_⟩⟩
  · rintro f s (_ | _)
    exact hout
  · rintro f s (_ | _)
    exact hout
  · refine List.eq_nil_iff_forall_not_mem.mpr fun l hl => ?_
    exact absurd (h.fin hK l hl) (Fin.not_lt_zero _)
  · exact absurd (h.fin hK _ hmem) (by decide)
  · exact absurd (h.fin hK _ hmem) (by decide)

/-- A thread of the guest comes to the first lock of `cow_handler`. -/
theorem exists_atLock {G : Type*} [DecidableEq G] : ∃ K : List (Item Lock Func),
    ∀ (st : State (Thread G) Lock Func) (g : G), st.cont (.guest g) = [] →
      Relation.ReflTransGen (Step (Enters .shipped 4096)) st
        { st with cont := Function.update st.cont (.guest g) (.stmt (.lock (.lLock 0)) :: K) } := by
  obtain ⟨K, hK⟩ : ∃ K, Relation.ReflTransGen LockOrder.Local
      [.stmt (cowHandler .shipped 4096 0), .fin .cowHandler] (.stmt (.lock (.lLock 0)) :: K) :=
    ⟨_, .head .seq (.head .right (.head .skip (.head .seq (.head .call (.head .seq .refl)))))⟩
  refine ⟨K, fun st g hnil => ?_⟩
  obtain ⟨st₁, hst₁⟩ : ∃ x : State (Thread G) Lock Func, x = { st with
    cont := Function.update st.cont (.guest g)
      [.stmt (cowHandler .shipped 4096 0), .fin .cowHandler] } := ⟨_, rfl⟩
  have henter : Step (Enters .shipped 4096) st st₁ := hst₁ ▸ .enter _ _ _ (.guest g 0) hnil
  have hcont : st₁.cont (.guest g) = [.stmt (cowHandler .shipped 4096 0), .fin .cowHandler] := by
    rw [hst₁]
    exact Function.update_self _ _ _
  have hinner := (Step.inners (hcont ▸ hK)).head henter
  rwa [hst₁, Function.update_idem] at hinner

/-- One thread of the guest waits for a lock of another, which does not wait. -/
theorem no_lock_cycle_waiting : ∃ st : State (Thread Bool) Lock Func,
    Relation.ReflTransGen (Step (Enters .shipped 4096)) .init st ∧
      st.WaitsFor (.guest false) (.lLock 0) ∧ .lLock 0 ∈ st.held (.guest true) ∧
        ¬st.Deadlocked := by
  obtain ⟨K, hK⟩ := exists_atLock (G := Bool)
  obtain ⟨st₁, hst₁⟩ : ∃ x : State (Thread Bool) Lock Func, x =
    ⟨Function.update (fun _ => []) (.guest true) K,
      Function.update (fun _ => []) (.guest true) [.lLock 0]⟩ := ⟨_, rfl⟩
  have htakes : Relation.ReflTransGen (Step (Enters .shipped 4096)) .init st₁ := by
    refine (hK .init true rfl).tail ?_
    have hlock : Step (Enters .shipped 4096) (⟨Function.update (fun _ => []) (.guest true)
        (.stmt (.lock (.lLock 0)) :: K), fun _ => []⟩ : State (Thread Bool) Lock Func) ⟨_, _⟩ :=
      .lock (.guest true) (.lLock 0) K (by dsimp only; rw [Function.update_self])
        fun _ => List.not_mem_nil
    rw [Function.update_idem] at hlock
    rwa [hst₁]
  have hrun := htakes.trans (hK st₁ false ?_)
  · refine ⟨_, hrun, ⟨K, ?_⟩, ?_, (no_lock_cycle hrun).1⟩
    · dsimp only
      rw [Function.update_self]
    · rw [hst₁]
      exact List.mem_cons_self
  · rw [hst₁]
    rfl

end Locks

end Pcow
