import Pcow.Lib.Persist

/-!
# Crashes

What is left of a mapped file when the power fails. A store may reach the medium at
any time after it is issued, and the stores to one cache line reach it in their order.
They have reached it once the line is flushed and a fence has followed. So a crash
leaves each line as it was at some point of the history, which may be another one for
every line (`CrashOf`). Reserving space and cutting the file take effect at once.

A byte is *settled* if every crash leaves in it what the program sees there
(`Settled`). It stays so under operations that keep it (`Settled.append`), and becomes
so by a flush and a fence (`Secured.settled`).

`Commits` is the shape of an update that a crash cannot cut in two: it prepares what
nobody reads yet, then makes a single store to a single line, and what it leaves
outside that line is settled before. A crash then shows the bytes from before or the
bytes from after (`Commits.crash`).
-/

/-- One thing done to a file: through a mapping of it, or to its length. -/
inductive MediumOp
  /-- An operation of a program that has the file mapped. -/
  | file (o : FileOp) : MediumOp
  /-- Cut or extend the file to `n` bytes. -/
  | truncate (n : ℕ) : MediumOp
deriving DecidableEq

namespace MediumOp

variable {f f' : ByteFile} {l l' : List MediumOp} {ops ops' : List FileOp} {o : FileOp}
  {x c n line : ℕ}

/-- What it does to the contents. -/
def exec (f : ByteFile) : MediumOp → ByteFile
  | file o => FileOp.exec f o
  | truncate n => f.truncate n

/-- What a list of them does to the contents. -/
def run (l : List MediumOp) (f : ByteFile) : ByteFile := l.foldl exec f

@[simp] theorem run_nil : run [] f = f := rfl

@[simp] theorem run_append : run (l ++ l') f = run l' (run l f) := List.foldl_append

@[simp] theorem run_file : run (ops.map file) f = FileOp.run ops f := by
  rw [run, List.foldl_map]
  rfl

@[simp] theorem run_truncate : run [truncate n] f = f.truncate n := rfl

/-! ### What a crash leaves -/

/-- **A point at which a crash may leave a cache line**: after the first `c` operations,
and not before a flush of the line that a fence has followed, nor before the file was
cut inside the line or below it. -/
structure Cut (l : List MediumOp) (line c : ℕ) : Prop where
  le : c ≤ l.length
  flush : ∀ j k a, l[j]? = some (file (.flush a)) → a / 64 = line → j < k →
    l[k]? = some (file .fence) → j ≤ c
  truncate : ∀ j n, l[j]? = some (truncate n) → n < 64 * (line + 1) → j < c

/-- **What a crash may leave** of the file `f` after the operations `l`: of each cache
line what it held at some point. -/
structure CrashOf (l : List MediumOp) (f f' : ByteFile) : Prop where
  size : f'.size = (run l f).size
  line : ∀ line, ∃ c, Cut l line c ∧ ∀ x, x / 64 = line → f'.byte x = (run (l.take c) f).byte x

/-- The end is such a point. -/
theorem cut_length : Cut l line l.length where
  le := le_rfl
  flush _ _ _ hj _ _ _ := (List.getElem?_eq_some_iff.mp hj).1.le
  truncate _ _ hj _ := (List.getElem?_eq_some_iff.mp hj).1

/-- Everything may have reached the medium. -/
theorem crashOf_run : CrashOf l f (run l f) :=
  ⟨rfl, fun _ => ⟨l.length, cut_length, fun x _ => by rw [List.take_length]⟩⟩

/-- The last store may be lost. -/
theorem crashOf_lost {a w v : ℕ} : CrashOf (l ++ [file (.store a w v)]) f (run l f) where
  size := by
    rw [run_append]
    rfl
  line line := by
    refine ⟨l.length, ⟨?_, fun j k b hj _ _ _ => ?_, fun j n hj _ => ?_⟩, fun x _ => ?_⟩
    · rw [List.length_append, List.length_singleton]
      exact Nat.le_succ _
    · have hlt := (List.getElem?_eq_some_iff.mp hj).1
      rw [List.length_append, List.length_singleton] at hlt
      exact Nat.le_of_lt_succ hlt
    · rcases Nat.lt_or_ge j l.length with hlt | hge
      · exact hlt
      · rw [List.getElem?_append_right hge, List.getElem?_singleton] at hj
        split_ifs at hj
        cases hj
    · rw [List.take_left]

/-- A point of a longer history, seen from a shorter one. -/
theorem Cut.of_append (h : Cut (l ++ l') line c) : Cut l line (min c l.length) where
  le := min_le_right _ _
  flush j k a hj ha hjk hk := by
    have hj' := (List.getElem?_eq_some_iff.mp hj).1
    have hk' := (List.getElem?_eq_some_iff.mp hk).1
    rw [← List.getElem?_append_left hj'] at hj
    rw [← List.getElem?_append_left hk'] at hk
    exact le_min (h.flush j k a hj ha hjk hk) hj'.le
  truncate j n hj hn := by
    have hj' := (List.getElem?_eq_some_iff.mp hj).1
    rw [← List.getElem?_append_left hj'] at hj
    exact lt_min (h.truncate j n hj hn) hj'

/-! ### Settled bytes -/

/-- **Every crash leaves in the byte what the program sees there.** -/
def Settled (l : List MediumOp) (f : ByteFile) (x : ℕ) : Prop :=
  ∀ c, Cut l (x / 64) c → (run (l.take c) f).byte x = (run l f).byte x

theorem settled_nil : Settled [] f x := fun c _ => by rw [List.take_nil]

theorem Settled.crash (h : Settled l f x) (hc : CrashOf l f f') :
    f'.byte x = (run l f).byte x := by
  obtain ⟨c, hcut, hbyte⟩ := hc.line (x / 64)
  rw [hbyte x rfl, h c hcut]

/-- **A settled byte stays settled** while the operations keep it. -/
theorem Settled.append (h : Settled l f x)
    (hk : ∀ j, (run (l'.take j) (run l f)).byte x = (run l f).byte x) : Settled (l ++ l') f x := by
  intro c hcut
  have hall := hk l'.length
  rw [List.take_length] at hall
  rw [run_append, hall]
  rcases Nat.le_total c l.length with hle | hge
  · have htake : (l ++ l').take c = l.take c := List.take_append_of_le_length hle
    have hc := h _ hcut.of_append
    rwa [Nat.min_eq_left hle, ← htake] at hc
  · obtain ⟨j, rfl⟩ := Nat.exists_eq_add_of_le hge
    rw [List.take_length_add_append, run_append, hk]

theorem Settled.append_file (h : Settled l f x)
    (hk : FileOp.Always (fun f' => f'.byte x = (run l f).byte x) ops (run l f)) :
    Settled (l ++ ops.map file) f x :=
  h.append fun j => by
    rw [← List.map_take, run_file]
    exact hk j

/-- Cutting the file settles what is past the cut. -/
theorem settled_truncate (h : n ≤ x) : Settled (l ++ [truncate n]) f x := by
  intro c hcut
  have hlt := hcut.truncate l.length n (by simp) (by omega)
  have hle := hcut.le
  rw [List.length_append, List.length_singleton] at hle
  rw [List.take_of_length_le (by rw [List.length_append, List.length_singleton]; omega)]

end MediumOp

namespace FileOp

variable {f : ByteFile} {l l' : List FileOp} {o : FileOp} {x : ℕ} {S S' : ℕ → Prop}

theorem Always.take {R : ByteFile → Prop} (h : Always R l f) (k : ℕ) : Always R (l.take k) f :=
  fun j => by
    rw [List.take_take]
    exact h _

/-- Operations that do not touch a byte keep it at every point. -/
theorem always_byte (h : ∀ o ∈ l, ¬o.Touches x) : Always (fun f' => f'.byte x = f.byte x) l f :=
  fun _ => byte_run_of_not_touches fun o ho => h o (List.mem_of_mem_take ho)

/-- Stores of zeros keep zeros. -/
theorem always_zero (h : ∀ a w v, store a w v ∈ l → v = 0) (hx : f.byte x = 0) :
    Always (fun f' => f'.byte x = 0) l f := by
  induction l generalizing f with
  | nil => exact always_nil hx
  | cons o l ih =>
    have hstep : (exec f o).byte x = 0 := by
      cases o with
      | store a w v =>
        obtain rfl := h a w v List.mem_cons_self
        simp only [exec_store, ByteFile.store, Nat.zero_div]
        split
        · rfl
        · exact hx
      | flush a => exact hx
      | fence => exact hx
      | fallocate a n => exact hx
    rw [← List.singleton_append]
    exact Always.append (always_singleton hx hstep)
      (ih (fun a w v hm => h a w v (List.mem_cons_of_mem o hm)) hstep)

/-- **The last store to the byte is followed by a flush of its cache line and a
fence.** -/
def Secured (l : List FileOp) (x : ℕ) : Prop :=
  ∃ l₁ a l₂ l₃, l = l₁ ++ flush a :: (l₂ ++ fence :: l₃) ∧ a / 64 = x / 64 ∧
    ∀ o ∈ l₂ ++ l₃, ¬o.Touches x

/-- A flush and a fence at the end secure every byte of the line. -/
theorem secured_concat {a : ℕ} (h : a / 64 = x / 64) : Secured (l ++ [flush a, fence]) x :=
  ⟨l, a, [], [], rfl, h, fun _ ho => by cases ho⟩

theorem Secured.append (h : Secured l x) (h' : ∀ o ∈ l', ¬o.Touches x) : Secured (l ++ l') x := by
  obtain ⟨l₁, a, l₂, l₃, rfl, ha, ht⟩ := h
  refine ⟨l₁, a, l₂, l₃ ++ l', by simp, ha, fun o ho => ?_⟩
  rw [← List.append_assoc] at ho
  rcases List.mem_append.mp ho with ho | ho
  · exact ht o ho
  · exact h' o ho

/-- **What is secured is settled.** -/
theorem Secured.settled {hist : List MediumOp} (h : Secured l x) :
    MediumOp.Settled (hist ++ l.map .file) f x := by
  obtain ⟨l₁, a, l₂, l₃, rfl, ha, ht⟩ := h
  have hlate : ∀ o ∈ flush a :: (l₂ ++ fence :: l₃), ¬o.Touches x := by
    intro o ho
    simp only [List.mem_cons, List.mem_append] at ho
    rcases ho with rfl | ho | rfl | ho
    · exact id
    · exact ht o (List.mem_append_left _ ho)
    · exact id
    · exact ht o (List.mem_append_right _ ho)
  intro c hcut
  -- the flush is at the end of `l₁`, and the fence comes later
  have hle := hcut.flush (hist.length + l₁.length) (hist.length + l₁.length + 1 + l₂.length) a
    (by simp) ha (by omega) (by
      rw [List.getElem?_append_right (by omega), List.map_append,
        List.getElem?_append_right (by rw [List.length_map]; omega), List.length_map,
        show hist.length + l₁.length + 1 + l₂.length - hist.length - l₁.length = l₂.length +
          1 by omega,
        List.map_cons, List.getElem?_cons_succ, List.map_append,
        List.getElem?_append_right (by rw [List.length_map]), List.length_map, Nat.sub_self]
      rfl)
  obtain ⟨j, rfl⟩ := Nat.exists_eq_add_of_le hle
  have hrun : ∀ q : List FileOp, MediumOp.run (hist ++ l₁.map .file ++ q.map .file) f =
      run q (run l₁ (MediumOp.run hist f)) := by
    intro q
    simp only [MediumOp.run_append, MediumOp.run_file]
  rw [List.map_append, ← List.append_assoc, show hist.length + l₁.length =
    (hist ++ l₁.map MediumOp.file).length by simp, List.take_length_add_append, ← List.map_take,
    hrun, hrun, always_byte hlate j, byte_run_of_not_touches hlate]

/-! ### Updates with a commit point -/

/-- **An update with a commit point** of the file `f`, where the bytes `S` are read
before it and the bytes `S'` after it: what precedes the store `o` touches none of `S`,
`o` stores to a single cache line, and outside of this line whatever is read afterwards
is read already or is secured before `o`. -/
structure Commits (f : ByteFile) (early : List FileOp) (o : FileOp) (post : List FileOp)
    (S S' : ℕ → Prop) : Prop where
  unread : ∀ p ∈ early, ∀ x, S x → ¬p.Touches x
  line : ∃ line, (∀ x, o.Touches x → x / 64 = line) ∧
    ∀ x, S' x → x / 64 = line ∨ S x ∨ Secured early x
  inPlace : ∀ p ∈ o :: post, p.InPlace
  keeps : ∀ x, S x ∨ S' x → Always (fun f' => f'.byte x = (run (early ++ [o]) f).byte x) post
    (run (early ++ [o]) f)
  secured : ∀ x, S' x → Secured (early ++ o :: post) x ∨
    S x ∧ ∀ p ∈ early ++ o :: post, ¬p.Touches x

/-- The common case: the commit is flushed and fenced, and that is all. -/
theorem commits_of_flush {early : List FileOp} {b : ℕ}
    (hearly : ∀ p ∈ early, ∀ x, S x → ¬p.Touches x)
    (ho : o.InPlace) (hline : ∀ x, o.Touches x → x / 64 = b / 64)
    (hS' : ∀ x, S' x → S x ∨ Secured early x ∧ ¬o.Touches x) :
    Commits f early o [flush b, fence] S S' where
  unread := hearly
  line := ⟨b / 64, hline, fun x hx => Or.inr ((hS' x hx).imp_right And.left)⟩
  inPlace p hp := by
    simp only [List.mem_cons, List.not_mem_nil, or_false] at hp
    rcases hp with rfl | rfl | rfl
    · exact ho
    · trivial
    · trivial
  keeps x _ := always_barriers (by simp [IsBarrier]) rfl
  secured x hx := by
    by_cases ht : o.Touches x
    · left
      rw [← List.singleton_append, ← List.append_assoc]
      exact secured_concat (hline x ht).symm
    have hlate : ∀ p ∈ [o, flush b, fence], ¬p.Touches x := by
      intro p hp
      simp only [List.mem_cons, List.not_mem_nil, or_false] at hp
      rcases hp with rfl | rfl | rfl
      · exact ht
      · exact id
      · exact id
    rcases hS' x hx with hx' | ⟨hsec, -⟩
    · refine Or.inr ⟨hx', fun p hp => ?_⟩
      rcases List.mem_append.mp hp with hp | hp
      · exact hearly p hp x hx'
      · exact hlate p hp
    · exact Or.inl (hsec.append hlate)

section Commits

variable {early post : List FileOp} {hist : List MediumOp} {f₀ f' : ByteFile} {j m : ℕ}

/-- After the commit point nothing that is read changes any more. -/
theorem Commits.byte_take (h : Commits f early o post S S') (hm : early.length < m)
    (hx : S x ∨ S' x) :
    (run ((early ++ o :: post).take m) f).byte x = (run (early ++ o :: post) f).byte x := by
  obtain ⟨k, rfl⟩ := Nat.exists_eq_add_of_lt hm
  have hsplit : ∀ p : List FileOp, run (early ++ o :: p) f = run p (run (early ++ [o]) f) := by
    intro p
    rw [← run_append, List.append_assoc, List.singleton_append]
  rw [Nat.add_assoc, List.take_length_add_append, List.take_succ_cons, hsplit (post.take k),
    hsplit post, h.keeps x hx k, (h.keeps x hx).last]

/-- The commit and what follows it keep what it does not touch. -/
theorem Commits.always_late (h : Commits f early o post S S') (hx : S x ∨ S' x)
    (ho : ¬o.Touches x) :
    Always (fun f' => f'.byte x = (run early f).byte x) (o :: post) (run early f) := by
  have hbyte : (run (early ++ [o]) f).byte x = (run early f).byte x := by
    rw [run_append]
    exact byte_exec_of_not_touches ho
  have hkeeps := h.keeps x hx
  rw [hbyte, run_append] at hkeeps
  rw [← List.singleton_append]
  exact Always.append (always_singleton rfl (byte_exec_of_not_touches ho)) hkeeps

/-- A byte that is read before, and that the commit does not touch, is kept throughout. -/
theorem Commits.always (h : Commits f early o post S S') (hx : S x) (ho : ¬o.Touches x) :
    Always (fun f' => f'.byte x = f.byte x) (early ++ o :: post) f := by
  have hearly : ∀ p ∈ early, ¬p.Touches x := fun p hp => h.unread p hp x hx
  have hlate := h.always_late (Or.inl hx) ho
  rw [byte_run_of_not_touches hearly] at hlate
  exact (always_byte hearly).append hlate

/-- **A crash does not cut the update in two.** -/
theorem Commits.crash (h : Commits (MediumOp.run hist f₀) early o post S S')
    (hS : ∀ x, S x → MediumOp.Settled hist f₀ x)
    (hc : MediumOp.CrashOf (hist ++ ((early ++ o :: post).take j).map .file) f₀ f') :
    (∀ x, S x → f'.byte x = (MediumOp.run hist f₀).byte x) ∨
      f'.size = (run (early ++ o :: post) (MediumOp.run hist f₀)).size ∧
        ∀ x, S' x → f'.byte x = (run (early ++ o :: post) (MediumOp.run hist f₀)).byte x := by
  obtain ⟨line, hline, hout⟩ := h.line
  obtain ⟨c, hcut, hbyte⟩ := hc.line line
  have hle := hcut.le
  simp only [List.length_append, List.length_map, List.length_take, List.length_cons] at hle
  rcases Nat.lt_or_ge (hist.length + early.length) c with hlt | hge
  · -- the line of the commit shows it, so everything before it has been issued
    right
    have hj : early.length < j := by omega
    refine ⟨?_, fun x hx => ?_⟩
    · have hsplit := List.take_append_drop j (early ++ o :: post)
      have hdrop : ∀ p ∈ (early ++ o :: post).drop j, p.InPlace := by
        obtain ⟨k, rfl⟩ := Nat.exists_eq_add_of_le hj.le
        rw [List.drop_length_add_append]
        exact fun p hp => h.inPlace p (List.mem_of_mem_drop hp)
      rw [hc.size, MediumOp.run_append, MediumOp.run_file]
      conv_rhs => rw [← hsplit, run_append]
      rw [size_run_of_inPlace hdrop]
    by_cases hxl : x / 64 = line
    · obtain ⟨m, rfl⟩ := Nat.exists_eq_add_of_le (show hist.length ≤ c by omega)
      rw [hbyte x hxl, List.take_length_add_append, ← List.map_take, List.take_take,
        MediumOp.run_append, MediumOp.run_file, h.byte_take (by omega) (Or.inr hx)]
    · have ho : ¬o.Touches x := fun ht => hxl (hline x ht)
      have hset : MediumOp.Settled (hist ++ ((early ++ o :: post).take j).map .file) f₀ x := by
        rcases (hout x hx).resolve_left hxl with hx' | hsec
        · exact (hS x hx').append_file ((h.always hx' ho).take j)
        · obtain ⟨k, rfl⟩ := Nat.exists_eq_add_of_lt hj
          rw [Nat.add_assoc, List.take_length_add_append, List.map_append, ← List.append_assoc]
          refine (Secured.settled hsec).append_file ?_
          rw [MediumOp.run_append, MediumOp.run_file]
          exact (h.always_late (Or.inr hx) ho).take (k + 1)
      rw [hset.crash hc, MediumOp.run_append, MediumOp.run_file, h.byte_take hj (Or.inr hx)]
  · left
    intro x hx
    by_cases hxl : x / 64 = line
    · -- a point before the commit, seen from the history up to the commit
      have hearly : ∀ p ∈ early.take j, ¬p.Touches x := fun p hp =>
        h.unread p (List.mem_of_mem_take hp) x hx
      have hset : MediumOp.Settled (hist ++ (early.take j).map .file) f₀ x :=
        (hS x hx).append_file (always_byte hearly)
      have hcle : c ≤ (hist ++ (early.take j).map MediumOp.file).length := by
        rw [List.length_append, List.length_map, List.length_take]
        omega
      have hsplit : (early ++ o :: post).take j =
          early.take j ++ (o :: post).take (j - early.length) :=
        List.take_append
      rw [hbyte x hxl]
      rw [hsplit, List.map_append, ← List.append_assoc] at hcut ⊢
      have hcut' := hcut.of_append
      rw [Nat.min_eq_left hcle, ← hxl] at hcut'
      rw [List.take_append_of_le_length hcle, hset c hcut', MediumOp.run_append, MediumOp.run_file,
        byte_run_of_not_touches hearly]
    · have ho : ¬o.Touches x := fun ht => hxl (hline x ht)
      have hset : MediumOp.Settled (hist ++ ((early ++ o :: post).take j).map .file) f₀ x := by
        exact (hS x hx).append_file ((h.always hx ho).take j)
      rw [hset.crash hc, MediumOp.run_append, MediumOp.run_file]
      exact h.always hx ho j

/-- **Once the update has returned, what is read of it is settled.** -/
theorem Commits.settled (h : Commits (MediumOp.run hist f₀) early o post S S')
    (hS : ∀ x, S x → MediumOp.Settled hist f₀ x) (hx : S' x) :
    MediumOp.Settled (hist ++ (early ++ o :: post).map .file) f₀ x := by
  rcases h.secured x hx with hsec | ⟨hx', ht⟩
  · exact hsec.settled
  · exact (hS x hx').append_file (always_byte ht)

end Commits

end FileOp
