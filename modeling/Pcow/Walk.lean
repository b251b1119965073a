import Pcow.History

/-!
# What the chain walk finds

A super block is recognised by four bytes at an offset computed from the layer before it. That
the walk finds the super blocks that were written, and takes nothing else for one, rests on what
can be at the end of the last layer: zeros, or the start of a meta block that a `new_block` was
about to use when the process stopped. Guest data is never there, since a block is counted in
its layer before it is handed out.

`LifeOp` adds to the events of `Pcow.History` a stop inside `new_block`, after any number of the
operations the call issues, whether the call would have returned or not. A history keeps a log of
the super blocks that `new_super` has written and no rollback has cut off, and `walk_finds` says
that the walk returns the log.
-/

namespace Pcow

variable {cfg : Config} {g : Geometry cfg} {f : ByteFile} {fd : Path} {off k : ℕ}
  {es : List ℕ} {ls : List (List ℕ)} {s : Super} {r : Ring}

/-! ### Stopping inside `new_block` -/

/-- What the allocator thread issues in `n` iterations, up to the one that fails. -/
def allocateOps : ℕ → Super → Ring → List FileOp
  | 0, _, _ => []
  | n + 1, s, r => match allocate s r with
    | .error _ => []
    | .ok (s', r', ops) => ops ++ allocateOps n s' r'

/-- What a `new_block` that does not return issues, the body for `PRE_ALLOC`: the wait for its
first block does not end, or it has made the meta block of a new segment and the wait for the
data block does not end. -/
def haltOpsPre (cfg : Config) (s : Super) (r : Ring) (n n' : ℕ) : List FileOp :=
  if 2 ^ 31 ≤ s.toAllocNum ∨ s.toAllocNum > s.maxBlockNum then []
  else match waitBlock n s r with
    | .error _ => allocateOps (n + 1) s r
    | .ok (s₁, r₁, nb, ops₁) =>
      if s.activeMeta.counter < s.maxPerSeg then ops₁
      else ops₁ ++ newMetaOps cfg nb.blockOff ++ allocateOps (n' + 1) s₁ r₁

/-- The same for the plain body, which exits where `fallocate` fails: before it has done
anything, or after it has made the meta block. -/
def haltOpsPlain (cfg : Config) (s : Super) : List FileOp :=
  if 2 ^ 31 ≤ s.toAllocNum ∨ s.toAllocNum > s.maxBlockNum then []
  else if s.activeMeta.counter ≠ s.maxPerSeg ∨ ¬FallocateOk s.nextOff s.blockSize then []
  else [.fallocate s.nextOff (u64 s.blockSize)] ++ newMetaOps cfg s.nextOff

/-- The operations a call of `new_block` issues, whether it returns or not. -/
def newBlockOps (cfg : Config) (f : ByteFile) (s : Super) (r : Ring) (n n' faultOff : ℕ) :
    List FileOp :=
  match newBlock cfg f s r n n' faultOff with
  | .ok x => x.2.2.2
  | .error _ => if cfg.preAlloc then haltOpsPre cfg s r n n' else haltOpsPlain cfg s

/-- **Operations that leave an image as it is**: they store past the end of the last layer at
most, and only to bytes of the next append. -/
def Litters (g : Geometry cfg) (f : ByteFile) (off k : ℕ) (ops : List FileOp) : Prop :=
  (FileOp.run ops f).size < 2 ^ 63 ∧
    ∀ o ∈ ops, ∀ a, o.Touches a → g.endOff off k ≤ a ∧ AppendByte g off k a

theorem size_run_take_le {ops : List FileOp} (j : ℕ) :
    (FileOp.run (ops.take j) f).size ≤ (FileOp.run ops f).size := by
  conv_rhs => rw [← List.take_append_drop j ops, FileOp.run_append]
  exact FileOp.size_le_size_run

/-- What such operations, or some of them, leave. -/
theorem IsImage.litters (h : IsImage g f ls es) {ops : List FileOp}
    (hops : Litters g f (g.chainEnd 0 ls) es.length ops) (j : ℕ) :
    IsImage g (FileOp.run (ops.take j) f) ls es := by
  have hbyte : ∀ a, ¬(g.endOff (g.chainEnd 0 ls) es.length ≤ a ∧
      AppendByte g (g.chainEnd 0 ls) es.length a) →
      (FileOp.run (ops.take j) f).byte a = f.byte a := fun a ha =>
    FileOp.byte_run_of_not_touches fun o ho ht => ha (hops.2 o (List.mem_of_mem_take ho) a ht)
  have hle : g.chainEnd 0 ls ≤ g.endOff (g.chainEnd 0 ls) es.length :=
    le_trans (Nat.le_add_right _ _) (g.add_blockSize_le_endOff _ _)
  refine h.of_last (fun a ha => hbyte a (by omega)) (h.last.congr ?_ fun a ha => hbyte a ?_)
    (fun a ha hap => ?_) (lt_of_le_of_lt (size_run_take_le j) hops.1)
  · exact le_trans h.endOff_le FileOp.size_le_size_run
  · rintro ⟨hge, -⟩
    have := ha.mem.2
    omega
  · rw [hbyte a fun hap' => hap hap'.2]
    exact h.tail a ha hap

/-- **Operations that append, cut short**: the layer has the entry or it does not. -/
theorem IsImage.appends_take (h : IsImage g f ls es) {v : ℕ} {ops : List FileOp}
    (happ : Appends g f (g.chainEnd 0 ls) es v ops) (hsz : (FileOp.run ops f).size < 2 ^ 63)
    (j : ℕ) : ∃ es', (es' = es ∨ es' = es ++ [v]) ∧
    IsImage g (FileOp.run (ops.take j) f) ls es' := by
  rcases happ.take j with hlayer | hdone
  · have hbyte : ∀ a, ¬AppendByte g (g.chainEnd 0 ls) es.length a →
        (FileOp.run (ops.take j) f).byte a = f.byte a := fun a ha =>
      FileOp.byte_run_of_not_touches fun o ho ht =>
        ha (happ.touches o (List.mem_of_mem_take ho) a ht)
    refine ⟨es, Or.inl rfl,
      h.of_last (fun a ha => hbyte a fun hap => ?_) hlayer (fun a ha hap => ?_)
      (lt_of_le_of_lt (size_run_take_le j) hsz)⟩
    · have := hap.mem.1
      omega
    · rw [hbyte a hap]
      exact h.tail a ha hap
  · rw [hdone]
    exact ⟨_, Or.inr rfl, h.appends happ hsz⟩

/-- Reserving space is no litter. -/
theorem litters_of_reserve {ops : List FileOp} (hsz : (FileOp.run ops f).size < 2 ^ 63)
    (hops : ∀ o ∈ ops, IsReserve o) : Litters g f off k ops :=
  ⟨hsz, fun o ho a ht => absurd ht (not_touches_of_isReserve (hops o ho) a)⟩

/-- The first stores to a new meta block. -/
theorem newMetaOps_litter (hfull : k - g.lastSeg k * g.perSeg = g.perSeg) {o : FileOp} {a : ℕ}
    (ho : o ∈ newMetaOps cfg (g.endOff off k)) (ht : o.Touches a) :
    g.endOff off k ≤ a ∧ AppendByte g off k a := by
  have h := touches_newMetaOps ho ht
  exact ⟨h.1, Or.inr (Or.inr ⟨hfull, Or.inl h⟩)⟩

theorem RingOk.allocateOps {t n : ℕ} (h : RingOk g f off k t s r) (hs : s.Is g off k) :
    (FileOp.run (allocateOps n s r) f).size < 2 ^ 63 ∧ ∀ o ∈ allocateOps n s r, IsReserve o := by
  induction n generalizing f s r with
  | zero => exact ⟨h.size_lt, fun o ho => by cases ho⟩
  | succ n ih =>
    rw [Pcow.allocateOps]
    rcases hal : Pcow.allocate s r with e | ⟨s', r', ops⟩
    · exact ⟨h.size_lt, fun o ho => by cases ho⟩
    · obtain ⟨h', hsame, hres, -⟩ := h.allocate hs hal
      obtain ⟨hsz, hres'⟩ := ih h' (hs.sameLayer hsame)
      refine ⟨by rwa [FileOp.run_append], fun o ho => ?_⟩
      rcases List.mem_append.mp ho with ho | ho
      · exact hres o ho
      · exact hres' o ho

/-- **A call that does not return litters**, the body for `PRE_ALLOC`. -/
theorem RingOk.haltOpsPre (h : RingOk g f off k 0 s r) (hs : s.Is g off k) (n n' : ℕ) :
    Litters g f off k (haltOpsPre cfg s r n n') := by
  rw [Pcow.haltOpsPre]
  by_cases hcheck : 2 ^ 31 ≤ s.toAllocNum ∨ s.toAllocNum > s.maxBlockNum
  · rw [if_pos hcheck]
    exact litters_of_reserve h.size_lt fun o ho => by cases ho
  rw [if_neg hcheck]
  rcases hw : Pcow.waitBlock n s r with e | ⟨s₁, r₁, nb, ops₁⟩
  · obtain ⟨hsz, hres⟩ := h.allocateOps (n := n + 1) hs
    exact litters_of_reserve hsz hres
  obtain ⟨rfl, h₁, hsame, hres⟩ := h.waitBlock hs hw
  by_cases hlt : s.activeMeta.counter < s.maxPerSeg
  · simp only [if_pos hlt]
    exact litters_of_reserve h₁.size_lt hres
  -- the segment is full, so the block taken is the one at the end of the layer
  have hfull : k - g.lastSeg k * g.perSeg = g.perSeg := by
    rw [hs.counter, hs.maxPerSeg] at hlt
    have := g.counter_le (k := k)
    omega
  have hsz₁ : (FileOp.run (newMetaOps cfg (g.endOff off k)) (FileOp.run ops₁ f)).size =
      (FileOp.run ops₁ f).size := size_run_newMetaOps
  obtain ⟨hsz₂, hres₂⟩ := (h₁.of_size hsz₁).allocateOps (n := n' + 1) (hs.sameLayer hsame)
  simp only [if_neg hlt]
  change Litters g f off k (ops₁ ++ newMetaOps cfg (g.endOff off k) ++ _)
  refine ⟨by rwa [FileOp.run_append, FileOp.run_append], fun o ho a ht => ?_⟩
  rcases List.mem_append.mp ho with ho | ho
  · rcases List.mem_append.mp ho with ho | ho
    · exact absurd ht (not_touches_of_isReserve (hres o ho) a)
    · exact newMetaOps_litter hfull ho ht
  · exact absurd ht (not_touches_of_isReserve (hres₂ o ho) a)

/-- The same for the plain body. -/
theorem IsLayer.haltOpsPlain (h : IsLayer g f off es) (hf : f.size < 2 ^ 63)
    (hs : s.Is g off es.length) : Litters g f off es.length (haltOpsPlain cfg s) := by
  have hnil : Litters g f off es.length ([] : List FileOp) :=
    litters_of_reserve hf fun o ho => by cases ho
  have hnext : s.nextOff = g.endOff off es.length :=
    hs.nextOff (lt_of_le_of_lt h.size_le (lt_trans hf (by norm_num)))
  rw [Pcow.haltOpsPlain]
  split_ifs with h₁ h₂
  · exact hnil
  · exact hnil
  · rw [not_or, not_not, not_not] at h₂
    obtain ⟨hfull, -, hlt⟩ := h₂
    rw [hs.counter, hs.maxPerSeg, Nat.cast_inj] at hfull
    rw [hs.blockSize, hnext] at hlt
    rw [hnext, hs.u64_blockSize]
    refine ⟨?_, fun o ho a ht => ?_⟩
    · rw [FileOp.run_append, size_run_newMetaOps]
      exact max_lt hf (by exact_mod_cast hlt)
    · rcases List.mem_append.mp ho with ho | ho
      · rw [List.mem_singleton.mp ho] at ht
        cases ht
      · exact newMetaOps_litter hfull ho ht

/-- A call that does not return litters, in every build. -/
theorem IsLayer.haltOps (h : IsLayer g f off es) (hf : f.size < 2 ^ 63) (hs : s.Is g off es.length)
    (hring : RingInv g f off es.length s r) (n n' : ℕ) : Litters g f off es.length
      (if cfg.preAlloc then Pcow.haltOpsPre cfg s r n n' else Pcow.haltOpsPlain cfg s) := by
  split_ifs with hpre
  · exact (hring hpre).haltOpsPre hs n n'
  · exact h.haltOpsPlain hf hs

/-- **A stop inside `new_block`** leaves an image with the same frozen layers, whose last layer has
one entry more at most. -/
theorem IsImage.newBlockOps_take (h : IsImage g f ls es)
    (hs : s.Is g (g.chainEnd 0 ls) es.length)
    (hring : RingInv g f (g.chainEnd 0 ls) es.length s r) (n n' faultOff j : ℕ) :
    ∃ es', (es' = es ∨ es' = es ++ [g.blockOf faultOff]) ∧
      IsImage g (FileOp.run ((newBlockOps cfg f s r n n' faultOff).take j) f) ls es' ∧
      ∀ a, ¬AppendByte g (g.chainEnd 0 ls) es.length a →
        (FileOp.run ((newBlockOps cfg f s r n n' faultOff).take j) f).byte a = f.byte a := by
  have hbyte : ∀ {ops : List FileOp}, (∀ o ∈ ops, ∀ a, o.Touches a →
      AppendByte g (g.chainEnd 0 ls) es.length a) →
        ∀ a, ¬AppendByte g (g.chainEnd 0 ls) es.length a →
      (FileOp.run (ops.take j) f).byte a = f.byte a := fun htouch a ha =>
    FileOp.byte_run_of_not_touches fun o ho ht => ha (htouch o (List.mem_of_mem_take ho) a ht)
  rw [newBlockOps]
  rcases hnb : Pcow.newBlock cfg f s r n n' faultOff with e | ⟨s', r', nb, ops⟩
  · have hlitter := h.last.haltOps h.size_lt hs hring n n'
    exact ⟨es, Or.inl rfl, h.litters hlitter j, hbyte fun o ho a ht => (hlitter.2 o ho a ht).2⟩
  · obtain ⟨-, -, -, -, happ, hsz, -⟩ := h.last.newBlock h.size_lt hs hring hnb
    obtain ⟨es', hes, himage⟩ := h.appends_take happ hsz j
    exact ⟨es', hes, himage, hbyte happ.touches⟩

/-! ### Histories with stops -/

/-- One event in the life of an image, as in `ImageOp` or a stop of the process inside a call of
`new_block`, after `j` of the operations the call issues. -/
inductive LifeOp
  /-- An event that returns. -/
  | op (o : ImageOp) : LifeOp
  /-- The process stops inside `new_block`. -/
  | stop (n n' faultOff j : ℕ) : LifeOp

/-- The super block that `snapshot` makes `new_super` write. -/
def superMade (cfg : Config) (f : ByteFile) (fd : Path) : List ℕ :=
  match readFirstSuper cfg f fd 0 with
  | .ok (some s) => match newSuper cfg f fd s.blockSize s.maxBlockNum with
    | .ok (_, some t) => [t.myOff]
    | _ => []
  | _ => []

namespace ImageState

variable {st st' : ImageState} {log : List ℕ}

/-- One event. -/
def lifeStep (cfg : Config) (fd : Path) (st : ImageState) : LifeOp → Except Fault ImageState
  | .op o => st.step cfg fd o
  | .stop n n' faultOff j => match st.session with
    | none => .ok st
    | some (s, r) =>
      .ok ⟨FileOp.run ((newBlockOps cfg st.file s r n n' faultOff).take j) st.file, none⟩

/-- The log of the super blocks after an event that led from `st` to `st'`: a snapshot adds the
one it writes, and a rollback strikes out those that lie past the end of the file it leaves. -/
def logStep (cfg : Config) (fd : Path) (st st' : ImageState) (log : List ℕ) : LifeOp → List ℕ
  | .op .snapshot => log ++ superMade cfg st.file fd
  | .op (.rollback _) => log.filter (· < st'.file.size)
  | _ => log

/-- A history of events, with its log. -/
def live (cfg : Config) (fd : Path) : ImageState → List ℕ → List LifeOp →
    Except Fault (ImageState × List ℕ)
  | st, log, [] => .ok (st, log)
  | st, log, o :: os => match st.lifeStep cfg fd o with
    | .error e => .error e
    | .ok st' => live cfg fd st' (logStep cfg fd st st' log o) os

/-- **The log has the offsets of the layers**, in their order. -/
structure Logged (st : ImageState) (g : Geometry cfg) (fd : Path) (log : List ℕ)
    (ls : List (List ℕ)) (es : List ℕ) : Prop where
  is : st.Is g ls es
  log : log = (supersOf g fd 0 (ls ++ [es])).map Super.myOff

end ImageState

theorem supersOf_offs {o : ℕ} (h : o ∈ (supersOf g fd off ls).map Super.myOff) :
    off ≤ o ∧ o < g.chainEnd off ls := by
  induction ls generalizing off with
  | nil => cases h
  | cons e ls ih =>
    have hle := g.add_blockSize_le_endOff off e.length
    have hpos := g.blockSize_pos
    rw [supersOf, List.map_cons, List.mem_cons] at h
    rcases h with h | h
    · have hend : g.endOff off e.length ≤ g.chainEnd (g.endOff off e.length) ls :=
        Geometry.le_chainEnd
      change o = off at h
      exact ⟨h.ge, by change o < g.chainEnd (g.endOff off e.length) ls; omega⟩
    · obtain ⟨h₁, h₂⟩ := ih h
      exact ⟨by omega, h₂⟩

/-- Where the image is cut after its layers `ls`, their super blocks stay and the others go. -/
theorem filter_supersOf {rest : List (List ℕ)} :
    ((supersOf g fd off (ls ++ rest)).map Super.myOff).filter (· < g.chainEnd off ls) =
      (supersOf g fd off ls).map Super.myOff := by
  rw [supersOf_append, List.map_append, List.filter_append,
    List.filter_eq_self.mpr fun o ho => decide_eq_true (supersOf_offs ho).2,
    List.filter_eq_nil_iff.mpr fun o ho => ?_, List.append_nil]
  have := (supersOf_offs ho).1
  simp only [decide_eq_true_eq]
  omega

/-- A snapshot puts its super block right after the last layer. -/
theorem IsImage.superMade (h : IsImage g f ls es) {x : ByteFile × ℤ}
    (hr : Pcow.snapshotFile cfg f fd = .ok x) :
    superMade cfg f fd = [g.chainEnd 0 (ls ++ [es])] := by
  obtain ⟨e, l, -, hfirst⟩ := h.readFirstSuper fd
  rw [Pcow.snapshotFile, hfirst] at hr
  rw [Pcow.superMade, hfirst]
  simp only at hr ⊢
  rw [show (superOf g fd 0 e.length).blockSize = g.blockSize from rfl,
    show (superOf g fd 0 e.length).maxBlockNum = g.maxBlockNum from rfl] at hr ⊢
  rcases hnew : Pcow.newSuper cfg f fd g.blockSize g.maxBlockNum with er | y
  · rw [hnew] at hr
    cases hr
  · obtain ⟨-, -, hy⟩ := h.newSuper hnew
    obtain ⟨ops, t⟩ := y
    cases hy
    rfl

namespace ImageState

variable {st st' : ImageState} {log : List ℕ}

/-- An event that leaves the frozen layers alone leaves the log alone. -/
theorem Logged.of_last (h : st.Logged g fd log ls es) {es' : List ℕ} (h' : st'.Is g ls es') :
    st'.Logged g fd log ls es' := by
  refine ⟨h', h.log.trans ?_⟩
  rw [supersOf_append, supersOf_append, List.map_append, List.map_append]
  rfl

/-- **Every event keeps the log**, a stop inside `new_block` included. -/
theorem Logged.step (h : st.Logged g fd log ls es) {o : LifeOp}
    (hr : st.lifeStep cfg fd o = .ok st') :
    ∃ ls' es', st'.Logged g fd (logStep cfg fd st st' log o) ls' es' := by
  cases o with
  | stop n n' faultOff j =>
    rw [lifeStep] at hr
    rcases hses : st.session with _ | ⟨s, r⟩
    · rw [hses] at hr
      cases hr
      exact ⟨ls, es, h⟩
    · rw [hses] at hr
      cases hr
      obtain ⟨hs, hring⟩ := h.is.session s r hses
      obtain ⟨es', -, himage, -⟩ := h.is.image.newBlockOps_take hs hring n n' faultOff j
      exact ⟨ls, es', h.of_last ⟨himage, fun _ _ hnone => by cases hnone⟩⟩
  | op o =>
    replace hr : st.step cfg fd o = .ok st' := hr
    cases o with
    | reopen => exact ⟨ls, es, h.of_last (h.is.reopen hr).1⟩
    | newBlock n n' faultOff =>
      obtain ⟨es', h', -⟩ := h.is.newBlock hr
      exact ⟨ls, es', h.of_last h'⟩
    | allocate => exact ⟨ls, es, h.of_last (h.is.allocate hr).1⟩
    | write i x b => exact ⟨ls, es, h.of_last (h.is.write hr).1⟩
    | snapshot =>
      obtain ⟨x, hsnap, heq⟩ := map_eq_ok hr
      cases heq
      obtain ⟨-, himage, -⟩ := h.is.image.snapshotFile hsnap
      refine ⟨ls ++ [es], [], ⟨himage, fun _ _ hnone => by cases hnone⟩, ?_⟩
      have happend : supersOf g fd 0 (ls ++ [es] ++ [[]]) = _ := supersOf_append
      rw [logStep, h.is.image.superMade hsnap, happend, List.map_append, ← h.log]
      rfl
    | rollback no =>
      rw [ImageState.step, h.is.image.rollbackFile no] at hr
      cases hr
      by_cases hno : 1 ≤ no ∧ no ≤ ls.length + 1
      · -- the layers that stay are a prefix, and not an empty one
        have hne : (ls ++ [es]).take no.toNat ≠ [] := by
          rw [Ne, List.take_eq_nil_iff, not_or]
          exact ⟨by omega, by simp⟩
        obtain ⟨ls', es', hcut⟩ := (List.eq_nil_or_concat _).resolve_left hne
        rw [List.concat_eq_append] at hcut
        have hrest : ls ++ [es] = ls' ++ [es'] ++ (ls ++ [es]).drop no.toNat := by
          rw [← hcut, List.take_append_drop]
        simp only [if_pos hno, hcut]
        refine ⟨ls', es', ⟨h.is.image.truncate ⟨_, hrest.symm⟩,
          fun _ _ hnone => by cases hnone⟩, ?_⟩
        rw [logStep, h.log, hrest]
        exact filter_supersOf
      · simp only [if_neg hno]
        refine ⟨ls, es, ⟨h.is.image, fun _ _ hnone => by cases hnone⟩, ?_⟩
        rw [logStep, h.log]
        refine List.filter_eq_self.mpr fun o ho => decide_eq_true ?_
        have hlt := (supersOf_offs ho).2
        rw [g.chainEnd_concat] at hlt
        exact lt_of_lt_of_le hlt h.is.image.endOff_le

/-- **Every history keeps the log.** -/
theorem Logged.live (h : st.Logged g fd log ls es) {os : List LifeOp} {log' : List ℕ}
    (hr : live cfg fd st log os = .ok (st', log')) :
    ∃ ls' es', st'.Logged g fd log' ls' es' := by
  induction os generalizing st log ls es with
  | nil =>
    cases hr
    exact ⟨ls, es, h⟩
  | cons o os ih =>
    rw [ImageState.live] at hr
    rcases hstep : st.lifeStep cfg fd o with e | st₁
    · rw [hstep] at hr
      cases hr
    · rw [hstep] at hr
      obtain ⟨ls₁, es₁, h₁⟩ := h.step hstep
      exact ih h₁ hr

end ImageState

/-- **The chain walk finds the real super blocks.** After any history that began on an empty file,
with `new_block` calls, guest writes into the blocks handed out, snapshots, rollbacks, reopenings
with blocks left over by the allocator thread, and stops inside `new_block`, the walk from offset
0 returns the super blocks that `new_super` has written and no rollback has cut off, in the order
in which they were written, and then finds no more. -/
theorem walk_finds (cfg : Config) (fs fs₀ : Fs) (name : Path) (blockSize : ℤ) (maxSize : ℕ)
    (base : Option CString) (f₀ : ByteFile) (ops : List LifeOp) (st : ImageState) (log : List ℕ)
    (hempty : (fs name).getD .empty = .empty)
    (hnew : newImage cfg fs name blockSize maxSize base = .ok (fs₀, 0))
    (hf₀ : fs₀ name = some f₀)
    (hlive : ImageState.live cfg name ⟨f₀, none⟩ [0] ops = .ok (st, log)) :
    ∃ (L : List Super) (hL : L ≠ []), supers cfg st.file name = .ok L ∧ L.map Super.myOff = log ∧
      readNextSuper cfg st.file (L.getLast hL) = .ok none := by
  obtain ⟨g, f, rfl, -, himg, -, -, -⟩ := isImage_newImage hempty hnew
  rw [Function.update_self, Option.some.injEq] at hf₀
  subst hf₀
  have h₀ : ImageState.Logged ⟨f, none⟩ g name [0] [] [] :=
    ⟨⟨himg, fun s r hs => by cases hs⟩, rfl⟩
  obtain ⟨ls, es, hlog⟩ := h₀.live hlive
  have himage := hlog.is.image
  have hlast : supersOf g name 0 (ls ++ [es]) =
      supersOf g name 0 ls ++ [superOf g name (g.chainEnd 0 ls) es.length] := supersOf_append
  refine ⟨supersOf g name 0 (ls ++ [es]), by rw [hlast]; simp, himage.supers name,
    hlog.log.symm, ?_⟩
  simp only [hlast, List.getLast_concat]
  refine himage.last.readNextSuper_none himage.size_lt superOf_is ?_
  rw [← g.chainEnd_concat]
  exact himage.isChain.noSuper

/-- A life of an image: the guest writes the magic of a super block to a data block, a process stops
inside `new_block`, two snapshots are made and the second one is rolled back. -/
def lifeWithMagic : List LifeOp :=
  [.op .reopen, .op (.newBlock 2 1 0), .op (.write 0 12 0x4e), .op (.write 0 13 0x42),
    .op (.write 0 14 0x4a), .op (.write 0 15 0x4c), .op .snapshot, .op .reopen,
    .op (.newBlock 2 1 0), .stop 1 0 0 1, .op .snapshot, .op (.rollback 2)]

/-- The walk after that life finds the super blocks of the two layers that are left, and not the
data block. -/
theorem walk_finds_magic : ∃ fs₀ f₀ st L,
    newImage Config.shipped (fun _ => none) [] (4 * (1 : ℕ)) 1 none = .ok (fs₀, 0) ∧
      fs₀ [] = some f₀ ∧
      ImageState.live Config.shipped [] ⟨f₀, none⟩ [0] lifeWithMagic = .ok (st, [0, 12288]) ∧
      HasMagic st.file 8192 ∧
      supers .shipped st.file [] = .ok L ∧ L.map Super.myOff = [0, 12288] := by
  obtain ⟨fs₀, f₀, hnew, hf₀, hF⟩ := @exists_onNewImage _ (fun f =>
    (ImageState.live .shipped [] ⟨f, none⟩ [0] lifeWithMagic).bind fun x =>
      .ok (decide (HasMagic x.1.file 8192), x.2)) (true, [0, 12288]) (by decide +kernel)
  obtain ⟨⟨st, log⟩, hlive, hx⟩ := exists_of_bind hF
  rw [Except.ok.injEq, Prod.mk.injEq, decide_eq_true_iff] at hx
  obtain ⟨hmagic, rfl⟩ := hx
  obtain ⟨L, -, hL, hlog, -⟩ := walk_finds .shipped (fun _ => none) _ [] (4 * (1 : ℕ)) 1 none f₀
    lifeWithMagic st _ rfl hnew hf₀ hlive
  exact ⟨fs₀, f₀, st, L, hnew, hf₀, hlive, hmagic, hL, hlog⟩

end Pcow
