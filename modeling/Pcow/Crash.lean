import Pcow.Commit

/-!
# Crashes of an image

A `Medium` is an image file as a crash sees it: what the last crash left of it and everything
done to it since. Its events are those of `Pcow.History`, a crash between two calls and a crash
inside of one (`Medium.Step`).

Two things hold in every state that can be reached. The file holds layers and nothing behind them
but what a call may have left there (`Holds`), and the bytes that say so are settled, so that a
crash does not bring back older ones (`Rests`). A call of `new_block` or `new_super` has a commit
point (`Pcow.Commit`), and so a crash inside of it leaves a file that holds the layers from before
it or those from after it. Either way the file is one of which the same can be said.
-/

namespace Pcow

open MediumOp (CrashOf)

variable {cfg : Config} {g g' : Geometry cfg} {f f' : ByteFile} {fd : Path} {off : ℕ}
  {es : List ℕ} {ls ls' : List (List ℕ)} {s : Super} {r : Ring} {ops : List FileOp}
  {log : List MediumOp}

/-- An image file on its medium, and the session on it, if one is open. -/
structure Medium where
  /-- What the last crash left. -/
  durable : ByteFile
  /-- What has been done to the file since. -/
  log : List MediumOp
  /-- The session. -/
  session : Option (Super × Ring)

/-- A call that changes the metadata. `new_meta` is part of `new_block`. -/
inductive MetaCall
  /-- `new_block`; `n` and `n'` are the iterations of the allocator thread while it waits. -/
  | newBlock (n n' faultOff : ℕ) : MetaCall
  /-- `new_super`. -/
  | newSuper (blockSize maxBlockNum : ℤ) : MetaCall

/-- **What a call adds** to the layers that are read back: an entry to the last one, or an empty
layer after it. -/
def MetaCall.Adds : MetaCall → List (Super × List ℕ) → List (Super × List ℕ) → Prop
  | newBlock _ _ faultOff, L, L' => ∃ init s s' es, L = init ++ [(s, es)] ∧
      L' = init ++ [(s', es ++ [entryOf s faultOff])]
  | newSuper _ _, L, L' => ∃ s, L' = L ++ [(s, [])]

/-- The operation stays inside of the layers, and it changes no byte that is read of them. Guest
writes are of this kind, and so are copies of blocks, the name of the base and what the bitmap of an
entry and `fg_counter` are set to. -/
def Quiet (cfg : Config) (f : ByteFile) (o : FileOp) : Prop :=
  o.InPlace ∧ ∃ (g : Geometry cfg) (ls : List (List ℕ)), IsChain g f 0 ls ∧ ∀ a, o.Touches a →
    a < g.chainEnd 0 ls ∧ (ChainByte g 0 ls a → (FileOp.exec f o).byte a = f.byte a)

/-! ### What a crash can leave -/

/-- **What the file holds is settled.** -/
structure Rests (g : Geometry cfg) (log : List MediumOp) (f : ByteFile) (ls : List (List ℕ)) :
    Prop where
  holds : Holds g (MediumOp.run log f) ls
  settled : ∀ a, Held g ls a → MediumOp.Settled log f a

theorem Holds.rests (h : Holds g f ls) : Rests g [] f ls := ⟨h, fun _ _ => MediumOp.settled_nil⟩

/-- A crash leaves what is settled. -/
theorem Rests.crash (h : Rests g log f ls) (hc : CrashOf log f f') : Holds g f' ls := by
  refine h.holds.congr ?_ ?_ fun a ha => (h.settled a ha).crash hc
  · rw [hc.size]
    exact h.holds.layers.chainEnd_le_size
  · rw [hc.size]
    exact h.holds.size_lt

/-- Operations that keep the bytes that are read. -/
theorem Rests.keeps (h : Rests g log f ls)
    (hsz : (FileOp.run ops (MediumOp.run log f)).size < 2 ^ 63)
    (hk : ∀ a, Held g ls a → FileOp.Always (fun f' => f'.byte a = (MediumOp.run log f).byte a) ops
      (MediumOp.run log f)) : Rests g (log ++ ops.map .file) f ls where
  holds := by
    rw [MediumOp.run_append, MediumOp.run_file]
    exact h.holds.congr (le_trans h.holds.layers.chainEnd_le_size FileOp.size_le_size_run) hsz
      fun a ha => (hk a ha).last
  settled a ha := (h.settled a ha).append_file (hk a ha)

theorem Rests.untouched (h : Rests g log f ls)
    (hsz : (FileOp.run ops (MediumOp.run log f)).size < 2 ^ 63)
    (ht : ∀ o ∈ ops, ∀ x, Held g ls x → ¬o.Touches x) : Rests g (log ++ ops.map .file) f ls :=
  h.keeps hsz fun a ha => FileOp.always_byte fun o ho => ht o ho a ha

/-- An update that has been completed. -/
theorem Rests.update (h : Rests g log f ls) (hu : Update g (MediumOp.run log f) ls ls' ops) :
    Rests g (log ++ ops.map .file) f ls' := by
  obtain ⟨⟨early, o, post, rfl, hcommits⟩, hholds⟩ := hu
  refine ⟨?_, fun a ha => hcommits.settled h.settled ha⟩
  rw [MediumOp.run_append, MediumOp.run_file]
  exact hholds

/-- **An update that a crash has cut short** has taken place or it has not. -/
theorem Rests.crash_update (h : Rests g log f ls) (hu : Update g (MediumOp.run log f) ls ls' ops)
    {j : ℕ} (hc : CrashOf (log ++ (ops.take j).map .file) f f') : Holds g f' ls ∨
    Holds g f' ls' := by
  obtain ⟨⟨early, o, post, rfl, hcommits⟩, hholds⟩ := hu
  have hsize : f'.size = (FileOp.run ((early ++ o :: post).take j) (MediumOp.run log f)).size := by
    rw [hc.size, MediumOp.run_append, MediumOp.run_file]
  rcases hcommits.crash h.settled hc with hb | ⟨hsz, hb⟩
  · refine Or.inl (h.holds.congr ?_ ?_ hb)
    · rw [hsize]
      exact le_trans h.holds.layers.chainEnd_le_size FileOp.size_le_size_run
    · rw [hsize]
      exact lt_of_le_of_lt (size_run_take_le j) hholds.size_lt
  · refine Or.inr (hholds.congr ?_ ?_ hb)
    · rw [hsz]
      exact hholds.layers.chainEnd_le_size
    · rw [hsz]
      exact hholds.size_lt

/-- The layers that are read back, the last of them apart. -/
theorem zip_supersOf_concat : (supersOf g fd off (ls ++ [es])).zip (ls ++ [es]) =
    (supersOf g fd off ls).zip ls ++ [(superOf g fd (g.chainEnd off ls) es.length, es)] := by
  rw [supersOf_append, List.zip_append length_supersOf]
  rfl

/-- A file without an image holds no layer. -/
theorem Holds.eq_nil_of_none (h : Holds g f ls) (hr : readFirstSuper cfg f fd 0 = .ok none) :
    ls = [] := by
  rcases ls with _ | ⟨e, l⟩
  · rfl
  · rw [h.layers.1.readFirstSuper h.size_lt fd] at hr
    cases hr

/-- The first layer, as it is read. -/
theorem Holds.eq_superOf (h : Holds g f ls) (hr : readFirstSuper cfg f fd 0 = .ok (some s)) :
    ∃ k, s = superOf g fd 0 k := by
  rcases ls with _ | ⟨e, l⟩
  · rw [h.readFirstSuper_nil fd] at hr
    cases hr
  · rw [h.layers.1.readFirstSuper h.size_lt fd] at hr
    cases hr
    exact ⟨_, rfl⟩

/-- A cut that takes nothing away. -/
theorem Rests.truncate_size (h : Rests g log f ls) :
    Rests g (log ++ [.truncate (MediumOp.run log f).size]) f ls := by
  have hbyte : ∀ a, ((MediumOp.run log f).truncate (MediumOp.run log f).size).byte a =
      (MediumOp.run log f).byte a := by
    intro a
    rw [ByteFile.truncate]
    simp only
    split
    · rfl
    · exact ((MediumOp.run log f).zero_of_size_le a (by omega)).symm
  constructor
  · rw [MediumOp.run_append, MediumOp.run_truncate]
    exact h.holds.congr h.holds.layers.chainEnd_le_size h.holds.size_lt fun a _ => hbyte a
  · intro a ha
    refine (h.settled a ha).append fun j => ?_
    rcases j with _ | j
    · rfl
    · rw [List.take_succ_cons, List.take_nil, MediumOp.run_truncate, hbyte]

/-- A cut after one of the layers. -/
theorem Rests.truncate (h : Rests g log f ls) (hpre : ls' <+: ls) :
    Rests g (log ++ [.truncate (g.chainEnd 0 ls')]) f ls' := by
  constructor
  · rw [MediumOp.run_append, MediumOp.run_truncate]
    exact h.holds.truncate hpre
  · rintro a (ha | ha)
    · have hheld : Held g ls a := by
        obtain ⟨rest, rfl⟩ := hpre
        exact Or.inl (chainByte_append.mpr (Or.inl ha))
      refine (h.settled a hheld).append fun j => ?_
      rcases j with _ | j
      · rfl
      · rw [List.take_succ_cons, List.take_nil, MediumOp.run_truncate]
        exact if_pos ha.mem.2
    · exact MediumOp.settled_truncate (by have := ha.1; omega)

/-- **What a file holds is determined by it.** -/
theorem Holds.unique (h : Holds g f ls) (h' : IsChain g' f 0 ls') (hne : ls' ≠ []) :
    g' = g ∧ ls' = ls := by
  have hread := (h.readBack []).symm.trans (h'.readBack hne h.size_lt [])
  rw [Except.ok.injEq] at hread
  have hls : ls = ls' := by
    have := congrArg (List.map Prod.snd) hread
    rwa [List.map_snd_zip (by simp), List.map_snd_zip (by simp)] at this
  subst hls
  obtain ⟨e, l, rfl⟩ := List.exists_cons_of_ne_nil hne
  rw [supersOf, supersOf, List.zip_cons_cons, List.zip_cons_cons, List.cons.injEq] at hread
  have hs := congrArg Prod.fst hread.1
  have hbs := congrArg Super.blockSize hs
  have hnum := congrArg Super.maxBlockNum hs
  refine ⟨?_, rfl⟩
  cases g
  cases g'
  simp only [superOf, Nat.cast_inj] at hbs hnum
  simp only [Geometry.mk.injEq]
  exact ⟨hbs.symm, hnum.symm⟩

/-- What is written into data blocks is not read of the layers. -/
theorem Holds.quiet_of_data (h : Holds g f (ls ++ [es])) {i a w v : ℕ} (hi : i < es.length)
    (hle : g.dataOff (g.chainEnd 0 ls) i ≤ a)
    (hlt : a + w ≤ g.dataOff (g.chainEnd 0 ls) i + g.blockSize) : Quiet cfg f (.store a w v) := by
  refine ⟨trivial, g, ls ++ [es], h.isChain, fun x hx => ?_⟩
  have hin : a ≤ x ∧ x < a + w := hx
  obtain ⟨h₁, h₂, h₃⟩ := g.quiet_of_data hi (hle.trans hin.1) (by omega)
  rw [g.chainEnd_concat]
  refine ⟨h₂, fun hchain => ?_⟩
  rcases chainByte_concat.mp hchain with hx' | hx'
  · have := hx'.mem.2
    omega
  · exact absurd hx' h₃

theorem Rests.quiet {o : FileOp} (h : Rests g log f ls) (ho : Quiet cfg (MediumOp.run log f) o) :
    Rests g (log ++ [o].map .file) f ls := by
  obtain ⟨hin, g', ls', hchain, hquiet⟩ := ho
  have hsz : (FileOp.run [o] (MediumOp.run log f)).size = (MediumOp.run log f).size :=
    FileOp.size_run_of_inPlace fun p hp => by rwa [List.mem_singleton.mp hp]
  refine h.keeps (hsz ▸ h.holds.size_lt) fun a ha => FileOp.always_singleton rfl ?_
  by_cases ht : o.Touches a
  · obtain ⟨hlt, hbyte⟩ := hquiet a ht
    rcases eq_or_ne ls' [] with rfl | hne
    · exact absurd hlt (Nat.not_lt_zero a)
    obtain ⟨rfl, rfl⟩ := h.holds.unique hchain hne
    rcases ha with ha | ha
    · exact hbyte ha
    · have := ha.1
      omega
  · exact FileOp.byte_exec_of_not_touches ht

/-- The offset of an entry of the last layer. -/
def IsEntry (cfg : Config) (f : ByteFile) (e : ℕ) : Prop :=
  ∃ (g : Geometry cfg) (ls : List (List ℕ)) (es : List ℕ) (j : ℕ),
    IsChain g f 0 (ls ++ [es]) ∧ j < es.length ∧ e = g.slot (g.chainEnd 0 ls) j

namespace Medium

variable {st st' : Medium} {c : MetaCall}

/-- The file as the programs see it. -/
def file (st : Medium) : ByteFile := MediumOp.run st.log st.durable

/-- Operations are issued. -/
def issue (st : Medium) (ops : List FileOp) (session : Option (Super × Ring)) : Medium :=
  ⟨st.durable, st.log ++ ops.map .file, session⟩

@[simp] theorem file_issue {session : Option (Super × Ring)} :
    (st.issue ops session).file = FileOp.run ops st.file := by
  rw [file, issue, MediumOp.run_append, MediumOp.run_file, file]

/-- **The operations that a call issues.** A call of `new_block` need not return. A new layer
is made by `new_image` on a file without one, or by `snapshot` with the numbers of the first layer.
There is no image with a block size that is not a multiple of the page size: `new_super` cannot map
the meta block of its first layer and stops. -/
inductive Issues (cfg : Config) (fd : Path) (st : Medium) : MetaCall → List FileOp → Prop
  /-- `new_block`, in a session. -/
  | newBlock {s : Super} {r : Ring} (n n' faultOff : ℕ) (hs : st.session = some (s, r)) :
      Issues cfg fd st (.newBlock n n' faultOff) (newBlockOps cfg st.file s r n n' faultOff)
  /-- The first call of `new_super`; both numbers are of type `int`. -/
  | create {blockSize maxBlockNum : ℤ} {x : List FileOp × Option Super}
      (hnone : readFirstSuper cfg st.file fd 0 = .ok none)
      (hbs : -2 ^ 31 ≤ blockSize ∧ blockSize < 2 ^ 31)
      (hnum : -2 ^ 31 ≤ maxBlockNum ∧ maxBlockNum < 2 ^ 31)
      (hr : newSuper cfg st.file fd blockSize maxBlockNum = .ok x) :
      Issues cfg fd st (.newSuper blockSize maxBlockNum) x.1
  /-- A later one. -/
  | snapshot {s : Super} {x : List FileOp × Option Super}
      (hs : readFirstSuper cfg st.file fd 0 = .ok (some s))
      (hr : newSuper cfg st.file fd s.blockSize s.maxBlockNum = .ok x) :
      Issues cfg fd st (.newSuper s.blockSize s.maxBlockNum) x.1
  /-- One that is refused the space for the layer. -/
  | refused {blockSize maxBlockNum : ℤ}
      (hr : newSuper cfg st.file fd blockSize maxBlockNum = .error .assertFailed) :
      Issues cfg fd st (.newSuper blockSize maxBlockNum) []

/-- **One event.** -/
inductive Step (cfg : Config) (fd : Path) (st : Medium) : Medium → Prop
  /-- A session is opened. -/
  | reopen {s : Super} (hr : readLastSuper cfg st.file fd = .ok (some s)) :
      Step cfg fd st { st with session := some (openLayer s) }
  /-- It is closed, or its process stops between two calls. -/
  | close : Step cfg fd st { st with session := none }
  /-- `new_block` returns. -/
  | newBlock {s s' : Super} {r r' : Ring} {n n' faultOff : ℕ} {nb : NewBlock} {ops : List FileOp}
      (hs : st.session = some (s, r))
      (hr : Pcow.newBlock cfg st.file s r n n' faultOff = .ok (s', r', nb, ops)) :
      Step cfg fd st (st.issue ops (some (s', r')))
  /-- `new_block` does not return and the process exits, or a process of its own calls
  `new_super`. -/
  | call {c : MetaCall} {ops : List FileOp} (hc : st.Issues cfg fd c ops) :
      Step cfg fd st (st.issue ops none)
  /-- The allocator thread makes an iteration. -/
  | allocate {s s' : Super} {r r' : Ring} {ops : List FileOp} (hpre : cfg.preAlloc = true)
      (hs : st.session = some (s, r)) (hr : Pcow.allocate s r = .ok (s', r', ops)) :
      Step cfg fd st (st.issue ops (some (s', r')))
  /-- The layers are accessed in some other way. -/
  | access {o : FileOp} (ho : Quiet cfg st.file o) : Step cfg fd st (st.issue [o] st.session)
  /-- An entry is stored to and flushed, as `final_cow` does. -/
  | entry {e : ℕ} (F : ℕ → ℕ) (he : IsEntry cfg st.file e) :
      Step cfg fd st (st.issue (Session.entryStore cfg st.file e F) st.session)
  /-- `rollback_snapshot` is called. -/
  | rollback {no : ℤ} {f' : ByteFile} (hr : rollbackFile cfg st.file fd no = .ok (f', 0)) :
      Step cfg fd st ⟨st.durable, st.log ++ [.truncate f'.size], none⟩
  /-- A crash, between two calls. -/
  | crash {f' : ByteFile} (h : CrashOf st.log st.durable f') : Step cfg fd st ⟨f', [], none⟩
  /-- A crash inside a call, after `j` of its operations. -/
  | crashIn {c : MetaCall} {ops : List FileOp} {j : ℕ} {f' : ByteFile}
      (hc : st.Issues cfg fd c ops)
      (h : CrashOf (st.log ++ (ops.take j).map .file) st.durable f') :
      Step cfg fd st ⟨f', [], none⟩
  /-- A crash while an entry is stored to. -/
  | crashEntry {e j : ℕ} {f' : ByteFile} (F : ℕ → ℕ) (he : IsEntry cfg st.file e)
      (h : CrashOf (st.log ++ ((Session.entryStore cfg st.file e F).take j).map .file)
        st.durable f') : Step cfg fd st ⟨f', [], none⟩

/-- **The states that can be reached** from an empty file. -/
def Reachable (cfg : Config) (fd : Path) (st : Medium) : Prop :=
  Relation.ReflTransGen (Step cfg fd) ⟨.empty, [], none⟩ st

/-! ### What holds in every state -/

/-- **The invariant**: what the file holds is settled, and the session knows the last layer. -/
structure Sound (st : Medium) (g : Geometry cfg) (ls : List (List ℕ)) : Prop where
  rests : Rests g st.log st.durable ls
  session : ∀ s r, st.session = some (s, r) → ∃ init es, ls = init ++ [es] ∧
    s.Is g (g.chainEnd 0 init) es.length ∧ RingInv g st.file (g.chainEnd 0 init) es.length s r

theorem Sound.holds (h : st.Sound g ls) : Holds g st.file ls := h.rests.holds

/-- A state without a session. -/
theorem sound_of_rests {st : Medium} (h : Rests g st.log st.durable ls) (hs : st.session = none) :
    st.Sound g ls :=
  ⟨h, fun s r hsr => by rw [hs] at hsr; cases hsr⟩

/-- **What a call does**: it leaves everything that is read alone, or it is an update with a commit
point. -/
theorem Sound.issues (h : st.Sound g ls) (hfg : cfg.finegrainedCow = true)
    (hc : st.Issues cfg fd c ops) : ∃ g' : Geometry cfg, Rests g' st.log st.durable ls ∧
      ((FileOp.run ops st.file).size < 2 ^ 63 ∧ (∀ o ∈ ops, ∀ x, Held g' ls x → ¬o.Touches x) ∨
        ∃ ls', Update g' st.file ls ls' ops ∧
          c.Adds ((supersOf g' fd 0 ls).zip ls) ((supersOf g' fd 0 ls').zip ls')) := by
  cases hc with
  | @newBlock s r n n' faultOff hs =>
    obtain ⟨init, es, rfl, his, hring⟩ := h.session s r hs
    have hlast := h.holds.last
    refine ⟨g, h.rests, ?_⟩
    rw [newBlockOps]
    rcases hnb : Pcow.newBlock cfg st.file s r n n' faultOff with e | ⟨s', r', nb, ops⟩
    · have hlitter := hlast.haltOps h.holds.size_lt his hring n n'
      exact Or.inl ⟨hlitter.1, Holds.litters hlitter⟩
    · have hentry : entryOf (superOf g fd (g.chainEnd 0 init) es.length) faultOff =
          g.blockOf faultOff := superOf_is.entryOf
      refine Or.inr ⟨_, h.holds.update_newBlock his hring hfg hnb, ?_⟩
      rw [zip_supersOf_concat, zip_supersOf_concat, ← hentry]
      exact ⟨_, _, _, _, rfl, rfl⟩
  | @create blockSize maxBlockNum x hnone hbs hnum hr =>
    obtain rfl := h.holds.eq_nil_of_none hnone
    obtain ⟨g', rfl, rfl, hdvd, -⟩ :=
      newSuper_of_unformatted (h.holds.readLastSuper_nil fd) hbs hnum hr
    have hholds := h.holds.of_nil hdvd
    exact ⟨g', ⟨hholds, h.rests.settled⟩, Or.inr ⟨_, hholds.update_newSuper hfg hr, _, rfl⟩⟩
  | @snapshot s x hs hr =>
    obtain ⟨k, rfl⟩ := h.holds.eq_superOf hs
    exact ⟨g, h.rests, Or.inr ⟨_, h.holds.update_newSuper hfg hr, _, zip_supersOf_concat⟩⟩
  | refused hr => exact ⟨g, h.rests, Or.inl ⟨h.holds.size_lt, fun o ho => by cases ho⟩⟩

/-- A call after which there is no session. -/
theorem Sound.call (h : st.Sound g ls) (hfg : cfg.finegrainedCow = true)
    (hc : st.Issues cfg fd c ops) :
    ∃ (g' : Geometry cfg) (ls' : List (List ℕ)), (st.issue ops none).Sound g' ls' := by
  obtain ⟨g', hrests, ⟨hsz, ht⟩ | ⟨ls', hu, -⟩⟩ := h.issues hfg hc
  · exact ⟨g', ls, sound_of_rests (hrests.untouched hsz ht) rfl⟩
  · exact ⟨g', ls', sound_of_rests (hrests.update hu) rfl⟩

/-- **A crash inside a call**, for the file that it leaves: it holds what it held before the call or
what it would hold after it. -/
theorem Sound.crashIn (h : st.Sound g ls) (hfg : cfg.finegrainedCow = true)
    (hc : st.Issues cfg fd c ops) {j : ℕ}
    (hcrash : CrashOf (st.log ++ (ops.take j).map .file) st.durable f') :
    ∃ g' : Geometry cfg, Holds g' st.file ls ∧ (Holds g' f' ls ∨
      ∃ ls', Holds g' (FileOp.run ops st.file) ls' ∧ Holds g' f' ls' ∧
        c.Adds ((supersOf g' fd 0 ls).zip ls) ((supersOf g' fd 0 ls').zip ls')) := by
  obtain ⟨g', hrests, ⟨hsz, ht⟩ | ⟨ls', hu, hadds⟩⟩ := h.issues hfg hc
  · refine ⟨g', hrests.holds, Or.inl (Rests.crash (hrests.untouched ?_ fun o ho => ?_) hcrash)⟩
    · exact lt_of_le_of_lt (size_run_take_le j) hsz
    · exact ht o (List.mem_of_mem_take ho)
  · exact ⟨g', hrests.holds, (hrests.crash_update hu hcrash).imp_right fun hf' =>
      ⟨ls', hu.holds, hf', hadds⟩⟩

theorem Sound.newBlock (h : st.Sound g ls) (hfg : cfg.finegrainedCow = true) {s' : Super}
    {r' : Ring} {n n' faultOff : ℕ} {nb : NewBlock} (hs : st.session = some (s, r))
    (hr : Pcow.newBlock cfg st.file s r n n' faultOff = .ok (s', r', nb, ops)) :
    ∃ init es, ls = init ++ [es] ∧
      (st.issue ops (some (s', r'))).Sound g (init ++ [es ++ [g.blockOf faultOff]]) := by
  obtain ⟨init, es, rfl, his, hring⟩ := h.session s r hs
  have hu := h.holds.update_newBlock his hring hfg hr
  obtain ⟨-, -, his', -, -, -, hring'⟩ := h.holds.last.newBlock h.holds.size_lt his hring hr
  refine ⟨init, es, rfl, h.rests.update hu, fun t u htu => ?_⟩
  cases htu
  rw [file_issue]
  refine ⟨init, _, rfl, ?_⟩
  rw [List.length_append, List.length_singleton]
  exact ⟨his', hring'⟩

theorem Sound.allocate (h : st.Sound g ls) (hpre : cfg.preAlloc = true) {s' : Super} {r' : Ring}
    (hs : st.session = some (s, r)) (hr : Pcow.allocate s r = .ok (s', r', ops)) :
    (st.issue ops (some (s', r'))).Sound g ls := by
  obtain ⟨init, es, rfl, his, hring⟩ := h.session s r hs
  obtain ⟨hring', hsame, hres, -⟩ := (hring hpre).allocate his hr
  refine ⟨h.rests.untouched hring'.size_lt fun o ho x _ => not_touches_of_isReserve (hres o ho) x,
    fun t u htu => ?_⟩
  cases htu
  rw [file_issue]
  exact ⟨init, es, rfl, his.sameLayer hsame, fun _ => hring'⟩

theorem Sound.access (h : st.Sound g ls) {o : FileOp} (ho : Quiet cfg st.file o) :
    (st.issue [o] st.session).Sound g ls := by
  refine ⟨h.rests.quiet ho, fun s r hs => ?_⟩
  obtain ⟨init, es, hls, his, hring⟩ := h.session s r hs
  refine ⟨init, es, hls, his, ?_⟩
  rw [file_issue]
  exact hring.of_size (FileOp.size_run_of_inPlace fun p hp => by
    rw [List.mem_singleton.mp hp]
    exact ho.1)

/-- The entry of a block is one of the last layer. -/
theorem Sound.isEntry (h : st.Sound g ls) {e : ℕ} (he : IsEntry cfg st.file e) :
    ∃ init es j, ls = init ++ [es] ∧ j < es.length ∧ e = g.slot (g.chainEnd 0 init) j := by
  obtain ⟨g', init, es, j, hchain, hj, rfl⟩ := he
  obtain ⟨rfl, rfl⟩ := h.holds.unique hchain (by simp)
  exact ⟨init, es, j, rfl, hj, rfl⟩

theorem Sound.entry (h : st.Sound g ls) (hfg : cfg.finegrainedCow = true) {e : ℕ} (F : ℕ → ℕ)
    (he : IsEntry cfg st.file e) : ∃ ls' : List (List ℕ),
      (st.issue (Session.entryStore cfg st.file e F) st.session).Sound g ls' := by
  obtain ⟨init, es, j, rfl, hj, rfl⟩ := h.isEntry he
  obtain ⟨v, hu⟩ := h.holds.update_entryStore hfg hj F
  refine ⟨_, h.rests.update hu, fun s r hs => ?_⟩
  obtain ⟨init', es', hls, his, hring⟩ := h.session s r hs
  obtain ⟨rfl, hes⟩ := List.append_inj' hls rfl
  rw [List.cons.injEq] at hes
  obtain ⟨rfl, -⟩ := hes
  refine ⟨init, _, rfl, ?_⟩
  rw [List.length_set, file_issue]
  exact ⟨his, hring.of_size rfl⟩

theorem Sound.crashEntry (h : st.Sound g ls) (hfg : cfg.finegrainedCow = true) {e j : ℕ}
    (F : ℕ → ℕ) (he : IsEntry cfg st.file e)
    (hc : CrashOf (st.log ++ ((Session.entryStore cfg st.file e F).take j).map .file)
      st.durable f') : ∃ ls' : List (List ℕ), Holds g f' ls' := by
  obtain ⟨init, es, i, rfl, hi, rfl⟩ := h.isEntry he
  obtain ⟨v, hu⟩ := h.holds.update_entryStore hfg hi F
  rcases h.rests.crash_update hu hc with hf' | hf'
  · exact ⟨_, hf'⟩
  · exact ⟨_, hf'⟩

theorem Sound.reopen (h : st.Sound g ls) (hr : readLastSuper cfg st.file fd = .ok (some s)) :
    Sound { st with session := some (openLayer s) } g ls := by
  refine ⟨h.rests, fun t u htu => ?_⟩
  rcases List.eq_nil_or_concat' ls with rfl | ⟨init, es, rfl⟩
  · rw [h.holds.readLastSuper_nil fd] at hr
    cases hr
  · rw [h.holds.isChain.readLastSuper h.holds.size_lt fd] at hr
    cases hr
    cases htu
    exact ⟨init, es, rfl, openLayer_is superOf_is,
      h.holds.last.ringInv_openLayer h.holds.size_lt superOf_is⟩

theorem Sound.rollback (h : st.Sound g ls) {no : ℤ}
    (hr : rollbackFile cfg st.file fd no = .ok (f', 0)) :
    ∃ ls' : List (List ℕ), Rests g (st.log ++ [.truncate f'.size]) st.durable ls' := by
  rcases eq_or_ne ls [] with rfl | hne
  · rw [rollbackFile, h.holds.readFirstSuper_nil fd] at hr
    cases hr
  rw [h.holds.isChain.rollbackFile hne h.holds.size_lt no, Except.ok.injEq, Prod.mk.injEq] at hr
  obtain ⟨rfl, -⟩ := hr
  split_ifs with hin
  · exact ⟨_, h.rests.truncate (List.take_prefix _ _)⟩
  · exact ⟨ls, h.rests.truncate_size⟩

/-- **Every event keeps the invariant**, for the layers there are after it. -/
theorem Sound.step (h : st.Sound g ls) (hfg : cfg.finegrainedCow = true)
    (hstep : Step cfg fd st st') :
    ∃ (g' : Geometry cfg) (ls' : List (List ℕ)), st'.Sound g' ls' := by
  cases hstep with
  | reopen hr => exact ⟨g, ls, h.reopen hr⟩
  | close => exact ⟨g, ls, sound_of_rests h.rests rfl⟩
  | newBlock hs hr =>
    obtain ⟨init, es, -, h'⟩ := h.newBlock hfg hs hr
    exact ⟨g, _, h'⟩
  | call hc => exact h.call hfg hc
  | allocate hpre hs hr => exact ⟨g, ls, h.allocate hpre hs hr⟩
  | access ho => exact ⟨g, ls, h.access ho⟩
  | entry F he => exact ⟨g, h.entry hfg F he⟩
  | rollback hr =>
    obtain ⟨ls', h'⟩ := h.rollback hr
    exact ⟨g, ls', sound_of_rests h' rfl⟩
  | crash hc => exact ⟨g, ls, sound_of_rests (h.rests.crash hc).rests rfl⟩
  | crashIn hc hcrash =>
    obtain ⟨g', -, hf' | ⟨ls', -, hf', -⟩⟩ := h.crashIn hfg hc hcrash
    · exact ⟨g', ls, sound_of_rests hf'.rests rfl⟩
    · exact ⟨g', ls', sound_of_rests hf'.rests rfl⟩
  | crashEntry F he hc =>
    obtain ⟨ls', hf'⟩ := h.crashEntry hfg F he hc
    exact ⟨g, ls', sound_of_rests hf'.rests rfl⟩

/-- The empty file holds no layer. -/
theorem sound_empty (hdvd : 4096 ∣ g.blockSize) : Sound ⟨.empty, [], none⟩ g [] :=
  sound_of_rests (Holds.rests ⟨trivial, fun _ _ => rfl, hdvd, by decide⟩) rfl

/-- **The invariant holds in every state that can be reached.** -/
theorem Reachable.sound (h : st.Reachable cfg fd) (hfg : cfg.finegrainedCow = true) :
    ∃ (g : Geometry cfg) (ls : List (List ℕ)), st.Sound g ls := by
  induction h with
  | refl =>
    have hent : 64 + cfg.entrySize ≤ 4096 := by rcases cfg.entrySize_cases with h | h <;> omega
    exact ⟨⟨4096, 0, hent, by decide, by decide, by decide⟩, [], sound_empty (dvd_refl 4096)⟩
  | tail _ hstep ih =>
    obtain ⟨g, ls, h⟩ := ih
    exact h.step hfg hstep

end Medium

/-! ### Updates are atomic -/

/-- **Metadata updates are atomic.** In every state of an image, those that crashes have left among
them, and for every call of `new_block` or `new_super` and every point of it, what is read back of a
file that a crash leaves at that point is what was read back before the call, or else it is what
would be read back after it: the same layers with one more entry in the last one, or with an empty
layer after them. -/
theorem metadata_atomic (cfg : Config) (fd : Path) (hfg : cfg.finegrainedCow = true) (st : Medium)
    (hst : st.Reachable cfg fd) : ∃ L, readBack cfg st.file fd = .ok L ∧
      ∀ c ops, st.Issues cfg fd c ops → ∀ j f',
        CrashOf (st.log ++ (ops.take j).map .file) st.durable f' →
        readBack cfg f' fd = .ok L ∨
          ∃ L', readBack cfg (FileOp.run ops st.file) fd = .ok L' ∧ c.Adds L L' ∧
            readBack cfg f' fd = .ok L' := by
  obtain ⟨g, ls, h⟩ := hst.sound hfg
  refine ⟨_, h.holds.readBack fd, fun c ops hc j f' hcrash => ?_⟩
  obtain ⟨g', hbefore, hcases⟩ := h.crashIn hfg hc hcrash
  have hread := (hbefore.readBack fd).symm.trans (h.holds.readBack fd)
  rw [Except.ok.injEq] at hread
  rw [← hread]
  rcases hcases with hf' | ⟨ls', hafter, hf', hadds⟩
  · exact Or.inl (hf'.readBack fd)
  · exact Or.inr ⟨_, hafter.readBack fd, hadds, hf'.readBack fd⟩

/-! ### A layer that becomes full -/

namespace Medium

/-- In a full segment the number of meta blocks is stored last. -/
theorem newBlockPlain_rollOver {s' : Super} {faultOff : ℕ} {nb : NewBlock}
    (hfull : ¬s.activeMeta.counter < s.maxPerSeg)
    (hr : newBlockPlain cfg f s faultOff = .ok (s', nb, ops)) :
    ∃ ops', ops = ops' ++ rollOverOps s := by
  rw [newBlockPlain] at hr
  dsimp only at hr
  split_ifs at hr
  cases hr
  exact ⟨_, rfl⟩

/-- `new_block` returns as long as the only layer is below its capacity. -/
theorem Sound.exists_newBlockPlain {st : Medium} {es : List ℕ}
    (h : st.Sound (Geometry.onePage ⟨true, false⟩) [es])
    (hs : st.session = some (s, r)) (hcap : es.length + 1 ≤ 4096) (faultOff : ℕ) :
    s.Is (Geometry.onePage ⟨true, false⟩) 0 es.length ∧ ∃ s' ops,
      newBlockPlain ⟨true, false⟩ st.file s faultOff =
        .ok (s', ⟨(Geometry.onePage ⟨true, false⟩).dataOff 0 es.length⟩, ops) := by
  obtain ⟨init, es', hes, his, -⟩ := h.session s r hs
  obtain ⟨rfl, hes⟩ := List.append_inj' (show [] ++ [es] = init ++ [es'] from hes) rfl
  cases hes
  have hend : (Geometry.onePage ⟨true, false⟩).endOff 0 (es.length + 1) < 2 ^ 63 := by
    have hmono : (Geometry.onePage ⟨true, false⟩).endOff 0 (es.length + 1) ≤
        (Geometry.onePage ⟨true, false⟩).endOff 0 4096 :=
      Geometry.blockAt_mono _ (Geometry.blocks_mono hcap)
    exact hmono.trans_lt (by decide)
  have hlast : IsLayer (Geometry.onePage ⟨true, false⟩) st.file 0 es :=
    @Holds.last _ _ _ es [] h.holds
  obtain ⟨s', ops, hr, -⟩ := hlast.newBlockPlain h.holds.size_lt his hcap hend faultOff
  exact ⟨his, s', ops, hr⟩

/-- A session with any number of entries in its layer can be reached. -/
theorem exists_reachable {k : ℕ} (hk : k ≤ 4096) : ∃ (st : Medium) (s : Super) (r : Ring)
    (es : List ℕ),
    st.Reachable ⟨true, false⟩ [] ∧ st.session = some (s, r) ∧
      st.Sound (Geometry.onePage ⟨true, false⟩) [es] ∧ es.length = k := by
  induction k with
  | zero =>
    have hr : newSuper ⟨true, false⟩ .empty [] 4096 4096 =
        .ok (newSuperOps ⟨true, false⟩ 0 4096 4096,
          some ⟨[], 4096, 4096, 0, 504, 0, 4096, ⟨4096, 0⟩, 0, 0⟩) := by decide +kernel
    have hcreate := @Issues.create ⟨true, false⟩ [] ⟨.empty, [], none⟩ 4096 4096 _ rfl (by decide)
      (by decide) hr
    have h₀ : Sound ⟨.empty, [], none⟩ (Geometry.onePage ⟨true, false⟩) [] :=
      sound_empty (dvd_refl 4096)
    have h₁ : ((⟨.empty, [], none⟩ : Medium).issue (newSuperOps ⟨true, false⟩ 0 4096 4096)
      none).Sound
        (Geometry.onePage ⟨true, false⟩) [[]] :=
      sound_of_rests (h₀.rests.update (h₀.holds.update_newSuper rfl hr)) rfl
    have hlast := @IsChain.readLastSuper _ _ _ [] [] h₁.holds.isChain h₁.holds.size_lt []
    exact ⟨_, _, _, [], (Relation.ReflTransGen.single (.call hcreate)).tail (.reopen hlast), rfl,
      h₁.reopen hlast, rfl⟩
  | succ k ih =>
    obtain ⟨st, s, r, es, hst, hs, h, hlen⟩ := ih (Nat.le_of_succ_le hk)
    obtain ⟨-, s', ops, hr⟩ := h.exists_newBlockPlain hs (by rw [hlen]; exact hk) 0
    have hnew : Pcow.newBlock ⟨true, false⟩ st.file s r 0 0 0 =
        .ok (s', r, ⟨(Geometry.onePage ⟨true, false⟩).dataOff 0 es.length⟩, ops) := by
      rw [Pcow.newBlock, if_neg Bool.false_ne_true, hr]
      rfl
    obtain ⟨init, es', hes, h'⟩ := h.newBlock rfl hs hnew
    obtain ⟨rfl, hes⟩ := List.append_inj' (show [] ++ [es] = init ++ [es'] from hes) rfl
    cases hes
    refine ⟨_, s', r, _, hst.tail (.newBlock hs hnew), rfl, h', ?_⟩
    rw [List.length_append, List.length_singleton, hlen]

/-- **`new_block` in a full segment**: the number of meta blocks is stored last. -/
theorem exists_rollOver : ∃ (st : Medium) (ops : List FileOp),
    st.Reachable ⟨true, false⟩ [] ∧ st.Issues ⟨true, false⟩ [] (.newBlock 0 0 0)
      (ops ++ [storeInt 8 1, .flush 0, .fence]) := by
  obtain ⟨st, s, r, es, hst, hs, h, hlen⟩ := @exists_reachable 504 (by decide)
  obtain ⟨his, s', ops, hr⟩ := h.exists_newBlockPlain hs (by rw [hlen]; decide) 0
  rw [hlen] at his
  have hfull : ¬s.activeMeta.counter < s.maxPerSeg := by
    rw [his.counter, his.maxPerSeg]
    decide
  obtain ⟨ops', rfl⟩ := newBlockPlain_rollOver hfull hr
  have hroll : rollOverOps s = [storeInt 8 1, .flush 0, .fence] :=
    his.rollOverOps_eq (by decide)
  have hissue := @Issues.newBlock ⟨true, false⟩ [] st s r 0 0 0 hs
  rw [newBlockOps, Pcow.newBlock, if_neg Bool.false_ne_true, hr] at hissue
  rw [hroll] at hissue
  exact ⟨st, ops', hst, hissue⟩

end Medium

/-- **A roll-over that loses a store.** The layer of the session holds as many entries as a meta
block has room for, so that `new_block` opens another segment. The crash comes when the new number
of meta blocks is stored and not flushed, and the store is lost. -/
theorem metadata_atomic_rollOver : ∃ (st : Medium) (ops : List FileOp) (L : List (Super × List ℕ)),
    st.Reachable ⟨true, false⟩ [] ∧ readBack ⟨true, false⟩ st.file [] = .ok L ∧
      st.Issues ⟨true, false⟩ [] (.newBlock 0 0 0) (ops ++ [storeInt 8 1, .flush 0, .fence]) ∧
      CrashOf (st.log ++ (ops ++ [storeInt 8 1]).map .file) st.durable (FileOp.run ops st.file) ∧
      (readBack ⟨true, false⟩ (FileOp.run ops st.file) [] = .ok L ∨
        ∃ L', readBack ⟨true, false⟩
          (FileOp.run (ops ++ [storeInt 8 1, .flush 0, .fence]) st.file) [] =
            .ok L' ∧
          (MetaCall.newBlock 0 0 0).Adds L L' ∧
          readBack ⟨true, false⟩ (FileOp.run ops st.file) [] = .ok L') := by
  obtain ⟨st, ops, hst, hissue⟩ := Medium.exists_rollOver
  obtain ⟨L, hL, hall⟩ := metadata_atomic ⟨true, false⟩ [] rfl st hst
  have hcrash : CrashOf (st.log ++ (ops ++ [storeInt 8 1]).map .file) st.durable
      (FileOp.run ops st.file) := by
    have hlost := @MediumOp.crashOf_lost st.durable (st.log ++ ops.map .file) 8 4 1
    rw [MediumOp.run_append, MediumOp.run_file] at hlost
    rw [List.map_append, ← List.append_assoc]
    exact hlost
  have htake : (ops ++ [storeInt 8 1, .flush 0, .fence]).take (ops.length + 1) =
      ops ++ [storeInt 8 1] := by
    rw [List.take_length_add_append]
    rfl
  refine ⟨st, ops, L, hst, hL, hissue, hcrash, hall _ _ hissue (ops.length + 1) _ ?_⟩
  rw [htake]
  exact hcrash

end Pcow
