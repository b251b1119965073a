import Pcow.Manager

/-!
# Histories of an image

An image lives through sessions, in which blocks are handed out and written, and
through snapshots and rollbacks between them. `ImageOp` is one such event and
`ImageState.run` a history of them. Snapshots and rollbacks are made on a closed
image: they end the session, and the next one reads the super blocks again.

What one event can do is said once (`ImageState.Is.step`): it changes the last
layer and nothing below it, or it freezes the last layer, or it cuts the image
after some layer. That every layer once frozen stays as it is, until a rollback
cuts it off, is an induction over the history from there
(`ImageState.Keeps.run`), and that a rollback brings back the bytes of the
snapshot is its end (`rollback_restores`).
-/

namespace Pcow

variable {cfg : Config} {g : Geometry cfg} {f f' : ByteFile} {fd : Path} {off n : ℕ}
  {es : List ℕ} {ls ls₀ : List (List ℕ)}

/-- An image and the session on it, if one is open: the super block of the last
layer and the ring of blocks allocated ahead. -/
structure ImageState where
  /-- The contents of the image file. -/
  file : ByteFile
  /-- The session. -/
  session : Option (Super × Ring)

/-- One event in the life of an image. -/
inductive ImageOp
  /-- `fmmap` opens a session. -/
  | reopen : ImageOp
  /-- `new_block` is called in the session; `n` and `n'` are the iterations of the
  allocator thread while it waits. -/
  | newBlock (n n' faultOff : ℕ) : ImageOp
  /-- The allocator thread makes an iteration. -/
  | allocate : ImageOp
  /-- The guest writes byte `x` of the `i`-th data block of the last layer. -/
  | write (i x : ℕ) (b : UInt8) : ImageOp
  /-- `snapshot` is called. -/
  | snapshot : ImageOp
  /-- `rollback_snapshot` is called. -/
  | rollback (snapshotNo : ℤ) : ImageOp

/-- What `fmmap` sets up for the allocator thread. -/
def openLayer (s : Super) : Super × Ring := ({ s with allocOff := s.nextOff }, .init)

theorem openLayer_is {s : Super} {k : ℕ} (hs : s.Is g off k) : (openLayer s).1.Is g off k :=
  ⟨hs.blockSize, hs.maxBlockNum, hs.activeMetaNum, hs.maxPerSeg, hs.myOff, hs.activeMetaOff,
    hs.activeMeta⟩

/-- The ring of a session that was just opened. -/
theorem IsLayer.ringInv_openLayer {s : Super} (h : IsLayer g f off es) (hf : f.size < 2 ^ 63)
    (hs : s.Is g off es.length) : RingInv g f off es.length (openLayer s).1 (openLayer s).2 := by
  intro _
  have hend := h.size_le
  have hnext := hs.nextOff (by omega)
  refine ⟨hnext, Nat.zero_le _, le_rfl, fun i hi => absurd hi (Nat.not_lt_zero i), ?_, hf⟩
  rw [openLayer]
  exact le_of_eq_of_le hnext hend

theorem Geometry.chainEnd_mono (h : ls₀ <+: ls) (off : ℕ) :
    g.chainEnd off ls₀ ≤ g.chainEnd off ls := by
  obtain ⟨rest, rfl⟩ := h
  rw [g.chainEnd_append]
  exact g.le_chainEnd

/-- An image cut after one of its layers is an image. -/
theorem IsImage.truncate (h : IsImage g f ls es) {ls' : List (List ℕ)} {es' : List ℕ}
    (hpre : ls' ++ [es'] <+: ls ++ [es]) :
    IsImage g (f.truncate (g.chainEnd 0 (ls' ++ [es']))) ls' es' := by
  obtain ⟨rest, hrest⟩ := hpre
  have hlayers := h.isChain.layers
  rw [← hrest] at hlayers
  have hpart := (isLayers_append.mp hlayers).1
  have hend := (hpart.chainEnd_le (by simp)).1
  have hpart' : IsLayers g (f.truncate (g.chainEnd 0 (ls' ++ [es']))) 0 (ls' ++ [es']) :=
    hpart.congr (fun a ha => by rw [ByteFile.byte_truncate, if_pos ha]) le_rfl le_rfl
  obtain ⟨hfrozen, hlast⟩ := isLayers_append.mp hpart'
  refine ⟨hfrozen, isLayers_singleton.mp hlast, fun a ha _ => ?_, lt_of_le_of_lt hend h.size_lt⟩
  rw [← g.chainEnd_concat] at ha
  rw [ByteFile.byte_truncate, if_neg (by omega)]

namespace ImageState

variable {st st' st₂ st₃ : ImageState}

/-- The guest writes through the mappings `do_writable_fmmap` made. -/
def write (cfg : Config) (st : ImageState) (i x : ℕ) (b : UInt8) : Except Fault ImageState :=
  match st.session with
  | none => .ok st
  | some (s, _) => (doWritableFmmap cfg st.file s).map fun maps =>
    match maps[i]? with
    | some (MapOp.mmap _ len _ o _) =>
      if x < len then { st with file := st.file.store (o + x) 1 b.toNat } else st
    | _ => st

/-- One event. -/
def step (cfg : Config) (fd : Path) (st : ImageState) : ImageOp → Except Fault ImageState
  | .reopen => (readLastSuper cfg st.file fd).map fun s =>
      { st with session := s.map openLayer }
  | .newBlock n n' faultOff => match st.session with
    | none => .ok st
    | some (s, r) => (Pcow.newBlock cfg st.file s r n n' faultOff).map fun x =>
        ⟨FileOp.run x.2.2.2 st.file, some (x.1, x.2.1)⟩
  | .allocate => match st.session with
    | none => .ok st
    | some (s, r) => if cfg.preAlloc then (Pcow.allocate s r).map fun x =>
        ⟨FileOp.run x.2.2 st.file, some (x.1, x.2.1)⟩ else .ok st
  | .write i x b => st.write cfg i x b
  | .snapshot => (snapshotFile cfg st.file fd).map fun x => ⟨x.1, none⟩
  | .rollback no => (rollbackFile cfg st.file fd no).map fun x => ⟨x.1, none⟩

/-- A history of events, all of which return. -/
def run (cfg : Config) (fd : Path) : ImageState → List ImageOp → Except Fault ImageState
  | st, [] => .ok st
  | st, o :: os => match st.step cfg fd o with
    | .error e => .error e
    | .ok st' => run cfg fd st' os

/-- A history with a first event. -/
theorem run_cons {o : ImageOp} {os : List ImageOp} (hr : run cfg fd st (o :: os) = .ok st') :
    ∃ st₁, st.step cfg fd o = .ok st₁ ∧ run cfg fd st₁ os = .ok st' := by
  rw [run] at hr
  rcases hstep : st.step cfg fd o with e | st₁
  · rw [hstep] at hr
    cases hr
  · rw [hstep] at hr
    exact ⟨st₁, rfl, hr⟩

/-! ### What an event can do -/

/-- The file is an image and the session, if there is one, knows its last
layer. -/
structure Is (st : ImageState) (g : Geometry cfg) (ls : List (List ℕ)) (es : List ℕ) : Prop where
  image : IsImage g st.file ls es
  session : ∀ s r, st.session = some (s, r) → s.Is g (g.chainEnd 0 ls) es.length ∧
    RingInv g st.file (g.chainEnd 0 ls) es.length s r

section Step

variable {o : ImageOp}

/-- What an event does to the layers of an image. -/
inductive Change (g : Geometry cfg) (ls : List (List ℕ)) (es : List ℕ) (f : ByteFile) :
    ImageOp → List (List ℕ) → List ℕ → ByteFile → Prop
  /-- The last layer may change, and nothing below it. -/
  | last {o : ImageOp} {es' : List ℕ} {f' : ByteFile} (ho : o ≠ .snapshot)
      (h : ∀ a < g.chainEnd 0 ls, f'.byte a = f.byte a) : Change g ls es f o ls es' f'
  /-- The last layer is frozen. -/
  | freeze {f' : ByteFile} (h : ∀ a < g.chainEnd 0 (ls ++ [es]), f'.byte a = f.byte a) :
      Change g ls es f .snapshot (ls ++ [es]) [] f'
  /-- The image is cut after layer `no`. -/
  | cut {no : ℤ} {ls' : List (List ℕ)} {es' : List ℕ} {f' : ByteFile} (h₁ : 1 ≤ no)
      (h₂ : no ≤ ls.length + 1) (h : ls' ++ [es'] = (ls ++ [es]).take no.toNat)
      (hf : f' = f.truncate (g.chainEnd 0 (ls' ++ [es']))) :
      Change g ls es f (.rollback no) ls' es' f'

theorem Is.reopen (h : st.Is g ls es) (hr : st.step cfg fd .reopen = .ok st') :
    st'.Is g ls es ∧ st'.file = st.file := by
  rw [step, h.image.readLastSuper fd] at hr
  cases hr
  refine ⟨⟨h.image, fun s r hs => ?_⟩, rfl⟩
  cases hs
  have his : (superOf g fd (g.chainEnd 0 ls) es.length).Is g (g.chainEnd 0 ls) es.length :=
    superOf_is
  exact ⟨openLayer_is his, h.image.last.ringInv_openLayer h.image.size_lt his⟩

theorem Is.newBlock (h : st.Is g ls es) {n n' faultOff : ℕ}
    (hr : st.step cfg fd (.newBlock n n' faultOff) = .ok st') :
    ∃ es', st'.Is g ls es' ∧ ∀ a < g.chainEnd 0 ls, st'.file.byte a = st.file.byte a := by
  rw [step] at hr
  rcases hses : st.session with _ | ⟨s, r⟩
  · rw [hses] at hr
    cases hr
    exact ⟨es, h, fun _ _ => rfl⟩
  rw [hses] at hr
  simp only at hr
  rcases hnb : Pcow.newBlock cfg st.file s r n n' faultOff with e | ⟨s', r', nb, ops⟩
  · rw [hnb] at hr
    cases hr
  rw [hnb] at hr
  cases hr
  obtain ⟨hs, hring⟩ := h.session s r hses
  obtain ⟨himg, hs', -, -, hring', htouch⟩ := h.image.newBlock hs hring hnb
  refine ⟨_, ⟨himg, fun t r'' ht => ?_⟩, fun a ha => ?_⟩
  · cases ht
    rw [List.length_append, List.length_singleton]
    exact ⟨hs', hring'⟩
  · refine FileOp.byte_run_of_not_touches fun o ho ht => ?_
    have := (htouch o ho a ht).mem.1
    omega

theorem Is.allocate (h : st.Is g ls es) (hr : st.step cfg fd .allocate = .ok st') :
    st'.Is g ls es ∧ ∀ a, st'.file.byte a = st.file.byte a := by
  rw [step] at hr
  rcases hses : st.session with _ | ⟨s, r⟩
  · rw [hses] at hr
    cases hr
    exact ⟨h, fun _ => rfl⟩
  rw [hses] at hr
  simp only at hr
  split at hr
  · rename_i hpre
    rcases hal : Pcow.allocate s r with e | ⟨s', r', ops⟩
    · rw [hal] at hr
      cases hr
    rw [hal] at hr
    cases hr
    obtain ⟨hs, hring⟩ := h.session s r hses
    obtain ⟨hring', hsame, hres, -⟩ := (hring hpre).allocate hs hal
    have hbytes : ∀ a, (FileOp.run ops st.file).byte a = st.file.byte a :=
      byte_run_of_isReserve hres
    refine ⟨⟨?_, fun t r'' ht => ?_⟩, hbytes⟩
    · refine h.image.of_last (fun a _ => hbytes a) (h.image.last.congr ?_ fun a _ => hbytes a)
        (fun a ha hap => (hbytes a).trans (h.image.tail a ha hap)) hring'.size_lt
      exact le_trans h.image.endOff_le FileOp.size_le_size_run
    · cases ht
      exact ⟨hs.sameLayer hsame, fun _ => hring'⟩
  · cases hr
    exact ⟨h, fun _ => rfl⟩

/-- A guest write stays inside one data block of the last layer. -/
theorem Is.write (h : st.Is g ls es) {i x : ℕ} {b : UInt8}
    (hr : st.step cfg fd (.write i x b) = .ok st') :
    st'.Is g ls es ∧ ∀ a < g.chainEnd 0 ls, st'.file.byte a = st.file.byte a := by
  rw [step, ImageState.write] at hr
  rcases hses : st.session with _ | ⟨s, r⟩
  · rw [hses] at hr
    cases hr
    exact ⟨h, fun _ _ => rfl⟩
  obtain ⟨hs, hring⟩ := h.session s r hses
  rw [hses] at hr
  simp only at hr
  rw [h.image.last.doWritableFmmap h.image.size_lt hs, Except.map, Except.ok.injEq] at hr
  split at hr
  · rename_i voff len file o w hget
    split at hr
    · rename_i hx
      have hmem := List.mem_of_getElem? hget
      rw [List.mem_flatMap] at hmem
      obtain ⟨j, hj, hmem⟩ := hmem
      rw [List.mem_range] at hj
      rw [List.mem_singleton, MapOp.mmap.injEq] at hmem
      obtain ⟨-, rfl, -, rfl, -⟩ := hmem
      subst hr
      have hbytes : ∀ a, (st.file.store (g.dataOff (g.chainEnd 0 ls) j + x) 1 b.toNat).byte a ≠
          st.file.byte a → a = g.dataOff (g.chainEnd 0 ls) j + x := by
        intro a ha
        by_contra hne
        exact ha (ByteFile.byte_store_of_notMem (by omega))
      have himg : IsImage g (st.file.store (g.dataOff (g.chainEnd 0 ls) j + x) 1 b.toNat) ls es :=
        h.image.write rfl fun a ha =>
          ⟨j, hj, by rw [hbytes a ha]; omega, by rw [hbytes a ha]; omega⟩
      refine ⟨⟨himg, fun t r' ht => ?_⟩, fun a ha => ?_⟩
      · cases ht
        exact ⟨hs, hring.of_size rfl⟩
      · by_contra hne
        have hle : g.chainEnd 0 ls ≤ g.dataOff (g.chainEnd 0 ls) j := Geometry.le_blockAt
        have := hbytes a hne
        omega
    · subst hr
      exact ⟨h, fun _ _ => rfl⟩
  · subst hr
    exact ⟨h, fun _ _ => rfl⟩

/-- **What one event can do** to an image. -/
theorem Is.step (h : st.Is g ls es) (hr : st.step cfg fd o = .ok st') :
    ∃ ls' es', st'.Is g ls' es' ∧ Change g ls es st.file o ls' es' st'.file := by
  cases o with
  | reopen =>
    obtain ⟨h', hfile⟩ := h.reopen hr
    exact ⟨ls, es, h', .last (by simp) fun a _ => by rw [hfile]⟩
  | newBlock n n' faultOff =>
    obtain ⟨es', h', hb⟩ := h.newBlock hr
    exact ⟨ls, es', h', .last (by simp) hb⟩
  | allocate =>
    obtain ⟨h', hb⟩ := h.allocate hr
    exact ⟨ls, es, h', .last (by simp) fun a _ => hb a⟩
  | write i x b =>
    obtain ⟨h', hb⟩ := h.write hr
    exact ⟨ls, es, h', .last (by simp) hb⟩
  | snapshot =>
    obtain ⟨x, hsnap, heq⟩ := map_eq_ok hr
    cases heq
    obtain ⟨-, himg, hb⟩ := h.image.snapshotFile hsnap
    exact ⟨_, _, ⟨himg, fun s r hs => by cases hs⟩, .freeze hb⟩
  | rollback no =>
    rw [ImageState.step, h.image.rollbackFile no] at hr
    cases hr
    by_cases hno : 1 ≤ no ∧ no ≤ ls.length + 1
    · obtain ⟨h₁, h₂⟩ := hno
      obtain ⟨m, rfl⟩ : ∃ m : ℕ, no = (m + 1 : ℕ) := ⟨(no - 1).toNat, by omega⟩
      have hlt : m < (ls ++ [es]).length := by
        rw [List.length_append, List.length_singleton]
        omega
      have htake : (ls ++ [es]).take m ++ [(ls ++ [es])[m]] =
          (ls ++ [es]).take ((m + 1 : ℕ) : ℤ).toNat := by
        rw [List.take_append_getElem hlt, Int.toNat_natCast]
      rw [if_pos ⟨h₁, h₂⟩, ← htake]
      refine ⟨_, _, ⟨h.image.truncate ?_, fun s r hs => by cases hs⟩, .cut h₁ h₂ htake rfl⟩
      rw [htake]
      exact List.take_prefix _ _
    · rw [if_neg hno]
      exact ⟨ls, es, ⟨h.image, fun s r hs => by cases hs⟩, .last (by simp) fun _ _ => rfl⟩

end Step

/-! ### Histories -/

/-- Every history leaves an image. -/
theorem Is.run (h : st.Is g ls es) {os : List ImageOp} (hr : run cfg fd st os = .ok st') :
    ∃ ls' es', st'.Is g ls' es' := by
  induction os generalizing st ls es with
  | nil =>
    cases hr
    exact ⟨ls, es, h⟩
  | cons o os ih =>
    obtain ⟨st₁, hstep, hrest⟩ := run_cons hr
    obtain ⟨ls₁, es₁, h₁, -⟩ := h.step hstep
    exact ih h₁ hrest

/-- **The image keeps the layers `ls₀` of `f`**: they are among its frozen layers,
and no byte of them differs. -/
def Keeps (g : Geometry cfg) (f : ByteFile) (ls₀ : List (List ℕ)) (st : ImageState) : Prop :=
  ∃ ls es, st.Is g ls es ∧ ls₀ <+: ls ∧ ∀ a < g.chainEnd 0 ls₀, st.file.byte a = f.byte a

/-- An event keeps the layers, unless it is a rollback to one of them. -/
theorem Keeps.step (h : st.Keeps g f ls₀) {o : ImageOp}
    (ho : ∀ no, o = .rollback no → (ls₀.length : ℤ) < no)
    (hr : st.step cfg fd o = .ok st') : st'.Keeps g f ls₀ := by
  obtain ⟨ls, es, his, hpre, hbytes⟩ := h
  obtain ⟨ls', es', his', hchange⟩ := his.step hr
  have hle := Geometry.chainEnd_mono hpre (g := g) 0
  cases hchange with
  | last _ hb =>
    exact ⟨ls, es', his', hpre, fun a ha => (hb a (by omega)).trans (hbytes a ha)⟩
  | freeze hb =>
    have hle' := Geometry.chainEnd_mono (g := g) (List.prefix_append ls [es]) 0
    exact ⟨_, _, his', hpre.trans (List.prefix_append _ _), fun a ha =>
      (hb a (by omega)).trans (hbytes a ha)⟩
  | @cut no _ _ _ h₁ h₂ heq hfile =>
    have hno := ho no rfl
    -- the layers kept are a proper part of what is left, so a part of what is frozen
    have hpre' : ls₀ <+: ls' := by
      refine List.prefix_of_prefix_length_le (hpre.trans (List.prefix_append ls [es])) ?_ ?_
      · exact (List.prefix_append ls' [es']).trans (heq ▸ List.take_prefix _ _)
      · have hlen := congrArg List.length heq
        rw [List.length_append, List.length_singleton, List.length_take, List.length_append,
          List.length_singleton] at hlen
        omega
    have hle' := Geometry.chainEnd_mono (g := g) (hpre'.trans (List.prefix_append ls' [es'])) 0
    refine ⟨ls', es', his', hpre', fun a ha => ?_⟩
    rw [hfile, ByteFile.byte_truncate, if_pos (by omega), hbytes a ha]

/-- **What is frozen stays**, in every history without a rollback below it. -/
theorem Keeps.run (h : st.Keeps g f ls₀) {os : List ImageOp}
    (hos : ∀ no, .rollback no ∈ os → (ls₀.length : ℤ) < no)
    (hr : run cfg fd st os = .ok st') : st'.Keeps g f ls₀ := by
  induction os generalizing st with
  | nil =>
    cases hr
    exact h
  | cons o os ih =>
    obtain ⟨st₁, hstep, hrest⟩ := run_cons hr
    refine ih (h.step (fun no hno => hos no ?_) hstep) (fun no hno => hos no ?_) hrest
    · rw [hno]
      exact List.mem_cons_self
    · exact List.mem_cons_of_mem o hno

end ImageState

/-! ### Rollback restores the snapshot -/

/-- Two files that hold the same layers are mapped in the same way. -/
theorem IsLayers.doReadonlyFmmap_eq (h : IsLayers g f off ls) (h' : IsLayers g f' off ls)
    (hf : f.size < 2 ^ 63) (hf' : f'.size < 2 ^ 63) {s : Super} (hs : s ∈ supersOf g fd off ls) :
    doReadonlyFmmap cfg f s = doReadonlyFmmap cfg f' s := by
  induction ls generalizing off with
  | nil => cases hs
  | cons es ls ih =>
    rcases List.mem_cons.mp hs with rfl | hs
    · rw [h.1.doReadonlyFmmap hf superOf_is, h'.1.doReadonlyFmmap hf' superOf_is]
    · exact ih h.2 h'.2 hs

/-- **Rollback restores the snapshot.** Let `L` be the layers of an image after any
history that began on an empty file. A number that is not one of theirs leaves the
file as it is. A snapshot freezes the last of them; whatever is done to the image
afterwards, short of a rollback to one of the layers `L`, a rollback to the number
of the snapshot brings back the file as the snapshot left it, up to the end of the
last frozen layer, with the layers `L` and their entries. -/
theorem rollback_restores (cfg : Config) (fs fs₀ : Fs) (name : Path) (blockSize : ℤ)
    (maxSize : ℕ) (base : Option CString) (f₀ : ByteFile) (ops₁ : List ImageOp)
    (st₁ : ImageState) (hempty : (fs name).getD .empty = .empty)
    (hnew : newImage cfg fs name blockSize maxSize base = .ok (fs₀, 0))
    (hf₀ : fs₀ name = some f₀) (h₁ : ImageState.run cfg name ⟨f₀, none⟩ ops₁ = .ok st₁) :
    ∃ (L : List Super) (hL : L ≠ []), supers cfg st₁.file name = .ok L ∧
      (∀ no : ℤ, no < 1 ∨ (L.length : ℤ) < no →
        rollbackFile cfg st₁.file name no = .ok (st₁.file, 0)) ∧
      ∀ st₂, st₁.step cfg name .snapshot = .ok st₂ →
        (∃ t, supers cfg st₂.file name = .ok (L ++ [t])) ∧
        ∀ ops₂ st₃, (∀ no, .rollback no ∈ ops₂ → (L.length : ℤ) < no) →
          ImageState.run cfg name st₂ ops₂ = .ok st₃ →
          ∃ f₄, rollbackFile cfg st₃.file name L.length = .ok (f₄, 0) ∧
            f₄ = st₂.file.truncate ((L.getLast hL).endOff st₂.file) ∧
            supers cfg f₄ name = .ok L ∧
            ∀ s ∈ L, doReadonlyFmmap cfg f₄ s = doReadonlyFmmap cfg st₂.file s := by
  obtain ⟨g, f, rfl, -, himg, -, -, -⟩ := isImage_newImage hempty hnew
  rw [Function.update_self, Option.some.injEq] at hf₀
  subst hf₀
  have his₀ : ImageState.Is ⟨f, none⟩ g [] [] := ⟨himg, fun s r hs => by cases hs⟩
  obtain ⟨ls, es, his₁⟩ := his₀.run h₁
  have hlen : (supersOf g name 0 (ls ++ [es])).length = ls.length + 1 := by
    rw [length_supersOf, List.length_append, List.length_singleton]
  have hlast : supersOf g name 0 (ls ++ [es]) =
      supersOf g name 0 ls ++ [superOf g name (g.chainEnd 0 ls) es.length] := supersOf_append
  refine ⟨supersOf g name 0 (ls ++ [es]), by rw [hlast]; simp, his₁.image.supers name,
    fun no hno => ?_, fun st₂ hsnap => ?_⟩
  · rw [his₁.image.rollbackFile no, if_neg (by omega)]
  obtain ⟨ls₂, es₂, his₂, hchange⟩ := his₁.step hsnap
  generalize hf₂ : st₂.file = f₂ at hchange
  cases hchange with
  | last ho => exact absurd rfl ho
  | freeze hbytes =>
    refine ⟨⟨superOf g name (g.chainEnd 0 (ls ++ [es])) 0, ?_⟩, fun ops₂ st₃ hops₂ h₂ => ?_⟩
    · rw [← hf₂, his₂.image.supers name, supersOf_append]
      rfl
    have hkeep : st₂.Keeps g st₂.file (ls ++ [es]) :=
      ⟨_, _, his₂, List.prefix_rfl, fun _ _ => rfl⟩
    obtain ⟨ls₃, es₃, his₃, hpre, hbytes₃⟩ := hkeep.run
      (fun no hno => by have := hops₂ no hno; rw [length_supersOf] at this; exact this) h₂
    -- what the rollback leaves is the part of the last state below the cut
    obtain ⟨rest, hrest⟩ := hpre
    have htake : (ls₃ ++ [es₃]).take (ls.length + 1) = ls ++ [es] := by
      rw [← hrest, List.append_assoc, List.take_left' (by simp)]
    have hroll : rollbackFile cfg st₃.file name (ls.length + 1 : ℕ) =
        .ok (st₃.file.truncate (g.chainEnd 0 (ls ++ [es])), 0) := by
      have hle := congrArg List.length hrest
      rw [List.length_append, List.length_append, List.length_singleton] at hle
      rw [his₃.image.rollbackFile, if_pos (by omega), Int.toNat_natCast, htake]
    have hfile : st₃.file.truncate (g.chainEnd 0 (ls ++ [es])) =
        st₂.file.truncate (g.chainEnd 0 (ls ++ [es])) := by
      ext a
      · rfl
      · rw [ByteFile.byte_truncate, ByteFile.byte_truncate]
        split
        · rename_i ha
          rw [hbytes₃ a ha]
        · rfl
    have hlayers : IsLayers g st₂.file 0 (ls ++ [es]) := his₂.image.frozen
    have hend : ((supersOf g name 0 (ls ++ [es])).getLast (by rw [hlast]; simp)).endOff st₂.file =
        g.chainEnd 0 (ls ++ [es]) := by
      simp only [hlast, List.getLast_append_singleton]
      rw [(isLayers_singleton.mp (isLayers_append.mp hlayers).2).endOff his₂.image.size_lt
        superOf_is, g.chainEnd_concat]
    have hcut : IsImage g (st₂.file.truncate (g.chainEnd 0 (ls ++ [es]))) ls es :=
      his₂.image.truncate (List.prefix_append _ _)
    refine ⟨_, by rw [hlen]; exact hroll, ?_, ?_, fun s hs => ?_⟩
    · rw [hfile, ← hf₂, hend]
    · rw [hfile]
      exact hcut.supers name
    · rw [hfile, ← hf₂]
      exact hcut.isChain.layers.doReadonlyFmmap_eq hlayers hcut.size_lt his₂.image.size_lt hs

/-- A computation that returns after another one. -/
theorem exists_of_bind {ε α β : Type} {x : Except ε α} {F : α → Except ε β} {y : β}
    (h : x.bind F = .ok y) : ∃ a, x = .ok a ∧ F a = .ok y := by
  cases x with
  | error e => cases h
  | ok a => exact ⟨a, rfl, h⟩

/-- A computation on the file of a new image. Its blocks are of 4 KiB, and it is for a disk of 1
MiB. -/
theorem exists_onNewImage {α : Type} {F : ByteFile → Except Fault α} {y : α}
    (h : ((newImage .shipped (fun _ => none) [] (4 * (1 : ℕ)) 1 none).bind fun x =>
      F ((x.1 []).getD .empty)) = .ok y) :
    ∃ fs₀ f₀, newImage Config.shipped (fun _ => none) [] (4 * (1 : ℕ)) 1 none = .ok (fs₀, 0) ∧
      fs₀ [] = some f₀ ∧ F f₀ = .ok y := by
  obtain ⟨fs₀, hnew⟩ :=
    exists_newImage .shipped (fun _ => none) [] 1 rfl Nat.one_pos (by norm_num)
  obtain ⟨g, f₀, rfl, -⟩ := isImage_newImage rfl hnew
  rw [hnew] at h
  obtain ⟨x, hx, hF⟩ := exists_of_bind h
  cases hx
  dsimp only at hF
  rw [Function.update_self] at hF
  exact ⟨_, f₀, hnew, Function.update_self _ _ _, hF⟩

/-- What is done to an image before the snapshot: the guest writes the byte 7 to the first block. -/
def beforeSnapshot : List ImageOp := [.reopen, .newBlock 2 1 0, .write 0 5 7]

/-- And after it: the block is written again in another layer, which a second snapshot freezes. -/
def afterSnapshot : List ImageOp :=
  [.reopen, .newBlock 2 1 0, .newBlock 1 1 4096, .write 0 5 8, .snapshot, .reopen,
    .newBlock 2 1 8192]

/-- The way back to a snapshot, past a second one: the byte that was written before it is in its
place. -/
theorem rollback_restores_back : ∃ fs₀ f₀ st₁ st₂ st₃ L f₄,
    newImage Config.shipped (fun _ => none) [] (4 * (1 : ℕ)) 1 none = .ok (fs₀, 0) ∧
      fs₀ [] = some f₀ ∧
      ImageState.run Config.shipped [] ⟨f₀, none⟩ beforeSnapshot = .ok st₁ ∧
      st₁.step Config.shipped [] .snapshot = .ok st₂ ∧
      ImageState.run Config.shipped [] st₂ afterSnapshot = .ok st₃ ∧
      supers Config.shipped st₁.file [] = .ok L ∧
      rollbackFile Config.shipped st₃.file [] L.length = .ok (f₄, 0) ∧
      supers Config.shipped f₄ [] = .ok L ∧ f₄.byte 8197 = 7 := by
  obtain ⟨fs₀, f₀, hnew, hf₀, hF⟩ := @exists_onNewImage _ (fun f =>
    (ImageState.run .shipped [] ⟨f, none⟩ beforeSnapshot).bind fun st₁ =>
      (st₁.step .shipped [] .snapshot).bind fun st₂ =>
        (ImageState.run .shipped [] st₂ afterSnapshot).bind fun st₃ =>
          (supers .shipped st₁.file []).bind fun L =>
            (rollbackFile .shipped st₃.file [] L.length).bind fun y => .ok (y.1.byte 8197)) 7
    (by decide +kernel)
  obtain ⟨st₁, hr₁, hF⟩ := exists_of_bind hF
  obtain ⟨st₂, hr₂, hF⟩ := exists_of_bind hF
  obtain ⟨st₃, hr₃, hF⟩ := exists_of_bind hF
  obtain ⟨L', hL', hF⟩ := exists_of_bind hF
  obtain ⟨y, hy, hbyte⟩ := exists_of_bind hF
  obtain ⟨L, hne, hL, -, hall⟩ := rollback_restores .shipped (fun _ => none) _ [] (4 * (1 : ℕ)) 1
    none f₀ beforeSnapshot st₁ rfl hnew hf₀ hr₁
  obtain rfl := Except.ok.inj (hL.symm.trans hL')
  obtain ⟨f₄, hroll, -, hchain, -⟩ :=
    (hall _ hr₂).2 afterSnapshot st₃ (fun no hno => by simp [afterSnapshot] at hno) hr₃
  rw [hroll] at hy
  cases hy
  exact ⟨fs₀, f₀, st₁, st₂, st₃, L, f₄, hnew, hf₀, hr₁, hr₂, hr₃, hL, hroll, hchain,
    Except.ok.inj hbyte⟩

end Pcow
