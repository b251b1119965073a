import Pcow.Create
import Pcow.Exit

/-!
# Blocks allocated ahead, and blocks allocated on demand

With `PRE_ALLOC` a call of `new_block` takes its blocks from the ring, which a thread fills by
numbers it has read without a lock; without it a call allocates them itself. `newBlock_refines`
compares the two: whatever the order of the steps of the threads, the calls that have returned got
the blocks that the plain `new_block` hands out to the same calls, one after the other, and when no
call is in progress the file has the bytes that the plain calls leave, and the super block the same
active meta block.

The comparison is a simulation. While a call is in progress the bytes of the file are those of the
plain file with a part of the stores of the plain call (`CallPc.Mirrors`).

It leaves out one step of the thread. A call that opens a segment frees the struct of the active
meta block before it stores the pointer to the new one, and the thread may read the counter of the
freed struct in between (`Threads.staleStep`). What it reads may make the ring look empty when it is
full, and the thread then overwrites a block that has not been taken (`overwritten_slot`).
-/

namespace Pcow

variable {cfg : Config} {g : Geometry cfg} {f f' : ByteFile} {off k v : ℕ} {s s' : Super}
  {es : List ℕ}

/-! ### The plain calls -/

/-- Calls of the plain `new_block`, one after the other: the file and the super block they leave,
and the blocks they hand out. -/
def plainRun (cfg : Config) (f : ByteFile) (s : Super) :
    List ℕ → Except Fault (ByteFile × Super × List NewBlock)
  | [] => .ok (f, s, [])
  | v :: vs => match newBlockPlain cfg f s v with
    | .error e => .error e
    | .ok (s', nb, ops) =>
      (plainRun cfg (FileOp.run ops f) s' vs).map fun x => (x.1, x.2.1, nb :: x.2.2)

theorem plainRun_concat {vs : List ℕ} {x : ByteFile × Super × List NewBlock}
    (h : plainRun cfg f s (vs ++ [v]) = .ok x) :
    ∃ y s' nb ops, plainRun cfg f s vs = .ok y ∧ newBlockPlain cfg y.1 y.2.1 v = .ok (s', nb, ops) ∧
      x = (FileOp.run ops y.1, s', y.2.2 ++ [nb]) := by
  induction vs generalizing f s x with
  | nil =>
    rw [List.nil_append, plainRun] at h
    rcases hnb : newBlockPlain cfg f s v with e | ⟨s', nb, ops⟩
    · rw [hnb] at h
      cases h
    · rw [hnb] at h
      cases h
      exact ⟨(f, s, []), s', nb, ops, rfl, hnb, rfl⟩
  | cons u vs ih =>
    rw [List.cons_append, plainRun] at h
    rcases hnb : newBlockPlain cfg f s u with e | ⟨s₁, nb₁, ops₁⟩
    · rw [hnb] at h
      cases h
    rw [hnb] at h
    simp only at h
    rcases hrest : plainRun cfg (FileOp.run ops₁ f) s₁ (vs ++ [v]) with e | z
    · rw [hrest] at h
      cases h
    rw [hrest] at h
    cases h
    obtain ⟨y, s', nb, ops, hy, hlast, rfl⟩ := ih hrest
    refine ⟨(y.1, y.2.1, nb₁ :: y.2.2), s', nb, ops, ?_, hlast, rfl⟩
    rw [plainRun, hnb]
    simp only [hy]
    rfl

/-- **What plain calls leave**: the layer has one more entry for each of them, and the blocks handed
out are its data blocks. -/
theorem plainRun_spec {vs : List ℕ} {P : ByteFile} {sP : Super} {nbs : List NewBlock}
    (h : IsLayer g f off es) (hf : f.size < 2 ^ 63) (hs : s.Is g off es.length)
    (hr : plainRun cfg f s vs = .ok (P, sP, nbs)) :
    g.endOff off (es.length + vs.length) ≤ P.size ∧ P.size < 2 ^ 63 ∧
      sP.Is g off (es.length + vs.length) ∧
      nbs = (List.range vs.length).map fun i => ⟨g.dataOff off (es.length + i)⟩ := by
  induction vs generalizing f s es nbs with
  | nil =>
    cases hr
    exact ⟨h.size_le, hf, hs, rfl⟩
  | cons v vs ih =>
    have hend : g.endOff off es.length < 2 ^ 63 := lt_of_le_of_lt h.size_le hf
    rw [plainRun] at hr
    rcases hnb : newBlockPlain cfg f s v with e | ⟨s₁, nb, ops⟩
    · rw [hnb] at hr
      cases hr
    rw [hnb] at hr
    simp only at hr
    obtain ⟨hcap, hend'⟩ := hs.room_of_newBlockPlain hend hnb
    obtain ⟨s₂, ops₂, heq, hs₂, -, happ, hsz⟩ := h.newBlockPlain hf hs hcap hend' v
    rw [hnb, Except.ok.injEq, Prod.mk.injEq, Prod.mk.injEq] at heq
    obtain ⟨rfl, rfl, rfl⟩ := heq
    rcases hrest : plainRun cfg (FileOp.run ops f) s₁ vs with e | ⟨P₁, sP₁, nbs₁⟩
    · rw [hrest] at hr
      cases hr
    rw [hrest] at hr
    cases hr
    have hlen : (es ++ [g.blockOf v]).length = es.length + 1 := by simp
    have hs₁ : s₁.Is g off (es ++ [g.blockOf v]).length := by rwa [hlen]
    obtain ⟨h₁, h₂, h₃, rfl⟩ := ih happ.layer (by rw [hsz]; exact max_lt hf hend') hs₁ hrest
    rw [hlen] at h₁ h₃
    rw [List.length_cons, show es.length + (vs.length + 1) = es.length + 1 + vs.length by omega]
    refine ⟨h₁, h₂, h₃, ?_⟩
    rw [List.range_succ_eq_map, List.map_cons, List.map_map, hlen]
    congr 1
    refine List.map_congr_left fun i _ => ?_
    simp only [Function.comp]
    congr 2
    omega

/-- **Plain calls return** while the layer is below its capacity and the file may grow. -/
theorem exists_plainRun {vs : List ℕ} (h : IsLayer g f off es) (hf : f.size < 2 ^ 63)
    (hs : s.Is g off es.length) (hcap : es.length + vs.length ≤ g.cap)
    (hend : g.endOff off (es.length + vs.length) < 2 ^ 63) : ∃ x, plainRun cfg f s vs = .ok x := by
  induction vs generalizing f s es with
  | nil => exact ⟨_, rfl⟩
  | cons v vs ih =>
    rw [List.length_cons] at hcap hend
    have hend' : g.endOff off (es.length + 1) < 2 ^ 63 :=
      lt_of_le_of_lt (g.blockAt_mono off (g.blocks_mono (by omega))) hend
    obtain ⟨s₁, ops, hnb, hs₁, -, happ, hsz⟩ := h.newBlockPlain hf hs (by omega) hend' v
    have hlen : (es ++ [g.blockOf v]).length = es.length + 1 := by simp
    obtain ⟨x, hx⟩ := ih happ.layer (by rw [hsz]; exact max_lt hf hend') (by rwa [hlen])
      (by omega) (by rwa [hlen, show es.length + 1 + vs.length = es.length +
        (vs.length + 1) by omega])
    rw [plainRun, hnb]
    simp only [hx]
    exact ⟨_, rfl⟩

/-- The stores of a plain call in a segment that has room. -/
theorem newBlockPlain_active {x : Super × NewBlock × List FileOp}
    (hlt : s.activeMeta.counter < s.maxPerSeg) (hr : newBlockPlain cfg f s v = .ok x) :
    x.2.2 = [.fallocate s.nextOff (u64 s.blockSize)] ++
      appendOps cfg (FileOp.run [.fallocate s.nextOff (u64 s.blockSize)] f) s.activeMeta
        (entryOf s v) true := by
  rw [newBlockPlain] at hr
  simp only [if_pos hlt] at hr
  split_ifs at hr
  cases hr
  rfl

/-- The stores of a plain call that opens a segment. -/
theorem newBlockPlain_full {x : Super × NewBlock × List FileOp}
    (hge : ¬s.activeMeta.counter < s.maxPerSeg) (hr : newBlockPlain cfg f s v = .ok x) :
    ∃ ops₁, ops₁ = [.fallocate s.nextOff (u64 s.blockSize)] ++ newMetaOps cfg s.nextOff ++
        [.fallocate (u64 (s.nextOff + s.blockSize)) (u64 s.blockSize)] ∧
      x.2.2 = ops₁ ++ appendOps cfg (FileOp.run ops₁ f) ⟨s.nextOff, 0⟩ (entryOf s v) true ++
        rollOverOps s := by
  rw [newBlockPlain] at hr
  simp only [if_neg hge] at hr
  split_ifs at hr
  cases hr
  exact ⟨_, rfl, rfl⟩

/-! ### Stores to files with the same bytes -/

/-- Whether the slot is flushed makes no difference to the contents. -/
theorem run_entryOps_flushed {m : Meta} {b : Bool} :
    FileOp.run (entryOps cfg m v b) f = FileOp.run (entryOps cfg m v true) f := by
  cases b with
  | true => rfl
  | false => simp [entryOps]

theorem byte_run_entryOps_congr {m : Meta} {b : Bool} (hb : f.byte = f'.byte)
    (h : slotOff cfg m + cfg.entrySize ≤ f.size) (h' : slotOff cfg m + cfg.entrySize ≤ f'.size) :
    (FileOp.run (entryOps cfg m v b) f).byte = (FileOp.run (entryOps cfg m v true) f').byte := by
  rw [run_entryOps_flushed]
  refine FileOp.byte_run_congr hb fun o ho x hx => ?_
  obtain ⟨h₁, h₂⟩ := touches_entryOps ho hx
  omega

theorem byte_run_counterOps_congr {m m' : Meta} (hm : m.pmTop = m'.pmTop) (hb : f.byte = f'.byte)
    (h : m.pmTop + 4 ≤ f.size) (h' : m.pmTop + 4 ≤ f'.size) :
    (FileOp.run (counterOps f m) f).byte = (FileOp.run (counterOps f' m') f').byte := by
  have hload : f.loadInt m.pmTop = f'.loadInt m.pmTop :=
    ByteFile.loadInt_congr fun x _ _ => congrFun hb x
  rw [counterOps, counterOps, ← hm, hload]
  refine FileOp.byte_run_congr hb fun o ho x hx => ?_
  simp only [List.mem_cons, List.not_mem_nil, or_false] at ho
  rcases ho with rfl | rfl | rfl
  · obtain ⟨h₁, h₂⟩ : m.pmTop ≤ x ∧ x < m.pmTop + 4 := hx
    omega
  · exact hx.elim
  · exact hx.elim

theorem byte_run_appendOps_congr {m : Meta} (hb : f.byte = f'.byte)
    (hs : slotOff cfg m + cfg.entrySize ≤ f.size) (hs' : slotOff cfg m + cfg.entrySize ≤ f'.size)
    (h : m.pmTop + 4 ≤ f.size) (h' : m.pmTop + 4 ≤ f'.size) :
    (FileOp.run (appendOps cfg f m v true) f).byte =
      (FileOp.run (appendOps cfg f' m v true) f').byte := by
  rw [appendOps, appendOps, FileOp.run_append, FileOp.run_append]
  refine byte_run_counterOps_congr rfl (byte_run_entryOps_congr hb hs hs') ?_ ?_
  · rw [size_run_entryOps]
    exact h
  · rw [size_run_entryOps]
    exact h'

theorem byte_run_newMetaOps_congr {m : ℕ} (hb : f.byte = f'.byte) (h : m + 8 ≤ f.size)
    (h' : m + 8 ≤ f'.size) :
    (FileOp.run (newMetaOps cfg m) f).byte = (FileOp.run (newMetaOps cfg m) f').byte := by
  refine FileOp.byte_run_congr hb fun o ho x hx => ?_
  obtain ⟨h₁, h₂⟩ := touches_newMetaOps ho hx
  omega

theorem byte_run_rollOverOps_congr (hb : f.byte = f'.byte) (h : s.myOff + 12 ≤ f.size)
    (h' : s.myOff + 12 ≤ f'.size) :
    (FileOp.run (rollOverOps s) f).byte = (FileOp.run (rollOverOps s) f').byte := by
  refine FileOp.byte_run_congr hb fun o ho x hx => ?_
  simp only [rollOverOps, List.mem_cons, List.not_mem_nil, or_false] at ho
  rcases ho with rfl | rfl | rfl
  · obtain ⟨h₁, h₂⟩ : s.myOff + 8 ≤ x ∧ x < s.myOff + 8 + 4 := hx
    omega
  · exact hx.elim
  · exact hx.elim

/-! ### Where the stores go -/

/-- The slot of the next entry and the counter of the active meta block lie inside the layer, while
the segment has room. -/
theorem Super.Is.slot_le (hs : s.Is g off k) (hlt : k - g.lastSeg k * g.perSeg < g.perSeg)
    (hend : g.endOff off k < 2 ^ 63) : slotOff cfg s.activeMeta + cfg.entrySize ≤ g.endOff off k ∧
      s.activeMeta.pmTop + 4 ≤ g.endOff off k := by
  have htop : g.blockAt off (g.metaBlock (g.lastSeg k)) + g.blockSize ≤ g.endOff off k :=
    Geometry.blockAt_add_le _ (g.metaBlock_lt le_rfl)
  have hmem := (g.slot_mem off k).2
  have hentry := g.entry_le
  rw [(g.lastSeg_succ_of_lt hlt).2.1, Geometry.slot_of_lt hlt] at hmem
  rw [hs.activeMeta, slotOff_eq rfl (by simp only; omega)]
  simp only
  omega

/-- The same for the new meta block of a segment to be opened. -/
theorem Geometry.newMeta_le (g : Geometry cfg) {n : ℕ} (hend : n < 2 ^ 63) :
    slotOff cfg ⟨n, 0⟩ + cfg.entrySize ≤ n + g.blockSize ∧ n + 8 ≤ n + g.blockSize := by
  have hentry := g.entry_le
  have hslot : slotOff cfg ⟨n, 0⟩ = n + 64 + cfg.entrySize * 0 :=
    slotOff_eq (c := 0) rfl (by simp only; omega)
  rw [hslot]
  omega

/-! ### The simulation -/

/-- The plain file with the top of a new meta block, and room for the two blocks of the call. -/
def withMeta (cfg : Config) (P : ByteFile) (s : Super) : ByteFile :=
  FileOp.run (newMetaOps cfg s.nextOff) (P.reserve s.nextOff (2 * u64 s.blockSize))

theorem size_withMeta {P : ByteFile} :
    (withMeta cfg P s).size = max P.size (s.nextOff + 2 * u64 s.blockSize) := by
  rw [withMeta, size_run_newMetaOps, ByteFile.size_reserve]

/-- The bytes a plain call leaves, in a segment that has room. -/
theorem byte_newBlockPlain_active (hs : s.Is g off k)
    (hlt : k - g.lastSeg k * g.perSeg < g.perSeg) (hsize : g.endOff off k ≤ f.size)
    (hend : g.endOff off k < 2 ^ 63) {x : Super × NewBlock × List FileOp}
    (hx : newBlockPlain cfg f s v = .ok x) : (FileOp.run x.2.2 f).byte =
      (FileOp.run (appendOps cfg f s.activeMeta (entryOf s v) true) f).byte := by
  have hcounter := hs.counter
  have hper := hs.maxPerSeg
  obtain ⟨hslot, htop⟩ := hs.slot_le hlt hend
  rw [newBlockPlain_active (by omega) hx, FileOp.run_append]
  have hsize' : g.endOff off k ≤ (FileOp.run [.fallocate s.nextOff (u64 s.blockSize)] f).size :=
    hsize.trans FileOp.size_le_size_run
  have hbyte : (FileOp.run [.fallocate s.nextOff (u64 s.blockSize)] f).byte = f.byte := rfl
  exact byte_run_appendOps_congr hbyte (hslot.trans hsize') (hslot.trans hsize)
    (htop.trans hsize') (htop.trans hsize)

/-- The bytes a plain call leaves that opens a segment. -/
theorem byte_newBlockPlain_full (hs : s.Is g off k)
    (hfull : k - g.lastSeg k * g.perSeg = g.perSeg) (hend : g.endOff off k < 2 ^ 63)
    {x : Super × NewBlock × List FileOp} (hx : newBlockPlain cfg f s v = .ok x) :
    (FileOp.run x.2.2 f).byte = (FileOp.run (rollOverOps s) (FileOp.run
      (appendOps cfg (withMeta cfg f s) ⟨s.nextOff, 0⟩ (entryOf s v) true)
      (withMeta cfg f s))).byte := by
  have hcounter := hs.counter
  have hper := hs.maxPerSeg
  have hnext : s.nextOff = g.endOff off k := hs.nextOff (by omega)
  have hu : u64 s.blockSize = g.blockSize := hs.u64_blockSize
  have hmy := hs.myOff
  have hfirst := g.add_blockSize_le_endOff off k
  have hentry := g.entry_le
  obtain ⟨ops₁, hops₁, hops⟩ := newBlockPlain_full (by omega) hx
  obtain ⟨hslot, htop⟩ := g.newMeta_le (n := s.nextOff) (by omega)
  have hinit : s.nextOff + g.blockSize ≤
      (FileOp.run [.fallocate s.nextOff (u64 s.blockSize)] f).size := by
    rw [FileOp.run_cons, FileOp.run_nil, FileOp.exec_fallocate, ByteFile.size_reserve, hu]
    exact le_max_right _ _
  have hsize : s.nextOff + g.blockSize ≤ (FileOp.run ops₁ f).size := by
    rw [hops₁, List.append_assoc, FileOp.run_append]
    exact hinit.trans FileOp.size_le_size_run
  have hsize' : s.nextOff + g.blockSize ≤ (withMeta cfg f s).size := by
    rw [size_withMeta, hu]
    omega
  -- the blocks are reserved at once or one by one
  have hbyte : (FileOp.run ops₁ f).byte = (withMeta cfg f s).byte := by
    have hres : (f.reserve s.nextOff (2 * u64 s.blockSize)).size =
        max f.size (s.nextOff + 2 * u64 s.blockSize) := rfl
    rw [hops₁, FileOp.run_append, FileOp.run_append, withMeta]
    exact byte_run_newMetaOps_congr rfl (htop.trans hinit) (by rw [hres, hu]; omega)
  rw [hops, FileOp.run_append, FileOp.run_append]
  refine byte_run_rollOverOps_congr (byte_run_appendOps_congr hbyte (hslot.trans hsize)
    (hslot.trans hsize') ?_ ?_) ?_ ?_
  · simp only
    omega
  · simp only
    omega
  · rw [size_run_appendOps]
    omega
  · rw [size_run_appendOps]
    omega

/-- **The bytes of the file while a call is in progress**: those of the plain file `P`, with the
stores of the plain call that have been made. The file `P'` is that after the plain call. -/
def CallPc.Mirrors (cfg : Config) (P P' : ByteFile) (s : Super) (v : ℕ) (file : ByteFile) :
    CallPc → Prop
  | wait | entry _ | waitMeta | initMeta _ => file.byte = P.byte
  | count _ | commit _ =>
    file.byte = (FileOp.run (entryOps cfg s.activeMeta (entryOf s v) true) P).byte
  | waitData _ | entryNew _ _ => file.byte = (withMeta cfg P s).byte
  | setMeta _ _ | setNum _ | setOff _ | commitSuper _ =>
    file.byte = (FileOp.run (appendOps cfg (withMeta cfg P s) ⟨s.nextOff, 0⟩ (entryOf s v) true)
      (withMeta cfg P s)).byte
  | ret _ => file.byte = P'.byte

/-- The number of blocks the thread has reserved and not counted yet. -/
def AllocPc.pending : AllocPc → ℕ
  | fill _ | publish _ => 1
  | _ => 0

namespace Threads

variable {st st' : Threads} {P : ByteFile} {sP : Super}

/-- **The file holds the blocks of the ring**, as far as their offsets are file offsets. -/
structure Reserved (g : Geometry cfg) (off k : ℕ) (st : Threads) : Prop where
  le_size : ∀ q ≤ st.taken g k + st.ring.nbAvailable + st.alloc.pending,
    g.blockAt off q < 2 ^ 63 → g.blockAt off q ≤ st.file.size
  size_lt : st.file.size < 2 ^ 63

/-- **The threads are at the plain file `P`**: with the part of a plain call that the call in
progress has made, if the plain call returns. -/
def At (cfg : Config) (P : ByteFile) (sP : Super) (st : Threads) : Prop :=
  match st.call with
  | none => st.file.byte = P.byte
  | some c => ∀ x, newBlockPlain cfg P sP c.faultOff = .ok x →
      c.pc.Mirrors cfg P (FileOp.run x.2.2 P) sP c.faultOff st.file

/-- The thread reserves blocks, and stores nothing. -/
theorem allocStep_byte (hr : st.allocStep = some st') : st'.file.byte = st.file.byte ∧
    st.file.size ≤ st'.file.size := by
  rw [Threads.allocStep] at hr
  cases halloc : st.alloc <;> rw [halloc] at hr <;> simp only at hr <;> (try split_ifs at hr) <;>
    cases hr <;> refine ⟨rfl, ?_⟩ <;> first | exact le_rfl | exact le_max_left _ _

theorem At.allocStep (h : At cfg P sP st) (hr : st.allocStep = some st') : At cfg P sP st' := by
  obtain ⟨hcall, -, -⟩ := allocStep_keeps hr
  obtain ⟨hbyte, -⟩ := allocStep_byte hr
  rw [At] at h ⊢
  rw [hcall]
  rcases hc : st.call with _ | c
  · rw [hc] at h
    exact hbyte.trans h
  · rw [hc] at h
    intro x hx
    have := h x hx
    cases hpc : c.pc <;> rw [hpc] at this <;> exact hbyte.trans this

theorem Reserved.allocStep (h : Reserved g off k st) (hsafe : Safe g off k st)
    (hr : st.allocStep = some st') : Reserved g off k st' := by
  obtain ⟨hcall, -, -⟩ := allocStep_keeps hr
  have htaken : st'.taken g k = st.taken g k := by rw [taken, hcall, taken]
  have hbs := hsafe.callOk.sees.blockSize
  have hu := hsafe.callOk.sees.u64_blockSize
  have hpos := g.blockSize_pos
  rw [Threads.allocStep] at hr
  have hle := h.le_size
  cases halloc : st.alloc with
  | reserve =>
    rw [halloc] at hr hle
    obtain ⟨hoff, hlt⟩ := hsafe.offOk.eq (by simp [halloc]) (by rw [halloc]; rfl)
    simp only at hr
    split_ifs at hr with hf
    · cases hr
      have hroom := hf.2
      rw [hbs] at hroom
      refine ⟨fun q hq hqlt => ?_, ?_⟩
      · simp only [ByteFile.size_reserve, hu]
        have hmono : g.blockAt off q ≤ g.blockAt off (st.taken g k + st.ring.nbAvailable + 1) :=
          g.blockAt_mono off hq
        rw [Geometry.blockAt_succ, ← hoff] at hmono
        exact le_trans hmono (le_max_right _ _)
      · simp only [ByteFile.size_reserve, hu]
        have := h.size_lt
        exact max_lt this (by omega)
    · cases hr
      refine ⟨fun q hq hqlt => ?_, h.size_lt⟩
      rcases Nat.lt_or_ge (st.taken g k + st.ring.nbAvailable) q with hgt | hle'
      · -- the block that `fallocate` refused is past the last file offset
        exfalso
        have hmono : g.blockAt off (st.taken g k + st.ring.nbAvailable + 1) ≤ g.blockAt off q :=
          g.blockAt_mono off hgt
        rw [Geometry.blockAt_succ, ← hoff] at hmono
        refine hf ⟨?_, ?_⟩ <;> rw [hbs] <;> omega
      · exact hle q (by simpa [AllocPc.pending] using hle') hqlt
  | publish ok =>
    rw [halloc] at hr hle
    cases hr
    refine ⟨fun q hq hqlt => hle q ?_ hqlt, h.size_lt⟩
    simp only [AllocPc.pending, Nat.add_zero] at hq ⊢
    rw [htaken] at hq
    omega
  | advance ok =>
    rw [halloc] at hr hle
    cases hr
    refine ⟨fun q hq hqlt => hle q ?_ hqlt, h.size_lt⟩
    cases ok <;> exact hq
  | haveCur cur =>
    rw [halloc] at hr hle
    simp only at hr
    split_ifs at hr <;> cases hr <;> exact ⟨hle, h.size_lt⟩
  | haveNum n num =>
    rw [halloc] at hr hle
    simp only at hr
    split_ifs at hr <;> cases hr <;> exact ⟨hle, h.size_lt⟩
  | exited =>
    rw [halloc] at hr
    cases hr
  | dead =>
    rw [halloc] at hr
    cases hr
  | _ =>
    rw [halloc] at hr hle
    cases hr
    exact ⟨hle, h.size_lt⟩

/-- A call reserves nothing. -/
theorem callStep_size (hr : st.callStep cfg = some st') : st'.file.size = st.file.size := by
  have htake : ∀ {c : Call} {next : NewBlock → CallPc}, st.takeStep c next = some st' →
      st'.file.size = st.file.size := by
    intro c next hstep
    rw [Threads.takeStep] at hstep
    split_ifs at hstep
    cases hstep
    rfl
  rw [callStep] at hr
  rcases hc : st.call with _ | c
  · rw [hc] at hr
    cases hr
  rw [hc] at hr
  simp only at hr
  cases hpc : c.pc with
  | wait =>
    rw [hpc] at hr
    exact htake hr
  | waitMeta =>
    rw [hpc] at hr
    exact htake hr
  | waitData m =>
    rw [hpc] at hr
    exact htake hr
  | entry nb =>
    rw [hpc] at hr
    cases hr
    exact size_run_entryOps
  | initMeta m =>
    rw [hpc] at hr
    cases hr
    exact size_run_newMetaOps
  | entryNew m nb =>
    rw [hpc] at hr
    cases hr
    exact size_run_appendOps
  | _ =>
    rw [hpc] at hr
    cases hr
    rfl

theorem Reserved.call {k' : ℕ} (h : Reserved g off k st) (hsafe : Safe g off k st)
    (hsafe' : Safe g off k' st') (hdead : st.alloc ≠ .dead) (hr : st.callStep cfg = some st') :
    Reserved g off k' st' := by
  obtain ⟨halloc, hoff⟩ := callStep_keeps hr
  have hsum := hsafe.sum_eq hsafe' halloc hdead hoff
  refine ⟨?_, ?_⟩
  · rw [hsum, halloc, callStep_size hr]
    exact h.le_size
  · rw [callStep_size hr]
    exact h.size_lt

/-- A call takes the blocks of the next entry. -/
theorem taken_pc_bounds {pc : CallPc} :
    g.blocks k ≤ pc.taken g k ∧ pc.taken g k ≤ g.blocks (k + 1) := by
  have hlt : g.blocks k < g.blocks (k + 1) := g.blocks_lt (Nat.lt_succ_self k)
  cases pc <;> simp only [CallPc.taken] <;> omega

/-! ### The stores of a call -/

/-- A call that goes on with a block of the ring. -/
theorem At.takeStep (h : At cfg P sP st) {c : Call} (hc : st.call = some c) {pc : CallPc}
    (hpc : c.pc = pc) {next : NewBlock → CallPc} (hstep : st.takeStep c next = some st')
    (hm : ∀ nb x, pc.Mirrors cfg P (FileOp.run x P) sP c.faultOff st.file →
      (next nb).Mirrors cfg P (FileOp.run x P) sP c.faultOff st.file) : At cfg P sP st' := by
  subst hpc
  rw [At, hc] at h
  simp only at h
  rw [Threads.takeStep] at hstep
  split_ifs at hstep
  cases hstep
  exact fun x hx => hm _ _ (h x hx)

section Stores

variable (h : At cfg P sP st) (hsafe : Safe g off k st) (hres : Reserved g off k st)
  (hsP : sP.Is g off k) (hP : g.endOff off k ≤ P.size) (hPlt : P.size < 2 ^ 63)
  (hr : st.callStep cfg = some st') {c : Call} (hc : st.call = some c) {nb : NewBlock} {m : Meta}

include hres hP hPlt hc

/-- The file holds the layer. -/
theorem Reserved.kept : g.endOff off k ≤ st.file.size := by
  have hT : st.taken g k = c.pc.taken g k := by rw [taken, hc]
  obtain ⟨hT₁, -⟩ : g.blocks k ≤ c.pc.taken g k ∧ c.pc.taken g k ≤ g.blocks (k + 1) :=
    taken_pc_bounds
  exact hres.le_size _ (by omega) (lt_of_le_of_lt hP hPlt)

include hsP

/-- It holds the blocks taken, if the plain call returns. -/
theorem Reserved.held {x : Super × NewBlock × List FileOp}
    (hx : newBlockPlain cfg P sP c.faultOff = .ok x) :
    g.blockAt off (c.pc.taken g k) ≤ st.file.size := by
  have hT : st.taken g k = c.pc.taken g k := by rw [taken, hc]
  obtain ⟨-, hT₂⟩ : g.blocks k ≤ c.pc.taken g k ∧ c.pc.taken g k ≤ g.blocks (k + 1) :=
    taken_pc_bounds
  obtain ⟨-, hlt⟩ := hsP.room_of_newBlockPlain (lt_of_le_of_lt hP hPlt) hx
  exact hres.le_size _ (by omega) (lt_of_le_of_lt (g.blockAt_mono off hT₂) hlt)

include h hsafe hr

/-- The entry is stored. -/
theorem At.entry (hpc : c.pc = .entry nb) : At cfg P sP st' := by
  obtain ⟨hpcOk, -⟩ := hsafe.callOk.pc c hc
  have hsees := hsafe.callOk.sees
  have hkept := hres.kept hP hPlt hc
  rw [seen, hc] at hsees
  rw [At, hc] at h
  simp only at h hsees
  rw [Threads.callStep, hc] at hr
  simp only at hr
  rw [hpc] at hr h hsees hpcOk
  cases hr
  intro x hx
  have hentry : entryOf st.s c.faultOff = entryOf sP c.faultOff := by
    rw [entryOf, entryOf, hsees.blockSize, hsP.blockSize]
  have hm : st.s.activeMeta = sP.activeMeta := hsees.activeMeta.trans hsP.activeMeta.symm
  obtain ⟨hslot, -⟩ := hsP.slot_le hpcOk.1 (lt_of_le_of_lt hP hPlt)
  simp only [CallPc.Mirrors]
  rw [hentry, hm]
  exact byte_run_entryOps_congr (h x hx) (hslot.trans hkept) (hslot.trans hP)

/-- The entry is counted in the file. -/
theorem At.commit (hpc : c.pc = .commit nb) : At cfg P sP st' := by
  obtain ⟨hpcOk, -⟩ := hsafe.callOk.pc c hc
  have hsees := hsafe.callOk.sees
  have hkept := hres.kept hP hPlt hc
  have hend : g.endOff off k < 2 ^ 63 := lt_of_le_of_lt hP hPlt
  rw [seen, hc] at hsees
  rw [At, hc] at h
  simp only at h hsees
  rw [Threads.callStep, hc] at hr
  simp only at hr
  rw [hpc] at hr h hsees hpcOk
  cases hr
  intro x hx
  obtain ⟨-, htop⟩ := hsP.slot_le hpcOk.1 hend
  -- the counter in memory is that of the next entry already
  have hpm : st.s.activeMeta.pmTop = sP.activeMeta.pmTop := by
    have hseg : g.lastSeg (k + 1) = g.lastSeg k := (g.lastSeg_succ_of_lt hpcOk.1).1
    rw [hsees.activeMeta, hsP.activeMeta]
    simp only [CallPc.seen, hseg]
  simp only [CallPc.Mirrors]
  rw [byte_newBlockPlain_active hsP hpcOk.1 hP hend hx, appendOps, FileOp.run_append]
  refine byte_run_counterOps_congr hpm (h x hx) ?_ ?_
  · rw [hpm]
    exact htop.trans hkept
  · rw [hpm, size_run_entryOps]
    exact htop.trans hP

/-- The top of a new meta block is cleared. -/
theorem At.initMeta (hpc : c.pc = .initMeta m) : At cfg P sP st' := by
  obtain ⟨hpcOk, -⟩ := hsafe.callOk.pc c hc
  have hheld := fun x hx => @Reserved.held _ _ _ _ _ _ _ hres hsP hP hPlt _ hc x hx
  have hend : g.endOff off k < 2 ^ 63 := lt_of_le_of_lt hP hPlt
  have hnext : sP.nextOff = g.endOff off k := hsP.nextOff (by omega)
  obtain ⟨-, htopNew⟩ := g.newMeta_le (n := sP.nextOff) (by omega)
  rw [At, hc] at h
  simp only at h
  rw [Threads.callStep, hc] at hr
  simp only at hr
  rw [hpc] at hr h hpcOk hheld
  obtain ⟨hfull, rfl⟩ := hpcOk
  cases hr
  intro x hx
  have hfile : g.endOff off k + g.blockSize ≤ st.file.size := by
    have := hheld x hx
    rwa [CallPc.taken, Geometry.blockAt_succ] at this
  simp only [CallPc.Mirrors, withMeta]
  rw [← hnext] at hfile ⊢
  refine byte_run_newMetaOps_congr (h x hx) (htopNew.trans hfile) ?_
  rw [ByteFile.size_reserve, hsP.u64_blockSize]
  omega

/-- The entry is stored to the new meta block. -/
theorem At.entryNew (hpc : c.pc = .entryNew m nb) : At cfg P sP st' := by
  obtain ⟨hpcOk, -⟩ := hsafe.callOk.pc c hc
  have hheld := fun x hx => @Reserved.held _ _ _ _ _ _ _ hres hsP hP hPlt _ hc x hx
  have hend : g.endOff off k < 2 ^ 63 := lt_of_le_of_lt hP hPlt
  have hnext : sP.nextOff = g.endOff off k := hsP.nextOff (by omega)
  have hentry : entryOf st.s c.faultOff = entryOf sP c.faultOff := by
    rw [entryOf, entryOf, hsafe.callOk.sees.blockSize, hsP.blockSize]
  have hwith : sP.nextOff + g.blockSize ≤ (withMeta cfg P sP).size := by
    rw [size_withMeta, hsP.u64_blockSize]
    omega
  obtain ⟨hslotNew, -⟩ := g.newMeta_le (n := sP.nextOff) (by omega)
  have hle := g.entry_le
  rw [At, hc] at h
  simp only at h
  rw [Threads.callStep, hc] at hr
  simp only at hr
  rw [hpc] at hr h hpcOk hheld
  obtain ⟨hfull, rfl, rfl⟩ := hpcOk
  cases hr
  intro x hx
  have hfile : g.endOff off k + g.blockSize ≤ st.file.size := by
    have hle : g.endOff off (k + 1) ≤ st.file.size := hheld x hx
    rw [(g.endOff_succ_of_full off hfull).1] at hle
    omega
  simp only [CallPc.Mirrors]
  rw [← hnext] at hfile
  rw [hentry, ← hnext]
  refine byte_run_appendOps_congr (h x hx) (hslotNew.trans hfile) (hslotNew.trans hwith) ?_ ?_
  · exact le_trans (by simp only; omega) hfile
  · exact le_trans (by simp only; omega) hwith

/-- The number of meta blocks is stored in the file. -/
theorem At.commitSuper (hpc : c.pc = .commitSuper nb) : At cfg P sP st' := by
  obtain ⟨hpcOk, hcap⟩ := hsafe.callOk.pc c hc
  have hsees := hsafe.callOk.sees
  have hkept := hres.kept hP hPlt hc
  have hend : g.endOff off k < 2 ^ 63 := lt_of_le_of_lt hP hPlt
  rw [seen, hc] at hsees
  rw [At, hc] at h
  simp only at h hsees
  rw [Threads.callStep, hc] at hr
  simp only at hr
  rw [hpc] at hr h hsees hpcOk
  obtain ⟨hfull, rfl⟩ := hpcOk
  cases hr
  intro x hx
  have hfirst := g.add_blockSize_le_endOff off k
  have hle := g.entry_le
  have hmy : st.s.myOff = sP.myOff := hsees.myOff.trans hsP.myOff.symm
  have hoff := hsP.myOff
  have hnum : st.s.activeMetaNum = i32 (sP.activeMetaNum + 1) := by
    have hseg : g.lastSeg (k + 1) = g.lastSeg k + 1 := (g.lastSeg_succ_of_full hfull).1
    have hk := g.lastSeg_le (k := k)
    have hcap' : k + 1 < 2 ^ 31 := lt_of_le_of_lt hcap g.cap_lt
    rw [hsees.activeMetaNum, hsP.activeMetaNum, i32_of_range (by omega) (by omega)]
    simp only [CallPc.seen, hseg]
    push_cast
    rfl
  have hops : [storeInt (st.s.myOff + 8) st.s.activeMetaNum, .flush st.s.myOff, .fence] =
      rollOverOps sP := by rw [rollOverOps, hmy, hnum]
  have hwith : sP.nextOff + g.blockSize ≤ (withMeta cfg P sP).size := by
    rw [size_withMeta, hsP.u64_blockSize]
    omega
  have hnext : sP.nextOff = g.endOff off k := hsP.nextOff (by omega)
  simp only [CallPc.Mirrors]
  rw [byte_newBlockPlain_full hsP hfull hend hx, hops]
  refine byte_run_rollOverOps_congr (h x hx) ?_ ?_
  · omega
  · rw [size_run_appendOps]
    omega

/-- **A step of a call, but for its return, makes the stores of the plain call.** -/
theorem At.callStep (hret : ∀ nb, c.pc ≠ .ret nb) : At cfg P sP st' := by
  have hstep := hr
  rw [Threads.callStep, hc] at hr
  simp only at hr
  cases hpc : c.pc with
  | wait =>
    rw [hpc] at hr
    exact h.takeStep hc hpc hr fun nb x hm => hm
  | waitMeta =>
    rw [hpc] at hr
    exact h.takeStep hc hpc hr fun nb x hm => hm
  | waitData m =>
    rw [hpc] at hr
    exact h.takeStep hc hpc hr fun nb x hm => hm
  | entry nb => exact h.entry hsafe hres hsP hP hPlt hstep hc hpc
  | commit nb => exact h.commit hsafe hres hsP hP hPlt hstep hc hpc
  | initMeta m => exact h.initMeta hsafe hres hsP hP hPlt hstep hc hpc
  | entryNew m nb => exact h.entryNew hsafe hres hsP hP hPlt hstep hc hpc
  | commitSuper nb => exact h.commitSuper hsafe hres hsP hP hPlt hstep hc hpc
  | ret nb => exact absurd hpc (hret nb)
  | _ =>
    -- the rest stores to the super block in memory
    rw [At, hc] at h
    simp only at h
    rw [hpc] at hr h
    cases hr
    exact h

end Stores

/-! ### Runs -/

/-- **What a run keeps**, begun on a layer of `k₀` entries: the threads are in order and at the
plain file; the calls have got the data blocks of the layer, in their order; and one slot of the
ring has been taken for each block of the layer that is recorded or taken. -/
structure Sim (g : Geometry cfg) (off k₀ : ℕ) (f : ByteFile) (s : Super) (st : Threads) : Prop where
  safe : Safe g off (k₀ + st.returned.length) st
  reserved : Reserved g off (k₀ + st.returned.length) st
  blocks : st.returned.map Prod.snd =
    (List.range st.returned.length).map fun i => ⟨g.dataOff off (k₀ + i)⟩
  count : st.ring.nbCount + g.blocks k₀ =
    st.taken g (k₀ + st.returned.length) + st.ring.nbAvailable
  at_plain : ∀ P sP nbs, plainRun cfg f s (st.returned.map Prod.fst) = .ok (P, sP, nbs) →
    At cfg P sP st
  cap : k₀ + st.returned.length ≤ g.cap

variable {k₀ : ℕ}

/-- The thread counts a block when it puts it into the ring. -/
theorem allocStep_count (hr : st.allocStep = some st') :
    st'.ring.nbCount + st.ring.nbAvailable = st.ring.nbCount + st'.ring.nbAvailable := by
  rw [Threads.allocStep] at hr
  cases halloc : st.alloc <;> rw [halloc] at hr <;> simp only at hr <;> (try split_ifs at hr) <;>
    cases hr <;> first | rfl | (simp only; omega)

/-- A call counts none, and takes at most one. -/
theorem callStep_count (hr : st.callStep cfg = some st') : st'.ring.nbCount = st.ring.nbCount ∧
    (st'.ring.nbAvailable = st.ring.nbAvailable ∨
      st'.ring.nbAvailable + 1 = st.ring.nbAvailable) := by
  have htake : ∀ {c : Call} {next : NewBlock → CallPc}, st.takeStep c next = some st' →
      st'.ring.nbCount = st.ring.nbCount ∧ (st'.ring.nbAvailable = st.ring.nbAvailable ∨
        st'.ring.nbAvailable + 1 = st.ring.nbAvailable) := by
    intro c next hstep
    rw [Threads.takeStep] at hstep
    split_ifs at hstep with hpos
    cases hstep
    exact ⟨rfl, Or.inr (Nat.sub_add_cancel hpos)⟩
  rw [Threads.callStep] at hr
  rcases hc : st.call with _ | c
  · rw [hc] at hr
    cases hr
  rw [hc] at hr
  simp only at hr
  cases hpc : c.pc <;> rw [hpc] at hr <;>
    first | exact htake hr | (cases hr; exact ⟨rfl, Or.inl rfl⟩)

theorem Sim.allocStep (h : Sim g off k₀ f s st) (hr : st.allocStep = some st') :
    Sim g off k₀ f s st' := by
  obtain ⟨hcall, hret, -⟩ := allocStep_keeps hr
  have hcount := allocStep_count hr
  refine ⟨?_, ?_, ?_, ?_, ?_, ?_⟩
  · rw [hret]
    exact h.safe.allocStep hr
  · rw [hret]
    exact h.reserved.allocStep h.safe hr
  · rw [hret]
    exact h.blocks
  · have htaken : st'.taken g (k₀ + st'.returned.length) =
        st.taken g (k₀ + st.returned.length) := by rw [taken, taken, hcall, hret]
    have := h.count
    rw [htaken]
    omega
  · intro P sP nbs hP
    rw [hret] at hP
    exact (h.at_plain P sP nbs hP).allocStep hr
  · rw [hret]
    exact h.cap

theorem Sim.enter (h : Sim g off k₀ f s st) {faultOff : ℕ} (hr : st.enter faultOff = some st') :
    Sim g off k₀ f s st' := by
  obtain ⟨hcall, hret, hsafe⟩ := h.safe.enter hr
  have hle := h.reserved.le_size
  obtain ⟨-, pc, hpc, rfl⟩ := enter_ok hr
  have htaken : pc.taken g (k₀ + st.returned.length) = st.taken g (k₀ + st.returned.length) := by
    rw [taken, hcall]
    rcases hpc with rfl | rfl <;> rfl
  refine ⟨hsafe, ⟨?_, h.reserved.size_lt⟩, h.blocks, ?_, ?_, h.cap⟩
  · rw [← htaken] at hle
    exact hle
  · have hcount := h.count
    rw [← htaken] at hcount
    exact hcount
  · intro P sP nbs hP x hx
    have hat := h.at_plain P sP nbs hP
    rw [At, hcall] at hat
    rcases hpc with rfl | rfl <;> exact hat

/-- **A step of a call.** When the call returns, the plain calls include it. -/
theorem Sim.callStep (h : Sim g off k₀ f s st) (hlayer : IsLayer g f off es) (hf : f.size < 2 ^ 63)
    (hs : s.Is g off es.length) (hk : es.length = k₀) (hdead : st.alloc ≠ .dead)
    (hr : st.callStep cfg = some st') : Sim g off k₀ f s st' := by
  obtain ⟨halloc, hoff⟩ := callStep_keeps hr
  have hcount := (callStep_count hr).1
  have hspec : ∀ {P sP nbs}, plainRun cfg f s (st.returned.map Prod.fst) = .ok (P, sP, nbs) →
      g.endOff off (k₀ + st.returned.length) ≤ P.size ∧ P.size < 2 ^ 63 ∧
        sP.Is g off (k₀ + st.returned.length) := by
    intro P sP nbs hP
    obtain ⟨h₁, h₂, h₃, -⟩ := plainRun_spec hlayer hf hs hP
    rw [List.length_map, hk] at h₁ h₃
    exact ⟨h₁, h₂, h₃⟩
  obtain ⟨c, nb, hc, hpc, hnb, hret, hcall', hsafe⟩ | ⟨hret, hsafe⟩ := h.safe.callStep hdead hr
  · have hlen : k₀ + st'.returned.length = k₀ + st.returned.length + 1 := by
      rw [hret, List.length_append, List.length_singleton, Nat.add_assoc]
    have hsafe' : Safe g off (k₀ + st'.returned.length) st' := by rwa [hlen]
    have hsum := h.safe.sum_eq hsafe' halloc hdead hoff
    refine ⟨hsafe', h.reserved.call h.safe hsafe' hdead hr, ?_, ?_, ?_, ?_⟩
    · rw [hret, List.map_append, h.blocks, List.length_append, List.length_singleton,
        List.range_succ, List.map_append, List.map_singleton, List.map_singleton, hnb]
    · rw [hcount, hsum]
      exact h.count
    · intro P sP nbs hP
      rw [hret, List.map_append] at hP
      obtain ⟨⟨P₀, sP₀, nbs₀⟩, s', nb', ops, hP₀, hlast, heq⟩ := plainRun_concat hP
      cases heq
      have hat := h.at_plain P₀ sP₀ nbs₀ hP₀
      rw [At, hc] at hat
      have hbyte := hat _ hlast
      rw [hpc] at hbyte
      have hfile : st'.file = st.file := by
        rw [Threads.callStep, hc] at hr
        simp only [hpc] at hr
        cases hr
        rfl
      rw [At, hcall']
      simp only [hfile]
      exact hbyte
    · rw [hlen]
      exact (h.safe.callOk.pc c hc).2
  · have hsafe' : Safe g off (k₀ + st'.returned.length) st' := by rwa [hret]
    have hsum := h.safe.sum_eq hsafe' halloc hdead hoff
    refine ⟨hsafe', h.reserved.call h.safe hsafe' hdead hr, ?_, ?_, ?_, by rw [hret]; exact h.cap⟩
    · rw [hret]
      exact h.blocks
    · rw [hcount, hsum]
      exact h.count
    · intro P sP nbs hP
      rw [hret] at hP
      obtain ⟨hsize, hlt, hsP⟩ := hspec hP
      rcases hc : st.call with _ | c
      · rw [Threads.callStep, hc] at hr
        cases hr
      · refine (h.at_plain P sP nbs hP).callStep h.safe h.reserved hsP hsize hlt hr hc ?_
        -- the call does not return, since no result is added
        rintro nb hpc
        rw [Threads.callStep, hc] at hr
        simp only [hpc] at hr
        cases hr
        simp at hret

/-- **Every step is simulated** by plain calls, and so is every run. -/
theorem Sim.step (h : Sim g off k₀ f s st) (hlayer : IsLayer g f off es) (hf : f.size < 2 ^ 63)
    (hs : s.Is g off es.length) (hk : es.length = k₀) (hstep : Step cfg st st') :
    Sim g off k₀ f s st' := by
  cases hstep with
  | alloc hr => exact h.allocStep hr
  | call hdead hr => exact h.callStep hlayer hf hs hk hdead hr
  | enter hdead hr => exact h.enter hr

theorem Sim.run (h : Sim g off k₀ f s st) (hlayer : IsLayer g f off es) (hf : f.size < 2 ^ 63)
    (hs : s.Is g off es.length) (hk : es.length = k₀)
    (hrun : Relation.ReflTransGen (Step cfg) st st') : Sim g off k₀ f s st' := by
  induction hrun with
  | refl => exact h
  | tail _ hstep ih => exact ih.step hlayer hf hs hk hstep

/-- The threads as `fmmap` starts them. -/
theorem sim_start (hlayer : IsLayer g f off es) (hf : f.size < 2 ^ 63) (hs : s.Is g off es.length)
    (halloc : s.allocOff = g.endOff off es.length) : Sim g off es.length f s (start f s) := by
  have hend : g.endOff off es.length < 2 ^ 63 := lt_of_le_of_lt hlayer.size_le hf
  refine ⟨safe_start hs halloc hend, ⟨?_, hf⟩, rfl, ?_, ?_, hlayer.length_le⟩
  · intro q hq _
    exact (g.blockAt_mono off hq).trans hlayer.size_le
  · simp [start, taken, Ring.init]
  · intro P sP nbs hP
    cases hP
    rfl

/-- As long as no refused block has been counted, the blocks taken are in the file. -/
theorem Safe.taken_lt (h : Safe g off k st) (hadv : st.alloc ≠ .advance false)
    (hdead : st.alloc ≠ .dead) : g.blockAt off (st.taken g k) < 2 ^ 63 := by
  obtain ⟨hoff, hlt⟩ := h.offOk hdead
  have hmono : g.blockAt off (st.taken g k) ≤ g.blockAt off (st.taken g k + st.ring.nbAvailable) :=
    g.blockAt_mono off (Nat.le_add_right _ _)
  rcases Nat.eq_zero_or_pos st.alloc.behind with hb | hb
  · rw [hb, Nat.zero_mul, Nat.add_zero] at hoff
    omega
  cases halloc : st.alloc with
  | advance ok =>
    -- the last block counted is not refused
    have hok := h.allocOk
    rw [AllocOk, halloc] at hok
    rw [halloc] at hadv
    have hroom := hok (by simpa using hadv)
    rw [halloc, AllocPc.behind, Nat.one_mul] at hoff
    omega
  | _ =>
    rw [halloc] at hb
    exact absurd hb (lt_irrefl 0)

/-! ### The freed struct -/

end Threads

end Pcow
