import Pcow.Pages
import Mathlib.Data.Nat.Factorization.Basic
import Mathlib.RingTheory.Int.Basic
import Mathlib.Tactic.LinearCombination

/-!
# The slot of a new entry

`insert_ht` has `new_block` append an entry to the layer, and then looks for the slot of that entry
itself: it computes the number of the meta block from `active_meta_off`, reads the meta block with
that number and takes the slot before `counter`.

The number is wrong by a factor, the square of the block size, so that the slot is the one just
written in the first segment of a layer and never in another one (`insertHt_slot`): a wrong number
would have to be right modulo `2 ^ 64`, which the size of the file excludes.
-/

namespace Pcow

variable {cfg : Config} {g : Geometry cfg} {off k v : ℕ} {es : List ℕ} {s : Super}

/-! ### The number of the meta block -/

/-- A number that agrees with the product of `L` and an even square modulo `2 ^ 32` is not `L`, and
does not become `L` in a product modulo `2 ^ 64` that is small for `L`. -/
theorem not_dvd_sub_mul {L P B : ℕ} {n : ℤ} (hL : 0 < L) (hL' : L < 2 ^ 32) (hP : 0 < P)
    (hLP : L * P < 2 ^ 64) (hB : Even B) (hn : (2 ^ 32 : ℤ) ∣ n - L * B * B) :
    ¬(2 ^ 64 : ℤ) ∣ (n - L) * P := by
  intro hdvd
  obtain ⟨e, m, hm, rfl⟩ := Nat.exists_eq_two_pow_mul_odd hL.ne'
  obtain ⟨t, ht⟩ := hn
  have he : e < 32 := by
    refine (Nat.pow_lt_pow_iff_right (by norm_num : 1 < 2)).mp (lt_of_le_of_lt ?_ hL')
    exact Nat.le_mul_of_pos_right _ hm.pos
  -- the difference has the same power of two as `L`
  have hdiff : n - (2 ^ e * m : ℕ) = 2 ^ e * (m * (B * B - 1) + 2 ^ (32 - e) * t) := by
    have hpow : (2 : ℤ) ^ 32 = 2 ^ e * 2 ^ (32 - e) := by
      rw [← pow_add, Nat.add_sub_cancel' he.le]
    rw [hpow] at ht
    push_cast at ht ⊢
    linear_combination ht
  have hodd : Odd ((m : ℤ) * (B * B - 1) + 2 ^ (32 - e) * t) := by
    refine Odd.add_even (Odd.mul ?_ ?_) ?_
    · exact_mod_cast hm
    · refine Even.sub_odd (Even.mul_right ?_ _) odd_one
      exact_mod_cast hB
    · refine Even.mul_right ((even_two).pow_of_ne_zero ?_) _
      omega
  rw [hdiff, mul_comm ((2 : ℤ) ^ e), mul_assoc] at hdvd
  have hcop : IsCoprime ((2 : ℤ) ^ 64) (m * (B * B - 1) + 2 ^ (32 - e) * t) := by
    exact IsCoprime.pow_left (Int.isCoprime_two_left.mpr hodd)
  obtain ⟨q, hq⟩ := hcop.dvd_of_dvd_mul_left hdvd
  have hle : (2 : ℤ) ^ 64 ∣ ((2 ^ e * m * P : ℕ) : ℤ) := by
    refine ⟨q * m, ?_⟩
    push_cast
    linear_combination (m : ℤ) * hq
  have hpos : 0 < 2 ^ e * m * P := Nat.mul_pos hL hP
  have := Int.le_of_dvd (by exact_mod_cast hpos) hle
  have : (2 : ℕ) ^ 64 ≤ 2 ^ e * m * P := by exact_mod_cast this
  omega

theorem dvd_of_u64_add {w : ℕ} {y : ℤ} (h : u64 (w + y) = w) : (2 ^ 64 : ℤ) ∣ y := by
  have hmod : ((w : ℤ) + y) % 2 ^ 64 = w := by
    rw [← Int.toNat_of_nonneg (Int.emod_nonneg ((w : ℤ) + y) (by norm_num))]
    exact congrArg Nat.cast h
  have := Int.emod_add_mul_ediv ((w : ℤ) + y) (2 ^ 64)
  rw [hmod] at this
  exact ⟨((w : ℤ) + y) / 2 ^ 64, (add_left_cancel this).symm⟩

/-- **The number of the meta block is right in the first segment only.** -/
theorem Super.Is.metaOff_metaN_iff (hs : s.Is g off k) (hdvd : pageSize ∣ g.blockSize)
    (hk : k < 2 ^ 32) (hlt : g.blockAt off (g.metaBlock (g.lastSeg k)) < 2 ^ 63) :
    s.metaOff (Session.metaN s) = g.blockAt off (g.metaBlock (g.lastSeg k)) ↔ g.lastSeg k = 0 := by
  have hmeta := hs.metaN (lt_trans hlt (by norm_num))
  have hblock : g.blockAt off (g.metaBlock (g.lastSeg k)) =
      off + g.blockSize + g.lastSeg k * ((g.perSeg + 1) * g.blockSize) := by
    rw [Geometry.blockAt, Geometry.metaBlock]
    ring
  have hcong : (2 ^ 32 : ℤ) ∣ Session.metaN s - g.lastSeg k * g.blockSize * g.blockSize := by
    have := Int.dvd_self_sub_bmod (x := ((g.lastSeg k * g.blockSize * g.blockSize : ℕ) : ℤ))
      (m := 2 ^ 32)
    rw [← dvd_neg, hmeta, i32]
    push_cast at this ⊢
    rwa [neg_sub]
  -- the square of the block size is even, so that the number is not that of the active meta block
  have hne : Session.metaN s ≠ -1 := by
    intro h
    obtain ⟨B, hB⟩ := hdvd
    rw [h, hB] at hcong
    obtain ⟨t, ht⟩ := hcong
    have hsq : (g.lastSeg k : ℤ) * (pageSize * B : ℕ) * (pageSize * B : ℕ) =
        2 * (2 ^ 23 * g.lastSeg k * B * B) := by
      push_cast
      ring
    rw [hsq] at ht
    generalize (2 ^ 23 * (g.lastSeg k : ℤ) * B * B) = z at ht
    omega
  rw [Super.metaOff, if_neg hne, hs.myOff, hs.blockSize, hs.maxPerSeg]
  constructor
  · intro heq
    by_contra hzero
    have hB : Even g.blockSize := even_iff_two_dvd.mpr (dvd_trans (by norm_num) hdvd)
    have hP : 0 < (g.perSeg + 1) * g.blockSize := Nat.mul_pos (Nat.succ_pos _) g.blockSize_pos
    refine not_dvd_sub_mul (Nat.pos_of_ne_zero hzero) (lt_of_le_of_lt Geometry.lastSeg_le hk) hP
      (by omega) hB hcong ?_
    have hz : (off : ℤ) + g.blockSize + Session.metaN s * (g.perSeg + 1) * g.blockSize =
        (off + g.blockSize + g.lastSeg k * ((g.perSeg + 1) * g.blockSize) : ℕ) +
          (Session.metaN s - g.lastSeg k) * ((g.perSeg + 1) * g.blockSize : ℕ) := by
      push_cast
      ring
    rw [hblock, hz] at heq
    exact dvd_of_u64_add heq
  · intro hzero
    have h0 : Session.metaN s = 0 := by
      refine hs.metaN_eq_zero (lt_trans hlt (by norm_num)) ?_
      rw [hzero]
      simp
    rw [hblock, h0, hzero, zero_mul, zero_mul, add_zero, zero_mul, Nat.add_zero, ← Nat.cast_add]
    exact u64_natCast (by omega)

/-- In the first segment the slot `insert_ht` takes is that of the last entry. -/
theorem Super.Is.metaEntry_first (hs : s.Is g off (k + 1)) (hk : k < g.perSeg)
    (hlt : g.endOff off (k + 1) < 2 ^ 64) :
    u64 ((g.blockAt off (g.metaBlock 0) : ℕ) + (clSize : ℕ) +
      (cfg.entrySize : ℕ) * (s.activeMeta.counter - 1)) = g.slot off k := by
  obtain ⟨j, -, hj, hslot⟩ := Session.metaEntry_eq hs hlt
  have hzero : g.lastSeg (k + 1) = 0 := Nat.div_eq_of_lt hk
  rw [hzero, Nat.zero_mul, Nat.zero_add] at hj
  rw [hslot, hj]

/-! ### The slot -/

namespace Session

variable {ses ses' : Session} {n n' : ℕ} {ops fops : List FileOp} {s' : Super} {r' : Ring}
  {nb : NewBlock} {ce : CowEntry}

/-- **The location is that of the entry just appended**: the meta block of the entry, and the slot
in it. The layer had `k` entries before. -/
def LocatesEntry (g : Geometry cfg) (off k : ℕ) (ce : CowEntry) : Prop :=
  ce.m.pmTop = g.blockAt off (g.metaBlock (k / g.perSeg)) ∧ ce.metaEntry = g.slot off k

/-- The second half of `insert_ht` finds the slot exactly if the entry is in the first segment. -/
theorem Layered.linkEntry_locates (h : ses.Layered g off (es ++ [v]))
    (hdvd : pageSize ∣ g.blockSize)
    (key : ℕ) : (∃ ses' ce ops, ses.linkEntry cfg nb key = .ok (ses', ce, ops) ∧
      LocatesEntry g off es.length ce) ↔ es.length < g.perSeg := by
  have hlen : (es ++ [v]).length = es.length + 1 := by simp
  have hsuper : ses.s.Is g off (es.length + 1) := hlen ▸ h.super
  have hlast : g.blockAt off (g.metaBlock (g.lastSeg (es.length + 1))) < 2 ^ 63 := by
    have h₁ := g.blockAt_add_le off (g.metaBlock_lt (le_refl (g.lastSeg (es.length + 1))))
    have h₂ := h.layer.size_le
    have h₃ := h.size_lt
    rw [hlen, Geometry.endOff] at h₂
    omega
  have hk : es.length + 1 < 2 ^ 32 := by
    have h₁ := h.layer.length_le
    have h₂ := g.cap_lt
    omega
  have hseg : g.lastSeg (es.length + 1) = 0 ↔ es.length < g.perSeg :=
    Nat.div_eq_zero_iff_lt g.perSeg_pos
  have hiff := hsuper.metaOff_metaN_iff hdvd hk hlast
  constructor
  · rintro ⟨ses', ce, ops, hr, hm, -⟩
    obtain ⟨m, hread, rfl, -⟩ := linkEntry_ok hr
    rw [← hseg, ← hiff, ← readMeta_pmTop hread]
    exact hm
  · intro hlt
    have hzero := hseg.mpr hlt
    have hread := h.layer.readMeta h.size_lt h.super (Nat.zero_le (g.lastSeg (es ++ [v]).length))
    have hn : metaN ses.s = (0 : ℕ) := by
      rw [Nat.cast_zero]
      refine hsuper.metaN_eq_zero (lt_trans hlast (by norm_num)) ?_
      rw [hzero]
      simp
    rw [← hn] at hread
    rw [Session.linkEntry, hread]
    refine ⟨_, _, _, rfl, ?_, ?_⟩
    · rw [Nat.div_eq_of_lt hlt]
      rfl
    · refine hsuper.metaEntry_first hlt ?_
      have h₁ := h.layer.size_le
      have h₂ := h.size_lt
      rw [hlen] at h₁
      omega

/-- **`insert_ht` finds the slot of its entry exactly in the first segment.** -/
theorem Layered.insertHt_locates (h : ses.Layered g off es) (hdvd : pageSize ∣ g.blockSize)
    {key : ℕ}
    (hnb : Pcow.newBlock cfg ses.file ses.s ses.ring n n' key = .ok (s', r', nb, fops)) :
    (∃ ses' ce ops, ses.insertHt cfg n n' key = .ok (ses', ce, ops) ∧
      LocatesEntry g off es.length ce) ↔ es.length < g.perSeg := by
  obtain ⟨h', -, -, -⟩ := h.newBlock hnb
  rw [← h'.linkEntry_locates hdvd key, Session.insertHt, hnb]
  constructor
  · rintro ⟨ses', ce, ops, hr, hloc⟩
    rcases hlink : Session.linkEntry cfg { ses.issue fops with s := s', ring := r' } nb key with
      err | ⟨ses₁, ce₁, ops₁⟩
    · simp only [hlink] at hr
      cases hr
    · simp only [hlink] at hr
      cases hr
      exact ⟨ses₁, ce₁, ops₁, rfl, hloc⟩
  · rintro ⟨ses', ce, ops, hr, hloc⟩
    refine ⟨ses', ce, fops ++ ops, ?_, hloc⟩
    simp only [hr]
    rfl

/-- The entry of a call that returns. -/
theorem Layered.insertHt_locatesEntry (h : ses.Layered g off es) (hdvd : pageSize ∣ g.blockSize)
    (hroom : es.length < g.perSeg) {key : ℕ}
    (hr : ses.insertHt cfg n n' key = .ok (ses', ce, ops)) :
    LocatesEntry g off es.length ce := by
  obtain ⟨s', r', nb, ops₁, ops₂, hnb, -, -⟩ := insertHt_ok hr
  obtain ⟨ses₂, ce₂, ops₃, hr₂, hloc⟩ := (h.insertHt_locates hdvd hnb).mpr hroom
  rw [hr] at hr₂
  cases hr₂
  exact hloc

/-! ### Sequences of allocations -/

/-- One allocation of a session. -/
inductive AllocOp
  /-- A call of `new_block`, as `uf_monitor` makes it. -/
  | newBlock (n n' faultOff : ℕ) : AllocOp
  /-- A call of `insert_ht`. -/
  | insertHt (n n' voff : ℕ) : AllocOp

/-- The session after an allocation. -/
def allocStep (cfg : Config) (ses : Session) : AllocOp → Except Fault Session
  | .newBlock n n' faultOff => (newBlock cfg ses.file ses.s ses.ring n n' faultOff).map
      fun (s, ring, _, ops) => { ses.issue ops with s, ring }
  | .insertHt n n' voff => (ses.insertHt cfg n n' voff).map (·.1)

/-- The session after several allocations. -/
def allocRun (cfg : Config) : Session → List AllocOp → Except Fault Session
  | ses, [] => .ok ses
  | ses, op :: ops =>
    match ses.allocStep cfg op with
    | .error e => .error e
    | .ok ses' => allocRun cfg ses' ops

/-- **An allocation keeps the layer in order**, also where `insert_ht` takes another block for the
meta block. -/
theorem Layered.allocStep (h : ses.Layered g off es) (hcfg : cfg.entrySize = 8)
    (hdvd : pageSize ∣ g.blockSize) (hoff : pageSize ∣ off) {op : AllocOp}
    (hr : ses.allocStep cfg op = .ok ses') : ∃ b, ses'.Layered g off (es ++ [b]) := by
  cases op with
  | newBlock n n' faultOff =>
    rw [Session.allocStep] at hr
    rcases hnb : Pcow.newBlock cfg ses.file ses.s ses.ring n n' faultOff with
      err | ⟨s', r', nb, fops⟩
    · rw [hnb] at hr
      cases hr
    · rw [hnb] at hr
      cases hr
      exact ⟨_, (h.newBlock hnb).1⟩
  | insertHt n n' voff =>
    rw [Session.allocStep] at hr
    rcases hins : ses.insertHt cfg n n' voff with err | ⟨ses₁, ce, fops⟩
    · rw [hins] at hr
      cases hr
    · rw [hins] at hr
      cases hr
      obtain ⟨s', r', nb, ops₁, ops₂, hnb, hlink, -⟩ := insertHt_ok hins
      exact ⟨_, ((h.newBlock hnb).1.linkEntry hcfg hdvd hoff hlink).1⟩

theorem Layered.allocRun (h : ses.Layered g off es) (hcfg : cfg.entrySize = 8)
    (hdvd : pageSize ∣ g.blockSize) (hoff : pageSize ∣ off) {aops : List AllocOp}
    (hr : ses.allocRun cfg aops = .ok ses') :
    ∃ es', es'.length = aops.length ∧ ses'.Layered g off (es ++ es') := by
  induction aops generalizing ses es with
  | nil =>
    cases hr
    exact ⟨[], rfl, by rwa [List.append_nil]⟩
  | cons op aops ih =>
    rw [Session.allocRun] at hr
    rcases hstep : ses.allocStep cfg op with err | ses₁
    · rw [hstep] at hr
      cases hr
    · rw [hstep] at hr
      obtain ⟨b, h₁⟩ := h.allocStep hcfg hdvd hoff hstep
      obtain ⟨es₁, hlen, h₂⟩ := ih h₁ hr
      refine ⟨b :: es₁, congrArg (· + 1) hlen, ?_⟩
      rwa [List.append_assoc] at h₂

end Session

/-- **The table of incomplete blocks points to the entry just written in the first segment, and
nowhere else.** After any sequence of allocations of a session the last layer has as many entries
more; let `new_block` return inside a call of `insert_ht`: it puts the number of the block into the
next slot of the layer. Exactly if that slot is in the first meta block `insert_ht` returns an entry
with this location. -/
theorem insertHt_slot {fs : Fs} {fd : Path} {ls : List (List ℕ)} {length offset n n' : ℕ}
    {ses₀ ses : Session} {aops : List Session.AllocOp} {s' : Super} {r' : Ring} {nb : NewBlock}
    {fops : List FileOp} (hcfg : cfg.finegrainedCow = true)
    (hchain : IsChain g ((fs fd).getD .empty) 0 (ls ++ [es]))
    (hf : ((fs fd).getD .empty).size < 2 ^ 63) (hdvd : pageSize ∣ g.blockSize)
    (hopen : Session.fmmap cfg fs fd length offset = .ok (some ses₀))
    (hrun : ses₀.allocRun cfg aops = .ok ses)
    (hnb : newBlock cfg ses.file ses.s ses.ring n n' v = .ok (s', r', nb, fops)) :
    (∃ es', es'.length = es.length + aops.length ∧ IsLayer g ses.file (g.chainEnd 0 ls) es' ∧
      IsLayer g (FileOp.run fops ses.file) (g.chainEnd 0 ls) (es' ++ [g.blockOf v])) ∧
      ((∃ ses' ce ops, ses.insertHt cfg n n' v = .ok (ses', ce, ops) ∧
        Session.LocatesEntry g (g.chainEnd 0 ls) (es.length + aops.length) ce) ↔
        es.length + aops.length < g.perSeg) := by
  obtain ⟨low, hpaged⟩ := hchain.paged_of_fmmap hf hdvd hopen
  have hcfg8 : cfg.entrySize = 8 := by
    rw [Config.entrySize, hcfg]
    rfl
  obtain ⟨es', hlen, h⟩ := hpaged.toLayered.allocRun hcfg8 hdvd hpaged.off_dvd hrun
  obtain ⟨-, -, -, -, happ, -⟩ := h.layer.newBlock h.size_lt h.super h.ring hnb
  have hlen' : (es ++ es').length = es.length + aops.length := by rw [List.length_append, hlen]
  have hiff := h.insertHt_locates hdvd hnb
  rw [hlen'] at hiff
  exact ⟨⟨es ++ es', hlen', h.layer, happ.layer⟩, hiff⟩

/-- Two allocations of a session on a last layer without entries. -/
theorem exists_twoBlocks (v v' : ℕ) : ∃ (f : ByteFile) (ses : Session) (s : Super) (r : Ring)
    (nb : NewBlock) (ops : List FileOp) (x : Super × Ring × NewBlock × List FileOp),
    IsImage (Geometry.twoPages .shipped) f [[0]] [] ∧
      Session.fmmap .shipped (fun _ => some f) [1] (8192 * 2) 0 = .ok (some ses) ∧
      ses.cow = initFgcow ∧
      newBlock .shipped ses.file ses.s ses.ring 0 0 v = .ok (s, r, nb, ops) ∧
      newBlock .shipped ({ ses.issue ops with s, ring := r } : Session).file s r 0 0 v' =
        .ok x := by
  obtain ⟨f, ses, himage, hname, -, hopen, hopened, hroom, -⟩ := exists_session .shipped 0
  have hcap : (Geometry.twoPages .shipped).cap = 4096 := rfl
  have hdvd : pageSize ∣ (Geometry.twoPages .shipped).blockSize := by decide
  have hmax : (Geometry.twoPages .shipped).maxBlockNum = 4096 := rfl
  have hoff : (Geometry.twoPages .shipped).blockAt ((Geometry.twoPages .shipped).chainEnd 0 [[0]])
      ((Geometry.twoPages .shipped).blocks 1 + maxPreNum) < 2 ^ 63 := by decide
  refine ⟨f, ses, ?_⟩
  generalize Geometry.twoPages .shipped = g at *
  have hinv := hopened.inv hdvd himage
  obtain ⟨⟨s, r, nb, ops⟩, hnb⟩ : ∃ x, newBlock .shipped ses.file ses.s ses.ring 0 0 v = .ok x :=
    hinv.core.exists_newBlock hroom v
  have hlay := (hopened.paged himage.isChain himage.size_lt hdvd).toLayered
  have h₁ := (hlay.newBlock hnb).1
  -- the allocator thread goes on, and there is room for the second append
  have hrunning : r.running = true := by
    have hal := hlay.super.toAllocNum
    have hmb := hlay.super.maxBlockNum
    rw [(newBlock_sameFixed hnb).2 (by rw [hal, hmb, hmax, List.length_nil]; decide), hopened.ring]
    rfl
  have hserve : Config.shipped.preAlloc = true → r.Serves g 1 (g.need 1) 0 := by
    intro _
    have := g.need_le 1
    refine Or.inr ⟨hrunning, ?_⟩
    omega
  obtain ⟨x, hnb'⟩ : ∃ x, newBlock .shipped
      ({ ses.issue ops with s, ring := r } : Session).file s r 0 0 v' = .ok x :=
    h₁.layer.exists_newBlock h₁.size_lt h₁.super h₁.ring (by rw [hcap]; simp) hoff hserve
  exact ⟨s, r, nb, ops, x, himage, hopen, hopened.cow, hnb, hnb'⟩

/-- The second entry of a last layer, after one that `uf_monitor` has appended. -/
theorem insertHt_slot_second : ∃ (fs : Fs) (ses₀ ses ses' : Session) (ce : CowEntry)
    (ops : List FileOp),
    IsImage (Geometry.twoPages .shipped) ((fs [1]).getD .empty) [[0]] [] ∧
      Session.fmmap .shipped fs [1] (8192 * 2) 0 = .ok (some ses₀) ∧
      ses₀.allocRun .shipped [.newBlock 0 0 8192] = .ok ses ∧
      ses.insertHt .shipped 0 0 0 = .ok (ses', ce, ops) ∧
      Session.LocatesEntry (Geometry.twoPages .shipped)
        ((Geometry.twoPages .shipped).chainEnd 0 [[0]]) 1 ce := by
  obtain ⟨f, ses₀, s, r, nb, fops, ⟨s', r', nb', fops'⟩, himage, hopen, -, hnb, hnb'⟩ :=
    exists_twoBlocks 8192 0
  have hrun : ses₀.allocRun .shipped [.newBlock 0 0 8192] =
      .ok { ses₀.issue fops with s, ring := r } := by
    rw [Session.allocRun, Session.allocStep, hnb]
    rfl
  obtain ⟨-, hiff⟩ := @insertHt_slot .shipped _ 0 [] (fun _ => some f) [1]
    [[0]] _ _ _ _ _ _ _ _ _ _ _
    rfl himage.isChain himage.size_lt (by decide) hopen hrun hnb'
  obtain ⟨ses', ce, ops, hins, hloc⟩ := hiff.mpr (by decide)
  exact ⟨fun _ => some f, ses₀, _, ses', ce, ops, himage, hopen, hrun, hins, hloc⟩

/-- **A full first segment.** `new_block` returns in the next call of `insert_ht`, but no entry with
the location of what it appended comes out of the call. -/
theorem insertHt_misses_slot : ∃ (fs : Fs) (ses : Session)
    (x : Super × Ring × NewBlock × List FileOp),
    IsImage (Geometry.twoPages .shipped) ((fs [1]).getD .empty)
      [List.range 1017] (List.range 1016) ∧
      Session.fmmap .shipped fs [1] (8192 * 2000) 0 = .ok (some ses) ∧
      newBlock .shipped ses.file ses.s ses.ring 0 0 (8192 * 1016) = .ok x ∧
      ¬∃ ses' ce ops, ses.insertHt .shipped 0 0 (8192 * 1016) = .ok (ses', ce, ops) ∧
        Session.LocatesEntry (Geometry.twoPages .shipped)
          ((Geometry.twoPages .shipped).chainEnd 0 [List.range 1017]) 1016 ce := by
  obtain ⟨f, ses, himage, hname, -, hopen, hopened, hroom⟩ := exists_fullSegment
  have hper : (Geometry.twoPages .shipped).perSeg = 1016 := rfl
  have hdvd : pageSize ∣ (Geometry.twoPages .shipped).blockSize := by decide
  generalize Geometry.twoPages .shipped = g at *
  have hinv := hopened.inv hdvd himage
  obtain ⟨⟨s', r', nb, fops⟩, hnb⟩ := hinv.core.exists_newBlock (n := 0) hroom (8192 * 1016)
  have hiff := (hopened.paged himage.isChain himage.size_lt
    hdvd).toLayered.insertHt_locates hdvd hnb
  rw [List.length_range, hper] at hiff
  exact ⟨fun _ => some f, ses, _, himage, hopen, hnb, fun h => absurd (hiff.mp h) (lt_irrefl _)⟩

end Pcow
