import Pcow.Pages

/-!
# Missing faults over a base

`uf_monitor` rounds a fault to a block of the image and maps a new block there, while the base was
mapped in blocks of its own size. Whatever the two sizes are, `new_block` stores to no page that is
mapped. After a missing fault, the block of the fault then reads as the next data block of the
layer, and every other block as before (`Session.Paged.missing`). Hence `missing_keeps_iff`: what
was mapped reads the same exactly if what was mapped of the block of the fault read like that data
block, that is as zeros unless there were bytes behind the last layer (`Session.Stale`). Nothing of
it was mapped if the block size of the base is a multiple of that of the image
(`Session.Whole.missing`).
-/

namespace Pcow

variable {cfg : Config} {g gb : Geometry cfg} {fs : Fs} {fd name : Path} {es : List ℕ}
  {ls lb : List (List ℕ)} {f : ByteFile} {length offset off n n' v p : ℕ} {low : PageTable Path}

/-- Appending an entry stores to no data block. -/
theorem Appends.byte_data {b x i : ℕ} {ops : List FileOp} (happ : Appends g f off es b ops)
    (hx : x < g.blockSize) :
    (FileOp.run ops f).byte (g.dataOff off i + x) = f.byte (g.dataOff off i + x) :=
  FileOp.byte_run_of_not_touches fun o ho ht =>
    (happ.touches o ho _ ht).not_data i ⟨by omega, by omega⟩

namespace Session

variable {ses ses' ses₀ : Session} {ops : List FileOp}

/-! ### One missing fault -/

/-- Appending an entry stores to no page that is mapped. -/
theorem Paged.byte_appends (h : ses.Paged g off es low) {b x : ℕ} {e : Pte Path}
    (happ : Appends g ses.file off es b ops) (hp : ses.pages p = some e) (hx : x < pageSize) :
    (((ses.issue ops).fs e.file).getD .empty).byte (e.off + x) =
      ((ses.fs e.file).getD .empty).byte (e.off + x) := by
  refine byteOf_issue (e := { e with off := e.off + x }) fun hf =>
    FileOp.byte_run_of_not_touches fun o ho ht => ?_
  have hbyte := happ.touches o ho _ ht
  rcases h.page p e hp with ⟨-, -, o', ⟨i, -, rfl⟩, he⟩ | ⟨-, hlow⟩
  · have hmod := page_mod_le h.page_dvd g.blockSize_pos p
    refine hbyte.not_data i ⟨?_, ?_⟩
    · simp only
      omega
    · simp only
      omega
  · have := h.below p e hlow hf
    have := hbyte.mem.1
    simp only at this
    omega

/-- **A missing fault**: the block of the fault is writable and reads as its data block
afterwards, and every other block reads as before. -/
theorem Paged.missing (h : ses.Paged g off es low) (hv : v < ses.s.fmmapLength)
    (hr : ses.ufMonitor cfg n n' v = .ok (ses', ops))
    (hin : v / g.blockSize * g.blockSize ≤ u64 ((ses.s.fmmapLength : ℤ) - g.blockSize)) :
    ses'.Paged g off (es ++ [v / g.blockSize]) low ∧
      (∀ p, p * pageSize / g.blockSize = v / g.blockSize →
        ∃ e, ses'.pages p = some e ∧ e.writable = true) ∧
      (∀ i, ∀ x < g.blockSize,
        ses'.file.byte (g.dataOff off i + x) = ses.file.byte (g.dataOff off i + x)) ∧
      ∀ w, ses'.byteAt w = if w / g.blockSize = v / g.blockSize
        then some (ses.file.byte (g.dataOff off es.length + w % g.blockSize))
        else ses.byteAt w := by
  rw [Session.ufMonitor] at hr
  simp only [h.super.u64_blockSize, div_page h.page_dvd] at hr
  rw [h.super.blockSize, if_pos hin] at hr
  obtain ⟨⟨s', r', nb, ops₁⟩, hnb, hses'⟩ := map_eq_ok hr
  obtain ⟨rfl, rfl⟩ := Prod.mk.inj hses'
  obtain ⟨hpaged, hpages⟩ := h.mapNew hv hnb rfl
  obtain ⟨-, -, -, henv, happ, -⟩ := h.layer.newBlock h.size_lt h.super h.ring hnb
  have hfd : s'.fd = ses.s.fd := henv.1
  have hfile : (({ ses.issue ops₁ with s := s', ring := r' } : Session).remap
      (.mmap (v / g.blockSize * g.blockSize) g.blockSize ses.s.fd nb.blockOff true)).file =
      FileOp.run ops₁ ses.file := @file_issue_of_fd ses ops₁ s' r' hfd
  have hdata : ∀ i, ∀ x < g.blockSize, (FileOp.run ops₁ ses.file).byte (g.dataOff off i + x) =
      ses.file.byte (g.dataOff off i + x) := fun i x hx => happ.byte_data hx
  have hblock : ∀ p, ses.pages.mapRange (v / g.blockSize * g.blockSize) g.blockSize ses.s.fd
      (g.dataOff off es.length) true p = if p * pageSize / g.blockSize = v / g.blockSize then
        some ⟨ses.s.fd, g.dataOff off es.length + p * pageSize % g.blockSize, true⟩
      else ses.pages p := fun p => PageTable.mapRange_block g.blockSize_pos
  refine ⟨hpaged, fun p hp => ?_, by rwa [hfile], fun w => ?_⟩
  · rw [hpages, hblock, if_pos hp]
    exact ⟨_, rfl, rfl⟩
  · rw [byteAt, hpages, hblock, div_page h.page_dvd]
    split
    · rw [Option.map_some, Nat.add_assoc, mod_page h.page_dvd, ← hfd]
      refine congrArg some ?_
      rw [← hdata _ _ (Nat.mod_lt w g.blockSize_pos), ← hfile]
      rfl
    · rw [byteAt]
      rcases hp : ses.pages (w / pageSize) with _ | e
      · rfl
      · exact congrArg some (h.byte_appends happ hp (Nat.mod_lt _ (by decide)))

/-- A fault on which `uf_monitor` finds the block out of its range. -/
theorem ufMonitor_out {k : ℕ} (hs : ses.s.Is g off k) (hdvd : pageSize ∣ g.blockSize)
    (hout : ¬v / g.blockSize * g.blockSize ≤ u64 ((ses.s.fmmapLength : ℤ) - g.blockSize)) :
    ses.ufMonitor cfg n n' v = .ok (ses, []) := by
  rw [ufMonitor]
  simp only [hs.u64_blockSize, div_page hdvd]
  rw [hs.blockSize, if_neg hout]

/-- **What was mapped reads the same after a missing fault** exactly if the fault is out of the
range that is served, or what was mapped of its block read like the next data block. -/
theorem Paged.missing_iff (h : ses.Paged g off es low) (hv : v < ses.s.fmmapLength)
    (hr : ses.ufMonitor cfg n n' v = .ok (ses', ops)) :
    (∀ w y, ses.byteAt w = some y → ses'.byteAt w = some y) ↔
      (v / g.blockSize * g.blockSize ≤ u64 ((ses.s.fmmapLength : ℤ) - g.blockSize) →
        ∀ w y, w / g.blockSize = v / g.blockSize → ses.byteAt w = some y →
          y = ses.file.byte (g.dataOff off es.length + w % g.blockSize)) := by
  by_cases hin : v / g.blockSize * g.blockSize ≤ u64 ((ses.s.fmmapLength : ℤ) - g.blockSize)
  · obtain ⟨-, -, -, hbyte⟩ := h.missing hv hr hin
    constructor
    · intro hkeep _ w y hw hy
      have := hkeep w y hy
      rw [hbyte, if_pos hw] at this
      exact (Option.some.inj this).symm
    · intro hsame w y hy
      rw [hbyte]
      by_cases hw : w / g.blockSize = v / g.blockSize
      · rw [if_pos hw, hsame hin w y hw hy]
      · rw [if_neg hw, hy]
  · rw [ufMonitor_out h.super h.page_dvd hin] at hr
    cases hr
    exact ⟨fun _ hle => absurd hle hin, fun _ w y hy => hy⟩

/-! ### Data blocks that were not handed out -/

/-- **The data blocks behind the last entry are as in the file `f`.** -/
structure Stale (ses : Session) (g : Geometry cfg) (f : ByteFile) (off : ℕ) (es : List ℕ)
    (low : PageTable Path) : Prop extends ses.Paged g off es low where
  data : ∀ i, es.length ≤ i → ∀ x < g.blockSize,
    ses.file.byte (g.dataOff off i + x) = f.byte (g.dataOff off i + x)

/-- **A missing fault** hands out the next data block as it is. -/
theorem Stale.missing (h : ses.Stale g f off es low) (hv : v < ses.s.fmmapLength)
    (hr : ses.ufMonitor cfg n n' v = .ok (ses', ops))
    (hin : v / g.blockSize * g.blockSize ≤ u64 ((ses.s.fmmapLength : ℤ) - g.blockSize)) :
    ses'.Stale g f off (es ++ [v / g.blockSize]) low ∧
      ∀ w, ses'.byteAt w = if w / g.blockSize = v / g.blockSize
        then some (f.byte (g.dataOff off es.length + w % g.blockSize)) else ses.byteAt w := by
  obtain ⟨hpaged, -, hdata, hbyte⟩ := h.toPaged.missing hv hr hin
  refine ⟨⟨hpaged, fun i hi x hx => ?_⟩, fun w => ?_⟩
  · rw [List.length_append, List.length_singleton] at hi
    rw [hdata i x hx, h.data i (by omega) x hx]
  · rw [hbyte, h.data _ le_rfl _ (Nat.mod_lt w g.blockSize_pos)]

/-- A store of the guest goes to a data block that is handed out. -/
theorem Stale.poke (h : ses.Stale g f off es low) {e : Pte Path} {x : ℕ}
    (hp : ses.pages p = some e) (hw : e.writable = true) (hx : x < pageSize) (y : ℕ) :
    (ses.poke e x y).Stale g f off es low := by
  obtain ⟨hf, i, hi, hle, hlt⟩ := h.writable_lt hp hw
  refine ⟨h.toPaged.poke hp hw hx y, fun j hj z hz => ?_⟩
  rw [file_poke hf, ByteFile.byte_store_of_notMem, h.data j hj z hz]
  by_contra hmem
  have : i = j := @Geometry.dataOff_apart cfg g off i j (by omega) (by omega)
  omega

theorem Stale.tick (h : ses.Stale g f off es low) (hr : ses.tick cfg = .ok ses') :
    ses'.Stale g f off es low := by
  refine ⟨h.toPaged.tick hr, fun i hi x hx => ?_⟩
  rw [tick_byte hr, h.data i hi x hx]

/-- A missing fault is served where `new_block` returns. -/
theorem Paged.exists_ufMonitor (h : ses.Paged g off es low)
    (hnew : ∃ x, Pcow.newBlock cfg ses.file ses.s ses.ring n n' (v / g.blockSize * g.blockSize) =
      .ok x) : ∃ x, ses.ufMonitor cfg n n' v = .ok x := by
  by_cases hin : v / g.blockSize * g.blockSize ≤ u64 ((ses.s.fmmapLength : ℤ) - g.blockSize)
  · obtain ⟨x, hx⟩ := hnew
    rw [Session.ufMonitor]
    simp only [h.super.u64_blockSize, div_page h.page_dvd]
    rw [h.super.blockSize, if_pos hin, hx]
    exact ⟨_, rfl⟩
  · exact ⟨_, ufMonitor_out h.super h.page_dvd hin⟩

/-- A store to a writable page is made at once. -/
theorem Paged.store (h : ses.Paged g off es low) {e : Pte Path}
    (hp : ses.pages (v / pageSize) = some e) (hw : e.writable = true) (x : UInt8) :
    ses.store cfg n n' v x = .ok (ses.poke e (v % pageSize) x.toNat, true) ∧
      (ses.poke e (v % pageSize) x.toNat).byteAt v = some x := by
  obtain ⟨hf, i, hi, hle, hlt⟩ := h.writable_lt hp hw
  have hmod : v % pageSize < pageSize := Nat.mod_lt _ (by decide)
  have hsz := h.layer.size_le
  have hend : e.off + v % pageSize < g.endOff off es.length :=
    (Geometry.quiet_of_data hi (by omega) (by omega)).2.1
  have hin : e.off + v % pageSize < ((ses.fs e.file).getD .empty).size := by
    rw [hf]
    change _ < ses.file.size
    omega
  constructor
  · rw [Session.store, Session.fault, hp]
    simp only
    rw [if_neg (by simp [hw])]
    simp only
    rw [hp]
    simp only
    rw [if_neg (not_not.mpr hw), if_neg (not_not.mpr (ByteFile.backed_of_lt hin))]
    rfl
  · rw [byteAt, show (ses.poke e (v % pageSize) x.toNat).pages = ses.pages from rfl, hp,
      Option.map_some, Session.poke]
    simp only [Function.update_self, Option.getD_some]
    rw [ByteFile.byte_store_of_mem le_rfl (by omega) hin, Nat.sub_self, pow_zero, Nat.div_one,
      Nat.mod_eq_of_lt x.toNat_lt, UInt8.ofNat_toNat]

/-! ### Blocks that are mapped as a whole -/

/-- **A block is mapped as a whole or not at all.** -/
def Whole (ses : Session) (n : ℕ) : Prop :=
  ∀ p p', p * pageSize / n = p' * pageSize / n → ses.pages p ≠ none → ses.pages p' ≠ none

/-- Then the block of a missing page reads as nothing. -/
theorem Whole.missing {k : ℕ} (h : ses.Whole k) (hdvd : pageSize ∣ k)
    (hmiss : ses.pages (v / pageSize) = none) {w : ℕ} (hw : w / k = v / k) :
    ses.byteAt w = none := by
  rw [byteAt, Option.map_eq_none_iff]
  by_contra hne
  refine h (w / pageSize) (v / pageSize) ?_ hne hmiss
  rw [div_page hdvd, div_page hdvd, hw]

/-- And no page of the block of a mapped page is missing. -/
theorem Whole.firstMissing_eq_none (h : ses.Whole g.blockSize) (hs : ses.Paged g off es low)
    (hp : ses.pages (v / pageSize) ≠ none) :
    ses.firstMissing (v / g.blockSize * g.blockSize) = none :=
  firstMissing_of_mapped hs.page_dvd g.blockSize_pos hs.super.u64_blockSize fun p hb =>
    h (v / pageSize) p (by rw [div_page hs.page_dvd, hb]) hp

/-- **A base whose blocks are a multiple of those of the image** is mapped in whole blocks of the
image. -/
theorem whole_chainSession {fs' : Fs} (hbs : g.blockSize ∣ gb.blockSize) :
    (chainSession g fd ls es length (fs', (gb.walkBindings name lb).flatMap
      (readonlyCalls gb.blockSize))).Whole g.blockSize := by
  intro p p' hp hne
  obtain ⟨k, hk⟩ := hbs
  rw [chainSession_mapped, hk, ← Nat.div_div_eq_div_mul] at hne ⊢
  rwa [← hp]

/-- A change in a block that is mapped afterwards. -/
theorem Whole.confined (h : ses.Whole (u64 ses.s.blockSize)) (hc : ses.Confined ses' v)
    (hmapped : ∀ p, p * pageSize / u64 ses.s.blockSize = v / u64 ses.s.blockSize →
      ses'.pages p ≠ none) : ses'.Whole (u64 ses.s.blockSize) := by
  intro p p' hp hne
  by_cases hb : p' * pageSize / u64 ses.s.blockSize = v / u64 ses.s.blockSize
  · exact hmapped p' hb
  · have hb' : p * pageSize / u64 ses.s.blockSize ≠ v / u64 ses.s.blockSize := by rwa [hp]
    rw [hc.pages p' hb]
    rw [hc.pages p hb'] at hne
    exact h p p' hp hne

/-- A step of a session keeps blocks whole: a missing fault maps a block, and `cow_handler` is
called for one that is mapped. -/
theorem Whole.step (h : ses.Whole g.blockSize) (hs : ses.Paged g off es low)
    (hstep : ses.Faults cfg ses') : ses'.Whole g.blockSize := by
  have hu := hs.super.u64_blockSize
  have hdvd : pageSize ∣ u64 ses.s.blockSize := hu.symm ▸ hs.page_dvd
  have hpos : 0 < u64 ses.s.blockSize := hu.symm ▸ g.blockSize_pos
  cases hstep with
  | @missing _ ops n n' v hv _ hr =>
    by_cases hin : v / g.blockSize * g.blockSize ≤ u64 ((ses.s.fmmapLength : ℤ) - g.blockSize)
    · obtain ⟨-, hmapped, -⟩ := hs.missing hv hr hin
      rw [← hu] at h hmapped ⊢
      refine h.confined (ufMonitor_confined hdvd hpos hr) fun p hp => ?_
      obtain ⟨e, he, -⟩ := hmapped p hp
      rw [he]
      exact Option.some_ne_none e
    · rw [ufMonitor_out hs.super hs.page_dvd hin] at hr
      cases hr
      exact h
  | @copy _ ops n n' v e hv hp _ hr =>
    have hc := cowHandler_confined hdvd hpos hr
    rw [← hu] at h ⊢
    refine h.confined hc fun p hb => hc.mapped p (h (v / pageSize) p ?_ ?_)
    · rw [div_page hdvd, hb]
    · rw [hp]
      exact Option.some_ne_none e
  | write y hp hw hx => exact h
  | tick hr =>
    intro p p' hp
    rw [(tick_ok hr).2.2.1]
    exact h p p' hp

/-- **Blocks stay mapped as a whole** along every run. -/
theorem Whole.run (h : ses.Whole g.blockSize) (hs : ses.Paged g off es low)
    (hrun : Relation.ReflTransGen (Faults cfg) ses ses') :
    ses'.Whole g.blockSize ∧ ∃ es', ses'.Paged g off es' low := by
  induction hrun with
  | refl => exact ⟨h, es, hs⟩
  | tail _ hstep ih =>
    obtain ⟨h₁, es₁, hs₁⟩ := ih
    obtain ⟨es₂, -, hs₂, -⟩ := hs₁.step hstep.advances
    exact ⟨h₁.step hs₁ hstep, es₂, hs₂⟩

end Session

/-- A session just opened, over a base whose blocks are a multiple of those of the image. -/
theorem IsChain.whole_of_fmmap {ses : Session} (h : IsChain g ((fs fd).getD .empty) 0 (ls ++ [es]))
    (hf : ((fs fd).getD .empty).size < 2 ^ 63)
    (hbase : HasBase fs (baseImageName ((fs fd).getD .empty) 0) gb lb)
    (hbs : g.blockSize ∣ gb.blockSize)
    (hopen : Session.fmmap cfg fs fd length offset = .ok (some ses)) : ses.Whole g.blockSize := by
  obtain ⟨fs', hmaps, -⟩ := hbase.baseMaps
  obtain ⟨-, x, hmaps', rfl⟩ := h.fmmap_ok rfl hf hopen
  rw [hmaps] at hmaps'
  cases hmaps'
  exact Session.whole_chainSession hbs

/-- A session just opened on an image with zeros behind its last layer. -/
theorem IsImage.stale_of_fmmap {ses : Session} (h : IsImage g ((fs fd).getD .empty) ls es)
    (hdvd : pageSize ∣ g.blockSize)
    (hopen : Session.fmmap cfg fs fd length offset = .ok (some ses)) :
    ∃ low, ses.Stale g .empty (g.chainEnd 0 ls) es low := by
  obtain ⟨low, hpaged⟩ := h.isChain.paged_of_fmmap h.size_lt hdvd hopen
  obtain ⟨-, ⟨fs', m⟩, hmaps, rfl⟩ := h.isChain.fmmap_ok rfl h.size_lt hopen
  have hfile := (keeps_baseMaps (P := fun _ => True) (fun _ => trivial) hmaps).2 fd
  refine ⟨low, hpaged, fun i hi x hx => ?_⟩
  change ((fs' fd).getD .empty).byte _ = 0
  rw [hfile]
  refine h.tail _ ?_ fun happ => happ.not_data i ⟨by omega, by omega⟩
  have := g.endOff_le_dataOff (g.chainEnd 0 ls) i
  have : g.endOff (g.chainEnd 0 ls) es.length ≤ g.endOff (g.chainEnd 0 ls) i :=
    Geometry.blockAt_mono _ (Geometry.blocks_mono hi)
  omega

/-- **When a missing fault hides nothing.** For every image, over any base, and every state that
its session reaches, by faults that are handled one at a time, stores of the guest and iterations of
the allocator thread, and every fault there: the file has its last layer, with entries `es'`, and
after `uf_monitor` handled the fault, what was mapped reads the same exactly if the fault is out of
the range that `uf_monitor` serves, or what was mapped of the block of the fault (a block of the
size of the image) read as the next data block of that layer does. -/
theorem missing_keeps_iff (g : Geometry cfg) (fs : Fs) (fd : Path) (ls : List (List ℕ))
    (es : List ℕ) (length offset n n' v : ℕ) (ses₀ ses ses' : Session) (ops : List FileOp)
    (h : IsChain g ((fs fd).getD .empty) 0 (ls ++ [es]))
    (hf : ((fs fd).getD .empty).size < 2 ^ 63) (hdvd : pageSize ∣ g.blockSize)
    (hopen : Session.fmmap cfg fs fd length offset = .ok (some ses₀))
    (hrun : Relation.ReflTransGen (Session.Advances cfg) ses₀ ses) (hv : v < ses.s.fmmapLength)
    (hr : ses.ufMonitor cfg n n' v = .ok (ses', ops)) :
    ∃ es', IsLayer g ses.file (g.chainEnd 0 ls) es' ∧
      ((∀ w y, ses.byteAt w = some y → ses'.byteAt w = some y) ↔
        (v / g.blockSize * g.blockSize ≤ u64 ((ses.s.fmmapLength : ℤ) - g.blockSize) →
          ∀ w y, w / g.blockSize = v / g.blockSize → ses.byteAt w = some y →
            y = ses.file.byte (g.dataOff (g.chainEnd 0 ls) es'.length + w % g.blockSize))) := by
  obtain ⟨low, h₀⟩ := h.paged_of_fmmap hf hdvd hopen
  obtain ⟨es', -, h', -⟩ := h₀.run hrun
  exact ⟨es', h'.layer, h'.missing_iff hv hr⟩

/-- **A missing fault hides nothing where the blocks of the base are a multiple of those of the
image**, in particular where both have the same size. -/
theorem missing_keeps_of_dvd (g gb : Geometry cfg) (fs : Fs) (fd : Path) (ls lb : List (List ℕ))
    (es : List ℕ) (length offset n n' v : ℕ) (ses₀ ses ses' : Session) (ops : List FileOp)
    (h : IsChain g ((fs fd).getD .empty) 0 (ls ++ [es]))
    (hf : ((fs fd).getD .empty).size < 2 ^ 63)
    (hbase : HasBase fs (baseImageName ((fs fd).getD .empty) 0) gb lb)
    (hdvd : pageSize ∣ g.blockSize) (hbs : g.blockSize ∣ gb.blockSize)
    (hopen : Session.fmmap cfg fs fd length offset = .ok (some ses₀))
    (hrun : Relation.ReflTransGen (Session.Faults cfg) ses₀ ses) (hv : v < ses.s.fmmapLength)
    (hmiss : ses.pages (v / pageSize) = none)
    (hr : ses.ufMonitor cfg n n' v = .ok (ses', ops)) :
    ∀ w y, ses.byteAt w = some y → ses'.byteAt w = some y := by
  obtain ⟨low, h₀⟩ := h.paged_of_fmmap hf hdvd hopen
  obtain ⟨hwhole, es', h'⟩ := (h.whole_of_fmmap hf hbase hbs hopen).run h₀ hrun
  refine (h'.missing_iff hv hr).mpr fun _ w y hw hy => ?_
  rw [hwhole.missing hdvd hmiss hw] at hy
  cases hy

/-- An image without entries over a base with the block 0, which starts with the byte 1. Missing
faults are served. -/
theorem exists_overBase (g gb : Geometry .shipped) (hdvd : pageSize ∣ g.blockSize)
    (hbs' : g.blockSize < 2 ^ 30) (hcap' : 1 ≤ g.cap)
    (hend' : g.blockAt 0 (g.blocks 0 + maxPreNum) < 2 ^ 63) (hbs : gb.blockSize < 2 ^ 30)
    (hcap : 1 ≤ gb.cap) (hend : gb.chainEnd 0 [[0]] < 2 ^ 63) {length : ℕ}
    (hlen : g.LengthOk length 0) (h0 : length ≠ 0) : ∃ (fs : Fs) (ses : Session),
    IsImage g ((fs [1]).getD .empty) [] [] ∧
      HasBase fs (baseImageName ((fs [1]).getD .empty) 0) gb [[0]] ∧
      Session.fmmap .shipped fs [1] length 0 = .ok (some ses) ∧
      (∃ low, ses.Stale g .empty 0 [] low) ∧
      ses.s.fmmapLength = length ∧ ses.globalLength = length ∧ ses.ring = .init ∧
      ses.cow = initFgcow ∧ ses.byteAt 0 = some 1 ∧
      (∀ p, ses.pages p ≠ none ↔ p * pageSize / gb.blockSize ∈ [0]) ∧
      ∀ v, ∃ x, newBlock .shipped ses.file ses.s ses.ring 0 0 v = .ok x := by
  obtain ⟨f, himage, -, -⟩ := exists_image_nil g hbs'
  obtain ⟨f₁, himage₁, hname⟩ := himage.exists_name (show (2 : UInt8) ≠ 0 by decide)
  obtain ⟨f₀, himage₀, hzero, hsz⟩ :=
    exists_image gb [] [0] hbs (by simpa using hcap) (by simp) hend
  have hdata : gb.dataOff 0 0 + gb.blockSize = gb.chainEnd 0 [[0]] := by
    rw [gb.dataOff_add]
    rfl
  have hpos := gb.blockSize_pos
  have hent := gb.entry_le
  have h16 : 16 < gb.dataOff 0 0 := by
    have := gb.add_blockSize_le_endOff 0 0
    have := gb.endOff_le_dataOff 0 0
    omega
  -- the byte of the base
  have himage₂ : IsImage gb (f₀.store (gb.dataOff 0 0) 1 1) [] [0] := by
    refine himage₀.write rfl fun a ha => ⟨0, Nat.one_pos, ?_⟩
    have hmem : gb.dataOff 0 0 ≤ a ∧ a < gb.dataOff 0 0 + 1 := by
      by_contra hout
      exact ha (ByteFile.byte_store_of_notMem (by omega))
    change gb.dataOff 0 0 ≤ a ∧ a < gb.dataOff 0 0 + gb.blockSize
    omega
  have hbyte : (f₀.store (gb.dataOff 0 0) 1 1).byte (gb.dataOff 0 0) = 1 := by
    rw [ByteFile.byte_store_of_mem le_rfl (by omega) (by rw [hsz, List.nil_append]; omega)]
    simp
  have hzero₂ : (f₀.store (gb.dataOff 0 0) 1 1).byte 16 = 0 := by
    rw [ByteFile.byte_store_of_notMem (by omega), hzero]
  let fs : Fs := fun p => some (if p = [1] then f₁ else f₀.store (gb.dataOff 0 0) 1 1)
  have hhas : HasBase fs [2] gb [[0]] := Or.inr (Or.inr ⟨by decide, by decide, himage₂.isChain,
    himage₂.size_lt, baseImageName_eq_nil hzero₂⟩)
  have hbase : HasBase fs (baseImageName ((fs [1]).getD .empty) 0) gb [[0]] := by
    change HasBase fs (baseImageName f₁ 0) gb [[0]]
    rw [hname]
    exact hhas
  obtain ⟨fs', hmaps, hfs⟩ := hbase.baseMaps
  have hex : ∃ ses, Session.fmmap .shipped fs [1] length 0 = .ok (some ses) :=
    himage₁.isChain.exists_fmmap rfl himage₁.size_lt hlen hmaps
  obtain ⟨ses, hopen⟩ := hex
  obtain ⟨low, hstale⟩ : ∃ low, ses.Stale g .empty 0 [] low :=
    @IsImage.stale_of_fmmap _ _ fs [1] [] [] _ _ ses himage₁ hdvd hopen
  have hopen' := hopen
  obtain ⟨-, x, hmaps', rfl⟩ := himage₁.isChain.fmmap_ok rfl himage₁.size_lt hopen'
  rw [show baseImageName f₁ 0 = baseImageName ((fs [1]).getD .empty) 0 from rfl, hmaps] at hmaps'
  cases hmaps'
  refine ⟨fs, _, himage₁, hbase, hopen, ⟨low, hstale⟩, if_neg h0, rfl, rfl, rfl, ?_, fun p => ?_,
    fun v => ?_⟩
  · have hpages : (chainSession g [1] [] [] length (fs',
        (gb.walkBindings [2] [[0]]).flatMap (readonlyCalls gb.blockSize))).pages 0 =
        some ⟨[2], gb.dataOff 0 0 + 0 * pageSize % gb.blockSize, false⟩ := by
      change PageTable.run (_ ++ [] ++ []) _ 0 = _
      rw [List.append_nil, List.append_nil, Geometry.run_walkBindings, Geometry.run_readonlyCalls,
        PageTable.overlay, Nat.zero_mul, Nat.zero_div]
      rfl
    rw [Session.byteAt, Nat.zero_div, show baseImageName ((fs [1]).getD .empty) 0 = [2] from hname,
      hpages, Option.map_some, Nat.zero_mul, Nat.zero_mod, Nat.zero_mod, Nat.add_zero]
    change some (((fs' [2]).getD .empty).byte (gb.dataOff 0 0)) = some 1
    rw [hfs [2]]
    exact congrArg some hbyte
  · rw [chainSession_mapped]
    simp
  · refine hstale.layer.exists_newBlock hstale.size_lt hstale.super hstale.ring hcap' hend'
      fun _ => Or.inr ⟨rfl, ?_⟩
    have hneed : g.need 0 = 1 := by
      rw [Geometry.need, if_pos]
      rw [Nat.zero_sub]
      exact g.perSeg_pos
    change 0 + g.need 0 ≤ g.cap
    omega

/-- The range of two blocks, in blocks of two pages. -/
theorem exists_overPages (gb : Geometry .shipped) (hbs : gb.blockSize < 2 ^ 30)
    (hcap : 1 ≤ gb.cap) (hend : gb.chainEnd 0 [[0]] < 2 ^ 63) : ∃ (fs : Fs) (ses : Session),
    IsImage (Geometry.twoPages .shipped) ((fs [1]).getD .empty) [] [] ∧
      HasBase fs (baseImageName ((fs [1]).getD .empty) 0) gb [[0]] ∧
      Session.fmmap .shipped fs [1] (8192 * 2) 0 = .ok (some ses) ∧
      (∃ low, ses.Stale (Geometry.twoPages .shipped) .empty 0 [] low) ∧
      ses.s.fmmapLength = 8192 * 2 ∧ ses.ring = .init ∧ ses.byteAt 0 = some 1 ∧
      (∀ p, ses.pages p ≠ none ↔ p * pageSize / gb.blockSize ∈ [0]) ∧
      ∀ v, ∃ x, ses.ufMonitor .shipped 0 0 v = .ok x := by
  obtain ⟨fs, ses, himage, hhas, hopen, ⟨low, hstale⟩, hlen, -, hring, -, hbyte, hmapped, hnew⟩ :=
    exists_overBase (Geometry.twoPages .shipped) gb (by decide) (by decide) (by decide)
      (by decide) hbs
      hcap hend (@Geometry.lengthOk_of_pages _ _ 2 (by decide) (by decide)) (by decide)
  exact ⟨fs, ses, himage, hhas, hopen, ⟨low, hstale⟩, hlen, hring, hbyte, hmapped,
    fun v => hstale.exists_ufMonitor (hnew _)⟩

/-- Blocks of one size: the fault on the second block leaves the first one as it is. -/
theorem missing_keeps_equal : ∃ (fs : Fs) (ses ses' : Session) (ops : List FileOp),
    Session.fmmap .shipped fs [1] (8192 * 2) 0 = .ok (some ses) ∧ ses.pages 2 = none ∧
      ses.ufMonitor .shipped 0 0 8192 = .ok (ses', ops) ∧ ses.byteAt 0 = some 1 ∧
      ∀ w y, ses.byteAt w = some y → ses'.byteAt w = some y := by
  obtain ⟨fs, ses, himage, hbase, hopen, -, hlen, -, hbyte, hmapped, hserved⟩ :=
    exists_overPages (Geometry.twoPages .shipped) (by decide) (by decide) (by decide)
  have hmiss : ∀ p, p * pageSize / 8192 ≠ 0 → ses.pages p = none := by
    intro p hp
    by_contra hne
    exact hp (List.mem_singleton.mp ((hmapped p).mp hne))
  obtain ⟨⟨ses', ops⟩, hr⟩ := hserved 8192
  refine ⟨fs, ses, ses', ops, hopen, hmiss 2 (by decide), hr, hbyte, ?_⟩
  obtain ⟨es', -, hiff⟩ := missing_keeps_iff _ fs [1] [] [] (8192 * 2) 0 0 0 8192 ses ses ses' ops
    himage.isChain himage.size_lt (by decide) hopen .refl (by rw [hlen]; decide) hr
  refine hiff.mpr fun _ w y hw hy => ?_
  have hblock : w / pageSize * pageSize / 8192 = 1 := by
    rw [div_page (by decide)]
    exact hw
  rw [Session.byteAt, hmiss _ (by omega)] at hy
  cases hy

/-- **A base with smaller blocks**: the base has the first page of the first block of the image,
which starts with the byte 1. A fault on the second page of the block, which is missing, makes it
read as 0. -/
theorem missing_hides : ∃ (fs : Fs) (ses ses' : Session) (ops : List FileOp),
    IsImage (Geometry.twoPages .shipped) ((fs [1]).getD .empty) [] [] ∧
      HasBase fs (baseImageName ((fs [1]).getD .empty) 0) (Geometry.onePage .shipped) [[0]] ∧
      Session.fmmap .shipped fs [1] (8192 * 2) 0 = .ok (some ses) ∧ ses.pages 1 = none ∧
      ses.ufMonitor .shipped 0 0 4096 = .ok (ses', ops) ∧
      ses.byteAt 0 = some 1 ∧ ses'.byteAt 0 = some 0 := by
  obtain ⟨fs, ses, himage, hbase, hopen, ⟨low, hstale⟩, hlen, -, hbyte, hmapped, hserved⟩ :=
    exists_overPages (Geometry.onePage .shipped) (by decide) (by decide) (by decide)
  have hmiss : ses.pages 1 = none := by
    by_contra hne
    have := List.mem_singleton.mp ((hmapped 1).mp hne)
    exact absurd this (by decide)
  obtain ⟨⟨ses', ops⟩, hr⟩ := hserved 4096
  have hin : 4096 / 8192 * 8192 ≤ u64 ((ses.s.fmmapLength : ℤ) - (8192 : ℕ)) := by
    rw [hlen]
    decide
  obtain ⟨-, hbytes⟩ := hstale.missing (by rw [hlen]; decide) hr hin
  exact ⟨fs, ses, ses', ops, himage, hbase, hopen, hmiss, hr, hbyte, hbytes 0⟩

end Pcow
