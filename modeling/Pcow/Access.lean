import Pcow.Handlers

/-!
# Accesses of the guest

A load or a store of the guest with the fault it runs into (`Session.load`,
`Session.store`), and an iteration of the allocator thread in between
(`Session.tick`). Each keeps the invariant of the session. A load that comes to an
end returns what the guest sees at that offset, and a store that comes to an end
changes what the guest sees at that offset and nowhere else.

The conditions under which this holds and under which an access comes to an end are
conditions on the state before it, in the terms of the source: `Session.CowOk` and
`Session.Room`.
-/

namespace Pcow

variable {cfg : Config} {g : Geometry cfg} {v : ℕ} {es : List ℕ} {ls : List (List ℕ)}
  {low : ℕ → Option (Path × ℕ)}

/-- The number of blocks the next entry takes. -/
def Super.need (s : Super) : ℕ := if s.activeMeta.counter < s.maxPerSeg then 1 else 2

namespace Session

variable {ses ses' : Session} {n n' : ℕ} {write : Bool}

/-! ### Conditions on an access -/

/-- The offset is one that the range checks of both handlers let pass. -/
def InReach (ses : Session) (v : ℕ) : Prop :=
  v < ses.s.fmmapLength ∧ v ≤ u64 ((ses.s.fmmapLength : ℤ) - ses.s.blockSize) ∧
    v ≤ u64 ((ses.globalLength : ℤ) - ses.s.blockSize)

/-- The access is a write to a write-protected page. -/
def IsCow (ses : Session) (v : ℕ) (write : Bool) : Prop :=
  write = true ∧ ∃ e, ses.pages (v / pageSize) = some e ∧ e.writable = false

/-- **Fine-grained copies work for this access**: a block has more than one unit, and
if the block is not in the table of incomplete blocks, the number `insert_ht` computes
for its meta block names one. -/
def CowOk (cfg : Config) (ses : Session) (v : ℕ) (write : Bool) : Prop :=
  cfg.finegrainedCow = true → ses.IsCow v write →
    v ≤ u64 ((ses.globalLength : ℤ) - ses.s.blockSize) →
      (cowUnit : ℤ) < ses.s.blockSize ∧ (ses.NeedsBlock v → ses.s.MetaNOk)

/-- The access makes `new_block` allocate a block. -/
def Allocates (cfg : Config) (ses : Session) (v : ℕ) (write : Bool) : Prop :=
  ses.pages (v / pageSize) = none ∨
    ses.IsCow v write ∧ (cfg.finegrainedCow = true → ses.NeedsBlock v)

/-- **There is room for a block**: the layer is below its capacity, the file is not
at its limit, and the blocks are in the ring or its thread still makes them. -/
def Room (cfg : Config) (ses : Session) : Prop :=
  ses.s.toAllocNum ≤ ses.s.maxBlockNum ∧
    (ses.s.nextOff : ℤ) + ses.s.blockSize * maxPreNum < 2 ^ 63 ∧
    (cfg.preAlloc = true → ses.s.need ≤ ses.ring.nbAvailable ∨
      ses.ring.running = true ∧ ses.s.toAllocNum - 1 + ses.s.need ≤ ses.s.maxBlockNum)

/-- `new_block` returns where there is room. -/
theorem Room.exists_newBlock {off : ℕ} (hroom : ses.Room cfg) (h : IsLayer g ses.file off es)
    (hf : ses.file.size < 2 ^ 63) (hs : ses.s.Is g off es.length)
    (hring : RingInv g ses.file off es.length ses.s ses.ring) (faultOff : ℕ) :
    ∃ x, newBlock cfg ses.file ses.s ses.ring n n' faultOff = .ok x := by
  obtain ⟨hcap, hend, hserve⟩ := hroom
  have hlt := g.cap_lt
  have hcap' : es.length + 1 ≤ g.cap := by
    rw [hs.toAllocNum, hs.maxBlockNum] at hcap
    rw [Geometry.cap]
    omega
  have hoff : g.endOff off es.length < 2 ^ 64 := h.blockAt_lt hf le_rfl
  have hneed : ses.s.need = g.need es.length := by
    rw [Super.need, Geometry.need, hs.counter, hs.maxPerSeg]
    simp only [Nat.cast_lt]
  refine h.exists_newBlock hf hs hring hcap' ?_ fun hpre => ?_
  · rw [hs.nextOff hoff, hs.blockSize, Geometry.endOff, Geometry.blockAt] at hend
    rw [Geometry.blockAt, Nat.mul_add]
    push_cast at hend
    rw [show maxPreNum = 5 from rfl] at *
    omega
  · have := hserve hpre
    rw [hneed, hs.toAllocNum, hs.maxBlockNum] at this
    rw [Ring.Serves, Geometry.cap]
    refine this.imp (fun h => by omega) fun h => ⟨h.1, by omega⟩

theorem Core.exists_newBlock {moved : ℕ → Option (List ℕ)} (h : ses.Core g ls es low moved)
    (hroom : ses.Room cfg) (faultOff : ℕ) :
    ∃ x, newBlock cfg ses.file ses.s ses.ring n n' faultOff = .ok x :=
  hroom.exists_newBlock h.image.last h.image.size_lt h.super h.ring faultOff

/-! ### Faults -/

/-- So does `cow_handler`. -/
theorem Inv.exists_cowHandler (h : ses.Inv g ls es low) (hroom : ses.Room cfg)
    (hcfg : cfg.finegrainedCow = true) (hbs : cowUnit < g.blockSize) (hv : v < ses.s.fmmapLength)
    {e : Pte Path} (hp : ses.pages (v / pageSize) = some e) (hw : e.writable = false)
    (hle : v ≤ u64 ((ses.globalLength : ℤ) - g.blockSize))
    (hmeta : ses.NeedsBlock v → ses.s.MetaNOk) :
    ∃ ses' ops, ses.cowHandler cfg n n' v = .ok (ses', ops) ∧ ses.Served ses' g ls es low v := by
  rcases @Inv.cowHandler _ _ _ _ _ _ _ n n' h hcfg hbs hv _ hp hw hle hmeta
    with hok | ⟨err, -, hnb, -⟩
  · exact hok
  · obtain ⟨x, hx⟩ := @Core.exists_newBlock _ _ _ _ _ _ n n' _ h.core hroom
      (v / g.blockSize * g.blockSize)
    rw [hnb] at hx
    cases hx

/-- **A fault, served**: it fails only where `new_block` does. Otherwise the guest sees
no change, and an access within reach is possible afterwards. -/
theorem Inv.fault (h : ses.Inv g ls es low) (hv : v < ses.s.fmmapLength)
    (hcow : ses.CowOk cfg v write) (n n' : ℕ) :
    (∃ ses' ops es', ses.fault cfg n n' v write = .ok (ses', ops) ∧ Grows (v / g.blockSize) es es' ∧
        ses'.Inv g ls es' low ∧ ses.Same ses' ∧
        (ses.InReach v → ∃ e, ses'.pages (v / pageSize) = some e ∧
          (write = true → e.writable = true))) ∨
      ∃ err, ses.Allocates cfg v write ∧
        newBlock cfg ses.file ses.s ses.ring n n' (v / g.blockSize * g.blockSize) = .error err ∧
        ses.fault cfg n n' v write = .error err := by
  have hz := h.core.super.blockSize
  have hu := h.core.super.u64_blockSize
  rw [Session.fault]
  rcases hp : ses.pages (v / pageSize) with _ | e
  · simp only
    rcases huf : ses.ufMonitor cfg n n' v with err | ⟨ses', ops⟩
    · right
      refine ⟨err, Or.inl hp, ?_, rfl⟩
      rw [Session.ufMonitor] at huf
      simp only [hu, div_page h.core.page_dvd] at huf
      split at huf
      · rcases hnb : newBlock cfg ses.file ses.s ses.ring n n' (v / g.blockSize * g.blockSize) with
          e | x
        · rw [hnb] at huf
          cases huf
          rfl
        · rw [hnb] at huf
          cases huf
      · cases huf
    · left
      obtain ⟨es', hgrow, hinv, hsame, hmap⟩ := h.ufMonitor hv hp huf
      refine ⟨ses', ops, es', rfl, hgrow, hinv, hsame, fun hreach => ?_⟩
      have hle := hreach.2.1
      rw [hz] at hle
      obtain ⟨e, he, hw⟩ := hmap (le_trans (Nat.div_mul_le_self _ _) hle)
      exact ⟨e, he, fun _ => hw⟩
  · simp only
    by_cases hprot : write = true ∧ e.writable = false
    · obtain ⟨hwr, hw⟩ := hprot
      have hiscow : ses.IsCow v write := ⟨hwr, e, hp, hw⟩
      rw [hwr, hw]
      simp only [Bool.not_false, Bool.and_self, if_true]
      by_cases hout : v ≤ u64 ((ses.globalLength : ℤ) - g.blockSize)
      · rcases hcfg : cfg.finegrainedCow with _ | _
        · -- whole blocks
          have heq : ses.cowHandler cfg n n' v =
              ses.copyPlain cfg n n' (v / g.blockSize * g.blockSize) := by
            rw [Session.cowHandler, hz, if_neg (by omega)]
            simp only [hcfg, Bool.false_eq_true, if_false, ← hz, hu]
          rw [heq]
          rcases h.copyPlain (n := n) hcfg hv hp hw
            with ⟨ses', ops, hr, es', hgrow, hinv, hsame, e', he'⟩ |
            ⟨err, hnb, hr⟩
          · exact Or.inl ⟨ses', ops, es', hr, hgrow, hinv, hsame,
              fun _ => ⟨e', he'.1, fun _ => he'.2⟩⟩
          · exact Or.inr ⟨err,
              Or.inr ⟨hwr ▸ hiscow, fun hc => by rw [hcfg] at hc; cases hc⟩, hnb, hr⟩
        · obtain ⟨hbs, hmeta⟩ := hcow hcfg hiscow (by rw [hz]; exact hout)
          rw [hz] at hbs
          rcases h.cowHandler (n := n) hcfg (by omega) hv hp hw hout hmeta with
            ⟨ses', ops, hr, es', hgrow, hinv, hsame, e', he'⟩ | ⟨err, hneeds, hnb, hr⟩
          · exact Or.inl ⟨ses', ops, es', hr, hgrow, hinv, hsame,
              fun _ => ⟨e', he'.1, fun _ => he'.2⟩⟩
          · exact Or.inr ⟨err, Or.inr ⟨hwr ▸ hiscow, fun _ => hneeds⟩, hnb, hr⟩
      · refine Or.inl ⟨ses, [], es, ?_, Or.inl rfl, h, Same.refl, fun hreach => ?_⟩
        · rw [Session.cowHandler, hz, if_pos (by omega)]
        · have := hreach.2.2
          rw [hz] at this
          exact absurd this hout
    · have hif : (write && !e.writable) = false := by
        rcases write with _ | _
        · rfl
        · rcases hw : e.writable with _ | _
          · exact absurd ⟨rfl, hw⟩ hprot
          · rfl
      rw [hif]
      refine Or.inl ⟨ses, [], es, rfl, Or.inl rfl, h, Same.refl, fun _ => ⟨e, hp, fun hwr => ?_⟩⟩
      by_contra hw
      exact hprot ⟨hwr, by simpa using hw⟩

/-! ### Loads and stores -/

/-- **A load of the guest**: it fails only where `new_block` does. Otherwise it returns
what the guest sees there, or does not come to an end; within reach it comes to an
end. -/
theorem Inv.load (h : ses.Inv g ls es low) (hv : v < ses.s.fmmapLength) (n n' : ℕ) :
    (∃ ses' r es', ses.load cfg n n' v = .ok (ses', r) ∧ Grows (v / g.blockSize) es es' ∧
      ses'.Inv g ls es' low ∧
        ses.Same ses' ∧ (∀ x ∈ r, x = ses.view v) ∧ (ses.InReach v → r = some (ses.view v))) ∨
      ∃ err, ses.Allocates cfg v false ∧
        newBlock cfg ses.file ses.s ses.ring n n' (v / g.blockSize * g.blockSize) = .error err ∧
        ses.load cfg n n' v = .error err := by
  have hcow : ses.CowOk cfg v false := fun _ hc => absurd hc.1 (by decide)
  rw [Session.load]
  rcases h.fault hv hcow n n' with ⟨ses', ops, es', hr, hgrow, hinv, hsame, hreach⟩ |
    ⟨err, halloc, hnb, hr⟩
  · left
    rw [hr]
    simp only
    rcases hp : ses'.pages (v / pageSize) with _ | e
    · refine ⟨ses', none, es', rfl, hgrow, hinv, hsame, fun x hx => (by cases hx), fun hin => ?_⟩
      obtain ⟨e, he, -⟩ := hreach hin
      rw [hp] at he
      cases he
    · have hplace : ses'.placeOf g ls es' low (ses'.cow.movedOf g.blockSize) v =
          some { e with off := e.off + v % pageSize } := by
        rw [hinv.core.placeOf_eq, hp, Option.map_some]
      have hback := ByteFile.backed_of_lt (hinv.core.place_backed hplace)
      have hview := hinv.core.view_of_place hplace
      rw [hsame.view] at hview
      simp only at hback
      simp only [if_neg (not_not.mpr hback)]
      refine ⟨ses', _, es', rfl, hgrow, hinv, hsame, fun x hx => ?_, fun _ => ?_⟩
      · cases hx
        exact hview.symm
      · rw [hview]
        rfl
  · right
    rw [hr]
    exact ⟨err, halloc, hnb, rfl⟩

/-- What a load returns is what the guest sees. -/
theorem Inv.load_eq (h : ses.Inv g ls es low) (hv : v < ses.s.fmmapLength) {x : UInt8}
    (hr : ses.load cfg n n' v = .ok (ses', some x)) : x = ses.view v := by
  rcases h.load hv n n' with ⟨ses₁, r, es', hr₁, -, -, -, hval, -⟩ | ⟨err, -, -, hr₁⟩
  · rw [hr] at hr₁
    cases hr₁
    exact hval x rfl
  · rw [hr] at hr₁
    cases hr₁

/-- The guest does not store into a unit that is still to be copied. -/
theorem Consistent.entry_of_writable (h : ses.Consistent g ls es low) (f' : ByteFile)
    {e : Pte Path} (he : ses.placeOf g ls es low (ses.cow.movedOf g.blockSize) v = some e)
    (hw : e.writable = true)
    (hf : ∀ a, a ≠ e.off → f'.byte a = ses.file.byte a) {i : ℕ} {ce : CowEntry}
    (hce : ce ∈ ses.cow.buckets i) : EntryOk g f' ses.s.fd (g.chainEnd 0 ls) es low ce := by
  have hent := h.entry i ce hce
  obtain ⟨b, hkey, htop, -⟩ := hent.block
  obtain ⟨q, hq, hbq, hy⟩ := Geometry.top_eq_some htop
  have hoff : ce.blockOff = g.dataOff (g.chainEnd 0 ls) q := (Prod.mk.inj hy).2
  obtain ⟨b', hkey', rfl⟩ := h.tables.bucket i ce hce
  obtain rfl : b' = b := Nat.eq_of_mul_eq_mul_right g.blockSize_pos (hkey'.symm.trans hkey)
  refine ⟨hent.block, hent.slot, fun x hx hm => ?_⟩
  rw [hf _ fun heq => ?_, hent.zero x hx hm]
  rcases h.core.place_cases he with ⟨hw', -⟩ | ⟨-, -, hcop, j, hj, hbj, ho⟩
  · rw [hw] at hw'
    cases hw'
  have hmod := Nat.mod_lt v g.blockSize_pos
  have hqj : q = j := by
    by_contra hne
    have hdis : ¬(g.dataOff (g.chainEnd 0 ls) j ≤ g.dataOff (g.chainEnd 0 ls) q + x ∧
        g.dataOff (g.chainEnd 0 ls) q + x < g.dataOff (g.chainEnd 0 ls) j + g.blockSize) :=
      g.blockAt_disjoint (fun hd => hne (g.dataBlock_injective hd)) (Nat.le_add_right _ _)
        (Nat.add_lt_add_left hx _)
    exact hdis ⟨by omega, by omega⟩
  subst hqj
  obtain rfl : x = v % g.blockSize := by omega
  rw [← hbj, hbq] at hcop
  exact hm (hcop ce.moved (h.tables.movedOf_of_mem hce hkey))

/-- **A store of the guest**: it fails only where `new_block` does. Otherwise it changes
what the guest sees there and nowhere else, or does not come to an end and changes
nothing; within reach it comes to an end. -/
theorem Inv.store (h : ses.Inv g ls es low) (hv : v < ses.s.fmmapLength)
    (hcow : ses.CowOk cfg v true) (n n' : ℕ) (x : UInt8) :
    (∃ ses' r es', ses.store cfg n n' v x = .ok (ses', r) ∧ Grows (v / g.blockSize) es es' ∧
        ses'.Inv g ls es' low ∧ ses.Env ses' ∧
        ses'.view = (if r = true then Function.update ses.view v x else ses.view) ∧
        (ses.InReach v → r = true)) ∨
      ∃ err, ses.Allocates cfg v true ∧
        newBlock cfg ses.file ses.s ses.ring n n' (v / g.blockSize * g.blockSize) = .error err ∧
        ses.store cfg n n' v x = .error err := by
  rw [Session.store]
  rcases h.fault hv hcow n n' with ⟨ses', ops, es', hr, hgrow, hinv, hsame, hreach⟩ |
    ⟨err, halloc, hnb, hr⟩
  swap
  · right
    rw [hr]
    exact ⟨err, halloc, hnb, rfl⟩
  left
  rw [hr]
  simp only
  rcases hp : ses'.pages (v / pageSize) with _ | e
  · refine ⟨ses', false, es', rfl, hgrow, hinv, hsame.toEnv, hsame.view, fun hin => ?_⟩
    obtain ⟨e, he, -⟩ := hreach hin
    rw [hp] at he
    cases he
  have hplace : ses'.placeOf g ls es' low (ses'.cow.movedOf g.blockSize) v =
      some { e with off := e.off + v % pageSize } := by
    rw [hinv.core.placeOf_eq, hp, Option.map_some]
  have hback := ByteFile.backed_of_lt (hinv.core.place_backed hplace)
  simp only at hback
  simp only [if_neg (not_not.mpr hback)]
  rcases hw : e.writable with _ | _
  · refine ⟨ses', false, es', by simp, hgrow, hinv, hsame.toEnv, hsame.view, fun hin => ?_⟩
    obtain ⟨e', he', hw'⟩ := hreach hin
    rw [hp] at he'
    cases he'
    exact (hw.symm.trans (hw' rfl))
  · obtain ⟨hfd, hcore, henv, hview⟩ := hinv.core.guestStore hp hw x
    have hses : ({ ses' with fs := Function.update ses'.fs e.file (some
        (((ses'.fs e.file).getD .empty).store (e.off + v % pageSize) 1 x.toNat)) } : Session) =
        ses'.issue [.store (e.off + v % pageSize) 1 x.toNat] := by
      rw [hfd]
      rfl
    refine ⟨ses'.issue [.store (e.off + v % pageSize) 1 x.toNat], true, es', ?_, hgrow, ?_,
      hsame.toEnv.trans henv, ?_, fun _ => rfl⟩
    · simp only [not_true_eq_false, if_false, hses]
    · refine ⟨⟨hcore, hinv.length_le, hinv.tables, fun i ce hce => ?_⟩, hinv.lists, hinv.plain⟩
      refine hinv.entry_of_writable (ses'.issue [.store (e.off + v % pageSize) 1 x.toNat]).file
        hplace hw (fun a ha => ?_) hce
      rw [file_issue]
      exact ByteFile.byte_store_of_notMem (by simp only at ha; omega)
    · rw [if_pos rfl, hview, hsame.view]

/-! ### The allocator thread -/

/-- The file has room for the block the allocator thread reserves next. -/
def TickRoom (cfg : Config) (ses : Session) : Prop :=
  cfg.preAlloc = true → (ses.s.allocOff : ℤ) + ses.s.blockSize < 2 ^ 63

/-- **An iteration of the allocator thread** is not seen. -/
theorem Inv.tick (h : ses.Inv g ls es low) :
    (∃ ses', ses.tick cfg = .ok ses' ∧ ses'.Inv g ls es low ∧ ses.Same ses') ∨
      ses.tick cfg = .error .noSpace ∧ ¬ses.TickRoom cfg := by
  rw [Session.tick]
  split
  swap
  · exact Or.inl ⟨ses, rfl, h, Same.refl⟩
  rename_i hpre
  rcases hal : allocate ses.s ses.ring with err | ⟨s', r', ops⟩
  · right
    rw [allocate] at hal
    split at hal
    · cases hal
    split at hal
    · cases hal
    split at hal
    · cases hal
    split at hal
    · rename_i hno
      cases hal
      refine ⟨rfl, fun hroom => hno ⟨?_, hroom hpre⟩⟩
      rw [h.core.super.blockSize]
      exact_mod_cast g.blockSize_pos
    · cases hal
  · left
    obtain ⟨hring, hsame, hres, -⟩ := (h.core.ring hpre).allocate h.core.super hal
    have hbyte : (FileOp.run ops ses.file).byte = ses.file.byte := by
      funext a
      exact FileOp.byte_run_of_not_touches fun o ho => not_touches_of_isReserve (hres o ho) a
    have hfd : s'.fd = ses.s.fd := by rw [hsame]
    have himage : IsImage g (FileOp.run ops ses.file) ls es := by
      refine h.core.image.of_last (fun a _ => by rw [hbyte])
        (h.core.image.last.congr (le_trans h.core.image.endOff_le FileOp.size_le_size_run)
          fun a _ => by rw [hbyte]) (fun a ha hap => ?_) hring.size_lt
      rw [hbyte]
      exact h.core.image.tail a ha hap
    refine ⟨_, rfl, ?_⟩
    have hfile : ({ ses.issue ops with s := s', ring := r' } : Session).file =
        FileOp.run ops ses.file := file_issue_of_fd hfd
    have hcore : ({ ses.issue ops with s := s', ring := r' } : Session).Core g ls es low
        (ses.cow.movedOf g.blockSize) := by
      refine ⟨h.core.page_dvd, hfile ▸ himage, h.core.super.sameLayer hsame, fun _ => ?_,
        fun b p o hl => ?_, fun p => ?_⟩
      · rw [hfile]
        exact hring
      · simp only [hfd]
        refine (h.core.below b p o hl).imp id fun hp => ⟨hp.1, ?_⟩
        rw [issue_fs_of_ne hp.1]
        exact hp.2
      · simp only [hfd]
        exact h.core.pages p
    have hview : ({ ses.issue ops with s := s', ring := r' } : Session).view = ses.view := by
      funext v
      refine h.core.view_congr hcore ?_ fun e he => ?_
      · rw [placeOf, placeOf]
        simp only [hfd]
      · exact byteOf_issue fun _ => by rw [hbyte]
    have hsame' : ses.Same { ses.issue ops with s := s', ring := r' } := by
      refine ⟨⟨hfd, by rw [hsame], rfl, fun p hp => issue_fs_of_ne hp,
        by rw [hsame], fun a _ => by rw [hfile, hbyte]⟩, hview,
        fun _ hp => hp, fun p e he hw => ⟨e, he, hw⟩⟩
    refine ⟨⟨⟨hcore, ?_, h.tables, fun i ce hce => ?_⟩, h.lists_same hsame' rfl, h.plain⟩, hsame'⟩
    · rw [hsame'.fmmapLength]
      exact h.length_le
    · rw [hfile]
      simp only [hfd]
      exact (h.entry i ce hce).congr fun _ _ _ => by rw [hbyte]

end Session

end Pcow
