import Pcow.Flat
import Pcow.Frame

/-!
# Closing a session and opening the image again

`fmunmap` ends a session; with fine-grained copies it first runs `final_cow` over the
table of incomplete blocks. What the guest saw is then to be found again through the
file alone. It is where the table is empty (`fmunmap_fmmap`). Where it is not,
`final_cow` completes the data of each block and then sets all bits of the number in its
entry, where `cow_handler` clears the bits above it after a copy of the same kind: the
entry names another block from then on, and the copied units are lost
(`fmunmap_fmmap_loses`).
-/

namespace Pcow

variable {g : Geometry .shipped} {fs : Fs} {fd : Path} {base : List (ℕ × Path × ℕ)}
  {length offset : ℕ} {ses ses' : Session} {ops : List GuestOp} {evs : List Event}

/-- No block is in the table of incomplete blocks. -/
def Session.AllComplete (ses : Session) : Prop := ∀ i < bucketNum, ses.cow.buckets i = []

instance (ses : Session) : Decidable ses.AllComplete :=
  inferInstanceAs (Decidable (∀ i < bucketNum, ses.cow.buckets i = []))

/-- `final_cow` does nothing where the table is empty. -/
theorem Session.AllComplete.fmunmap (h : ses.AllComplete) (cfg : Config) :
    ses.fmunmap cfg = ses.fs := by
  have hnil : (List.range bucketNum).flatMap ses.cow.buckets = [] := by
    rw [List.flatMap_eq_nil_iff]
    intro i hi
    exact h i (List.mem_range.mp hi)
  rw [Session.fmunmap, Session.finalCow, hnil]
  split
  · rfl
  · rfl

theorem Session.AllComplete.movedOf (h : ses.AllComplete) (n b : ℕ) :
    ses.cow.movedOf n b = none := by
  rw [CowTables.movedOf, h _ (Nat.mod_lt _ (by decide))]
  rfl

/-- What the guest sees does not change where a session without incomplete blocks is
closed and its image is opened again. -/
theorem Session.Inv.reopen {cfg : Config} {g : Geometry cfg} {ls : List (List ℕ)} {es es' : List ℕ}
    (himage : IsImage g ((fs fd).getD .empty) ls es)
    (hbase : BaseIs g fs (baseImageName ((fs fd).getD .empty) 0) base)
    (hopen : Session.fmmap cfg fs fd length offset = .ok (some ses))
    (h : ses'.Inv g ls es' (g.lowBindings base fd ls)) (henv : ses.Env ses')
    (hmoved : ∀ b, ses'.cow.movedOf g.blockSize b = none) :
    ∃ ses'', Session.fmmap cfg ses'.fs fd length offset = .ok (some ses'') ∧
      ses''.Opened g ses'.fs fd ls es' base length ∧ ses''.view = ses'.view := by
  have hopened := himage.isChain.fmmap rfl himage.size_lt hbase hopen
  have hfd : ses'.s.fd = fd := henv.fd.trans hopened.fd_eq
  have hfile : (ses'.fs fd).getD .empty = ses'.file := by rw [Session.file, hfd]
  have hfile₀ : ses.file = (fs fd).getD .empty := by
    rw [Session.file, hopened.fd_eq, hopened.files]
  have hname : baseImageName ses'.file 0 = baseImageName ((fs fd).getD .empty) 0 :=
    baseImageName_congr fun a ha => by rw [henv.kept a (Or.inr ha), hfile₀]
  have hfiles : ∀ p, p ≠ fd → (ses'.fs p).getD .empty = (fs p).getD .empty := by
    intro p hp
    rw [henv.files p (by rw [hopened.fd_eq]; exact hp), hopened.files]
  obtain ⟨ses'', hses'', hopened''⟩ := himage.isChain.reopen rfl himage.size_lt hbase hopen
    h.core.image.isChain hfile h.core.image.size_lt hfiles hname
  refine ⟨ses'', hses'', hopened'', ?_⟩
  rw [hopened''.view h.core.page_dvd, h.core.view_overlay hfd hmoved]

/-- **Closing and opening again preserves what the guest sees**, in the shipped
configuration, where each copy on write found its meta block and no block is incomplete
when the session is closed. -/
theorem fmunmap_fmmap {ls : List (List ℕ)} {es : List ℕ}
    (himage : IsImage g ((fs fd).getD .empty) ls es)
    (hbase : BaseIs g fs (baseImageName ((fs fd).getD .empty) 0) base)
    (hdvd : pageSize ∣ g.blockSize)
    (hopen : Session.fmmap .shipped fs fd length offset = .ok (some ses))
    (hops : ∀ op ∈ ops, op.Within (· < g.mapLength length))
    (hok : ses.Along .shipped (Session.StepOk .shipped) ops)
    (hrun : ses.run .shipped ops = .ok (ses', evs)) (hcomplete : ses'.AllComplete) :
    ∃ ses'', Session.fmmap .shipped (ses'.fmunmap .shipped) fd length offset = .ok (some ses'') ∧
      ses''.view = ses'.view ∧
      ∀ v < g.mapLength length, ∀ n n' m m' s₁ s₂ x y,
        ses'.load .shipped n n' v = .ok (s₁, some x) →
        ses''.load .shipped m m' v = .ok (s₂, some y) → y = x := by
  have hopened := himage.isChain.fmmap rfl himage.size_lt hbase hopen
  have hin : ∀ op ∈ ops, op.Within (· < ses.s.fmmapLength) := by
    rw [hopened.fmmapLength]
    exact hops
  rcases (hopened.inv hdvd himage).run (fun _ hs => hs) hin hok with
    ⟨ses₁, evs₁, es', hr, hran⟩ | ⟨err, hr, -⟩
  swap
  · rw [hrun] at hr
    cases hr
  rw [hrun] at hr
  cases hr
  obtain ⟨ses'', hses'', hopened'', hview⟩ := hran.inv.reopen himage hbase hopen hran.env
    (hcomplete.movedOf g.blockSize)
  rw [hcomplete.fmunmap]
  refine ⟨ses'', hses'', hview, fun v hv n n' m m' s₁ s₂ x y hx hy => ?_⟩
  have hfd : ses'.s.fd = fd := hran.env.fd.trans hopened.fd_eq
  have himage' : IsImage g ((ses'.fs fd).getD .empty) ls es' := by
    rw [← hfd]
    exact hran.inv.core.image
  have hlen : ses'.s.fmmapLength = g.mapLength length :=
    hran.env.fmmapLength.trans hopened.fmmapLength
  rw [(hopened''.inv hdvd himage').load_eq (by rw [hopened''.fmmapLength]; exact hv) hy,
    hran.inv.load_eq (by rw [hlen]; exact hv) hx, hview]

/-- A store to a block that no layer has. -/
theorem fmunmap_fmmap_missing : ∃ (fs : Fs) (ses ses' ses'' : Session),
    IsImage (Geometry.twoPages .shipped) ((fs [1]).getD .empty) [[0]] [] ∧
      Session.fmmap .shipped fs [1] (8192 * 2) 0 = .ok (some ses) ∧
      ses.run .shipped [.store 8192 1 0 0] = .ok (ses', [.stored 8192 1 true]) ∧
      Session.fmmap .shipped (ses'.fmunmap .shipped) [1] (8192 * 2) 0 = .ok (some ses'') ∧
      ses''.view 8192 = 1 := by
  obtain ⟨f, ses, himage, hname, -, hopen, hopened, hroom, hzero⟩ :=
    exists_session .shipped 0
  have hbase : BaseIs (Geometry.twoPages .shipped) (fun _ => some f) (baseImageName f 0) [] :=
    Or.inl ⟨baseImageName_eq_nil hname, rfl⟩
  have hdvd : pageSize ∣ (Geometry.twoPages .shipped).blockSize := by decide
  have hinv := hopened.inv hdvd himage
  have hp : ses.pages (8192 / pageSize) = none := by
    rw [hopened.pages]
    rfl
  have hok : ses.StepOk .shipped (.store 8192 1 0 0) := by
    rintro - ⟨-, e, he, -⟩
    rw [hp] at he
    cases he
  have hv : 8192 < ses.s.fmmapLength := by
    rw [hopened.fmmapLength]
    decide
  have hreach : ses.InReach 8192 :=
    hinv.inReach hopened.fmmapLength hopened.globalLength (by decide)
  rcases hinv.store hv hok 0 0 1 with ⟨ses', r, es', hst, -, -, -, hview, hdone⟩ | ⟨err, -, hnb, -⟩
  swap
  · obtain ⟨x, hx⟩ := hinv.core.exists_newBlock (n := 0) hroom
      (8192 / (Geometry.twoPages .shipped).blockSize * (Geometry.twoPages .shipped).blockSize)
    rw [hnb] at hx
    cases hx
  obtain rfl := hdone hreach
  have hrun : ses.run .shipped [.store 8192 1 0 0] = .ok (ses', [.stored 8192 1 true]) := by
    rw [Session.run, Session.step, hst]
    rfl
  have hcomplete : ses'.AllComplete := by
    obtain ⟨ses₁, fops, hfault, hcow, -⟩ := Session.store_ok hst
    rw [Session.fault, hp] at hfault
    intro i _
    rw [hcow, Session.ufMonitor_cow hfault, hopened.cow]
    rfl
  have hops : ∀ op ∈ [GuestOp.store 8192 1 0 0], op.Within
      (· < (Geometry.twoPages .shipped).mapLength (8192 * 2)) := by
    intro op hop
    rw [List.mem_singleton.mp hop]
    exact (by decide : 8192 < 8192 * 2)
  obtain ⟨ses'', hses'', hsame, -⟩ := fmunmap_fmmap himage hbase hdvd hopen hops
    ⟨hok, fun _ _ _ => trivial⟩ hrun hcomplete
  refine ⟨fun _ => some f, ses, ses', ses'', himage, hopen, hrun, hses'', ?_⟩
  rw [hsame, hview, if_pos rfl, Function.update_self]

/-! ### What `final_cow` does to the entries -/

section FinalCow

variable {cfg : Config} {g : Geometry cfg} {ls : List (List ℕ)} {es : List ℕ} {f f' : ByteFile}
  {off : ℕ}

/-- The slot of an entry lies outside of the first cache line of every meta block. -/
theorem Geometry.slot_not_line {a i j : ℕ} (h₁ : g.blockAt off (g.metaBlock i) ≤ a)
    (h₂ : a < g.blockAt off (g.metaBlock i) + 64) :
    a < g.slot off j ∨ g.slot off j + cfg.entrySize ≤ a := by
  have hmem := g.slot_mem off j
  have hbs := g.entry_le
  by_cases hij : g.metaBlock i = g.metaBlock (j / g.perSeg)
  · rw [hij] at h₁ h₂
    omega
  · have hdis := g.blockAt_disjoint (a := a) hij h₁ (by omega)
    by_contra hcon
    exact hdis ⟨by omega, by omega⟩

/-- The slot of an entry lies outside of the counters and of the first cache line of the
super block. -/
theorem Geometry.slot_not_top {a j : ℕ} (ha : off ≤ a ∧ a < off + 16 ∨
    ∃ i, g.blockAt off (g.metaBlock i) ≤ a ∧ a < g.blockAt off (g.metaBlock i) + 4) :
    a < g.slot off j ∨ g.slot off j + cfg.entrySize ≤ a := by
  rcases ha with ⟨-, ha⟩ | ⟨i, h₁, h₂⟩
  · have hmem := g.slot_mem off j
    have hbs := g.entry_le
    have hle : off + g.blockSize ≤ g.blockAt off (g.metaBlock (j / g.perSeg)) :=
      Nat.add_le_add_left (Nat.le_mul_of_pos_right _ g.metaBlock_pos) _
    omega
  · exact Geometry.slot_not_line h₁ (by omega)

/-- An entry of a layer is stored to. -/
theorem IsLayer.setEntry (h : IsLayer g f off es) {j : ℕ} (hj : j < es.length) (x : ℕ) :
    IsLayer g (f.store (g.slot off j) cfg.entrySize x) off (es.set j (x % 2 ^ 32)) := by
  have hes := entrySize_ge cfg
  have hkeep : ∀ a, (off ≤ a ∧ a < off + 16 ∨
      ∃ i, g.blockAt off (g.metaBlock i) ≤ a ∧ a < g.blockAt off (g.metaBlock i) + 4) →
      (f.store (g.slot off j) cfg.entrySize x).byte a = f.byte a := fun a ha =>
    ByteFile.byte_store_of_notMem (g.slot_not_top ha)
  have hfits : g.slot off j + 4 ≤ f.size := by
    have h₁ := g.slot_mem off j
    have h₂ := g.blockAt_add_le off (g.metaBlock_lt (Geometry.div_le_lastSeg hj))
    have h₃ := h.size_le
    rw [Geometry.endOff] at h₃
    omega
  refine ⟨h.magic.congr fun a h₁ h₂ => hkeep a (Or.inl ⟨h₁, h₂⟩), ?_, ?_, ?_, fun i hi => ?_,
    fun i hi => ?_, ?_, ?_⟩
  · rw [ByteFile.loadInt_congr fun a h₁ h₂ => hkeep a (Or.inl ⟨h₁, by omega⟩), h.blockSize]
  · rw [ByteFile.loadInt_congr fun a h₁ h₂ => hkeep a (Or.inl ⟨by omega, by omega⟩), h.maxBlockNum]
  · rw [ByteFile.loadInt_congr fun a h₁ h₂ => hkeep a (Or.inl ⟨by omega, by omega⟩),
      h.activeMetaNum, List.length_set]
  · rw [List.length_set] at hi ⊢
    rw [ByteFile.loadInt_congr fun a h₁ h₂ => hkeep a (Or.inr ⟨i, h₁, h₂⟩), h.counter i hi]
  · rw [List.length_set] at hi
    by_cases hij : j = i
    · subst hij
      rw [ByteFile.load_store_prefix hes hfits, List.getElem_set_self,
        show (256 : ℕ) ^ 4 = 2 ^ 32 by norm_num]
    · have hdis := g.slot_disjoint off hij
      rw [ByteFile.load_store_disjoint (by omega), h.entry i hi, List.getElem_set_of_ne hij]
  · rw [List.length_set]
    exact h.size_le
  · rw [List.length_set]
    exact h.length_le

theorem or_addrMask_mod (x : ℕ) : (x ||| addrMask) % 2 ^ 32 = 2 ^ 32 - 1 := by
  rw [show addrMask = 2 ^ 32 - 1 from rfl]
  refine Nat.eq_of_testBit_eq fun i => ?_
  rw [Nat.testBit_mod_two_pow, Nat.testBit_or, Nat.testBit_two_pow_sub_one]
  by_cases hi : i < 32
  · simp [hi]
  · simp [hi]

/-- **One round of `final_cow`**: the entry that is stored to names block 2 ^ 32 - 1
afterwards. -/
theorem Session.finalCopy_isImage {ce : CowEntry} (h : IsImage g ses.file ls es)
    (hs : ses.s.blockSize = g.blockSize) (h8 : 8 ∣ g.blockSize) {i j : ℕ} (hi : i < es.length)
    (hoff : ce.blockOff = g.dataOff (g.chainEnd 0 ls) i) (hj : j < es.length)
    (hslot : ce.metaEntry = g.slot (g.chainEnd 0 ls) j) :
    IsImage g (ses.finalCopy cfg ce).file ls (es.set j (2 ^ 32 - 1)) ∧
      ∀ a < g.chainEnd 0 ls + g.blockSize, (ses.finalCopy cfg ce).file.byte a =
        ses.file.byte a := by
  have hbs := g.blockSize_lt
  have hu : u64 ses.s.blockSize = g.blockSize := by rw [hs, u64_natCast (by omega)]
  have hfits : ce.blockOff + g.blockSize ≤ ses.file.size := by
    have h₁ := g.blockAt_add_le (g.chainEnd 0 ls) (g.dataBlock_lt hi)
    have h₂ := h.endOff_le
    rw [Geometry.endOff] at h₂
    rw [hoff, Geometry.dataOff]
    omega
  generalize hf₁ : FileOp.run (FileOp.memcpy ce.blockOff g.blockSize
    (ses.source ce.faultVoffAligned)) ses.file = f₁
  have hbyte₁ : ∀ a, f₁.byte a ≠ ses.file.byte a →
      ce.blockOff ≤ a ∧ a < ce.blockOff + g.blockSize := by
    intro a hne
    by_contra hout
    refine hne ?_
    rw [← hf₁, FileOp.byte_run_memcpy h8 hfits, if_neg hout]
  have hsz₁ : f₁.size = ses.file.size := by
    rw [← hf₁]
    exact FileOp.size_run_of_inPlace fun o ho => FileOp.inPlace_memcpy ho
  have h₁ : IsImage g f₁ ls es := h.write hsz₁ fun a hne => ⟨i, hi, hoff ▸ hbyte₁ a hne⟩
  have hfile : (ses.finalCopy cfg ce).file = f₁.store (g.slot (g.chainEnd 0 ls) j) cfg.entrySize
      (f₁.load (g.slot (g.chainEnd 0 ls) j) cfg.entrySize ||| addrMask) := by
    rw [finalCopy, hu]
    simp only [file_issue, hf₁, hslot]
    rfl
  rw [hfile]
  have hlayer := h₁.last.setEntry hj
    (f₁.load (g.slot (g.chainEnd 0 ls) j) cfg.entrySize ||| addrMask)
  rw [or_addrMask_mod] at hlayer
  have hmem := g.slot_mem (g.chainEnd 0 ls) j
  have hmeta : g.chainEnd 0 ls + g.blockSize ≤
      g.blockAt (g.chainEnd 0 ls) (g.metaBlock (j / g.perSeg)) :=
    Nat.add_le_add_left (Nat.le_mul_of_pos_right _ g.metaBlock_pos) _
  have hdata : g.chainEnd 0 ls + g.blockSize ≤ ce.blockOff := by
    rw [hoff]
    exact Nat.add_le_add_left (Nat.le_mul_of_pos_right _ g.dataBlock_pos) _
  have hend := g.blockAt_add_le (g.chainEnd 0 ls) (g.metaBlock_lt (Geometry.div_le_lastSeg hj))
  refine ⟨h₁.of_last (fun a ha => ByteFile.byte_store_of_notMem (by omega)) hlayer
    (fun a ha hap => ?_)
    (by rw [ByteFile.size_store]; exact h₁.size_lt), fun a ha => ?_⟩
  · rw [List.length_set] at ha hap
    have ha' := ha
    rw [Geometry.endOff] at ha'
    rw [ByteFile.byte_store_of_notMem (by omega)]
    exact h₁.tail a ha hap
  · rw [ByteFile.byte_store_of_notMem (by omega)]
    by_contra hne
    have := (hbyte₁ a hne).1
    omega

/-- **`final_cow` over several blocks.** -/
theorem Session.foldl_finalCopy {l : List CowEntry} (h : IsImage g ses.file ls es)
    (hs : ses.s.blockSize = g.blockSize) (h8 : 8 ∣ g.blockSize)
    (hl : ∀ ce ∈ l, (∃ i < es.length, ce.blockOff = g.dataOff (g.chainEnd 0 ls) i) ∧
      ∃ j < es.length, ce.metaEntry = g.slot (g.chainEnd 0 ls) j) :
    ∃ es', IsImage g (l.foldl (Session.finalCopy cfg) ses).file ls es' ∧ es'.length = es.length ∧
      (∀ j : ℕ, es[j]? = some (2 ^ 32 - 1) → es'[j]? = some (2 ^ 32 - 1)) ∧
      (∀ ce ∈ l, ∃ j, es'[j]? = some (2 ^ 32 - 1) ∧ ce.metaEntry = g.slot (g.chainEnd 0 ls) j) ∧
      (∀ a < g.chainEnd 0 ls + g.blockSize,
        (l.foldl (Session.finalCopy cfg) ses).file.byte a = ses.file.byte a) ∧
      (∀ p, p ≠ ses.s.fd → (l.foldl (Session.finalCopy cfg) ses).fs p = ses.fs p) ∧
      (l.foldl (Session.finalCopy cfg) ses).s = ses.s := by
  induction l generalizing ses es with
  | nil =>
    refine ⟨es, h, rfl, fun _ hj => hj, fun ce hce => ?_, fun _ _ => rfl, fun _ _ => rfl, rfl⟩
    cases hce
  | cons ce l ih =>
    obtain ⟨⟨i, hi, hoff⟩, j, hj, hslot⟩ := hl ce List.mem_cons_self
    obtain ⟨h₁, hbytes₁⟩ := Session.finalCopy_isImage h hs h8 hi hoff hj hslot
    have hlen : (es.set j (2 ^ 32 - 1)).length = es.length := List.length_set
    obtain ⟨es', h', hlen', hkeep, hset, hbytes, hfiles, hs'⟩ :=
      @ih (ses.finalCopy cfg ce) (es.set j (2 ^ 32 - 1)) h₁ hs
      (fun ce' hce' => by rw [hlen]; exact hl ce' (List.mem_cons_of_mem ce hce'))
    refine ⟨es', h', hlen'.trans hlen, fun q hq => ?_, fun ce' hce' => ?_, fun a ha => ?_,
      fun p hp => ?_, hs'⟩
    · refine hkeep q ?_
      by_cases hjq : j = q
      · subst hjq
        rw [List.getElem?_set_self hj]
      · rw [List.getElem?_set_ne hjq, hq]
    · rcases List.mem_cons.mp hce' with rfl | hce'
      · exact ⟨j, hkeep j (by rw [List.getElem?_set_self hj]), hslot⟩
      · exact hset ce' hce'
    · rw [List.foldl_cons, hbytes a ha, hbytes₁ a ha]
    · rw [List.foldl_cons, hfiles p hp]
      exact (Function.update_of_ne hp _ _).trans (Function.update_of_ne hp _ _)

end FinalCow

/-! ### A block that is not complete when the session is closed -/

section Incomplete

variable {cfg : Config} {v n n' : ℕ} {fops : List FileOp}

theorem CowTables.modify_ne_nil {c : CowTables} {i b key : ℕ} {F : CowEntry → CowEntry}
    (h : c.buckets i ≠ []) : (c.modify b key F).buckets i ≠ [] := by
  by_cases hi : i = b
  · subst hi
    rw [CowTables.modify, CowTables.setBucket]
    simpa using h
  · rw [CowTables.modify, CowTables.setBucket]
    simpa [hi] using h

theorem CowTables.exists_link_ne_nil (c : CowTables) (b : ℕ) (e : CowEntry) :
    ∃ i, (c.link b e).buckets i ≠ [] := by
  refine ⟨b, ?_⟩
  rw [CowTables.link, CowTables.setBucket]
  simp

theorem Session.copyUnit_table {le : CowLEntry} {ce : CowEntry} {aligned i : ℕ}
    {x : Session × List FileOp} (hr : ses.copyUnit cfg le ce aligned = .ok x)
    (h : ses.cow.buckets i ≠ []) : x.1.cow.buckets i ≠ [] := by
  rw [Session.copyUnit] at hr
  simp only at hr
  split at hr
  · cases hr
  · cases hr
    exact CowTables.modify_ne_nil h

/-- A partial copy maps one unit. -/
theorem Session.copyUnit_pages {ce : CowEntry} {aligned voff p : ℕ} {x : Session × List FileOp}
    (hr : ses.copyUnit cfg ⟨voff / cowUnit * cowUnit, cowUnit⟩ ce aligned = .ok x)
    (hp : p ≠ voff / pageSize) : x.1.pages p = ses.pages p := by
  rw [Session.copyUnit] at hr
  split_ifs at hr
  cases hr
  refine PageTable.mapRange_of_not_inRange ?_
  rintro ⟨h₁, h₂⟩
  apply hp
  rw [show ((cowUnit : ℕ) : ℤ).toNat = cowUnit from rfl] at h₂
  rw [show pageSize = cowUnit from rfl] at *
  have h₃ : voff / cowUnit ≤ p := Nat.le_of_mul_le_mul_right h₁ (by decide)
  have h₄ : p < voff / cowUnit + 1 := Nat.lt_of_mul_lt_mul_right (a := cowUnit) (by linarith)
  omega

/-- A copy on write of a block that was not in the table leaves it there, and maps one unit. -/
theorem Session.cowHandler_table (hcfg : cfg.finegrainedCow = true)
    (hle : ¬v > u64 ((ses.globalLength : ℤ) - ses.s.blockSize))
    (hlist : ¬ses.cow.InList (v / cowUnit * cowUnit))
    (hsearch : searchHt (v / cowUnit * cowUnit / u64 ses.s.blockSize * u64 ses.s.blockSize) 0
      (ses.cow.buckets (bucketNumber (u64 ses.s.blockSize) (v / cowUnit * cowUnit))) = none)
    (hr : ses.cowHandler cfg n n' v = .ok (ses', fops)) : (∃ i, ses'.cow.buckets i ≠ []) ∧
      (((cowUnit : ℕ) : ℤ) ≠ ses.s.blockSize →
        ∀ p, p ≠ v / pageSize → ses'.pages p = ses.pages p) := by
  rw [cowHandler_eq hcfg hle hlist, insertList_new hlist hsearch] at hr
  rcases hins : ses.insertHt cfg n n' (v / cowUnit * cowUnit / u64 ses.s.blockSize *
    u64 ses.s.blockSize) with err | ⟨ses₁, ce, ops₁⟩
  · rw [hins] at hr
    cases hr
  rw [hins] at hr
  simp only [Except.map] at hr
  obtain ⟨s', r', nb, ops₁', ops₂, -, hlink, -⟩ := insertHt_ok hins
  obtain ⟨m, -, -, hses₁, -⟩ := linkEntry_ok hlink
  obtain ⟨i, hi⟩ : ∃ i, ses₁.cow.buckets i ≠ [] := by
    rw [hses₁]
    exact CowTables.exists_link_ne_nil _ _ _
  obtain ⟨hfixed, -, hpages⟩ := insertHt_sameFixed hins
  split at hr
  · split at hr
    · cases hr
    · rename_i x hcu
      cases hr
      refine ⟨⟨i, Session.copyUnit_table hcu hi⟩, fun _ p hp => ?_⟩
      rw [Session.copyUnit_pages hcu hp, ← hpages]
  · rename_i hsize
    split at hr
    · cases hr
    · rename_i x hwhole
      cases hr
      refine ⟨⟨i, ?_⟩, fun hne => absurd ?_ hsize⟩
      · rw [Session.copyWhole_cow hwhole]
        exact hi
      · rw [← hfixed.blockSize] at hne
        exact hne

end Incomplete

/-- **The first store to a block of the frozen layer**: the unit of the store is copied, and the
block is in the table. -/
theorem exists_firstStore (g : Geometry .shipped) (hdvd : pageSize ∣ g.blockSize)
    (hlt : cowUnit < g.blockSize) (hbs : g.blockSize < 2 ^ 30) (hcap : 2 ≤ g.cap)
    (x : UInt8) {y : ℕ}
    (hy : y < g.blockSize) {v : ℕ} (hv : v < g.blockSize) :
    ∃ (f : ByteFile) (ses ses' : Session), IsImage g f [[0]] [] ∧ f.byte 16 = 0 ∧
      (∀ i < g.blockSize, f.byte (g.dataOff 0 0 + i) = if i = y then x else 0) ∧
      Session.fmmap .shipped (fun _ => some f) [1] (g.blockSize * 2) 0 = .ok (some ses) ∧
      ses.Opened g (fun _ => some f) [1] [[0]] [] [] (g.blockSize * 2) ∧
      ses.run .shipped [.store v 1 0 0] = .ok (ses', [.stored v 1 true]) ∧
      ses.Env ses' ∧ ses'.view = Function.update ses.view v 1 ∧ (∃ i, ses'.cow.buckets i ≠ []) ∧
      (∀ p, p ≠ v / pageSize → ses'.pages p = ses.pages p) ∧
      (∃ e, ses'.pages (v / pageSize) = some e ∧ e.writable = true) ∧
      ∃ es', Grows 0 [] es' ∧ ses'.Inv g [[0]] es' (g.lowBindings [] [1] [[0]]) := by
  obtain ⟨f, ses, himage, hname, hbytes, hopen, hopened, hroom, hlen, hglob⟩ :=
    exists_frozenByte g hdvd hbs hcap x hy
  have hblock : v / g.blockSize = 0 := Nat.div_eq_of_lt hv
  have hinv := hopened.inv hdvd himage
  obtain ⟨e, hp, hw⟩ := hopened.protected hdvd (List.mem_singleton_self _)
    (by rw [hblock]; exact List.mem_singleton_self _) List.not_mem_nil
  have hmap : g.mapLength (g.blockSize * 2) = g.blockSize * 2 := if_neg (by omega)
  have hvlen : v < ses.s.fmmapLength := by
    rw [hlen]
    omega
  have hreach : ses.InReach v :=
    hinv.inReach hopened.fmmapLength hopened.globalLength (by rw [hmap]; omega)
  have hcow : ses.CowOk .shipped v true := by
    intro _ _ _
    rw [hopened.super.blockSize]
    exact ⟨by omega, fun _ => hopened.super.metaNOk⟩
  rcases hinv.store hvlen hcow 0 0 1 with ⟨ses', r, es', hst, hgrow, hinv', henv, hview, hdone⟩ |
    ⟨err, -, hnb, -⟩
  swap
  · obtain ⟨x, hx⟩ := hinv.core.exists_newBlock (n := 0) hroom (v / g.blockSize * g.blockSize)
    rw [hnb] at hx
    cases hx
  obtain rfl := hdone hreach
  obtain ⟨ses₁, fops, hfault, hcow₁, hpages₁⟩ := Session.store_ok hst
  rw [Session.fault, hp] at hfault
  simp only [hw, Bool.not_false, Bool.and_self, if_true] at hfault
  obtain ⟨htable, hunit⟩ := Session.cowHandler_table rfl (not_lt.mpr hreach.2.2)
    (hinv.not_inList hp hw) (by rw [hopened.cow]; rfl) hfault
  rw [hblock] at hgrow
  refine ⟨f, ses, ses', himage, hname, hbytes, hopen, hopened, ?_, henv, ?_, ?_, ?_, ?_, es', hgrow,
    hinv'⟩
  · rw [Session.run, Session.step, hst]
    rfl
  · rw [hview, if_pos rfl]
  · rw [hcow₁]
    exact htable
  · intro p hne
    rw [hpages₁]
    exact hunit (by rw [hopened.super.blockSize]; omega) p hne
  · exact Session.store_writable hst

/-- A store to a block of two pages, the second of which starts with a given byte. -/
theorem exists_incomplete_at (x : UInt8) {v : ℕ} (hv : v < 8192) : ∃ (f : ByteFile)
    (ses ses' : Session),
    IsImage (Geometry.twoPages .shipped) f [[0]] [] ∧ f.byte 16 = 0 ∧
      f.byte ((Geometry.twoPages .shipped).dataOff 0 0 + 4096) = x ∧
      Session.fmmap .shipped (fun _ => some f) [1] (8192 * 2) 0 = .ok (some ses) ∧
      ses.Opened (Geometry.twoPages .shipped) (fun _ => some f) [1] [[0]] [] [] (8192 * 2) ∧
      ses.run .shipped [.store v 1 0 0] = .ok (ses', [.stored v 1 true]) ∧
      ses.Env ses' ∧ ses'.view = Function.update ses.view v 1 ∧ (∃ i, ses'.cow.buckets i ≠ []) ∧
      (∀ p, p ≠ v / pageSize → ses'.pages p = ses.pages p) ∧
      (∃ e, ses'.pages (v / pageSize) = some e ∧ e.writable = true) ∧
      ∃ es', Grows 0 [] es' ∧
        ses'.Inv (Geometry.twoPages .shipped) [[0]] es'
          ((Geometry.twoPages .shipped).lowBindings [] [1] [[0]]) := by
  obtain ⟨f, ses, ses', himage, hname, hbytes, hsession⟩ :=
    @exists_firstStore (Geometry.twoPages .shipped)
    (by decide) (by decide) (by decide) (by decide) x 4096 (by decide) v hv
  exact ⟨f, ses, ses', himage, hname, (hbytes 4096 (by decide)).trans (if_pos rfl), hsession⟩

/-- The store is to the second unit. -/
theorem exists_incomplete : ∃ (f : ByteFile) (ses ses' : Session),
    IsImage (Geometry.twoPages .shipped) f [[0]] [] ∧ f.byte 16 = 0 ∧
      f.byte ((Geometry.twoPages .shipped).dataOff 0 0 + 4096) = 0 ∧
      Session.fmmap .shipped (fun _ => some f) [1] (8192 * 2) 0 = .ok (some ses) ∧
      ses.run .shipped [.store 4096 1 0 0] = .ok (ses', [.stored 4096 1 true]) ∧
      ses.Env ses' ∧ ses'.view 4096 = 1 ∧ (∃ i, ses'.cow.buckets i ≠ []) ∧
      (∃ e, ses'.pages 0 = some e ∧ e.writable = false) ∧
      (∃ e, ses'.pages 1 = some e ∧ e.writable = true) ∧
      ∃ es', Grows 0 [] es' ∧
        ses'.Inv (Geometry.twoPages .shipped) [[0]] es'
          ((Geometry.twoPages .shipped).lowBindings [] [1] [[0]]) := by
  obtain ⟨f, ses, ses', himage, hname, hbyte, hopen, hopened, hrun, henv, hview, htable, hpages,
    hwritable,
    hinv⟩ := exists_incomplete_at 0 (show 4096 < 8192 by norm_num)
  obtain ⟨e, hp, hw⟩ := hopened.protected (by decide) (v := 0) (List.mem_singleton_self _)
    (List.mem_singleton_self _) List.not_mem_nil
  refine ⟨f, ses, ses', himage, hname, hbyte, hopen, hrun, henv, ?_, htable, ⟨e, ?_, hw⟩, hwritable,
    hinv⟩
  · rw [hview, Function.update_self]
  · rw [hpages 0 (by decide)]
    exact hp

/-- The entries of the table, as `final_cow` needs them. -/
theorem Session.Consistent.finalOk {cfg : Config} {g : Geometry cfg} {ls : List (List ℕ)}
    {es : List ℕ} {low : ℕ → Option (Path × ℕ)} (h : ses.Consistent g ls es low) {i : ℕ}
    {ce : CowEntry} (hce : ce ∈ ses.cow.buckets i) :
    (∃ i < es.length, ce.blockOff = g.dataOff (g.chainEnd 0 ls) i) ∧
      ∃ j < es.length, ce.metaEntry = g.slot (g.chainEnd 0 ls) j := by
  obtain ⟨⟨b, -, htop, -⟩, hslot, -⟩ := h.entry i ce hce
  obtain ⟨q, hq, -, hy⟩ := Geometry.top_eq_some htop
  exact ⟨⟨q, hq, (Prod.mk.inj hy).2⟩, hslot⟩

/-- **Closing loses what was copied of an incomplete block.** The guest stores a byte to
the second unit of a block of the frozen layer and sees it there; after `fmunmap` and
`fmmap` it sees the byte of the frozen layer again. -/
theorem fmunmap_fmmap_loses : ∃ (fs : Fs) (ses ses' ses'' : Session) (evs : List Event),
    IsImage (Geometry.twoPages .shipped) ((fs [1]).getD .empty) [[0]] [] ∧
      baseImageName ((fs [1]).getD .empty) 0 = [] ∧
      Session.fmmap .shipped fs [1] (8192 * 2) 0 = .ok (some ses) ∧
      ses.run .shipped [.store 4096 1 0 0] = .ok (ses', evs) ∧
      Session.fmmap .shipped (ses'.fmunmap .shipped) [1] (8192 * 2) 0 = .ok (some ses'') ∧
      ses'.view 4096 = 1 ∧ ses''.view 4096 = 0 := by
  obtain ⟨f, ses, ses', himage, hname, hbyte, hopen, hrun, henv, hview, ⟨i, hi⟩, -, -, es',
    hgrow, hinv⟩ := exists_incomplete
  have hbase : BaseIs (Geometry.twoPages .shipped) (fun _ => some f) (baseImageName f 0) [] :=
    Or.inl ⟨baseImageName_eq_nil hname, rfl⟩
  have hfs : ((fun _ => some f : Fs) [1]).getD .empty = f := rfl
  have hdvd : pageSize ∣ (Geometry.twoPages .shipped).blockSize := by decide
  have h8 : 8 ∣ (Geometry.twoPages .shipped).blockSize := by decide
  have hdata : (Geometry.twoPages .shipped).dataOff 0 0 + 4096 <
      (Geometry.twoPages .shipped).chainEnd 0 [[0]] := by decide
  have h0 : (4096 : ℕ) / (Geometry.twoPages .shipped).blockSize = 0 := by decide
  have h1 : (4096 : ℕ) % (Geometry.twoPages .shipped).blockSize = 4096 := by decide
  generalize Geometry.twoPages .shipped = g at *
  have hopened := himage.isChain.fmmap hfs himage.size_lt hbase hopen
  have hfd : ses'.s.fd = [1] := henv.fd.trans hopened.fd_eq
  -- the table is not empty, so that the last layer has an entry
  obtain ⟨ce, hce⟩ := List.exists_mem_of_ne_nil _ hi
  obtain ⟨b, -, rfl⟩ := hinv.tables.bucket i ce hce
  have hmem : ce ∈ (List.range bucketNum).flatMap ses'.cow.buckets :=
    List.mem_flatMap.mpr ⟨_, List.mem_range.mpr (Nat.mod_lt _ (by decide)), hce⟩
  have hl : ∀ ce ∈ (List.range bucketNum).flatMap ses'.cow.buckets,
      (∃ i < es'.length, ce.blockOff = g.dataOff (g.chainEnd 0 [[0]]) i) ∧
        ∃ j < es'.length, ce.metaEntry = g.slot (g.chainEnd 0 [[0]]) j := by
    intro ce' hce'
    obtain ⟨i, -, hce'⟩ := List.mem_flatMap.mp hce'
    exact hinv.finalOk hce'
  obtain ⟨es'', himage', hlen, -, hset, hbytes, hfiles, hs⟩ :=
    Session.foldl_finalCopy hinv.core.image hinv.core.super.blockSize h8 hl
  have hes'' : es'' = [2 ^ 32 - 1] := by
    obtain ⟨j, hj, -⟩ := hset ce hmem
    obtain ⟨-, j', hj', -⟩ := hl ce hmem
    have hone : es''.length = 1 := by
      rcases hgrow with rfl | ⟨-, rfl⟩
      · exact absurd hj' (Nat.not_lt_zero _)
      · exact hlen
    obtain ⟨x, rfl⟩ := List.length_eq_one_iff.mp hone
    rcases j with _ | j
    · simpa using hj
    · simp at hj
  subst hes''
  generalize hF : ((List.range bucketNum).flatMap ses'.cow.buckets).foldl
    (Session.finalCopy .shipped) ses' = F at *
  have hunmap : ses'.fmunmap .shipped = F.fs := by rw [← hF]; rfl
  have hFfile : (F.fs [1]).getD .empty = F.file := by rw [Session.file, hs, hfd]
  have hsesfile : ses.file = f := by rw [Session.file, hopened.fd_eq, hopened.files]; rfl
  have hoff : ses.s.myOff = g.chainEnd 0 [[0]] := hopened.super.myOff
  have hkept : ∀ a, a < g.chainEnd 0 [[0]] ∨ NameByte a → F.file.byte a = f.byte a := by
    intro a ha
    have hlt : a < g.chainEnd 0 [[0]] + g.blockSize := by
      by_contra hge
      exact g.not_keptByte hdvd (not_lt.mp hge) ha
    rw [hbytes a hlt, henv.kept a (hoff.symm ▸ ha), hsesfile]
  have hothers : ∀ p, p ≠ [1] → (F.fs p).getD .empty = ((fun _ => some f : Fs) p).getD .empty := by
    intro p hp
    rw [hfiles p (by rw [hfd]; exact hp), henv.files p (by rw [hopened.fd_eq]; exact hp),
      hopened.files]
  obtain ⟨ses'', hses'', hopened''⟩ := himage.isChain.reopen hfs himage.size_lt hbase hopen
    himage'.isChain hFfile himage'.size_lt hothers
    (baseImageName_congr fun a ha => hkept a (Or.inr ha))
  refine ⟨fun _ => some f, ses, ses', ses'', _, himage, baseImageName_eq_nil hname, hopen, hrun,
    hunmap ▸ hses'', hview, ?_⟩
  have hlast : PageTable.lastOf (g.imageBindings [] [1] [[0]] [2 ^ 32 - 1]) 0 =
      some ([1], g.dataOff 0 0) := by
    simp [Geometry.imageBindings, Geometry.chainBindings, Geometry.bindings, PageTable.lastOf]
  rw [hopened''.view hdvd, overlayByte, h0, h1, hlast]
  simp only
  rw [Fs.byteOf, hFfile, hkept _ (Or.inl hdata), hbyte]

end Pcow
