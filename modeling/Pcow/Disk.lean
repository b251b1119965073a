import Pcow.Close

/-!
# The life of an image in the whole-block build

With `FINEGRAINED_COW` undefined a copy on write copies a whole block, and no block is ever
incomplete. An image lives through sessions, which `fmmap` starts and `fmunmap` ends, and
through snapshots between them. Through all of it the guest sees one flat byte array, which
begins with zeros (`disk_flat`): within a session by `Session.Inv.step`, across the end of
one because what it shows is the overlay of the layers in the file, and across a snapshot because
a frozen layer contributes the bindings it had as the last one.
-/

namespace Pcow

/-- One operation in the life of an image. -/
inductive DiskOp
  /-- A step of the session. -/
  | guest (op : GuestOp) : DiskOp
  /-- `fmmap` is called. -/
  | fmmap (length offset : ℕ) : DiskOp
  /-- `fmunmap` is called. -/
  | fmunmap : DiskOp
  /-- `snapshot` is called. -/
  | snapshot : DiskOp

/-- The image is closed, or there is a session on it. -/
inductive Disk
  | closed (fs : Fs) : Disk
  | opened (ses : Session) : Disk

instance (P : ℕ → Prop) [DecidablePred P] (op : GuestOp) : Decidable (op.Within P) :=
  match op with
  | .load v _ _ => inferInstanceAs (Decidable (P v))
  | .store v _ _ _ => inferInstanceAs (Decidable (P v))
  | .tick => inferInstanceAs (Decidable True)

/-- An overlay of the layers of a chain depends on the bytes of the chain only. -/
theorem overlayByte_congr {cfg : Config} {g : Geometry cfg} {fs fs' : Fs} {fd : Path}
    {ls : List (List ℕ)} (h : ∀ a < g.chainEnd 0 ls, fs'.byteOf fd a = fs.byteOf fd a) :
    overlayByte fs' g.blockSize (g.chainBindings fd 0 ls) =
      overlayByte fs g.blockSize (g.chainBindings fd 0 ls) := by
  funext v
  rw [overlayByte, overlayByte]
  rcases hlast : PageTable.lastOf (g.chainBindings fd 0 ls) (v / g.blockSize) with _ | ⟨p, o⟩
  · rfl
  · obtain ⟨hp, hle⟩ := Geometry.mem_chainBindings (PageTable.mem_of_lastOf hlast)
    have hlt := Nat.mod_lt v g.blockSize_pos
    simp only at hp hle ⊢
    rw [hp]
    exact h _ (by omega)

namespace Disk

/-- One operation, and the events it makes. -/
def step (cfg : Config) (fd : Path) : Disk → DiskOp → Except Fault (Disk × List Event)
  | closed fs, .fmmap length offset => (Session.fmmap cfg fs fd length offset).map fun r =>
      match r with
      | some ses => (opened ses, [])
      | none => (closed fs, [])
  | closed fs, .snapshot => (Pcow.snapshot cfg fs fd).map fun x => (closed x.1, [])
  | opened ses, .guest op =>
    if op.Within (· < ses.s.fmmapLength) then
      (ses.step cfg op).map fun x => (opened x.1, [x.2])
    -- an access outside of the range
    else .error .sigsegv
  | opened ses, .fmunmap => .ok (closed (ses.fmunmap cfg), [])
  -- snapshots are made between sessions, and a session is opened once
  | st, _ => .ok (st, [])

/-- A history. -/
def run (cfg : Config) (fd : Path) : Disk → List DiskOp → Except Fault (Disk × List Event)
  | st, [] => .ok (st, [])
  | st, op :: ops => match st.step cfg fd op with
    | .error e => .error e
    | .ok (st', evs) => (run cfg fd st' ops).map fun x => (x.1, evs ++ x.2)

variable {cfg : Config} {g : Geometry cfg} {fd : Path} {mem : ℕ → UInt8} {st st' : Disk}
  {op : DiskOp} {ops : List DiskOp} {evs : List Event}

/-- **The image shows the byte array `mem`**, and names no base. -/
def Shows (g : Geometry cfg) (fd : Path) (mem : ℕ → UInt8) : Disk → Prop
  | closed fs => ∃ ls es, IsImage g ((fs fd).getD .empty) ls es ∧
      ((fs fd).getD .empty).byte 16 = 0 ∧
      overlayByte fs g.blockSize (g.imageBindings [] fd ls es) = mem
  | opened ses => ∃ ls es, ses.Inv g ls es (g.lowBindings [] fd ls) ∧ ses.s.fd = fd ∧
      ses.file.byte 16 = 0 ∧ ses.view = mem

/-! ### What each operation does -/

theorem Shows.fmmap {fs : Fs} {length offset : ℕ} {ses : Session}
    (h : (closed fs).Shows g fd mem) (hdvd : pageSize ∣ g.blockSize)
    (hr : Session.fmmap cfg fs fd length offset = .ok (some ses)) :
    (opened ses).Shows g fd mem := by
  obtain ⟨ls, es, himage, hname, hmem⟩ := h
  have hbase : BaseIs g fs (baseImageName ((fs fd).getD .empty) 0) [] :=
    Or.inl ⟨baseImageName_eq_nil hname, rfl⟩
  have hopened := himage.isChain.fmmap rfl himage.size_lt hbase hr
  refine ⟨ls, es, hopened.inv hdvd himage, hopened.fd_eq, ?_, ?_⟩
  · rw [Session.file, hopened.fd_eq, hopened.files]
    exact hname
  · rw [hopened.view hdvd, hmem]

/-- `fmunmap` leaves the overlay of the layers, since no block is incomplete. -/
theorem Shows.fmunmap {ses : Session} (h : (opened ses).Shows g fd mem)
    (hcfg : cfg.finegrainedCow = false) : (closed (ses.fmunmap cfg)).Shows g fd mem := by
  obtain ⟨ls, es, hinv, hfd, hname, hmem⟩ := h
  have hfile : (ses.fs fd).getD .empty = ses.file := by rw [Session.file, hfd]
  have hcomplete : ses.AllComplete := fun i _ => hinv.plain hcfg i
  rw [hcomplete.fmunmap]
  refine ⟨ls, es, ?_, ?_, ?_⟩
  · rw [hfile]
    exact hinv.core.image
  · rw [hfile]
    exact hname
  · rw [← hinv.core.view_overlay hfd (hcomplete.movedOf g.blockSize), hmem]

/-- A snapshot leaves the bindings of the image and their bytes as they are. -/
theorem Shows.snapshot {fs : Fs} {x : Fs × ℤ} (h : (closed fs).Shows g fd mem)
    (hr : Pcow.snapshot cfg fs fd = .ok x) : (closed x.1).Shows g fd mem := by
  obtain ⟨ls, es, himage, hname, hmem⟩ := h
  rw [Pcow.snapshot, onImage] at hr
  rcases hf : fs fd with _ | f
  · rw [hf] at hr
    cases hr
    exact ⟨ls, es, himage, hname, hmem⟩
  rw [hf] at hr himage hname
  simp only [Option.getD_some] at hr himage hname
  rcases hs : snapshotFile cfg f fd with e | y
  · rw [hs] at hr
    cases hr
  rw [hs] at hr
  cases hr
  obtain ⟨-, himage', hbytes⟩ := himage.snapshotFile hs
  have hfile : ((Function.update fs fd (some y.1)) fd).getD .empty = y.1 := by
    rw [Function.update_self]
    rfl
  have hpos : 16 < g.chainEnd 0 (ls ++ [es]) := by
    have hle := g.add_blockSize_le_endOff (g.chainEnd 0 ls) es.length
    have := g.entry_le
    rw [Geometry.chainEnd_concat]
    omega
  refine ⟨ls ++ [es], [], ?_, ?_, ?_⟩
  · rw [hfile]
    exact himage'
  · rw [hfile, hbytes 16 hpos]
    exact hname
  · -- the new layer has no bindings, and the others have theirs
    have hnew : g.imageBindings [] fd (ls ++ [es]) [] = g.chainBindings fd 0 (ls ++ [es]) := by
      rw [Geometry.imageBindings_eq]
      simp [Geometry.bindings]
    rw [hnew, overlayByte_congr fun a ha => ?_, ← hmem]
    · rfl
    · rw [Fs.byteOf, Fs.byteOf, hfile, hf]
      exact hbytes a ha

/-- **A step of a session** is an event of the byte array, or there was no room. -/
theorem Shows.guest {ses : Session} {op : GuestOp} (h : (opened ses).Shows g fd mem)
    (hcfg : cfg.finegrainedCow = false) (hin : op.Within (· < ses.s.fmmapLength)) :
    (∃ ses' ev, ses.step cfg op = .ok (ses', ev) ∧ (opened ses').Shows g fd (Flat.apply mem ev) ∧
        Flat.Ok mem ev ∧ (op.Within ses.InReach → Flat.Done ev)) ∨
      ∃ err, ses.step cfg op = .error err ∧ ¬ses.HasRoom cfg op := by
  obtain ⟨ls, es, hinv, hfd, hname, rfl⟩ := h
  have hok : ses.StepOk cfg op := by
    cases op with
    | store v x n n' => exact fun hfine => absurd hfine (by rw [hcfg]; decide)
    | load v n n' => trivial
    | tick => trivial
  rcases hinv.step hin hok with ⟨ses', ev, es', hr, hstep⟩ | hno
  · refine Or.inl ⟨ses', ev, hr, ⟨ls, es', hstep.inv, ?_, ?_, hstep.view⟩, hstep.ok, hstep.done⟩
    · rw [hstep.env.fd, hfd]
    · rw [hstep.env.kept 16 (Or.inr ⟨le_rfl, by norm_num⟩), hname]
  · exact Or.inr hno

/-- **One operation** makes events of the byte array. -/
theorem Shows.step (h : st.Shows g fd mem) (hcfg : cfg.finegrainedCow = false)
    (hdvd : pageSize ∣ g.blockSize) (hr : st.step cfg fd op = .ok (st', evs)) :
    st'.Shows g fd (Flat.after mem evs) ∧ Flat.Correct mem evs := by
  cases st with
  | closed fs =>
    cases op with
    | fmmap length offset =>
      rw [Disk.step] at hr
      rcases ho : Session.fmmap cfg fs fd length offset with e | _ | ses
      · rw [ho] at hr
        cases hr
      · rw [ho] at hr
        cases hr
        exact ⟨h, trivial⟩
      · rw [ho] at hr
        cases hr
        exact ⟨h.fmmap hdvd ho, trivial⟩
    | snapshot =>
      rw [Disk.step] at hr
      rcases hs : Pcow.snapshot cfg fs fd with e | x
      · rw [hs] at hr
        cases hr
      · rw [hs] at hr
        cases hr
        exact ⟨h.snapshot hs, trivial⟩
    | guest op =>
      cases hr
      exact ⟨h, trivial⟩
    | fmunmap =>
      cases hr
      exact ⟨h, trivial⟩
  | opened ses =>
    cases op with
    | guest op =>
      rw [Disk.step] at hr
      split_ifs at hr with hin
      rcases h.guest hcfg hin with ⟨ses', ev, hstep, hshows, hok, -⟩ | ⟨err, hstep, -⟩
      · rw [hstep] at hr
        cases hr
        exact ⟨hshows, hok, trivial⟩
      · rw [hstep] at hr
        cases hr
    | fmunmap =>
      cases hr
      exact ⟨h.fmunmap hcfg, trivial⟩
    | fmmap length offset =>
      cases hr
      exact ⟨h, trivial⟩
    | snapshot =>
      cases hr
      exact ⟨h, trivial⟩

/-- **Every history** does. -/
theorem Shows.run (h : st.Shows g fd mem) (hcfg : cfg.finegrainedCow = false)
    (hdvd : pageSize ∣ g.blockSize) (hr : run cfg fd st ops = .ok (st', evs)) :
    st'.Shows g fd (Flat.after mem evs) ∧ Flat.Correct mem evs := by
  induction ops generalizing st mem evs with
  | nil =>
    cases hr
    exact ⟨h, trivial⟩
  | cons op ops ih =>
    rw [Disk.run] at hr
    rcases hstep : st.step cfg fd op with e | ⟨st₁, evs₁⟩
    · rw [hstep] at hr
      cases hr
    rw [hstep] at hr
    simp only at hr
    rcases hrest : Disk.run cfg fd st₁ ops with e | ⟨st₂, evs₂⟩
    · rw [hrest] at hr
      cases hr
    rw [hrest] at hr
    cases hr
    obtain ⟨h₁, hok₁⟩ := h.step hcfg hdvd hstep
    obtain ⟨h₂, hok₂⟩ := ih h₁ hrest
    rw [Flat.after_append]
    exact ⟨h₂, hok₁.append hok₂⟩

end Disk

/-- A new image shows zeros. -/
theorem Disk.shows_newImage {cfg : Config} {fs fs₀ : Fs} {name : Path} {blockSize rc : ℤ}
    {maxSize : ℕ} (hempty : (fs name).getD .empty = .empty)
    (hnew : newImage cfg fs name blockSize maxSize none = .ok (fs₀, rc)) :
    ∃ g : Geometry cfg, pageSize ∣ g.blockSize ∧
      (Disk.closed fs₀).Shows g name fun _ => 0 := by
  obtain ⟨g, f, rfl, -, himage, hdvd, -, hname, -⟩ := isImage_newImage hempty hnew
  have hfile : ((Function.update fs name (some f)) name).getD .empty = f := by
    rw [Function.update_self]
    rfl
  refine ⟨g, hdvd, [], [], ?_, ?_, ?_⟩
  · rw [hfile]
    exact himage
  · rw [hfile]
    exact hname rfl
  · funext v
    rw [overlayByte, Geometry.imageBindings_eq]
    simp [Geometry.chainBindings, Geometry.bindings]

/-- **An image is a flat byte array through all of its life**, in the whole-block build. In every
history of a new image without a base, of accesses of the guest, sessions and snapshots, each load
returns the value stored last at its offset, or zero. In the state it leads to:

* the next access to a session within its range is an event of the byte array, and comes to an end
  where the range checks of the handlers let it pass, or `new_block` has no room;
* a closed image is opened for every length and offset for which the new image was. -/
theorem disk_flat (cfg : Config) (hcfg : cfg.finegrainedCow = false) (fs fs₀ : Fs)
    (name : Path) (blockSize rc : ℤ) (maxSize : ℕ) (hempty : (fs name).getD .empty = .empty)
    (hnew : newImage cfg fs name blockSize maxSize none = .ok (fs₀, rc)) (ops : List DiskOp)
    (st : Disk) (evs : List Event) (hrun : Disk.run cfg name (.closed fs₀) ops = .ok (st, evs)) :
    Flat.Correct (fun _ => 0) evs ∧
    (∀ ses op, st = .opened ses → op.Within (· < ses.s.fmmapLength) →
      (∃ ses' ev, ses.step cfg op = .ok (ses', ev) ∧
        Flat.Ok (Flat.after (fun _ => 0) evs) ev ∧ (op.Within ses.InReach → Flat.Done ev)) ∨
      ∃ err, ses.step cfg op = .error err ∧ ¬ses.HasRoom cfg op) ∧
    ∀ fs₁ length offset ses₀, st = .closed fs₁ →
      Session.fmmap cfg fs₀ name length offset = .ok (some ses₀) →
      ∃ ses, Session.fmmap cfg fs₁ name length offset = .ok (some ses) := by
  obtain ⟨g, hdvd, hshows⟩ := Disk.shows_newImage hempty hnew
  obtain ⟨h, hok⟩ := hshows.run hcfg hdvd hrun
  refine ⟨hok, ?_, ?_⟩
  · rintro ses op rfl hin
    rcases h.guest hcfg hin with ⟨ses', ev, hstep, -, hev, hdone⟩ | hno
    · exact Or.inl ⟨ses', ev, hstep, hev, hdone⟩
    · exact Or.inr hno
  · rintro fs₁ length offset ses₀ rfl hopen
    obtain ⟨ls₀, es₀, himage₀, -, -⟩ := hshows
    obtain ⟨ls, es, himage, hname, -⟩ := h
    obtain ⟨hlen, -⟩ := himage₀.isChain.fmmap_ok rfl himage₀.size_lt hopen
    refine himage.isChain.exists_fmmap rfl himage.size_lt hlen (x := (fs₁, [])) ?_
    rw [baseImageName_eq_nil hname]
    rfl


/-- There is a session with a store on an image that has room. -/
theorem Disk.exists_store {cfg : Config} {g : Geometry cfg} {fs : Fs} {fd : Path}
    {ls : List (List ℕ)} {es : List ℕ} {length v : ℕ} (hcfg : cfg.finegrainedCow = false)
    (himage : IsImage g ((fs fd).getD .empty) ls es) (hname : ((fs fd).getD .empty).byte 16 = 0)
    (hdvd : pageSize ∣ g.blockSize) (hlen : g.LengthOk length 0)
    (hcap : es.length + g.need es.length ≤ g.cap)
    (hend : g.endOff (g.chainEnd 0 ls) es.length + g.blockSize * maxPreNum < 2 ^ 63)
    (hv : v + g.blockSize ≤ g.mapLength length) (x : UInt8) :
    ∃ ses ses' es', Session.fmmap cfg fs fd length 0 = .ok (some ses) ∧ v < ses.s.fmmapLength ∧
      ses.step cfg (.store v x 0 0) = .ok (ses', .stored v x true) ∧ ses'.s.fd = fd ∧
      ses'.file.byte 16 = 0 ∧ ses'.Inv g ls es' (g.lowBindings [] fd ls) ∧
      Grows (v / g.blockSize) es es' := by
  obtain ⟨ses, hopen, hopened⟩ := IsImage.exists_fmmap fs fd himage hname hlen
  have hinv := hopened.inv hdvd himage
  have hreach := hinv.inReach hopened.fmmapLength hopened.globalLength hv
  have hcow : ses.CowOk cfg v true := fun hfine => absurd hfine (by rw [hcfg]; decide)
  rcases hinv.store hreach.1 hcow 0 0 x with ⟨ses', r, es', hr, hgrows, hinv', henv, -, hdone⟩ |
    ⟨err, -, hnb, -⟩
  · refine ⟨ses, ses', es', hopen, hreach.1, ?_, henv.fd.trans hopened.fd_eq, ?_, hinv', hgrows⟩
    · rw [Session.step, hr, hdone hreach]
      rfl
    · rw [henv.kept 16 (Or.inr ⟨le_rfl, by norm_num⟩), Session.file, hopened.fd_eq, hopened.files]
      exact hname
  · obtain ⟨y, hy⟩ := hinv.core.exists_newBlock (n := 0) (hopened.room hcap hend)
      (v / g.blockSize * g.blockSize)
    rw [hnb] at hy
    cases hy

/-- **A store, and a load in the session after it**, which returns the byte stored. -/
theorem disk_flat_reopened : ∃ (fs₀ : Fs) (ses ses' : Session),
    newImage ⟨false, true⟩ (fun _ => none) [1] (4 * (1 : ℕ)) 1 none = .ok (fs₀, 0) ∧
      Disk.run ⟨false, true⟩ [1] (.closed fs₀) [.fmmap 8192 0, .guest (.store 5 1 0 0), .fmunmap,
        .fmmap 8192 0] = .ok (.opened ses, [.stored 5 1 true]) ∧
      ses.step ⟨false, true⟩ (.load 5 0 0) = .ok (ses', .loaded 5 (some 1)) := by
  generalize hcfg : (⟨false, true⟩ : Config) = cfg
  have hfine : cfg.finegrainedCow = false := by rw [← hcfg]
  obtain ⟨fs₀, hnew⟩ := exists_newImage cfg (fun _ => none) [1] (n := 1) 1 rfl (by norm_num)
    (by norm_num)
  obtain ⟨g, f, hfs, -, himage, hdvd, -, hname, hbs, hmax⟩ := isImage_newImage rfl hnew
  have hbs' : g.blockSize = 4096 := by
    have : i32 (4 * ((1 : ℕ) : ℤ) * 1024) = 4096 := by decide
    omega
  have hcap : ∀ k ≤ 1, k + g.need k ≤ g.cap := by
    intro k hk
    have hneed := g.need_le k
    have hcap : g.cap = 262144 := by
      rw [Geometry.cap, hmax]
      rfl
    omega
  have hend : ∀ k ≤ 1, g.endOff (g.chainEnd 0 []) k + g.blockSize * maxPreNum < 2 ^ 63 := by
    intro k hk
    have hseg := g.lastSeg_le (k := k)
    have hle : g.endOff 0 k ≤ g.blockAt 0 4 := g.blockAt_mono 0 (by rw [Geometry.blocks]; omega)
    rw [Geometry.blockAt, hbs'] at hle
    rw [hbs', Geometry.chainEnd, show maxPreNum = 5 from rfl]
    omega
  have hmap : g.mapLength 8192 = 8192 := rfl
  have hlen : g.LengthOk 8192 0 := by
    refine ⟨?_, ?_, ?_, ?_⟩ <;> rw [hmap] <;> decide
  have himage₀ : IsImage g ((fs₀ [1]).getD .empty) [] [] := by
    rw [hfs]
    exact himage
  have hname₀ : ((fs₀ [1]).getD .empty).byte 16 = 0 := by
    rw [hfs]
    exact hname rfl
  -- the first session
  obtain ⟨ses₁, ses₂, es, hopen₁, hin₁, hstore, hfd, hname₁, hinv, hgrows⟩ :=
    Disk.exists_store (v := 5) hfine himage₀ hname₀ hdvd hlen (hcap 0 (by omega))
      (hend 0 (by omega)) (by rw [hbs', hmap]; norm_num) 1
  have hes : es.length ≤ 1 := by
    rcases hgrows with rfl | ⟨-, rfl⟩ <;> simp
  have hclose : ses₂.fmunmap cfg = ses₂.fs :=
    Session.AllComplete.fmunmap (fun i _ => hinv.plain hfine i) cfg
  have hfile : (ses₂.fs [1]).getD .empty = ses₂.file := by rw [Session.file, hfd]
  -- the second session
  have himage₁ : IsImage g ((ses₂.fs [1]).getD .empty) [] es := by
    rw [hfile]
    exact hinv.core.image
  obtain ⟨ses₃, hopen₃, hopened₃⟩ := IsImage.exists_fmmap ses₂.fs [1] himage₁
    (by rw [hfile]; exact hname₁) hlen
  have hin₃ : 5 < ses₃.s.fmmapLength := by
    rw [hopened₃.fmmapLength, hmap]
    norm_num
  have hreach := (hopened₃.inv hdvd himage₁).inReach (v := 5) hopened₃.fmmapLength
    hopened₃.globalLength (by rw [hbs', hmap]; norm_num)
  have hrun : Disk.run cfg [1] (.closed fs₀) [.fmmap 8192 0, .guest (.store 5 1 0 0), .fmunmap,
      .fmmap 8192 0] = .ok (.opened ses₃, [.stored 5 1 true]) := by
    have hwithin : (GuestOp.store 5 1 0 0).Within (· < ses₁.s.fmmapLength) := hin₁
    simp only [Disk.run, Disk.step, hopen₁, hopen₃, hclose, if_pos hwithin, hstore, Except.map]
    rfl
  obtain ⟨-, hnext, -⟩ := disk_flat cfg hfine (fun _ => none) fs₀ [1] _ _ 1 rfl hnew _ _ _ hrun
  rcases hnext ses₃ (.load 5 0 0) rfl hin₃ with ⟨ses', ev, hstep, hok, hdone⟩ | ⟨err, -, hno⟩
  · refine ⟨fs₀, ses₃, ses', hnew, hrun, ?_⟩
    obtain ⟨r, rfl, -⟩ := Session.step_load hstep
    rcases r with _ | y
    · exact absurd rfl (hdone hreach)
    · have hy : y = 1 := hok
      rw [hstep, hy]
  · exact absurd (fun _ => hopened₃.room (hcap _ hes) (hend _ hes)) hno

end Pcow
