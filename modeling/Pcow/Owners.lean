import Pcow.Bases
import Pcow.Ready

/-!
# The file an operation writes to

A session maps pages of several files: those of its own image, frozen layers and the last one, and
those of the base. Only pages of its own image are writable (`Session.Home`). Everything else that
is written goes through the descriptor of the image, and so an operation on one image changes no
other file (`untargeted_files_stay`), whatever the files hold and however images are used: nothing
here asks that a file be an image, that a base have no base, or that two machines keep apart.
-/

namespace Pcow

variable {cfg : Config} {file : Path} {f : ByteFile} {n n' v : ℕ}

/-! ### Writable pages -/

/-- **The writable pages of the table are pages of one file.** -/
def WritesOnly (t : PageTable Path) (file : Path) : Prop :=
  ∀ p e, t p = some e → e.writable = true → e.file = file

theorem WritesOnly.mapRange {t : PageTable Path} (h : WritesOnly t file) {voff len off : ℕ}
    {file' : Path} {w : Bool} (hw : w = true → file' = file) :
    WritesOnly (t.mapRange voff len file' off w) file :=
  PageTable.All.mapRange h fun _ => hw

theorem superChain_fd {s : Super} {l : List Super} (hr : superChain cfg f n s = .ok l) :
    ∀ t ∈ l, t.fd = s.fd := by
  induction n generalizing s l with
  | zero => cases hr
  | succ n ih =>
    rw [superChain] at hr
    rcases hnext : readNextSuper cfg f s with e | _ | t
    · rw [hnext] at hr
      cases hr
    · rw [hnext] at hr
      cases hr
      exact fun t ht => by rw [List.mem_singleton.mp ht]
    · rw [hnext] at hr
      obtain ⟨l', hrest, rfl⟩ := map_eq_ok hr
      exact List.forall_mem_cons.mpr
        ⟨rfl, fun x hx => (ih hrest x hx).trans (readNextSuper_fd hnext)⟩

/-! ### Sessions -/

namespace Session

variable {ses ses' : Session} {name : Path} {ops : List FileOp}

/-- **The session is at home in the image**: it is the file of its descriptor, and only its pages
are writable. -/
structure Home (ses : Session) (name : Path) : Prop where
  fd : ses.s.fd = name
  pages : WritesOnly ses.pages name

/-- **It stays there and changes no other file.** -/
structure StaysHome (ses ses' : Session) (name : Path) : Prop where
  home : ses'.Home name
  files : ∀ q, q ≠ name → ses'.fs q = ses.fs q

theorem Home.stays (h : ses.Home name) : ses.StaysHome ses name := ⟨h, fun _ _ => rfl⟩

theorem StaysHome.trans {ses'' : Session} (h : ses.StaysHome ses' name)
    (h' : ses'.StaysHome ses'' name) : ses.StaysHome ses'' name :=
  ⟨h'.home, fun q hq => (h'.files q hq).trans (h.files q hq)⟩

/-- Operations are issued on the image only, whatever becomes of the rest of the session. -/
theorem Home.issue (h : ses.Home name) {s : Super} {r : Ring} {cow : CowTables}
    (hs : s.fd = ses.s.fd) :
    ses.StaysHome { ses.issue ops with s := s, ring := r, cow := cow } name := by
  refine ⟨⟨hs.trans h.fd, h.pages⟩, fun q hq => Function.update_of_ne ?_ _ _⟩
  rw [h.fd]
  exact hq

theorem Home.remap_mmap (h : ses.Home name) (voff len off : ℕ) :
    ses.StaysHome (ses.remap (.mmap voff len ses.s.fd off true)) name :=
  ⟨⟨h.fd, h.pages.mapRange fun _ => h.fd⟩, fun _ _ => rfl⟩

theorem Home.remap_mremap (h : ses.Home name) (voff len off : ℕ) :
    ses.StaysHome (ses.remap (.mremap voff len ses.s.fd off)) name :=
  ⟨⟨h.fd, h.pages.mapRange fun _ => h.fd⟩, fun _ _ => rfl⟩

theorem Home.ufMonitor (h : ses.Home name) (hr : ses.ufMonitor cfg n n' v = .ok (ses', ops)) :
    ses.StaysHome ses' name := by
  rcases ufMonitor_cases hr with ⟨rfl, -⟩ | ⟨s', r', nb, hnb, rfl⟩
  · exact h.stays
  · have hfd := (newBlock_sameFixed hnb).1.fd
    have h₁ : ses.StaysHome { ses.issue ops with s := s', ring := r' } name := h.issue hfd
    rw [← hfd]
    exact h₁.trans (h₁.home.remap_mmap _ _ _)

theorem Home.insertHt {key : ℕ} {ce : CowEntry} (h : ses.Home name)
    (hr : ses.insertHt cfg n n' key = .ok (ses', ce, ops)) : ses.StaysHome ses' name := by
  rw [Session.insertHt] at hr
  rcases hnb : newBlock cfg ses.file ses.s ses.ring n n' key with e | ⟨s', r', nb, ops₁⟩
  · rw [hnb] at hr
    cases hr
  rw [hnb] at hr
  obtain ⟨x, hlink, hx⟩ := map_eq_ok hr
  obtain ⟨m, -, rfl⟩ := map_eq_ok hlink
  cases hx
  have h₁ : ses.StaysHome { ses.issue ops₁ with s := s', ring := r' } name :=
    h.issue (newBlock_sameFixed hnb).1.fd
  exact h₁.trans (h₁.home.issue rfl)

/-- A copy into the image, and a mapping of what is copied. -/
theorem Home.copy (h : ses.Home name) (voff len off : ℕ) :
    ses.StaysHome ((ses.issue ops).remap (.mremap voff len ses.s.fd off)) name := by
  have h₁ : ses.StaysHome (ses.issue ops) name := h.issue rfl
  exact h₁.trans (h₁.home.remap_mremap voff len off)

theorem Home.copyUnit {le : CowLEntry} {ce : CowEntry} {aligned : ℕ} (h : ses.Home name)
    (hr : ses.copyUnit cfg le ce aligned = .ok (ses', ops)) : ses.StaysHome ses' name := by
  rw [Session.copyUnit] at hr
  split_ifs at hr
  cases hr
  exact (h.copy _ _ _).trans ((h.copy _ _ _).home.issue rfl)

theorem Home.copyBlock (h : ses.Home name) (ce : CowEntry) (aligned : ℕ) :
    ses.StaysHome (ses.copyBlock cfg ce aligned).1 name :=
  (h.copy _ _ _).trans ((h.copy _ _ _).home.issue rfl)

/-- A copy that runs into a missing page. -/
theorem Home.copyMissing {dst aligned i : ℕ} (h : ses.Home name)
    (hr : ses.copyMissing cfg n n' dst aligned i = .ok (ses', ops)) : ses.StaysHome ses' name := by
  obtain ⟨ses₂, ops₂, hmon, -, hses', -⟩ := copyMissing_ok hr
  revert hmon hses'
  generalize FileOp.memcpy dst _ _ = front
  intro hmon hses'
  generalize FileOp.memcpy _ _ _ = rest at hses'
  rw [hses']
  have h₁ : ses.StaysHome (ses.issue front) name := h.issue rfl
  have h₂ := h₁.trans (h₁.home.ufMonitor hmon)
  exact h₂.trans (h₂.home.issue rfl)

theorem Home.finishBlock (h : ses.Home name) (ce : CowEntry) (aligned : ℕ) :
    ses.StaysHome (ses.finishBlock cfg ce aligned).1 name :=
  (h.copy _ _ _).trans ((h.copy _ _ _).home.issue rfl)

theorem Home.copyWhole {ce : CowEntry} {aligned : ℕ} (h : ses.Home name)
    (hr : ses.copyWhole cfg n n' ce aligned = .ok (ses', ops)) : ses.StaysHome ses' name := by
  rcases copyWhole_cases hr with ⟨-, hblock⟩ | ⟨i, ses₁, ops₁, -, hcopy, rfl, -⟩
  · have h₁ := @Home.copyBlock cfg _ _ h ce aligned
    rwa [hblock] at h₁
  · have h₁ := h.copyMissing hcopy
    exact h₁.trans (h₁.home.finishBlock ce aligned)

theorem Home.copyPlain {aligned : ℕ} (h : ses.Home name)
    (hr : ses.copyPlain cfg n n' aligned = .ok (ses', ops)) : ses.StaysHome ses' name := by
  obtain ⟨s', r', nb, ops₁, ses₁, hnb, hses₁, hcases⟩ := copyPlain_cases hr
  have h₁ : ses.StaysHome ses₁ name := by
    rw [hses₁]
    exact h.issue (newBlock_sameFixed hnb).1.fd
  have hfd : s'.fd = ses₁.s.fd := by rw [hses₁]
  rw [hfd] at hcases
  rcases hcases with ⟨-, hses', -⟩ | ⟨i, ses₂, ops₂, -, hcopy, hses', -⟩
  · rw [hses']
    exact h₁.trans (h₁.home.copy _ _ _)
  · have h₂ := h₁.trans (h₁.home.copyMissing hcopy)
    rw [hses', h₁.home.fd.trans h₂.home.fd.symm]
    exact h₂.trans (h₂.home.remap_mremap _ _ _)

theorem Home.cowHandler (h : ses.Home name) (hr : ses.cowHandler cfg n n' v = .ok (ses', ops)) :
    ses.StaysHome ses' name := by
  rcases cowHandler_cases hr with
    ⟨rfl, -⟩ | ⟨-, -, -, ses₁, le, ce, ops₁, ops₂, hins, -, hcopy⟩ | ⟨-, -, hplain⟩
  · exact h.stays
  · have h₁ : ses.StaysHome ses₁ name := by
      rcases insertList_cases hins with ⟨_, _, -, -, rfl, -⟩ | ⟨-, -, ses₂, hht, rfl⟩
      · exact ⟨⟨h.fd, h.pages⟩, fun _ _ => rfl⟩
      · have h₂ := h.insertHt hht
        exact ⟨⟨h₂.home.fd, h₂.home.pages⟩, h₂.files⟩
    refine h₁.trans ?_
    rcases hcopy with ⟨-, hunit⟩ | ⟨-, hwhole⟩
    · exact h₁.home.copyUnit hunit
    · exact h₁.home.copyWhole hwhole
  · exact h.copyPlain hplain

/-- A fault changes the file of the image only. -/
theorem Home.fault {write : Bool} (h : ses.Home name)
    (hr : ses.fault cfg n n' v write = .ok (ses', ops)) : ses.StaysHome ses' name := by
  rw [Session.fault] at hr
  rcases hp : ses.pages (v / pageSize) with _ | e
  · rw [hp] at hr
    exact h.ufMonitor hr
  · rw [hp] at hr
    simp only at hr
    split_ifs at hr
    · exact h.cowHandler hr
    · cases hr
      exact h.stays

/-- **So does a step of the machine**: a store goes to a writable page. -/
theorem Home.step {op : GuestOp} {ev : Event} (h : ses.Home name)
    (hr : ses.step cfg op = .ok (ses', ev)) : ses.StaysHome ses' name := by
  cases op with
  | load v n n' =>
    obtain ⟨⟨ses₂, x⟩, hload, hx⟩ := map_eq_ok hr
    cases hx
    rw [load] at hload
    rcases hf : ses.fault cfg n n' v false with e | ⟨ses₁, ops⟩
    · rw [hf] at hload
      cases hload
    rw [hf] at hload
    have h₁ := h.fault hf
    rcases hp : ses₁.pages (v / pageSize) with _ | e
    · simp only [hp] at hload
      cases hload
      exact h₁
    · simp only [hp] at hload
      split_ifs at hload
      cases hload
      exact h₁
  | store v b n n' =>
    obtain ⟨⟨ses₂, x⟩, hstore, hx⟩ := map_eq_ok hr
    cases hx
    rw [store] at hstore
    rcases hf : ses.fault cfg n n' v true with e | ⟨ses₁, ops⟩
    · rw [hf] at hstore
      cases hstore
    rw [hf] at hstore
    have h₁ := h.fault hf
    rcases hp : ses₁.pages (v / pageSize) with _ | e
    · simp only [hp] at hstore
      cases hstore
      exact h₁
    · simp only [hp] at hstore
      split_ifs at hstore with hw hback
      · cases hstore
        refine h₁.trans ⟨⟨h₁.home.fd, h₁.home.pages⟩, fun q hq => Function.update_of_ne ?_ _ _⟩
        rw [h₁.home.pages _ _ hp hw]
        exact hq
      · cases hstore
        exact h₁
  | tick =>
    obtain ⟨ses₂, htick, hx⟩ := map_eq_ok hr
    cases hx
    rcases tick_cases htick with ⟨-, rfl⟩ | ⟨-, s', r', ops, hal, rfl⟩
    · exact h.stays
    · exact h.issue (allocate_thread hal).sameLayer.sameFixed.fd

theorem Home.finalCopy (h : ses.Home name) (ce : CowEntry) :
    ses.StaysHome (ses.finalCopy cfg ce) name := by
  rw [Session.finalCopy]
  generalize FileOp.memcpy _ _ _ = ops₁
  have h₁ : ses.StaysHome (ses.issue ops₁) name := h.issue rfl
  exact h₁.trans (h₁.home.issue rfl)

theorem Home.fmunmap (h : ses.Home name) (cfg : Config) :
    ∀ q, q ≠ name → ses.fmunmap cfg q = ses.fs q := by
  have hfold : ∀ (l : List CowEntry) (ses : Session), ses.Home name →
      ses.StaysHome (l.foldl (Session.finalCopy cfg) ses) name := by
    intro l
    induction l with
    | nil => exact fun ses h => h.stays
    | cons ce l ih => exact fun ses h => (h.finalCopy ce).trans (ih _ (h.finalCopy ce).home)
  rw [Session.fmunmap]
  split_ifs
  · exact (hfold _ ses h).files
  · exact fun _ _ => rfl

/-- **A session begins at home**, and `fmmap` changes the contents of no file. -/
theorem home_fmmap {fs : Fs} {length offset : ℕ}
    (hr : Session.fmmap cfg fs name length offset = .ok (some ses)) :
    ses.Home name ∧ ∀ q, (ses.fs q).getD .empty = (fs q).getD .empty := by
  rw [Session.fmmap, Session.fmmapWith] at hr
  simp only at hr
  rcases hread : readFirstSuper cfg ((fs name).getD .empty) name 0 with e | _ | s₀
  · rw [hread] at hr
    cases hr
  · rw [hread] at hr
    cases hr
  have hfd := readFirstSuper_fd hread
  rw [hread] at hr
  simp only at hr
  generalize (if length = 0 then u64 (u64 s₀.blockSize * s₀.maxBlockNum) else length) = len at hr
  split_ifs at hr
  · cases hr
  · cases hr
  rcases hbase : baseMaps cfg fs (baseImageName ((fs name).getD .empty) s₀.myOff) with e | ⟨fs', m₁⟩
  · rw [hbase] at hr
    cases hr
  rw [hbase] at hr
  simp only at hr
  rcases hchain : superChain cfg ((fs name).getD .empty) (((fs name).getD .empty).size + 1) s₀
    with e | l
  · rw [hchain] at hr
    cases hr
  rw [hchain] at hr
  simp only at hr
  rcases hlow : readonlyMaps cfg ((fs name).getD .empty) l.dropLast with e | m₂
  · rw [hlow] at hr
    cases hr
  rw [hlow] at hr
  obtain ⟨m₃, htop, hses⟩ := map_eq_ok hr
  cases hses
  have hro : ∀ (q : Path) (o : ℕ), (⟨q, o, false⟩ : Pte Path).writable = true → q = name :=
    fun _ _ h => Bool.noConfusion h
  obtain ⟨hown, hfiles⟩ := keeps_baseMaps
    (P := fun e : Pte Path => e.writable = true → e.file = name) (hro _) hbase
  have hlast : (l.getLastD s₀).fd = name := by
    rcases List.eq_nil_or_concat l with rfl | ⟨l', t, rfl⟩
    · exact hfd
    · rw [List.concat_eq_append, List.getLastD_concat]
      exact (superChain_fd hchain t (by simp)).trans hfd
  have hmid : PageTable.Keeps (fun e : Pte Path => e.writable = true → e.file = name) m₂ :=
    keeps_readonlyMaps (fun s _ => hro s.fd) hlow
  have htop' : PageTable.Keeps (fun e : Pte Path => e.writable = true → e.file = name) m₃ :=
    keeps_doWritableFmmap (fun _ _ => hlast) htop
  exact ⟨⟨hlast, ((hown.append hmid).append htop') _ PageTable.all_empty⟩, hfiles⟩

end Session

/-! ### Systems -/

variable {W W' : World} {op : WorldOp} {r : Answer} {q : Path}

/-- **The operation writes to the file.** `fmmap` only reads. -/
def WorldOp.Writes (q : Path) : WorldOp → Prop
  | .fmmap _ _ _ => False
  | op => op.target = q

/-- Each session is at home in the image it is on. -/
def World.AtHome (W : World) : Prop := ∀ name ses, W.sessions name = some ses → ses.Home name

theorem file_update_of_ne {fs : Fs} {name : Path} {f : ByteFile} (hq : q ≠ name) :
    (Function.update fs name (some f) q).getD .empty = (fs q).getD .empty := by
  rw [Function.update_of_ne hq]

theorem newImage_files {fs fs' : Fs} {name : Path} {blockSize rc : ℤ} {maxSize : ℕ}
    {base : Option CString} (hr : newImage cfg fs name blockSize maxSize base = .ok (fs', rc))
    (hq : q ≠ name) : (fs' q).getD .empty = (fs q).getD .empty := by
  rw [newImage] at hr
  rcases hread : readFirstSuper cfg ((fs name).getD .empty) name 0 with e | _ | s
  · rw [hread] at hr
    cases hr
  · rw [hread] at hr
    simp only at hr
    split at hr
    · cases hr
    split_ifs at hr
    split at hr
    · cases hr
    · cases hr
    · cases hr
      rw [file_update_of_ne hq, file_update_of_ne hq]
  · rw [hread] at hr
    cases hr
    exact file_update_of_ne hq

theorem updateBaseImage_files {fs fs' : Fs} {name : Path} {rc : ℤ} {base : CString}
    (hr : updateBaseImage cfg fs name base = .ok (fs', rc)) (hq : q ≠ name) :
    (fs' q).getD .empty = (fs q).getD .empty := by
  rw [updateBaseImage] at hr
  split at hr
  · cases hr
    rfl
  split at hr
  · cases hr
  · cases hr
    rfl
  · cases hr
    exact file_update_of_ne hq

theorem onImage_files {fs fs' : Fs} {name : Path} {rc : ℤ}
    {body : ByteFile → Except Fault (ByteFile × ℤ)} (hr : onImage fs name body = .ok (fs', rc))
    (hq : q ≠ name) : (fs' q).getD .empty = (fs q).getD .empty := by
  rw [onImage] at hr
  split at hr
  · cases hr
    rfl
  · obtain ⟨x, -, hx⟩ := map_eq_ok hr
    cases hx
    exact file_update_of_ne hq

/-- A session is at home whatever others do to the files. -/
theorem Session.Home.on {ses : Session} {name : Path} (h : ses.Home name) (fs : Fs) :
    (ses.on fs).Home name := ⟨h.fd, h.pages⟩

/-- The sessions after one of them has changed. -/
theorem World.AtHome.update (h : W.AtHome) {fs : Fs} {name : Path} {ses : Session}
    (hses : ses.Home name) :
    World.AtHome ⟨fs, Function.update W.sessions name (some ses)⟩ := by
  intro p ses' hp
  rcases eq_or_ne p name with rfl | hne
  · simp only [Function.update_self, Option.some.injEq] at hp
    exact hp ▸ hses
  · simp only [Function.update_of_ne hne] at hp
    exact h p ses' hp

/-- **An operation writes to its own file only.** -/
theorem World.AtHome.step (h : W.AtHome) (hr : W.step cfg op = .ok (W', r)) :
    W'.AtHome ∧ ∀ q, ¬op.Writes q → W'.file q = W.file q := by
  cases op with
  | newImage name blockSize maxSize base =>
    obtain ⟨x, hx, hW⟩ := map_eq_ok hr
    cases hW
    exact ⟨h, fun q hq => newImage_files hx (Ne.symm hq)⟩
  | updateBaseImage name base =>
    obtain ⟨x, hx, hW⟩ := map_eq_ok hr
    cases hW
    exact ⟨h, fun q hq => updateBaseImage_files hx (Ne.symm hq)⟩
  | snapshot name =>
    obtain ⟨x, hx, hW⟩ := map_eq_ok hr
    cases hW
    exact ⟨h, fun q hq => onImage_files hx (Ne.symm hq)⟩
  | rollbackSnapshot name no =>
    obtain ⟨x, hx, hW⟩ := map_eq_ok hr
    cases hW
    exact ⟨h, fun q hq => onImage_files hx (Ne.symm hq)⟩
  | fmmap name length offset =>
    rcases World.step_fmmap hr with ⟨-, rfl, -⟩ | ⟨ses, hmap, rfl, -⟩
    · exact ⟨h, fun _ _ => rfl⟩
    · obtain ⟨hhome, hfiles⟩ := Session.home_fmmap hmap
      exact ⟨h.update hhome, fun q _ => hfiles q⟩
  | guest name op =>
    obtain ⟨ses, ses', ev, hses, -, hx, rfl, -⟩ := World.step_guest hr
    have hstays := ((h name ses hses).on W.fs).step hx
    refine ⟨h.update hstays.home, fun q hq => ?_⟩
    exact congrArg (fun f => Option.getD f .empty) (hstays.files q (Ne.symm hq))
  | fmunmap name =>
    obtain ⟨ses, hses, rfl, -⟩ := World.step_fmunmap hr
    refine ⟨fun p ses' hp => ?_, fun q hq => ?_⟩
    · rcases eq_or_ne p name with rfl | hne
      · simp only [Function.update_self] at hp
        cases hp
      · simp only [Function.update_of_ne hne] at hp
        exact h p ses' hp
    · exact congrArg (fun f => Option.getD f .empty)
        (((h name ses hses).on W.fs).fmunmap cfg q (Ne.symm hq))

/-- **No operation changes the file of another image**, in any run: whatever the files hold at the
start, images or not, whole or damaged, and however the calls of the tool and the steps of machines
are interleaved, a file is what it was if nothing was done on it but `fmmap`. So a base is safe from
the machines on its clones, and from each other. -/
theorem untargeted_files_stay (cfg : Config) (fs : Fs) (ops : List WorldOp) (W : World)
    (rs : List Answer) (hrun : World.run cfg ⟨fs, fun _ => none⟩ ops = .ok (W, rs)) (q : Path)
    (hq : ∀ op ∈ ops, ¬op.Writes q) : W.file q = (fs q).getD .empty := by
  have hstart : World.AtHome ⟨fs, fun _ => none⟩ := fun name ses hses => by cases hses
  have hgen : ∀ (ops : List WorldOp) (W₀ W : World) (rs : List Answer), W₀.AtHome →
      W₀.run cfg ops = .ok (W, rs) → (∀ op ∈ ops, ¬op.Writes q) → W.file q = W₀.file q := by
    intro ops
    induction ops with
    | nil =>
      intro W₀ W rs _ hr _
      cases hr
      rfl
    | cons op ops ih =>
      intro W₀ W rs h hr hq
      rw [List.forall_mem_cons] at hq
      obtain ⟨W₁, r, rs', hstep, hrest, -⟩ := World.run_cons hr
      obtain ⟨h₁, hfiles⟩ := h.step hstep
      rw [ih W₁ W rs' h₁ hrest hq.2, hfiles q hq.1]
  exact hgen ops _ W rs hstart hrun hq

/-- A machine stores to a clone, and the base keeps its contents. -/
theorem untargeted_files_stay_clone : ∃ (fs : Fs) (W : World) (s : Super),
    readFirstSuper ⟨false, false⟩ ((fs [1]).getD .empty) [1] 0 = .ok (some s) ∧
    World.run ⟨false, false⟩ ⟨fs, fun _ => none⟩ [.newImage [2] 4 1 (some .one), .fmmap [2] 8192 0,
        .guest [2] (.store 5 7 0 0)] =
      .ok (W, [.returned 0, .mapped, .event (.stored 5 7 true)]) ∧
    W.file [1] = (fs [1]).getD .empty := by
  have h₀ : Shelved ⟨false, false⟩ .init .init := shelved_init
  obtain ⟨W₁, ha₁, hr₁, h₁⟩ := h₀.exists_created [1] none
    (h₀.free_of_closed (fun _ => rfl) _) rfl (by simp)
  obtain ⟨W₂, ha₂, hr₂, h₂⟩ := h₁.exists_created [2] (some .one)
    (h₁.free_of_closed (fun _ => rfl) _) rfl (by decide)
  obtain ⟨W₃, ha₃, hr₃, h₃⟩ := h₂.exists_opened [2] (h₂.free_of_closed (fun _ => rfl) _) rfl
    (Or.inr ⟨rfl, _, rfl, rfl, rfl⟩)
  obtain ⟨W₄, ha₄, hr₄, h₄⟩ := h₃.exists_stored [2] 5 7 rfl rfl Volume.fresh_new (by decide)
    (by decide) (by decide)
  obtain ⟨-, hrun⟩ := World.runs_cons ha₂ hr₂ (World.runs_cons ha₃ hr₃ (World.runs_cons ha₄ hr₄
    World.runs_nil))
  obtain ⟨s, hs⟩ : ∃ s, readFirstSuper ⟨false, false⟩ (W₁.file [1]) [1] 0 = .ok (some s) := by
    cases h₁ [1] with
    | missing hs ho hn => cases hn
    | closed hs ho hw hvolume => exact hvolume.readFirstSuper
    | opened hs ho => cases ho
  have hW₁ : W₁ = ⟨W₁.fs, fun _ => none⟩ := by
    have hsessions : W₁.sessions = fun _ => none :=
      funext fun q => (h₁ q).sessions_eq_none_iff.mpr rfl
    rw [← hsessions]
  rw [hW₁] at hrun
  refine ⟨W₁.fs, W₄, s, hs, hrun, untargeted_files_stay _ _ _ _ _ hrun [1] ?_⟩
  simp [WorldOp.Writes, WorldOp.target]

end Pcow
