import Pcow.Disk
import Pcow.Entries
import Pcow.Link

/-!
# Machines and tools on one file system

Images are used by several processes. Each virtual machine has its image open in a process of its
own, with its own mappings, its own tables and its own allocator thread; the tool makes, links,
freezes and cuts images from outside; and all of them work on the same files. A `World` is the files
and the sessions, and a run of it is any interleaving of calls of the tool with the steps of the
machines.

A process knows nothing of the others, and nothing in the code keeps them apart. `World.Admits` is
how images are to be used: the tool and a new session leave an image alone that is open or is the
base of one that is, and a base has the block size of its clones and a name that fits.
-/

namespace Pcow

/-- The session, on the files as they are now. -/
def Session.on (ses : Session) (fs : Fs) : Session := { ses with fs := fs }

/-- The files, and the session on each image that is open. -/
structure World where
  /-- The files. -/
  fs : Fs
  /-- The sessions. Of the files in one only those at its last step are known. -/
  sessions : Path → Option Session

/-- One call of the tool, or one step of a machine. -/
inductive WorldOp
  /-- `new_image` is called. -/
  | newImage (name : Path) (blockSize : ℤ) (maxSize : ℕ) (base : Option CString) : WorldOp
  /-- `update_base_image` is called. -/
  | updateBaseImage (name : Path) (base : CString) : WorldOp
  /-- `snapshot` is called. -/
  | snapshot (name : Path) : WorldOp
  /-- `rollback_snapshot` is called. -/
  | rollbackSnapshot (name : Path) (snapshotNo : ℤ) : WorldOp
  /-- A machine calls `fmmap` on the image. -/
  | fmmap (name : Path) (length offset : ℕ) : WorldOp
  /-- The machine that has the image open makes a step. -/
  | guest (name : Path) (op : GuestOp) : WorldOp
  /-- It calls `fmunmap`. -/
  | fmunmap (name : Path) : WorldOp

/-- The image an operation is about. -/
def WorldOp.target : WorldOp → Path
  | .newImage name _ _ _ => name
  | .updateBaseImage name _ => name
  | .snapshot name => name
  | .rollbackSnapshot name _ => name
  | .fmmap name _ _ => name
  | .guest name _ => name
  | .fmunmap name => name

/-- What comes of an operation. -/
inductive Answer
  /-- The call returns. -/
  | returned (rc : ℤ) : Answer
  /-- `fmmap` returns a range. -/
  | mapped : Answer
  /-- `fmmap` returns `MAP_FAILED`. -/
  | failed : Answer
  /-- The machine makes an access, or its allocator thread an iteration. -/
  | event (ev : Event) : Answer

namespace World

/-- Nothing is there yet. -/
def init : World := ⟨fun _ => none, fun _ => none⟩

/-- The contents of a file; a missing one has none. -/
def file (W : World) (name : Path) : ByteFile := (W.fs name).getD .empty

/-- One operation. -/
def step (cfg : Config) (W : World) : WorldOp → Except Fault (World × Answer)
  | .newImage name blockSize maxSize base =>
    (Pcow.newImage cfg W.fs name blockSize maxSize base).map fun x =>
      ({ W with fs := x.1 }, .returned x.2)
  | .updateBaseImage name base =>
    (Pcow.updateBaseImage cfg W.fs name base).map fun x => ({ W with fs := x.1 }, .returned x.2)
  | .snapshot name =>
    (Pcow.snapshot cfg W.fs name).map fun x => ({ W with fs := x.1 }, .returned x.2)
  | .rollbackSnapshot name no =>
    (Pcow.rollbackSnapshot cfg W.fs name no).map fun x => ({ W with fs := x.1 }, .returned x.2)
  | .fmmap name length offset =>
    match Session.fmmap cfg W.fs name length offset with
    | .error e => .error e
    | .ok none => .ok (W, .failed)
    | .ok (some ses) => .ok (⟨ses.fs, Function.update W.sessions name (some ses)⟩, .mapped)
  | .guest name op =>
    match W.sessions name with
    | none => .error .sigsegv
    | some ses =>
      if op.Within (· < ses.s.fmmapLength) then
        ((ses.on W.fs).step cfg op).map fun x =>
          (⟨x.1.fs, Function.update W.sessions name (some x.1)⟩, .event x.2)
      -- an access outside of the range
      else .error .sigsegv
  | .fmunmap name =>
    match W.sessions name with
    -- `cur_s` is a null pointer
    | none => .error .sigsegv
    | some ses =>
      .ok (⟨(ses.on W.fs).fmunmap cfg, Function.update W.sessions name none⟩, .returned 0)

/-- A run, and the answers in their order. -/
def run (cfg : Config) : World → List WorldOp → Except Fault (World × List Answer)
  | W, [] => .ok (W, [])
  | W, op :: ops => match W.step cfg op with
    | .error e => .error e
    | .ok (W', r) => (run cfg W' ops).map fun x => (x.1, r :: x.2)

/-- What `fmmap` returns. -/
theorem step_fmmap {cfg : Config} {W W' : World} {name : Path} {length offset : ℕ} {r : Answer}
    (hr : W.step cfg (.fmmap name length offset) = .ok (W', r)) :
    (Session.fmmap cfg W.fs name length offset = .ok none ∧ W' = W ∧ r = .failed) ∨
      ∃ ses, Session.fmmap cfg W.fs name length offset = .ok (some ses) ∧
        W' = ⟨ses.fs, Function.update W.sessions name (some ses)⟩ ∧ r = .mapped := by
  rw [step] at hr
  rcases hmap : Session.fmmap cfg W.fs name length offset with e | _ | ses
  · rw [hmap] at hr
    cases hr
  · rw [hmap] at hr
    cases hr
    exact Or.inl ⟨rfl, rfl, rfl⟩
  · rw [hmap] at hr
    cases hr
    exact Or.inr ⟨ses, rfl, rfl, rfl⟩

/-- A step of a machine that comes to an end is one of its session. -/
theorem step_guest {cfg : Config} {W W' : World} {name : Path} {op : GuestOp} {r : Answer}
    (hr : W.step cfg (.guest name op) = .ok (W', r)) :
    ∃ ses ses' ev, W.sessions name = some ses ∧ op.Within (· < ses.s.fmmapLength) ∧
      (ses.on W.fs).step cfg op = .ok (ses', ev) ∧
      W' = ⟨ses'.fs, Function.update W.sessions name (some ses')⟩ ∧ r = .event ev := by
  rw [step] at hr
  rcases hses : W.sessions name with _ | ses
  · rw [hses] at hr
    cases hr
  rw [hses] at hr
  simp only at hr
  split_ifs at hr with hin
  obtain ⟨x, hx, heq⟩ := map_eq_ok hr
  cases heq
  exact ⟨ses, x.1, x.2, rfl, hin, hx, rfl, rfl⟩

/-- `fmunmap` is for an image that is open. -/
theorem step_fmunmap {cfg : Config} {W W' : World} {name : Path} {r : Answer}
    (hr : W.step cfg (.fmunmap name) = .ok (W', r)) :
    ∃ ses, W.sessions name = some ses ∧
      W' = ⟨(ses.on W.fs).fmunmap cfg, Function.update W.sessions name none⟩ ∧
      r = .returned 0 := by
  rw [step] at hr
  rcases hses : W.sessions name with _ | ses
  · rw [hses] at hr
    cases hr
  · rw [hses] at hr
    cases hr
    exact ⟨ses, rfl, rfl, rfl⟩

/-- A run with a first operation. -/
theorem run_cons {cfg : Config} {W W' : World} {op : WorldOp} {ops : List WorldOp}
    {rs : List Answer}
    (hr : W.run cfg (op :: ops) = .ok (W', rs)) : ∃ W₁ r rs', W.step cfg op = .ok (W₁, r) ∧
      W₁.run cfg ops = .ok (W', rs') ∧ rs = r :: rs' := by
  rw [run] at hr
  rcases hstep : W.step cfg op with e | ⟨W₁, r⟩
  · rw [hstep] at hr
    cases hr
  · rw [hstep] at hr
    obtain ⟨x, hrest, hx⟩ := map_eq_ok hr
    cases hx
    exact ⟨W₁, r, x.2, rfl, hrest, rfl⟩

/-- Every operation of a run has a property in the state before it. -/
def Along (cfg : Config) (P : World → WorldOp → Prop) : World → List WorldOp → Prop
  | _, [] => True
  | W, op :: ops => P W op ∧ ∀ W' r, W.step cfg op = .ok (W', r) → Along cfg P W' ops

/-! ### How images are to be used -/

/-- The base an image names. -/
def baseOf (W : World) (name : Path) : Path := baseImageName (W.file name) 0

/-- **No machine uses the image**: it is not open, and no open image names it as its base. -/
def Free (W : World) (name : Path) : Prop :=
  W.sessions name = none ∧
    ∀ q, W.sessions q ≠ none → W.baseOf q = [] ∨ W.baseOf q ≠ name

/-- The base of an image, if it names one, is not open, and is not an image or has the same block
size. -/
def BaseOk (cfg : Config) (W : World) (name : Path) : Prop :=
  W.baseOf name = [] ∨
    W.sessions (W.baseOf name) = none ∧
      (readFirstSuper cfg (W.file (W.baseOf name)) (W.baseOf name) 0 = .ok none ∨
        (W.file (W.baseOf name)).loadInt 0 = (W.file name).loadInt 0)

/-- **The operation is one images are to be used by.** Names of bases are shorter than the field
for them; a session is opened on a base of the same block size; a copy on write finds its meta
block; and no block is incomplete when a session ends. The last two are about fine-grained
copies only. -/
def Admits (cfg : Config) (W : World) : WorldOp → Prop
  | .newImage name _ _ base => W.Free name ∧ ∀ b ∈ base, b.chars.length < 48
  | .updateBaseImage name base => W.Free name ∧ base.chars.length < 48
  | .snapshot name => W.Free name
  | .rollbackSnapshot name _ => W.Free name
  | .fmmap name _ _ => W.Free name ∧ W.BaseOk cfg name
  | .guest name op => ∀ ses, W.sessions name = some ses → (ses.on W.fs).StepOk cfg op
  | .fmunmap name => ∀ ses, W.sessions name = some ses → ses.AllComplete

end World

end Pcow
