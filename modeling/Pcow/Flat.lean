import Pcow.Build

/-!
# A session is a flat byte array

A run of a session is a sequence of loads and stores of the guest, with iterations of
the allocator thread anywhere in between. What happened in it is a list of events.
The events are those of a flat byte array (`Flat.Correct`): each load returns the value
stored last, or the initial one.

`Session.Inv.run` says so of every session in order. A run goes on until `new_block` finds
no room, and its events up to there are those of a byte array. For sessions that
`fmmap` starts the initial contents are the overlay of the layers (`flat_session`).
-/

namespace Pcow

/-! ### Flat byte arrays -/

/-- What happened in a run. -/
inductive Event
  /-- A load, and what it returned; `none` if it did not come to an end. -/
  | loaded (v : ℕ) (r : Option UInt8) : Event
  /-- A store, and whether it came to an end. -/
  | stored (v : ℕ) (x : UInt8) (done : Bool) : Event
  /-- An iteration of the allocator thread. -/
  | ticked : Event
deriving DecidableEq

namespace Flat

/-- The byte array after an event. -/
def apply (mem : ℕ → UInt8) : Event → ℕ → UInt8
  | .stored v x true => Function.update mem v x
  | _ => mem

/-- The event is one of the byte array. -/
def Ok (mem : ℕ → UInt8) : Event → Prop
  | .loaded v (some x) => x = mem v
  | _ => True

/-- The access of the event came to an end. -/
def Done : Event → Prop
  | .loaded _ r => r ≠ none
  | .stored _ _ done => done = true
  | .ticked => True

/-- The byte array after a list of events. -/
def after (mem : ℕ → UInt8) (evs : List Event) : ℕ → UInt8 := evs.foldl apply mem

/-- **The events are those of a byte array**: every load returns the value stored last
at its offset, or the initial one. -/
def Correct : (ℕ → UInt8) → List Event → Prop
  | _, [] => True
  | mem, ev :: evs => Ok mem ev ∧ Correct (apply mem ev) evs

theorem after_append (mem : ℕ → UInt8) (evs evs' : List Event) :
    after mem (evs ++ evs') = after (after mem evs) evs' := List.foldl_append

theorem Correct.append {mem : ℕ → UInt8} {evs evs' : List Event} (h : Correct mem evs)
    (h' : Correct (after mem evs) evs') : Correct mem (evs ++ evs') := by
  induction evs generalizing mem with
  | nil => exact h'
  | cons ev evs ih => exact ⟨h.1, ih h.2 h'⟩

end Flat

/-! ### Runs -/

/-- One step of a run. -/
inductive GuestOp
  /-- A load; `n` and `n'` are the iterations of the allocator thread its fault waits
  for. -/
  | load (v n n' : ℕ) : GuestOp
  /-- A store. -/
  | store (v : ℕ) (x : UInt8) (n n' : ℕ) : GuestOp
  /-- An iteration of the allocator thread. -/
  | tick : GuestOp

/-- The offset of the access, if it is one, has a property. -/
def GuestOp.Within (P : ℕ → Prop) : GuestOp → Prop
  | .load v _ _ => P v
  | .store v _ _ _ => P v
  | .tick => True

variable {cfg : Config} {g : Geometry cfg} {es : List ℕ} {ls : List (List ℕ)}
  {low : ℕ → Option (Path × ℕ)}

namespace Session

variable {ses ses' : Session} {op : GuestOp} {ops : List GuestOp}

/-- One step of a run. -/
def step (cfg : Config) (ses : Session) : GuestOp → Except Fault (Session × Event)
  | .load v n n' => (ses.load cfg n n' v).map fun x => (x.1, .loaded v x.2)
  | .store v x n n' => (ses.store cfg n n' v x).map fun y => (y.1, .stored v x y.2)
  | .tick => (ses.tick cfg).map fun s => (s, .ticked)

/-- A run. -/
def run (cfg : Config) : Session → List GuestOp → Except Fault (Session × List Event)
  | ses, [] => .ok (ses, [])
  | ses, op :: ops =>
    match ses.step cfg op with
    | .error e => .error e
    | .ok (ses', ev) => (run cfg ses' ops).map fun x => (x.1, ev :: x.2)

section Returns

variable {v n n' : ℕ} {ev : Event} {evs : List Event}

/-- A step that is a load. -/
theorem step_load (hr : ses.step cfg (.load v n n') = .ok (ses', ev)) :
    ∃ r, ev = .loaded v r ∧ ses.load cfg n n' v = .ok (ses', r) := by
  obtain ⟨x, hl, heq⟩ := map_eq_ok hr
  cases heq
  exact ⟨x.2, rfl, hl⟩

/-- A step that is a store. -/
theorem step_store {x : UInt8} (hr : ses.step cfg (.store v x n n') = .ok (ses', ev)) :
    ∃ r, ev = .stored v x r ∧ ses.store cfg n n' v x = .ok (ses', r) := by
  obtain ⟨y, hs, heq⟩ := map_eq_ok hr
  cases heq
  exact ⟨y.2, rfl, hs⟩

/-- A step of the allocator thread. -/
theorem step_tick (hr : ses.step cfg .tick = .ok (ses', ev)) :
    ev = .ticked ∧ ses.tick cfg = .ok ses' := by
  obtain ⟨x, ht, heq⟩ := map_eq_ok hr
  cases heq
  exact ⟨rfl, ht⟩

/-- A run with a first step. -/
theorem run_cons (hr : ses.run cfg (op :: ops) = .ok (ses', evs)) :
    ∃ ses₁ ev evs', ses.step cfg op = .ok (ses₁, ev) ∧ ses₁.run cfg ops = .ok (ses', evs') ∧
      evs = ev :: evs' := by
  rw [run] at hr
  rcases hstep : ses.step cfg op with e | ⟨ses₁, ev⟩
  · rw [hstep] at hr
    cases hr
  · rw [hstep] at hr
    obtain ⟨x, hrest, heq⟩ := map_eq_ok hr
    cases heq
    exact ⟨ses₁, ev, x.2, rfl, hrest, rfl⟩

end Returns

/-- Every step of a run has a property in the state before it. -/
def Along (cfg : Config) (P : Session → GuestOp → Prop) : Session → List GuestOp → Prop
  | _, [] => True
  | ses, op :: ops => P ses op ∧ ∀ ses' ev, ses.step cfg op = .ok (ses', ev) → Along cfg P ses' ops

/-- A copy on write of this step works. -/
def StepOk (cfg : Config) (ses : Session) : GuestOp → Prop
  | .store v _ _ _ => ses.CowOk cfg v true
  | _ => True

/-- There is room for the block this step allocates, if it does. -/
def HasRoom (cfg : Config) (ses : Session) : GuestOp → Prop
  | .load v _ _ => ses.Allocates cfg v false → ses.Room cfg
  | .store v _ _ _ => ses.Allocates cfg v true → ses.Room cfg
  | .tick => ses.TickRoom cfg

/-- What a step of a run leaves, starting from the entries `es`. -/
structure Stepped (g : Geometry cfg) (ls : List (List ℕ)) (low : ℕ → Option (Path × ℕ))
    (ses : Session) (op : GuestOp) (ses' : Session) (ev : Event) (es' : List ℕ) : Prop where
  inv : ses'.Inv g ls es' low
  env : ses.Env ses'
  view : ses'.view = Flat.apply ses.view ev
  ok : Flat.Ok ses.view ev
  done : op.Within ses.InReach → Flat.Done ev

/-- **One step of a run** is an event of the byte array the guest sees, or there was no
room. -/
theorem Inv.step (h : ses.Inv g ls es low) (hin : op.Within (· < ses.s.fmmapLength))
    (hok : ses.StepOk cfg op) :
    (∃ ses' ev es', ses.step cfg op = .ok (ses', ev) ∧ Stepped g ls low ses op ses' ev es') ∨
      ∃ err, ses.step cfg op = .error err ∧ ¬ses.HasRoom cfg op := by
  have hnoroom : ∀ {n n' a : ℕ} {err : Fault},
      newBlock cfg ses.file ses.s ses.ring n n' a = .error err → ¬ses.Room cfg := by
    intro n n' a err hnb hroom
    obtain ⟨x, hx⟩ := h.core.exists_newBlock (n := n) hroom a
    rw [hnb] at hx
    cases hx
  cases op with
  | load v n n' =>
    rcases h.load hin n n' with ⟨ses', r, es', hr, -, hinv, hsame, hval, hreach⟩ |
      ⟨err, halloc, hnb, hr⟩
    · refine Or.inl ⟨ses', .loaded v r, es', by rw [Session.step, hr]; rfl, hinv, hsame.toEnv,
        hsame.view, ?_, fun hw => ?_⟩
      · rcases r with _ | x
        · trivial
        · exact hval x rfl
      · rw [hreach hw]
        exact Option.some_ne_none _
    · exact Or.inr ⟨err, by rw [Session.step, hr]; rfl, fun hroom => hnoroom hnb (hroom halloc)⟩
  | store v x n n' =>
    rcases h.store hin hok n n' x with ⟨ses', r, es', hr, -, hinv, henv, hview, hreach⟩ |
      ⟨err, halloc, hnb, hr⟩
    · refine Or.inl ⟨ses', .stored v x r, es', by rw [Session.step, hr]; rfl, hinv, henv,
        ?_, trivial,
        hreach⟩
      rw [hview]
      rcases r with _ | _
      · rfl
      · rfl
    · exact Or.inr ⟨err, by rw [Session.step, hr]; rfl, fun hroom => hnoroom hnb (hroom halloc)⟩
  | tick =>
    rcases h.tick with ⟨ses', hr, hinv, hsame⟩ | ⟨hr, hroom⟩
    · exact Or.inl ⟨ses', .ticked, es, by rw [Session.step, hr]; rfl, hinv, hsame.toEnv, hsame.view,
        trivial, fun _ => trivial⟩
    · exact Or.inr ⟨_, by rw [Session.step, hr]; rfl, hroom⟩

/-- What a run leaves. -/
structure Ran (g : Geometry cfg) (ls : List (List ℕ)) (low : ℕ → Option (Path × ℕ))
    (ses : Session) (ops : List GuestOp) (ses' : Session) (evs : List Event) (es' : List ℕ) :
    Prop where
  inv : ses'.Inv g ls es' low
  env : ses.Env ses'
  view : ses'.view = Flat.after ses.view evs
  correct : Flat.Correct ses.view evs
  done : (∀ op ∈ ops, op.Within ses.InReach) → ∀ ev ∈ evs, Flat.Done ev

/-- The offsets within reach do not change. -/
theorem Env.inReach (h : ses.Env ses') (hs : ses'.s.blockSize = ses.s.blockSize) :
    ses'.InReach = ses.InReach := by
  funext v
  rw [InReach, InReach, h.fmmapLength, h.globalLength, hs]

/-- **A run is a run of the byte array the guest sees**, up to the first step that
finds no room. -/
theorem Inv.run {P : Session → GuestOp → Prop} (h : ses.Inv g ls es low)
    (hP : ∀ {ses : Session} {es : List ℕ} {op : GuestOp}, ses.Inv g ls es low → P ses op →
      ses.StepOk cfg op)
    (hin : ∀ op ∈ ops, op.Within (· < ses.s.fmmapLength)) (hok : ses.Along cfg P ops) :
    (∃ ses' evs es', ses.run cfg ops = .ok (ses', evs) ∧ Ran g ls low ses ops ses' evs es') ∨
      ∃ err, ses.run cfg ops = .error err ∧ ∃ pre op post ses₁ evs₁ es₁, ops = pre ++ op :: post ∧
        ses.run cfg pre = .ok (ses₁, evs₁) ∧ Ran g ls low ses pre ses₁ evs₁ es₁ ∧
        ¬ses₁.HasRoom cfg op := by
  induction ops generalizing ses es with
  | nil =>
    exact Or.inl ⟨ses, [], es, rfl, h, Env.refl, rfl, trivial, fun _ ev hev => by cases hev⟩
  | cons op ops ih =>
    rcases h.step (hin op List.mem_cons_self) (hP h hok.1) with ⟨ses₁, ev, es₁, hstep, hs⟩ |
      ⟨err, hstep, hno⟩
    swap
    · right
      refine ⟨err, by rw [Session.run, hstep], [], op, ops, ses, [], es, rfl, rfl, ?_, hno⟩
      exact ⟨h, Env.refl, rfl, trivial, fun _ ev hev => by cases hev⟩
    have hreach : ses₁.InReach = ses.InReach := hs.env.inReach (by
      rw [hs.inv.core.super.blockSize, h.core.super.blockSize])
    have hin₁ : ∀ op ∈ ops, op.Within (· < ses₁.s.fmmapLength) := by
      intro op' hop'
      rw [hs.env.fmmapLength]
      exact hin op' (List.mem_cons_of_mem op hop')
    have hcons : ∀ {ops' ses' evs es'}, Ran g ls low ses₁ ops' ses' evs es' →
        Ran g ls low ses (op :: ops') ses' (ev :: evs) es' := by
      intro ops' ses' evs es' hran
      refine ⟨hran.inv, hs.env.trans hran.env, ?_, ⟨hs.ok, ?_⟩, fun hw ev' hev' => ?_⟩
      · rw [hran.view, hs.view]
        rfl
      · rw [← hs.view]
        exact hran.correct
      · rcases List.mem_cons.mp hev' with rfl | hev'
        · exact hs.done (hw op List.mem_cons_self)
        · refine hran.done (fun op' hop' => ?_) ev' hev'
          rw [hreach]
          exact hw op' (List.mem_cons_of_mem op hop')
    rcases ih hs.inv hin₁ (hok.2 ses₁ ev hstep) with ⟨ses', evs, es', hrun, hran⟩ |
      ⟨err, hrun, pre, op', post, ses₂, evs₂, es₂, rfl, hpre, hran, hno⟩
    · exact Or.inl ⟨ses', ev :: evs, es', by rw [Session.run, hstep]; simp only; rw [hrun]; rfl,
        hcons hran⟩
    · right
      refine ⟨err, by rw [Session.run, hstep]; simp only; rw [hrun]; rfl, op :: pre, op',
        post, ses₂,
        ev :: evs₂, es₂, rfl, ?_, hcons hran, hno⟩
      rw [Session.run, hstep]
      simp only
      rw [hpre]
      rfl

/-- Offsets at most the length minus the block size are within reach. -/
theorem Inv.inReach (h : ses.Inv g ls es low) {length v : ℕ}
    (hlen : ses.s.fmmapLength = g.mapLength length) (hglob : ses.globalLength = length)
    (hv : v + g.blockSize ≤ g.mapLength length) : ses.InReach v := by
  have hpos := g.blockSize_pos
  have hbs := g.blockSize_lt
  have hle := h.length_le
  rw [show regLen = 512 * 1024 * 1024 * 1024 from rfl] at hle
  have hsub : ∀ l : ℕ, g.blockSize ≤ l → l < 2 ^ 64 → u64 ((l : ℤ) - g.blockSize) =
      l - g.blockSize := by
    intro l h₁ h₂
    rw [← Nat.cast_sub h₁, u64_natCast (by omega)]
  rw [hlen] at hle
  refine ⟨by omega, ?_, ?_⟩
  · rw [hlen, h.core.super.blockSize, hsub _ (by omega) (by omega)]
    omega
  · rw [hglob, h.core.super.blockSize]
    by_cases h0 : length = 0
    · -- the subtraction of the source wraps around
      have hwrap : u64 ((length : ℤ) - g.blockSize) = 2 ^ 64 - g.blockSize := by
        rw [h0, u64]
        omega
      rw [hwrap]
      omega
    · rw [Geometry.mapLength, if_neg h0] at hv hle
      rw [hsub _ (by omega) (by omega)]
      omega

/-- Bytes that are mapped read the same after a step that is not seen. -/
theorem Same.byteAt (h : ses.Same ses') {w : ℕ} {x : UInt8} (hx : ses.byteAt w = some x) :
    ses'.byteAt w = some x := by
  have hview : (ses'.byteAt w).getD 0 = (ses.byteAt w).getD 0 := congrFun h.view w
  rw [hx, Option.getD_some] at hview
  have hmap : ses'.byteAt w ≠ none := by
    intro hnone
    rw [Session.byteAt, Option.map_eq_none_iff] at hnone
    refine h.mapped _ (fun hn => ?_) hnone
    rw [Session.byteAt, hn] at hx
    cases hx
  obtain ⟨y, hy⟩ := Option.ne_none_iff_exists'.mp hmap
  rw [hy, Option.getD_some] at hview
  rw [hy, hview]

end Session

/-! ### Sessions on an image -/

section Open

variable {g : Geometry .shipped} {fs : Fs} {fd : Path} {base : List (ℕ × Path × ℕ)}
  {length offset : ℕ} {ses : Session} {ops : List GuestOp}

/-- The write of this step, if it is one to a protected page whose block is not in the
table, gets an entry in a segment for which `insert_ht` computes a number that names a
meta block. -/
def Session.SegmentOk (ses : Session) : GuestOp → Prop
  | .store v _ _ _ => ses.IsCow v true → ses.NeedsBlock v → ses.s.MetaNOk
  | _ => True

/-- **A session is a flat byte array**, in the shipped configuration, over the overlay
of the layers of the image and its base. In a run whose copies on write all find their
meta block every load returns the value stored last at its offset, or that of the
overlay, and every access comes to an end, up to the first one for which `new_block`
has no room. In every state reached, `cow_handler` on a write-protected unit makes it
writable and keeps all bytes. -/
theorem flat_session {ls : List (List ℕ)} {es : List ℕ}
    (himage : IsImage g ((fs fd).getD .empty) ls es)
    (hbase : BaseIs g fs (baseImageName ((fs fd).getD .empty) 0) base)
    (hdvd : cowUnit ∣ g.blockSize) (hlt : cowUnit < g.blockSize)
    (hopen : Session.fmmap .shipped fs fd length offset = .ok (some ses))
    (hops : ∀ op ∈ ops, op.Within fun v => v + g.blockSize ≤ g.mapLength length)
    (hrun : ses.Along .shipped Session.SegmentOk ops) :
    (∀ ses' evs, ses.run .shipped ops = .ok (ses', evs) →
      Flat.Correct (overlayByte fs g.blockSize (g.imageBindings base fd ls es)) evs ∧
      (∀ ev ∈ evs, Flat.Done ev) ∧
      ∀ v e n n', v + g.blockSize ≤ g.mapLength length → ses'.pages (v / pageSize) = some e →
        e.writable = false → (ses'.NeedsBlock v → ses'.s.MetaNOk ∧ ses'.Room .shipped) →
        ∃ ses'' ops', ses'.cowHandler .shipped n n' v = .ok (ses'', ops') ∧
          (∃ e', ses''.pages (v / pageSize) = some e' ∧ e'.writable = true) ∧
          ∀ w x, ses'.byteAt w = some x → ses''.byteAt w = some x) ∧
    ∀ err, ses.run .shipped ops = .error err → ∃ pre op post ses₁ evs, ops = pre ++ op :: post ∧
      ses.run .shipped pre = .ok (ses₁, evs) ∧
      Flat.Correct (overlayByte fs g.blockSize (g.imageBindings base fd ls es)) evs ∧
      (∀ ev ∈ evs, Flat.Done ev) ∧ ¬ses₁.HasRoom .shipped op := by
  have hopened := himage.isChain.fmmap rfl himage.size_lt hbase hopen
  have hview := hopened.view hdvd
  have hinv := hopened.inv hdvd himage
  have hreach : ∀ op ∈ ops, op.Within ses.InReach := by
    intro op hop
    have hw := hops op hop
    cases op with
    | load v n n' => exact hinv.inReach hopened.fmmapLength hopened.globalLength hw
    | store v x n n' => exact hinv.inReach hopened.fmmapLength hopened.globalLength hw
    | tick => trivial
  have hin : ∀ op ∈ ops, op.Within (· < ses.s.fmmapLength) := by
    intro op hop
    have hw := hreach op hop
    cases op with
    | load v n n' => exact hw.1
    | store v x n n' => exact hw.1
    | tick => trivial
  have hP : ∀ {ses : Session} {es : List ℕ} {op : GuestOp},
      ses.Inv g ls es (g.lowBindings base fd ls) → ses.SegmentOk op → ses.StepOk .shipped op := by
    intro ses es op h hseg
    cases op with
    | load v n n' => trivial
    | store v x n n' =>
      intro _ hcow _
      refine ⟨?_, hseg hcow⟩
      rw [h.core.super.blockSize]
      exact_mod_cast hlt
    | tick => trivial
  rw [← hview]
  rcases hinv.run hP hin hrun with ⟨ses', evs, es', hr, hran⟩ |
    ⟨err, hr, pre, op, post, ses₁, evs₁, es₁, rfl, hpre, hran, hno⟩
  · refine ⟨fun ses₁ evs₁ hr₁ => ?_, fun err hr₁ => ?_⟩
    · rw [hr] at hr₁
      cases hr₁
      refine ⟨hran.correct, hran.done hreach, fun v e n n' hv hp hw hmeta => ?_⟩
      have hv' := hran.inv.inReach (hran.env.fmmapLength.trans hopened.fmmapLength)
        (hran.env.globalLength.trans hopened.globalLength) hv
      have hle := hv'.2.2
      rw [hran.inv.core.super.blockSize] at hle
      rcases hran.inv.cowHandler (n := n) rfl hlt hv'.1 hp hw hle fun hneeds =>
        (hmeta hneeds).1 with
        ⟨ses'', ops', hcow, es'', -, -, hsame, hpage⟩ | ⟨err, hneeds, hnb, -⟩
      · exact ⟨ses'', ops', hcow, hpage, fun w x hx => hsame.byteAt hx⟩
      · obtain ⟨x, hx⟩ := hran.inv.core.exists_newBlock (n := n) (hmeta hneeds).2
          (v / g.blockSize * g.blockSize)
        rw [hnb] at hx
        cases hx
    · rw [hr] at hr₁
      cases hr₁
  · refine ⟨fun ses₁ evs₁ hr₁ => ?_, fun err hr₁ => ?_⟩
    · rw [hr] at hr₁
      cases hr₁
    · refine ⟨pre, op, post, ses₁, evs₁, rfl, hpre, hran.correct, hran.done fun op' hop' => ?_, hno⟩
      exact hreach op' (List.mem_append_left _ hop')

end Open

/-- A frozen layer with one block, and a write to this block. -/
theorem flat_session_store : ∃ (fs : Fs) (ses ses' : Session),
    IsImage (Geometry.twoPages .shipped) ((fs [1]).getD .empty) [[0]] [] ∧
      Session.fmmap .shipped fs [1] (8192 * 2) 0 = .ok (some ses) ∧
      (∃ e, ses.pages 0 = some e ∧ e.writable = false) ∧
      ses.run .shipped [.store 5 1 0 0] = .ok (ses', [.stored 5 1 true]) := by
  obtain ⟨f, ses, himage, hname, -, hopen, hopened, hroom, hprot⟩ := exists_session .shipped 0
  have hbase : BaseIs (Geometry.twoPages .shipped) (fun _ => some f) (baseImageName f 0) [] :=
    Or.inl ⟨baseImageName_eq_nil hname, rfl⟩
  have hseg : ses.SegmentOk (.store 5 1 0 0) := fun _ _ => hopened.super.metaNOk
  have hops : ∀ op ∈ [GuestOp.store 5 1 0 0], op.Within fun v =>
      v + (Geometry.twoPages .shipped).blockSize ≤
        (Geometry.twoPages .shipped).mapLength (8192 * 2) := by
    intro op hop
    rw [List.mem_singleton.mp hop]
    exact (by decide : 5 + 8192 ≤ 8192 * 2)
  have hflat := flat_session himage hbase (by decide) (by decide) hopen hops
    ⟨hseg, fun _ _ _ => trivial⟩
  obtain ⟨ses', r, hst⟩ : ∃ ses' r, ses.store .shipped 0 0 5 1 = .ok (ses', r) := by
    rcases hst : ses.store .shipped 0 0 5 1 with err | ⟨ses', r⟩
    · obtain ⟨pre, op, post, ses₁, evs, hops, hpre, -, -, hno⟩ := hflat.2 err (by
        rw [Session.run, Session.step, hst]
        rfl)
      rcases pre with _ | ⟨op', pre⟩
      · cases hpre
        rw [List.nil_append, List.cons.injEq] at hops
        rw [← hops.1] at hno
        exact absurd (fun _ => hroom) hno
      · simp at hops
    · exact ⟨ses', r, rfl⟩
  have hrun : ses.run .shipped [.store 5 1 0 0] = .ok (ses', [.stored 5 1 r]) := by
    rw [Session.run, Session.step, hst]
    rfl
  obtain ⟨-, hdone, -⟩ := hflat.1 ses' _ hrun
  have hr : r = true := hdone _ (List.mem_singleton_self _)
  exact ⟨fun _ => some f, ses, ses', himage, hopen, hprot, hr ▸ hrun⟩

/-! ### Where the number names no meta block -/

section Sigbus

variable {ses : Session} {n n' v : ℕ}

/-- `insert_ht` reads past the end of the file, where the number it computes is too
large. -/
theorem Session.Consistent.insertHt_sigbus (h : ses.Consistent g ls es low) {b : ℕ}
    (hpre : cfg.preAlloc = true) {x : Super × Ring × NewBlock × List FileOp}
    (hnb : newBlock cfg ses.file ses.s ses.ring n n' (b * g.blockSize) = .ok x) {N : ℕ}
    (hN : g.lastSeg (es.length + 1) * g.blockSize * g.blockSize = N) (hlt : N < 2 ^ 31)
    (hpast : max ses.file.size
      (g.blockAt (g.chainEnd 0 ls) (g.blocks (es.length + 1) + maxPreNum)) +
      pageSize ≤ g.chainEnd 0 ls + g.blockSize + N * (g.perSeg + 1) * g.blockSize)
    (h64 : g.chainEnd 0 ls + g.blockSize + N * (g.perSeg + 1) * g.blockSize < 2 ^ 64) :
    ses.insertHt cfg n n' (b * g.blockSize) = .error .sigbus := by
  obtain ⟨s', r', nb, ops⟩ := x
  obtain ⟨-, -, hs', henv, happ, hsz, hring⟩ := h.core.image.last.newBlock h.core.image.size_lt
    h.core.super h.core.ring hnb
  have hgrow : (FileOp.run ops ses.file).size ≤ max ses.file.size s'.allocOff := by
    rw [Pcow.newBlock, if_pos hpre] at hnb
    exact (h.core.ring hpre).size_newBlockPre h.core.super hnb
  have halloc : s'.allocOff ≤
      g.blockAt (g.chainEnd 0 ls) (g.blocks (es.length + 1) + maxPreNum) := by
    have hav := (hring hpre).available_le
    rw [(hring hpre).allocOff]
    exact g.blockAt_mono _ (by omega)
  have hfile : ({ ses.issue ops with s := s', ring := r' } : Session).file =
      FileOp.run ops ses.file := file_issue_of_fd henv.1
  have hlayer := happ.layer
  have hseg : g.blockAt (g.chainEnd 0 ls) (g.metaBlock (g.lastSeg (es.length + 1))) < 2 ^ 64 := by
    have hle := hlayer.blockAt_lt hsz (g.metaBlock_lt (le_refl (g.lastSeg _))).le
    rwa [List.length_append, List.length_singleton] at hle
  have hmetaN : metaN s' = (N : ℕ) := by
    rw [hs'.metaN hseg, hN, i32_of_range (by omega) (by omega)]
  have hne : (N : ℤ) ≠ -1 := ne_of_gt (lt_of_lt_of_le neg_one_lt_zero (Int.natCast_nonneg N))
  have hsum : (g.chainEnd 0 ls : ℤ) + g.blockSize + N * (g.perSeg + 1) * g.blockSize =
      (g.chainEnd 0 ls + g.blockSize + N * (g.perSeg + 1) * g.blockSize : ℕ) := by
    push_cast
    rfl
  have hoff : s'.metaOff (N : ℕ) = g.chainEnd 0 ls + g.blockSize +
      N * (g.perSeg + 1) * g.blockSize := by
    rw [Super.metaOff, if_neg hne, hs'.myOff, hs'.blockSize, hs'.maxPerSeg, hsum, u64_natCast h64]
  have hnot : ¬(FileOp.run ops ses.file).Backed (s'.metaOff (metaN s')) := by
    rw [hmetaN, hoff]
    refine ByteFile.not_backed_of_le (le_trans (Nat.add_le_add_right ?_ _) hpast)
    exact le_trans hgrow (max_le_max_left _ halloc)
  rw [Session.insertHt, hnb]
  simp only
  rw [Session.linkEntry, hfile, readMeta, if_pos hnot]
  rfl

/-- The fault of a write whose entry opens a segment with such a number. -/
theorem Session.Inv.cowHandler_sigbus (h : ses.Inv g ls es low) (hcfg : cfg = .shipped)
    {e : Pte Path} (hp : ses.pages (v / pageSize) = some e) (hw : e.writable = false)
    (hle : v ≤ u64 ((ses.globalLength : ℤ) - g.blockSize)) (hneeds : ses.NeedsBlock v)
    (hroom : ses.Room cfg) {N : ℕ}
    (hN : g.lastSeg (es.length + 1) * g.blockSize * g.blockSize = N) (hlt : N < 2 ^ 31)
    (hpast : max ses.file.size
      (g.blockAt (g.chainEnd 0 ls) (g.blocks (es.length + 1) + maxPreNum)) +
      pageSize ≤ g.chainEnd 0 ls + g.blockSize + N * (g.perSeg + 1) * g.blockSize)
    (h64 : g.chainEnd 0 ls + g.blockSize + N * (g.perSeg + 1) * g.blockSize < 2 ^ 64) :
    ses.cowHandler cfg n n' v = .error .sigbus := by
  have hunit : v / cowUnit * cowUnit / g.blockSize = v / g.blockSize := div_page h.core.page_dvd v
  have hu := h.core.super.u64_blockSize
  obtain ⟨x, hx⟩ := h.core.exists_newBlock (n := n) hroom (v / g.blockSize * g.blockSize)
  have hins := h.insertHt_sigbus (by rw [hcfg]; rfl) hx hN hlt hpast h64
  have hlist := h.not_inList hp hw
  have hsearch : searchHt (v / cowUnit * cowUnit / u64 ses.s.blockSize * u64 ses.s.blockSize) 0
      (ses.cow.buckets (bucketNumber (u64 ses.s.blockSize) (v / cowUnit * cowUnit))) = none := by
    rw [NeedsBlock, hu, bucketNumber] at hneeds
    rw [hu, bucketNumber, hunit]
    exact hneeds
  rw [cowHandler_eq (by rw [hcfg]; rfl) (by rw [h.core.super.blockSize]; omega) hlist,
    insertList_new hlist hsearch, hu, hunit, hins]
  rfl

end Sigbus

section FullSegment

variable {g : Geometry .shipped}

/-- The numbers of a layer after a frozen one of 1017 entries, in blocks of two pages. -/
theorem Geometry.twoPages_numbers (hper : g.perSeg = 1016) (hbs : g.blockSize = 8192) :
    (∀ k, g.lastSeg k = (k - 1) / 1016) ∧
      (∀ k, g.blockAt (g.chainEnd 0 [List.range 1017]) k = 8192 * (1020 + k)) ∧
      g.chainEnd 0 [List.range 1017] = 8192 * 1020 := by
  have hlast : ∀ k, g.lastSeg k = (k - 1) / 1016 := by
    intro k
    rw [Geometry.lastSeg, hper]
  have hlow : g.chainEnd 0 [List.range 1017] = 8192 * 1020 := by
    rw [Geometry.chainEnd, Geometry.chainEnd, Geometry.endOff, Geometry.blockAt, Geometry.blocks,
      hlast, List.length_range, hbs]
  refine ⟨hlast, fun k => ?_, hlow⟩
  rw [hlow, Geometry.blockAt, hbs, Nat.mul_add]

end FullSegment

/-- A session on an image with blocks of two pages and a frozen layer of 1017 blocks, 1016 of which
the last layer has as well: the first segment of the last layer is full. -/
theorem exists_fullSegment : ∃ (f : ByteFile) (ses : Session),
    IsImage (Geometry.twoPages .shipped) f [List.range 1017] (List.range 1016) ∧ f.byte 16 = 0 ∧
      f.size = 8192 * 2038 ∧
      Session.fmmap .shipped (fun _ => some f) [1] (8192 * 2000) 0 = .ok (some ses) ∧
      ses.Opened (Geometry.twoPages .shipped) (fun _ => some f) [1] [List.range 1017]
        (List.range 1016) [] (8192 * 2000) ∧ ses.Room .shipped := by
  have hper : (Geometry.twoPages .shipped).perSeg = 1016 := rfl
  have hbs : (Geometry.twoPages .shipped).blockSize = 8192 := rfl
  have hcap : (Geometry.twoPages .shipped).cap = 4096 := rfl
  generalize Geometry.twoPages .shipped = g at *
  obtain ⟨hlast, hblocks, -⟩ := Geometry.twoPages_numbers hper hbs
  have hend : g.chainEnd 0 ([List.range 1017] ++ [List.range 1016]) = 8192 * 2038 := by
    rw [g.chainEnd_concat, List.length_range, Geometry.endOff, hblocks, Geometry.blocks, hlast]
  have hlt : ∀ e ∈ [List.range 1017] ++ [List.range 1016], ∀ b ∈ e, b < 2 ^ 32 := by
    intro e he b hb
    rcases List.mem_append.mp he with he | he
    · rw [List.mem_singleton.mp he] at hb
      exact lt_trans (List.mem_range.mp hb) (by norm_num)
    · rw [List.mem_singleton.mp he] at hb
      exact lt_trans (List.mem_range.mp hb) (by norm_num)
  obtain ⟨f, himage, hname, hsz⟩ :=
    exists_image g _ _ (by norm_num [hbs]) (by simp [hcap]) hlt (by rw [hend]; norm_num)
  have hlen : g.LengthOk (8192 * 2000) 0 := g.lengthOk_of_pages (by norm_num) (by norm_num)
  obtain ⟨ses, hopen, hopened⟩ := IsImage.exists_fmmap (fun _ => some f) [1] himage hname hlen
  refine ⟨f, ses, himage, hname, hsz.trans hend, hopen, hopened, hopened.room ?_ ?_⟩
  · rw [List.length_range, hcap, Geometry.need]
    split <;> omega
  · rw [Geometry.endOff, hblocks, hbs]
    norm_num [Geometry.blocks, hlast]

/-- **The number of the meta block is wrong.** In an image with blocks of two pages and
a frozen layer of 1017 blocks, 1016 of which the last layer has as well, the first
write to the other block opens the second segment of the last layer. There is room for
it, but the number `insert_ht` computes for this segment is 2 ^ 26, and the process is
killed. -/
theorem flat_session_sigbus : ∃ (fs : Fs) (ses : Session),
    IsImage (Geometry.twoPages .shipped) ((fs [1]).getD .empty)
      [List.range 1017] (List.range 1016) ∧
      baseImageName ((fs [1]).getD .empty) 0 = [] ∧
      Session.fmmap .shipped fs [1] (8192 * 2000) 0 = .ok (some ses) ∧ ses.Room .shipped ∧
      (∃ e, ses.pages (8192 * 1016 / pageSize) = some e ∧ e.writable = false) ∧
      ses.cowHandler .shipped 0 0 (8192 * 1016) = .error .sigbus ∧
      ses.run .shipped [.store (8192 * 1016) 1 0 0] = .error .sigbus := by
  obtain ⟨f, ses, himage, hname, hsz, hopen, hopened, hroom⟩ := exists_fullSegment
  have hper : (Geometry.twoPages .shipped).perSeg = 1016 := rfl
  have hbs : (Geometry.twoPages .shipped).blockSize = 8192 := rfl
  generalize Geometry.twoPages .shipped = g at *
  obtain ⟨hlast, hblocks, hlow⟩ := Geometry.twoPages_numbers hper hbs
  have hfs : ((fun _ => some f : Fs) [1]).getD .empty = f := rfl
  have hdvd : pageSize ∣ g.blockSize := by norm_num [hbs]
  have hinv := hopened.inv hdvd himage
  have hv : 8192 * 1016 / g.blockSize = 1016 := by rw [hbs]
  have hprot := hopened.protected hdvd (v := 8192 * 1016) (List.mem_singleton_self _)
    (by rw [hv, List.mem_range]; norm_num) (by rw [hv, List.mem_range]; norm_num)
  obtain ⟨e, hp, hw⟩ := hprot
  have hneeds : ses.NeedsBlock (8192 * 1016) := by
    rw [hinv.needsBlock_iff, hopened.cow]
    rfl
  have hfile : ses.file.size = 8192 * 2038 := by
    rw [Session.file, hopened.fd_eq, hopened.files, hfs, hsz]
  have hcow : ses.cowHandler .shipped 0 0 (8192 * 1016) = .error .sigbus := by
    refine hinv.cowHandler_sigbus (N := 2 ^ 26) rfl hp hw ?_ hneeds hroom ?_ (by norm_num) ?_ ?_
    · rw [hopened.globalLength, hbs]
      decide
    · rw [hlast, List.length_range, hbs]
      norm_num
    · rw [hfile, hblocks, hlow, hbs, hper, Geometry.blocks, hlast, List.length_range]
      norm_num
    · rw [hlow, hbs, hper]
      norm_num
  refine ⟨fun _ => some f, ses, himage, baseImageName_eq_nil hname, hopen, hroom, ⟨e, hp, hw⟩, hcow,
    ?_⟩
  have hfault : ses.fault .shipped 0 0 (8192 * 1016) true = .error .sigbus := by
    rw [Session.fault, hp]
    simp only [hw, Bool.not_false, Bool.and_self, if_true]
    exact hcow
  rw [Session.run, Session.step, Session.store, hfault]
  rfl

end Pcow
