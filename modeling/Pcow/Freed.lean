import Pcow.Bases
import Pcow.Lib.Heap

/-!
# Structs that are freed and read again

`do_base_fmmap` frees the struct of the first layer of a base in the first round of its loop,
and reads it again for the next layer and in the second round, which also frees it once more.
What such a read finds is a matter of the allocator. The functions here are those of
`Pcow.Session` over a heap of the structs, where freeing one leaves its contents in place or not
(`kept`). If it does, they are those of `Pcow.Session` (`fmmapOn_true`); if not, an image over a
base never gets mapped (`baseMapsOn_false_iff`).

A base that names a base of its own is another matter. `do_base_fmmap` reads the super block
of the deeper base from the file it already has, finds the same name in it, and calls itself
again: chains of more than one base do not resolve, whatever the allocator does
(`fmmap_bases_iff`).
-/

namespace Pcow

variable {cfg : Config} {g : Geometry cfg} {f : ByteFile} {fs : Fs} {fd name : Path}
  {es : List ℕ} {ls : List (List ℕ)} {length offset : ℕ}

/-! ### The base, over the heap of the structs -/

/-- The loop of `do_base_fmmap`, from the pointers `s` and `tmp`. -/
def baseLoopOn (kept : Bool) (cfg : Config) (f : ByteFile) :
    ℕ → Heap Super → ℕ → ℕ → Except Fault (Heap Super × List (MapOp Path))
  | 0, _, _, _ => .error .endless
  | n + 1, h, s, tmp => match h.load s with
    -- the pointers in a struct that has lost its contents lead nowhere
    | none => .error .sigsegv
    | some a => match doReadonlyFmmap cfg f a with
      | .error e => .error e
      | .ok m =>
        let h := h.free kept s
        match h.load tmp with
        | none => .error .sigsegv
        | some b => match readNextSuper cfg f b with
          | .error e => .error e
          | .ok none => (doReadonlyFmmap cfg f b).map fun m' => (h, m ++ m')
          | .ok (some t) =>
            (baseLoopOn kept cfg f n (h.malloc t).1 tmp (h.malloc t).2).map fun x =>
              (x.1, m ++ x.2)

/-- `do_base_fmmap`, from the pointer `p`. It has freed the struct it was called with when it
returns, and the caller frees it again. -/
def doBaseFmmapOn (kept : Bool) (cfg : Config) (f : ByteFile) :
    ℕ → Heap Super → ℕ → Except Fault (Heap Super × List (MapOp Path))
  | 0, _, _ => .error .endless
  | n + 1, h, p => match h.load p with
    | none => .error .sigsegv
    | some s =>
      let deeper : Except Fault (Heap Super × List (MapOp Path)) :=
        if baseImageName f s.myOff = [] then .ok (h, [])
        else match readFirstSuper cfg f s.fd 0 with
          | .error e => .error e
          | .ok none => .ok (h, [])
          | .ok (some b) =>
            (doBaseFmmapOn kept cfg f n (h.malloc b).1 (h.malloc b).2).map fun x =>
              (x.1.free kept (h.malloc b).2, x.2)
      match deeper with
      | .error e => .error e
      | .ok (h, m) => (baseLoopOn kept cfg f (f.size + 1) h p p).map fun x => (x.1, m ++ x.2)

/-- The mappings of the base image. Where the base is not formatted, `read_first_super` frees
its struct too, and reads the pointer `pm_super` of it for a call of `munmap`, which refuses
what is no address of a page. -/
def baseMapsOn (kept : Bool) (cfg : Config) (fs : Fs) (name : Path) :
    Except Fault (Fs × List (MapOp Path)) :=
  if name = [] then .ok (fs, [])
  else
    let f := (fs name).getD .empty
    match readFirstSuper cfg f name 0 with
    | .error e => .error e
    | .ok none => .ok (Function.update fs name (some f), [])
    | .ok (some s) =>
      let h := Heap.malloc [] s
      (doBaseFmmapOn kept cfg f (f.size + 1) h.1 h.2).map fun x =>
        (Function.update fs name (some f), x.2)

/-- `fmmap`, over the heap of the structs. -/
def fmmapOn (kept : Bool) (cfg : Config) (fs : Fs) (fd : Path) (length offset : ℕ) :
    Except Fault (Option Session) :=
  Session.fmmapWith (baseMapsOn kept cfg) cfg fs fd length offset

/-- A base that names a base is mapped over and over. -/
theorem doBaseFmmapOn_endless {kept : Bool} {s : Super} {n p : ℕ} {h : Heap Super}
    (hread : readFirstSuper cfg f s.fd 0 = .ok (some s)) (hoff : s.myOff = 0)
    (hname : baseImageName f 0 ≠ []) (hp : h.load p = some s) :
    doBaseFmmapOn kept cfg f n h p = .error .endless := by
  induction n generalizing h p with
  | zero => rfl
  | succ n ih =>
    rw [doBaseFmmapOn, hp]
    simp only [hoff, if_neg hname, hread]
    rw [ih Heap.load_malloc_self]
    rfl

/-! ### Structs that keep their contents -/

section Kept

variable {n s t p : ℕ} {a b : Super} {h : Heap Super} {x : Heap Super × List (MapOp Path)}

theorem sub_baseLoopOn (hr : baseLoopOn true cfg f n h s t = .ok x) : h.Sub x.1 := by
  induction n generalizing h s t x with
  | zero => cases hr
  | succ n ih =>
    rw [baseLoopOn] at hr
    rcases hs : h.load s with _ | a
    · rw [hs] at hr
      cases hr
    rcases hm : doReadonlyFmmap cfg f a with e | m
    · simp only [hs, hm] at hr
      cases hr
    simp only [hs, hm, Heap.free_true] at hr
    rcases ht : h.load t with _ | b
    · rw [ht] at hr
      cases hr
    simp only [ht] at hr
    rcases hnext : readNextSuper cfg f b with e | _ | c
    · simp only [hnext] at hr
      cases hr
    · simp only [hnext] at hr
      obtain ⟨m', -, rfl⟩ := map_eq_ok hr
      exact Heap.Sub.rfl
    · simp only [hnext] at hr
      obtain ⟨y, hrest, rfl⟩ := map_eq_ok hr
      have hsub := ih hrest
      exact Heap.sub_malloc.trans hsub

/-- **The loop is the one of `Session.baseLoop`.** -/
theorem baseLoopOn_true (hs : h.load s = some a) (ht : h.load t = some b) :
    (baseLoopOn true cfg f n h s t).map Prod.snd = Session.baseLoop cfg f n a b := by
  induction n generalizing h s t a b with
  | zero => rfl
  | succ n ih =>
    rw [baseLoopOn, Session.baseLoop, hs]
    simp only [Heap.free_true, ht]
    rcases doReadonlyFmmap cfg f a with e | m
    · rfl
    simp only
    rcases readNextSuper cfg f b with e | _ | c
    · rfl
    · simp only
      rcases doReadonlyFmmap cfg f b with e | m' <;> rfl
    · simp only
      rw [← ih (Heap.sub_malloc _ _ ht) Heap.load_malloc_self]
      rcases baseLoopOn true cfg f n (h.malloc c).1 t (h.malloc c).2 with e | y <;> rfl

/-- The call for a deeper base, where there is one. -/
theorem doBaseFmmapOn_true (hp : h.load p = some a) :
    (doBaseFmmapOn true cfg f n h p).map Prod.snd = Session.doBaseFmmap cfg f n a ∧
      ∀ y, doBaseFmmapOn true cfg f n h p = .ok y → h.Sub y.1 := by
  induction n generalizing h p a with
  | zero => exact ⟨rfl, fun y hy => by cases hy⟩
  | succ n ih =>
    -- what is left to do once the deeper base is mapped
    have hloop : ∀ (h' : Heap Super) (m : List (MapOp Path)), h.Sub h' →
        ((baseLoopOn true cfg f (f.size + 1) h' p p).map fun x => (x.1, m ++ x.2)).map Prod.snd =
          (Session.baseLoop cfg f (f.size + 1) a a).map (m ++ ·) ∧
        ∀ y, ((baseLoopOn true cfg f (f.size + 1) h' p p).map fun x => (x.1, m ++ x.2)) = .ok y →
          h.Sub y.1 := by
      intro h' m hsub
      constructor
      · rw [← baseLoopOn_true (hsub _ _ hp) (hsub _ _ hp)]
        rcases baseLoopOn true cfg f (f.size + 1) h' p p with e | y <;> rfl
      · intro y hy
        obtain ⟨z, hz, rfl⟩ := map_eq_ok hy
        have hmore := sub_baseLoopOn hz
        exact hsub.trans hmore
    rw [doBaseFmmapOn, Session.doBaseFmmap, hp]
    simp only [Heap.free_true]
    split_ifs with hname
    · exact hloop h [] Heap.Sub.rfl
    rcases readFirstSuper cfg f a.fd 0 with e | _ | b
    · exact ⟨rfl, fun y hy => by cases hy⟩
    · exact hloop h [] Heap.Sub.rfl
    obtain ⟨hdeep, hsub⟩ := ih (@Heap.load_malloc_self _ h b)
    simp only
    rw [← hdeep]
    rcases hrun : doBaseFmmapOn true cfg f n (h.malloc b).1 (h.malloc b).2 with e | y
    · exact ⟨rfl, fun y hy => by cases hy⟩
    · exact hloop y.1 y.2 (Heap.sub_malloc.trans (hsub y hrun))

theorem baseMapsOn_true : baseMapsOn true cfg = Session.baseMaps cfg := by
  funext fs name
  rw [baseMapsOn, Session.baseMaps]
  split_ifs
  · rfl
  simp only
  rcases readFirstSuper cfg ((fs name).getD .empty) name 0 with e | _ | s
  · rfl
  · rfl
  · simp only
    rw [← (doBaseFmmapOn_true Heap.load_malloc_self).1]
    rcases doBaseFmmapOn true cfg ((fs name).getD .empty) (((fs name).getD .empty).size + 1)
      (Heap.malloc [] s).1 (Heap.malloc [] s).2 with e | y <;> rfl

/-- **Where the freed structs are still in place, `fmmap` is the one of `Session.fmmap`.** -/
theorem fmmapOn_true : fmmapOn true cfg = Session.fmmap cfg := by
  funext fs fd length offset
  rw [fmmapOn, Session.fmmap, baseMapsOn_true]

end Kept

/-! ### Structs that lose their contents -/

section Lost

variable {n p : ℕ} {h : Heap Super} {x : Heap Super × List (MapOp Path)}

/-- **The first round of the loop reads what it has just freed.** -/
theorem baseLoopOn_false : baseLoopOn false cfg f n h p p ≠ .ok x := by
  intro hr
  rcases n with _ | n
  · cases hr
  rw [baseLoopOn] at hr
  rcases hp : h.load p with _ | a
  · rw [hp] at hr
    cases hr
  rcases hm : doReadonlyFmmap cfg f a with e | m
  · simp only [hp, hm] at hr
    cases hr
  · simp only [hp, hm, Heap.load_free_self] at hr
    cases hr

theorem doBaseFmmapOn_false : doBaseFmmapOn false cfg f n h p ≠ .ok x := by
  intro hr
  rcases n with _ | n
  · cases hr
  rw [doBaseFmmapOn] at hr
  rcases hp : h.load p with _ | s
  · rw [hp] at hr
    cases hr
  simp only [hp] at hr
  split at hr
  · cases hr
  · obtain ⟨y, hloop, -⟩ := map_eq_ok hr
    exact baseLoopOn_false hloop

/-- **An image over a base does not get mapped.** -/
theorem baseMapsOn_false_iff : (∃ y, baseMapsOn false cfg fs name = .ok y) ↔
    name = [] ∨ readFirstSuper cfg ((fs name).getD .empty) name 0 = .ok none := by
  constructor
  · rintro ⟨y, hr⟩
    rw [baseMapsOn] at hr
    split_ifs at hr with hname
    · exact Or.inl hname
    right
    rcases hread : readFirstSuper cfg ((fs name).getD .empty) name 0 with e | _ | s
    · simp only [hread] at hr
      cases hr
    · rfl
    · simp only [hread] at hr
      obtain ⟨z, hmaps, -⟩ := map_eq_ok hr
      exact absurd hmaps doBaseFmmapOn_false
  · intro hbase
    rw [baseMapsOn]
    split_ifs with hname
    · exact ⟨_, rfl⟩
    · simp only [hbase.resolve_left hname]
      exact ⟨_, rfl⟩

/-- Where there is no base, there is nothing to free. -/
theorem baseMapsOn_eq {kept : Bool}
    (hbase : name = [] ∨ readFirstSuper cfg ((fs name).getD .empty) name 0 = .ok none) :
    baseMapsOn kept cfg fs name = Session.baseMaps cfg fs name := by
  rw [baseMapsOn, Session.baseMaps]
  split_ifs with hname
  · rfl
  · simp only [hbase.resolve_left hname]

/-- **Without a base, `fmmap` reads nothing that is freed.** -/
theorem IsChain.fmmapOn_eq {kept : Bool} (h : IsChain g ((fs fd).getD .empty) 0 (ls ++ [es]))
    (hf : ((fs fd).getD .empty).size < 2 ^ 63)
    (hbase : baseImageName ((fs fd).getD .empty) 0 = [] ∨ readFirstSuper cfg
      ((fs (baseImageName ((fs fd).getD .empty) 0)).getD .empty)
      (baseImageName ((fs fd).getD .empty) 0) 0 = .ok none) :
    fmmapOn kept cfg fs fd length offset = Session.fmmap cfg fs fd length offset := by
  rw [fmmapOn, h.fmmapWith_eq rfl hf, h.fmmap_eq rfl hf, baseMapsOn_eq hbase]

end Lost

/-! ### Chains of bases -/

/-- An image in a chain of bases: its name, its parameters and its layers. -/
structure BaseImage (cfg : Config) where
  /-- The name it is opened under. -/
  name : Path
  /-- The block size and the capacity. -/
  g : Geometry cfg
  /-- The entries of its layers. -/
  layers : List (List ℕ)

/-- **The bases of an image that names `name`**: each is an image and names the next, and the
last one names none. A list of this kind is finite and cannot come back to a name. -/
def BaseChain (fs : Fs) : Path → List (BaseImage cfg) → Prop
  | name, [] => name = []
  | name, i :: l => name ≠ [] ∧ i.name = name ∧ i.layers ≠ [] ∧
      IsChain i.g ((fs name).getD .empty) 0 i.layers ∧ ((fs name).getD .empty).size < 2 ^ 63 ∧
      BaseChain fs (baseImageName ((fs name).getD .empty) 0) l

/-- The calls that map the layers of all bases, each from its own file, the deepest base
first. -/
def basesCalls (l : List (BaseImage cfg)) : List (MapOp Path) :=
  l.reverse.flatMap fun i =>
    (i.g.chainBindings i.name 0 i.layers).flatMap (readonlyCalls i.g.blockSize)

/-- The calls that map the layers of the image itself. -/
def Geometry.ownCalls (g : Geometry cfg) (fd : Path) (ls : List (List ℕ)) (es : List ℕ) :
    List (MapOp Path) :=
  (g.chainBindings fd 0 ls).flatMap (readonlyCalls g.blockSize) ++
    (g.bindings fd (g.chainEnd 0 ls) es).flatMap fun x =>
      [.mmap (x.1 * g.blockSize) g.blockSize x.2.1 x.2.2 true]

/-- **The bases resolve**: `fmmap` returns, and the range maps the layers of all bases and
those of the image over them. -/
def Resolves (kept : Bool) (g : Geometry cfg) (fs : Fs) (fd : Path) (ls : List (List ℕ))
    (es : List ℕ) (bases : List (BaseImage cfg)) (length offset : ℕ) : Prop :=
  ∃ ses, fmmapOn kept cfg fs fd length offset = .ok (some ses) ∧
    ses.pages = PageTable.run (basesCalls bases ++ g.ownCalls fd ls es) fun _ => none

/-- A base with a base of its own is not mapped in finite time. -/
theorem BaseChain.baseMapsOn_endless {kept : Bool} {i j : BaseImage cfg}
    {l : List (BaseImage cfg)} (h : BaseChain fs name (i :: j :: l)) :
    baseMapsOn kept cfg fs name = .error .endless := by
  obtain ⟨hne, -, hlayers, hchain, hsz, hdeep⟩ := h
  obtain ⟨e, ls, hcons⟩ := List.exists_cons_of_ne_nil hlayers
  rw [hcons] at hchain
  have hread := hchain.layers.1.readFirstSuper hsz name
  rw [baseMapsOn, if_neg hne]
  simp only [hread]
  rw [doBaseFmmapOn_endless hread rfl hdeep.1 Heap.load_malloc_self]
  rfl

/-- A base without one is mapped as far as its first layer, the struct of which is read again
after it is freed. -/
theorem BaseChain.baseMapsOn_false {i : BaseImage cfg} (h : BaseChain fs name [i]) :
    baseMapsOn false cfg fs name = .error .sigsegv := by
  obtain ⟨hne, -, hlayers, hchain, hsz, hname⟩ := h
  obtain ⟨e, ls, hcons⟩ := List.exists_cons_of_ne_nil hlayers
  rw [hcons] at hchain
  have hname' : baseImageName ((fs name).getD .empty) (superOf i.g name 0 e.length).myOff = [] :=
    hname
  rw [baseMapsOn, if_neg hne]
  simp only [hchain.layers.1.readFirstSuper hsz name]
  rw [doBaseFmmapOn]
  simp only [Heap.load_malloc_self, if_pos hname']
  rw [baseLoopOn]
  simp only [Heap.load_malloc_self, hchain.layers.1.readonlyCalls hsz superOf_is,
    Heap.load_free_self]
  rfl

/-- A base is a formatted image. -/
theorem BaseChain.readFirstSuper {i : BaseImage cfg} {l : List (BaseImage cfg)}
    (h : BaseChain fs name (i :: l)) :
    ∃ s, Pcow.readFirstSuper cfg ((fs name).getD .empty) name 0 = .ok (some s) := by
  obtain ⟨-, -, hlayers, hchain, hsz, -⟩ := h
  obtain ⟨e, ls, hcons⟩ := List.exists_cons_of_ne_nil hlayers
  rw [hcons] at hchain
  exact ⟨_, hchain.layers.1.readFirstSuper hsz name⟩

/-- **Where freed structs lose their contents, a chain of bases resolves only if it has no
base.** -/
theorem BaseChain.eq_nil_of_resolves {bases : List (BaseImage cfg)}
    (h : IsChain g ((fs fd).getD .empty) 0 (ls ++ [es]))
    (hf : ((fs fd).getD .empty).size < 2 ^ 63)
    (hbases : BaseChain fs (baseImageName ((fs fd).getD .empty) 0) bases)
    (hres : Resolves false g fs fd ls es bases length offset) : bases = [] := by
  obtain ⟨ses, hses, -⟩ := hres
  obtain ⟨-, x, hmaps, -⟩ := h.fmmapWith_ok rfl hf hses
  rcases bases with _ | ⟨i, l⟩
  · rfl
  · obtain ⟨s, hread⟩ := hbases.readFirstSuper
    rcases baseMapsOn_false_iff.mp ⟨x, hmaps⟩ with hnil | hnone
    · exact absurd hnil hbases.1
    · rw [hread] at hnone
      cases hnone

theorem BaseChain.not_resolves {i j : BaseImage cfg} {l : List (BaseImage cfg)}
    (h : IsChain g ((fs fd).getD .empty) 0 (ls ++ [es]))
    (hf : ((fs fd).getD .empty).size < 2 ^ 63)
    (hbases : BaseChain fs (baseImageName ((fs fd).getD .empty) 0) (i :: j :: l)) :
    ¬Resolves true g fs fd ls es (i :: j :: l) length offset := by
  rintro ⟨ses, hses, -⟩
  obtain ⟨-, x, hmaps, -⟩ := h.fmmapWith_ok rfl hf hses
  rw [hbases.baseMapsOn_endless] at hmaps
  cases hmaps

/-- One base at most is what `HasBase` says, with any block size. -/
theorem BaseChain.hasBase {bases : List (BaseImage cfg)} (h : BaseChain fs name bases)
    (hle : bases.length ≤ 1) (g : Geometry cfg) :
    ∃ (gb : Geometry cfg) (lb : List (List ℕ)), HasBase fs name gb lb ∧
      basesCalls bases = (gb.chainBindings name 0 lb).flatMap (readonlyCalls gb.blockSize) := by
  rcases bases with _ | ⟨i, _ | ⟨j, l⟩⟩
  · exact ⟨g, [], Or.inl ⟨h, rfl⟩, rfl⟩
  · obtain ⟨hne, hname, hlayers, hchain, hsz, hdeep⟩ := h
    refine ⟨i.g, i.layers, Or.inr (Or.inr ⟨hne, hlayers, hchain, hsz, hdeep⟩), ?_⟩
    rw [basesCalls, List.reverse_singleton, List.flatMap_singleton, hname]
  · simp only [List.length_cons] at hle
    omega

/-- **One base resolves where the freed structs are still in place.** -/
theorem BaseChain.resolves {bases : List (BaseImage cfg)}
    (h : IsChain g ((fs fd).getD .empty) 0 (ls ++ [es]))
    (hf : ((fs fd).getD .empty).size < 2 ^ 63)
    (hbases : BaseChain fs (baseImageName ((fs fd).getD .empty) 0) bases)
    (hlen : g.LengthOk length offset) (hle : bases.length ≤ 1) :
    Resolves true g fs fd ls es bases length offset := by
  obtain ⟨gb, lb, hbase, hcalls⟩ := hbases.hasBase hle g
  obtain ⟨fs', hmaps, -⟩ := hbase.baseMaps
  obtain ⟨ses, hses⟩ := h.exists_fmmap rfl hf hlen hmaps
  obtain ⟨-, x, hmaps', rfl⟩ := h.fmmap_ok rfl hf hses
  rw [hmaps] at hmaps'
  cases hmaps'
  refine ⟨_, by rw [fmmapOn_true]; exact hses, ?_⟩
  rw [chainSession, Geometry.ownCalls, hcalls]
  simp only [PageTable.run_append]
  rw [Geometry.run_walkBindings]

/-- **A chain of bases resolves exactly if there is no base**, as `do_base_fmmap` reads structs
that it has freed. If these were still in place, one base would resolve as well; from depth two
on, `do_base_fmmap` calls itself with what it was called with. -/
theorem fmmap_bases_iff (g : Geometry cfg) (fs : Fs) (fd : Path) (ls : List (List ℕ))
    (es : List ℕ) (bases : List (BaseImage cfg)) (length offset : ℕ)
    (h : IsChain g ((fs fd).getD .empty) 0 (ls ++ [es]))
    (hf : ((fs fd).getD .empty).size < 2 ^ 63)
    (hbases : BaseChain fs (baseImageName ((fs fd).getD .empty) 0) bases)
    (hlen : g.LengthOk length offset) :
    (Resolves false g fs fd ls es bases length offset ↔ bases = []) ∧
      (Resolves true g fs fd ls es bases length offset ↔ bases.length ≤ 1) := by
  constructor
  · constructor
    · exact hbases.eq_nil_of_resolves h hf
    · rintro rfl
      obtain ⟨ses, hses, hpages⟩ := hbases.resolves h hf hlen (Nat.zero_le 1)
      refine ⟨ses, ?_, hpages⟩
      rw [← hses, fmmapOn_true]
      exact h.fmmapOn_eq hf (Or.inl hbases)
  · constructor
    · intro hres
      rcases bases with _ | ⟨i, _ | ⟨j, l⟩⟩
      · exact Nat.zero_le 1
      · exact le_rfl
      · exact absurd hres (hbases.not_resolves h hf)
    · exact hbases.resolves h hf hlen

/-- Three images in a chain: `[1]` names `[2]` as its base, and `[2]` names `[3]`. -/
theorem exists_baseChain : ∃ fs : Fs,
    let g := Geometry.twoPages .shipped
    (∀ p, IsImage g ((fs p).getD .empty) [] [0]) ∧
      baseImageName ((fs [1]).getD .empty) 0 = [2] ∧
      baseImageName ((fs [2]).getD .empty) 0 = [3] ∧
      BaseChain fs [2] [⟨[2], g, [[0]]⟩, ⟨[3], g, [[0]]⟩] ∧
      BaseChain fs [3] [⟨[3], g, [[0]]⟩] := by
  obtain ⟨f₃, himage₃, hzero, -⟩ := exists_image (Geometry.twoPages .shipped) [] [0] (by decide)
    (by decide) (by decide) (by decide)
  obtain ⟨f₁, himage₁, hname₁⟩ := himage₃.exists_name (show (2 : UInt8) ≠ 0 by decide)
  obtain ⟨f₂, himage₂, hname₂⟩ := himage₃.exists_name (show (3 : UInt8) ≠ 0 by decide)
  have himage : ∀ p : Path, IsImage (Geometry.twoPages .shipped)
      (if p = [1] then f₁ else if p = [2] then f₂ else f₃) [] [0] := by
    intro p
    split_ifs
    · exact himage₁
    · exact himage₂
    · exact himage₃
  have hnil : baseImageName f₃ 0 = [] := baseImageName_eq_nil hzero
  have hchain₃ : BaseChain (fun p => some (if p = [1] then f₁ else if p = [2] then f₂ else f₃)) [3]
      [⟨[3], Geometry.twoPages .shipped, [[0]]⟩] :=
    ⟨by decide, rfl, by decide, (himage [3]).isChain, (himage [3]).size_lt, hnil⟩
  refine ⟨fun p => some (if p = [1] then f₁ else if p = [2] then f₂ else f₃), himage, hname₁,
    hname₂, ⟨by decide, rfl, by decide, (himage [2]).isChain, (himage [2]).size_lt, ?_⟩, hchain₃⟩
  change BaseChain _ (baseImageName f₂ 0) _
  rw [hname₂]
  exact hchain₃

/-- The image in the middle, which has one base. -/
theorem fmmap_bases_one : ∃ (fs : Fs) (bases : List (BaseImage .shipped)), bases.length = 1 ∧
    BaseChain fs [3] bases ∧
      ¬Resolves false (Geometry.twoPages .shipped) fs [2] [] [0] bases (8192 * 1) 0 ∧
      Resolves true (Geometry.twoPages .shipped) fs [2] [] [0] bases (8192 * 1) 0 := by
  obtain ⟨fs, himage, -, hname, -, hchain⟩ := exists_baseChain
  have hiff := fun hbases => fmmap_bases_iff _ fs [2] [] [0]
    [⟨[3], Geometry.twoPages .shipped, [[0]]⟩] (8192 * 1) 0 (himage [2]).isChain
    (himage [2]).size_lt hbases (Geometry.lengthOk_of_pages (by decide) (by decide))
  rw [hname] at hiff
  obtain ⟨hlost, hkept⟩ := hiff hchain
  exact ⟨fs, _, rfl, hchain, fun h => absurd (hlost.mp h) (List.cons_ne_nil _ _), hkept.mpr le_rfl⟩

/-- `fmmap` of the image in the middle reads the struct it has freed. The image on top has two
bases, and never gets that far. -/
theorem fmmap_bases_two : ∃ (fs : Fs) (bases : List (BaseImage .shipped)),
    let g := Geometry.twoPages .shipped
    (∀ p, IsImage g ((fs p).getD .empty) [] [0]) ∧ g.LengthOk (8192 * 1) 0 ∧
      bases.map BaseImage.name = [[2], [3]] ∧
      BaseChain fs (baseImageName ((fs [1]).getD .empty) 0) bases ∧
      (∀ kept, fmmapOn kept .shipped fs [1] (8192 * 1) 0 = .error .endless) ∧
      BaseChain fs (baseImageName ((fs [2]).getD .empty) 0) bases.tail ∧
      fmmapOn false .shipped fs [2] (8192 * 1) 0 = .error .sigsegv := by
  obtain ⟨fs, himage, hname, hname', hchain, hchain'⟩ := exists_baseChain
  have hlen : (Geometry.twoPages .shipped).LengthOk (8192 * 1) 0 :=
    Geometry.lengthOk_of_pages (by decide) (by decide)
  refine ⟨fs, [⟨[2], Geometry.twoPages .shipped, [[0]]⟩, ⟨[3], Geometry.twoPages .shipped, [[0]]⟩],
    himage, hlen, rfl, ?_, fun kept => ?_, ?_, ?_⟩
  · rw [hname]
    exact hchain
  · rw [fmmapOn, (himage [1]).isChain.fmmapWith_of_lengthOk (himage [1]).size_lt hlen, hname,
      hchain.baseMapsOn_endless]
    rfl
  · rw [hname']
    exact hchain'
  · rw [fmmapOn, (himage [2]).isChain.fmmapWith_of_lengthOk (himage [2]).size_lt hlen, hname',
      hchain'.baseMapsOn_false]
    rfl

end Pcow
