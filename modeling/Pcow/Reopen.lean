import Pcow.Handlers
import Pcow.Mapping

/-!
# Opening an image

What `fmmap` maps. The bindings of an image are those of its layers in order, over
those of its base image, and the last binding of a block wins: `overlayByte` is the
byte an offset of the range shall read as. `fmmap` builds exactly this overlay, with
the last layer writable and everything else write protected
(`IsChain.fmmap`), and the session it starts is in order (`IsImage.fmmap`).

Opening only reads the bytes that `IsChain` is about, so that an image with something
left over past its last layer is opened as well.
-/

namespace Pcow

variable {cfg : Config} {g : Geometry cfg} {f : ByteFile} {fs : Fs} {fd : Path} {off : ℕ}
  {es : List ℕ} {ls : List (List ℕ)}

/-! ### The bindings of a chain of layers -/

/-- The bindings of the layers `ls`, the first of them at `off`. -/
def Geometry.chainBindings (g : Geometry cfg) (fd : Path) :
    ℕ → List (List ℕ) → List (ℕ × Path × ℕ)
  | _, [] => []
  | off, es :: ls => g.bindings fd off es ++ g.chainBindings fd (g.endOff off es.length) ls

theorem Geometry.chainBindings_concat : g.chainBindings fd off (ls ++ [es]) =
    g.chainBindings fd off ls ++ g.bindings fd (g.chainEnd off ls) es := by
  induction ls generalizing off with
  | nil => simp [chainBindings, chainEnd]
  | cons e ls ih =>
    rw [List.cons_append, chainBindings, ih, chainBindings, List.append_assoc]
    rfl

/-- The data blocks of the layers of a chain lie inside it. -/
theorem Geometry.mem_chainBindings {x : ℕ × Path × ℕ} (h : x ∈ g.chainBindings fd off ls) :
    x.2.1 = fd ∧ x.2.2 + g.blockSize ≤ g.chainEnd off ls := by
  induction ls generalizing off with
  | nil => cases h
  | cons e ls ih =>
    rw [chainBindings, List.mem_append] at h
    rcases h with h | h
    · obtain ⟨i, hi, rfl⟩ := g.mem_bindings h
      refine ⟨rfl, ?_⟩
      have h₁ := g.blockAt_add_le off (g.dataBlock_lt hi)
      have h₂ : g.endOff off e.length ≤ g.chainEnd (g.endOff off e.length) ls :=
        Geometry.le_chainEnd
      rw [chainEnd]
      simp only [dataOff]
      rw [endOff] at *
      omega
    · exact ih h

/-- The byte at `v` of an overlay of bindings of blocks of size `n`. -/
def overlayByte (fs : Fs) (n : ℕ) (bindings : List (ℕ × Path × ℕ)) (v : ℕ) : UInt8 :=
  match PageTable.lastOf bindings (v / n) with
  | some (p, o) => fs.byteOf p (o + v % n)
  | none => 0

/-! ### The mapping loops -/

/-- The calls that map a binding read-only. -/
def readonlyCalls (n : ℕ) (x : ℕ × Path × ℕ) : List (MapOp Path) :=
  [.mmap (x.1 * n) n x.2.1 x.2.2 true, .mprotect (x.1 * n) n false]

/-- The read-only loops over a layer map its bindings. -/
theorem IsLayer.readonlyCalls (h : IsLayer g f off es) (hf : f.size < 2 ^ 63) {s : Super}
    (hs : s.Is g off es.length) : Pcow.doReadonlyFmmap cfg f s =
      .ok ((g.bindings s.fd off es).flatMap (Pcow.readonlyCalls g.blockSize)) := by
  rw [h.doReadonlyFmmap hf hs, Geometry.bindings, List.flatMap_map]
  rfl

/-- The loops over the layers of a chain. -/
theorem IsLayers.readonlyMaps (h : IsLayers g f off ls) (hf : f.size < 2 ^ 63) :
    Session.readonlyMaps cfg f (supersOf g fd off ls) =
      .ok ((g.chainBindings fd off ls).flatMap (readonlyCalls g.blockSize)) := by
  induction ls generalizing off with
  | nil => rfl
  | cons e ls ih =>
    rw [supersOf, Session.readonlyMaps, h.1.readonlyCalls hf superOf_is]
    simp only
    rw [ih h.2, Geometry.chainBindings, List.flatMap_append]
    rfl

/-! ### The base image -/

/-- **The base of an image** with the given name, and the bindings it contributes: the
name is empty, or there is no image under it, or it is an image of the same block
size. -/
def BaseIs (g : Geometry cfg) (fs : Fs) (name : Path) (base : List (ℕ × Path × ℕ)) : Prop :=
  (name = [] ∧ base = []) ∨
  (name ≠ [] ∧ readFirstSuper cfg ((fs name).getD .empty) name 0 = .ok none ∧ base = []) ∨
  name ≠ [] ∧ ∃ g₀ : Geometry cfg, g₀.blockSize = g.blockSize ∧ ∃ ls₀, ls₀ ≠ [] ∧
    IsChain g₀ ((fs name).getD .empty) 0 ls₀ ∧ ((fs name).getD .empty).size < 2 ^ 63 ∧
    base = g₀.chainBindings name 0 ls₀

/-- A base that names a base is mapped over and over. -/
theorem doBaseFmmap_endless (s : Super) (hread : readFirstSuper cfg f s.fd 0 = .ok (some s))
    (hoff : s.myOff = 0) (hname : baseImageName f 0 ≠ []) (n : ℕ) :
    Session.doBaseFmmap cfg f n s = .error .endless := by
  induction n with
  | zero => rfl
  | succ n ih =>
    rw [Session.doBaseFmmap, hoff, if_neg hname, hread]
    simp only
    rw [ih]

/-- **The loop of `do_base_fmmap` maps the layer it starts with and then every layer of
the walk**: it is one layer behind the walk, and catches up after it. -/
theorem baseLoop_eq {n : ℕ} {s tmp : Super} {l : List Super}
    (h : superChain cfg f n tmp = .ok l) :
    Session.baseLoop cfg f n s tmp = Session.readonlyMaps cfg f (s :: l) := by
  induction n generalizing s tmp l with
  | zero => cases h
  | succ n ih =>
    rw [superChain] at h
    rw [Session.baseLoop, Session.readonlyMaps]
    rcases doReadonlyFmmap cfg f s with e | m
    · rfl
    · simp only
      rcases hnext : readNextSuper cfg f tmp with e | _ | t
      · rw [hnext] at h
        cases h
      · rw [hnext] at h
        cases h
        simp only [Session.readonlyMaps]
        rcases doReadonlyFmmap cfg f tmp with e | m'
        · rfl
        · exact congrArg (fun x => Except.ok (m ++ x)) (List.append_nil m').symm
      · rw [hnext] at h
        rcases hchain : superChain cfg f n t with e | l'
        · simp only [hchain] at h
          cases h
        · simp only [hchain] at h
          cases h
          simp only
          rw [ih hchain]

/-- The mappings of a base: the first layer twice, then all layers in order. -/
theorem IsChain.doBaseFmmap (h : IsChain g f off (es :: ls)) (fd : Path) (hf : f.size < 2 ^ 63)
    (hname : baseImageName f off = []) (n : ℕ) (hn : ls.length < f.size + 1) :
    Session.doBaseFmmap cfg f (n + 1) (superOf g fd off es.length) =
      .ok ((g.bindings fd off es ++ g.chainBindings fd off (es :: ls)).flatMap
        (readonlyCalls g.blockSize)) := by
  have hmyOff : (superOf g fd off es.length).myOff = off := rfl
  rw [Session.doBaseFmmap, hmyOff, if_pos hname]
  simp only
  rw [baseLoop_eq (h.superChain hf hn), Session.readonlyMaps,
    h.layers.1.readonlyCalls hf superOf_is]
  simp only
  rw [h.layers.readonlyMaps hf, List.flatMap_append]
  rfl

/-- **What `fmmap` maps of the base image.** -/
theorem BaseIs.baseMaps {name : Path} {base : List (ℕ × Path × ℕ)} (hbase : BaseIs g fs name base)
    {fs' : Fs} {m : List (MapOp Path)} (hr : Session.baseMaps cfg fs name = .ok (fs', m)) :
    (∀ p, (fs' p).getD .empty = (fs p).getD .empty) ∧
      (∃ base', m = base'.flatMap (readonlyCalls g.blockSize) ∧
        ∀ b, PageTable.lastOf base' b = PageTable.lastOf base b) ∧
      ∀ x ∈ base, x.2.1 = name ∧ x.2.2 + g.blockSize ≤ ((fs name).getD .empty).size ∧
        name ≠ [] ∧ baseImageName ((fs name).getD .empty) 0 = [] := by
  have hfiles : ∀ p, (Function.update fs name (some ((fs name).getD .empty)) p).getD .empty =
      (fs p).getD .empty := by
    intro p
    by_cases hp : p = name
    · rw [hp, Function.update_self, Option.getD_some]
    · rw [Function.update_of_ne hp]
  rw [Session.baseMaps] at hr
  rcases hbase with ⟨rfl, rfl⟩ | ⟨hne, hread, rfl⟩ | ⟨hne, g₀, hbs, ls₀, hls, hchain, hsz, rfl⟩
  · rw [if_pos rfl] at hr
    cases hr
    exact ⟨fun _ => rfl, ⟨[], rfl, fun _ => rfl⟩, fun x hx => by cases hx⟩
  · rw [if_neg hne] at hr
    simp only at hr
    rw [hread] at hr
    cases hr
    exact ⟨hfiles, ⟨[], rfl, fun _ => rfl⟩, fun x hx => by cases hx⟩
  · obtain ⟨e, l, rfl⟩ := List.exists_cons_of_ne_nil hls
    have hread := hchain.layers.1.readFirstSuper hsz name
    have hlen := hchain.layers.chainEnd_le hls
    rw [List.length_cons] at hlen
    rw [if_neg hne] at hr
    simp only at hr
    rw [hread] at hr
    simp only at hr
    have hname : baseImageName ((fs name).getD .empty) 0 = [] := by
      by_contra hbad
      have hend := doBaseFmmap_endless (superOf g₀ name 0 e.length) hread rfl hbad
        (((fs name).getD .empty).size + 1)
      rw [hend] at hr
      cases hr
    have hmap := hchain.doBaseFmmap name hsz hname ((fs name).getD .empty).size (by omega)
    rw [hbs] at hmap
    rw [hmap] at hr
    cases hr
    refine ⟨hfiles, ⟨_, rfl, fun b => ?_⟩, fun x hx => ?_⟩
    · have hcons : g₀.chainBindings name 0 (e :: l) =
          g₀.bindings name 0 e ++ g₀.chainBindings name (g₀.endOff 0 e.length) l := rfl
      rw [hcons, PageTable.lastOf_append, PageTable.lastOf_append, Option.or_assoc, Option.or_self]
    · obtain ⟨h₁, h₂⟩ := Geometry.mem_chainBindings hx
      rw [hbs] at h₂
      exact ⟨h₁, by omega, hne, hname⟩

/-! ### `fmmap` -/

/-- The length of the range `fmmap` maps; for length 0 that of all blocks a layer can
hold. -/
def Geometry.mapLength (g : Geometry cfg) (length : ℕ) : ℕ :=
  if length = 0 then u64 ((g.blockSize : ℤ) * g.maxBlockNum) else length

/-- The bindings below the last layer. -/
def Geometry.lowBindings (g : Geometry cfg) (base : List (ℕ × Path × ℕ)) (fd : Path)
    (ls : List (List ℕ)) : ℕ → Option (Path × ℕ) :=
  PageTable.lastOf (base ++ g.chainBindings fd 0 ls)

/-- **A session as `fmmap` leaves it**, on the files `fs`: the overlay of the layers is
mapped, and nothing has happened yet. -/
structure Session.Opened (ses : Session) (g : Geometry cfg) (fs : Fs) (fd : Path)
    (ls : List (List ℕ)) (es : List ℕ) (base : List (ℕ × Path × ℕ)) (length : ℕ) : Prop where
  fd_eq : ses.s.fd = fd
  super : ses.s.Is g (g.chainEnd 0 ls) es.length
  allocOff : ses.s.allocOff = g.endOff (g.chainEnd 0 ls) es.length
  fmmapLength : ses.s.fmmapLength = g.mapLength length
  length_le : g.mapLength length ≤ regLen
  globalLength : ses.globalLength = length
  cow : ses.cow = initFgcow
  ring : ses.ring = .init
  files : ∀ p, (ses.fs p).getD .empty = (fs p).getD .empty
  pages : ∀ p, ses.pages p = place g.blockSize (g.top fd (g.chainEnd 0 ls) es)
    (g.lowBindings base fd ls) (fun _ => none) (p * pageSize)
  base_mem : ∀ x ∈ base, x.2.1 ≠ fd ∧ x.2.2 + g.blockSize ≤ ((fs x.2.1).getD .empty).size

/-- Mapping the layers below read-only and the last layer over them writable. -/
theorem overlay_eq_place {n : ℕ} {l : List (ℕ × Path × ℕ)} {low : ℕ → Option (Path × ℕ)}
    (hlow : ∀ b, PageTable.lastOf l b = low b) (t : List (ℕ × Path × ℕ)) (p : ℕ) :
    PageTable.overlay n t true (PageTable.overlay n l false fun _ => none) p =
      place n (PageTable.lastOf t) low (fun _ => none) (p * pageSize) := by
  have hcop : Copied (fun _ => none) (p * pageSize / n) (p * pageSize % n) := by
    intro mv hmv
    cases hmv
  rw [PageTable.overlay, place]
  rcases PageTable.lastOf t (p * pageSize / n) with _ | ⟨file, o⟩
  · simp only
    rw [PageTable.overlay, lowerPlace, hlow]
    rcases low (p * pageSize / n) with _ | ⟨file, o⟩
    · rfl
    · rfl
  · simp only [if_pos hcop]

/-- The length and the offset are ones that `fmmap` accepts. -/
structure Geometry.LengthOk (g : Geometry cfg) (length offset : ℕ) : Prop where
  le : g.mapLength length ≤ regLen
  offset_le : offset ≤ g.mapLength length
  pos : 0 < g.mapLength length
  dvd : pageSize ∣ g.mapLength length

/-- The session `fmmap` returns on a chain of layers; `x` is what it took from the
base. -/
def chainSession (g : Geometry cfg) (fd : Path) (ls : List (List ℕ)) (es : List ℕ) (length : ℕ)
    (x : Fs × List (MapOp Path)) : Session where
  fs := x.1
  s := { superOf g fd (g.chainEnd 0 ls) es.length with
    fmmapLength := g.mapLength length
    allocOff := (superOf g fd (g.chainEnd 0 ls) es.length).nextOff }
  globalLength := length
  pages := PageTable.run (x.2 ++ (g.chainBindings fd 0 ls).flatMap (readonlyCalls g.blockSize) ++
    (g.bindings fd (g.chainEnd 0 ls) es).flatMap fun x =>
      [.mmap (x.1 * g.blockSize) g.blockSize x.2.1 x.2.2 true]) fun _ => none
  cow := initFgcow
  ring := .init

/-- **`fmmap` on a chain of layers**, whatever maps the base. -/
theorem IsChain.fmmapWith_eq (h : IsChain g f 0 (ls ++ [es])) (hfs : (fs fd).getD .empty = f)
    (hf : f.size < 2 ^ 63) (bases : Fs → Path → Except Fault (Fs × List (MapOp Path)))
    (length offset : ℕ) :
    Session.fmmapWith bases cfg fs fd length offset =
      if g.mapLength length > regLen then .ok none
      else if offset > g.mapLength length then .ok none
      else if g.mapLength length = 0 ∨ ¬pageSize ∣ g.mapLength length then .error .assertFailed
      else (bases fs (baseImageName f 0)).map fun x =>
        some (chainSession g fd ls es length x) := by
  obtain ⟨e, l, hel⟩ := List.exists_cons_of_ne_nil (show ls ++ [es] ≠ [] by simp)
  have hlen := h.layers.chainEnd_le (by simp)
  have hlayers := isLayers_append.mp h.layers
  have hlast := isLayers_singleton.mp hlayers.2
  have hread : readFirstSuper cfg f fd 0 = .ok (some (superOf g fd 0 e.length)) := by
    have hl := h.layers
    rw [hel] at hl
    exact hl.1.readFirstSuper hf fd
  have hchain : Pcow.superChain cfg f (f.size + 1) (superOf g fd 0 e.length) =
      .ok (supersOf g fd 0 ls ++ [superOf g fd (g.chainEnd 0 ls) es.length]) := by
    have hc := h
    rw [hel] at hc hlen
    rw [List.length_cons] at hlen
    rw [hc.superChain hf (by omega), ← hel, supersOf_append]
    rfl
  have hbs := g.blockSize_lt
  have hu : u64 ((u64 (g.blockSize : ℤ) : ℕ) * g.maxBlockNum) =
      u64 ((g.blockSize : ℤ) * g.maxBlockNum) := by
    rw [u64_natCast (by omega)]
  have hmyOff : (superOf g fd 0 e.length).myOff = 0 := rfl
  have hblockSize : (superOf g fd 0 e.length).blockSize = g.blockSize := rfl
  have hmax : (superOf g fd 0 e.length).maxBlockNum = g.maxBlockNum := rfl
  have hmap : (if length = 0 then u64 ((g.blockSize : ℤ) * g.maxBlockNum) else length) =
      g.mapLength length := rfl
  rw [Session.fmmapWith, hfs, hread]
  simp only [hmyOff, hblockSize, hmax, hu, hmap]
  congr 1
  congr 1
  congr 1
  rcases bases fs (baseImageName f 0) with err | ⟨fs', m₁⟩
  · rfl
  simp only [hchain, List.dropLast_concat, List.getLastD_concat]
  rw [hlayers.1.readonlyMaps hf]
  simp only
  rw [hlast.doWritableFmmap hf superOf_is]
  simp only [Except.map, chainSession]
  rw [Geometry.bindings, List.flatMap_map]
  rfl

theorem IsChain.fmmap_eq (h : IsChain g f 0 (ls ++ [es])) (hfs : (fs fd).getD .empty = f)
    (hf : f.size < 2 ^ 63) (length offset : ℕ) :
    Session.fmmap cfg fs fd length offset =
      if g.mapLength length > regLen then .ok none
      else if offset > g.mapLength length then .ok none
      else if g.mapLength length = 0 ∨ ¬pageSize ∣ g.mapLength length then .error .assertFailed
      else (Session.baseMaps cfg fs (baseImageName f 0)).map fun x =>
        some (chainSession g fd ls es length x) :=
  h.fmmapWith_eq hfs hf _ length offset

/-- The steps of a call of `fmmap` that returns a range. -/
theorem IsChain.fmmapWith_ok (h : IsChain g f 0 (ls ++ [es])) (hfs : (fs fd).getD .empty = f)
    (hf : f.size < 2 ^ 63) {bases : Fs → Path → Except Fault (Fs × List (MapOp Path))}
    {length offset : ℕ} {ses : Session}
    (hr : Session.fmmapWith bases cfg fs fd length offset = .ok (some ses)) :
    g.LengthOk length offset ∧ ∃ x, bases fs (baseImageName f 0) = .ok x ∧
      ses = chainSession g fd ls es length x := by
  rw [h.fmmapWith_eq hfs hf] at hr
  split at hr
  · cases hr
  rename_i hle
  split at hr
  · cases hr
  rename_i hoff
  split at hr
  · cases hr
  rename_i hpage
  obtain ⟨h0, hdvd⟩ := not_or.mp hpage
  refine ⟨⟨by omega, by omega, by omega, not_not.mp hdvd⟩, ?_⟩
  rcases hmaps : bases fs (baseImageName f 0) with err | x
  · rw [hmaps] at hr
    cases hr
  · rw [hmaps, Except.map, Except.ok.injEq, Option.some.injEq] at hr
    exact ⟨x, rfl, hr.symm⟩

theorem IsChain.fmmap_ok (h : IsChain g f 0 (ls ++ [es])) (hfs : (fs fd).getD .empty = f)
    (hf : f.size < 2 ^ 63) {length offset : ℕ} {ses : Session}
    (hr : Session.fmmap cfg fs fd length offset = .ok (some ses)) :
    g.LengthOk length offset ∧ ∃ x, Session.baseMaps cfg fs (baseImageName f 0) = .ok x ∧
      ses = chainSession g fd ls es length x :=
  h.fmmapWith_ok hfs hf hr

/-- Where `fmmap` accepts the length, it is up to the base. -/
theorem IsChain.fmmapWith_of_lengthOk (h : IsChain g ((fs fd).getD .empty) 0 (ls ++ [es]))
    (hf : ((fs fd).getD .empty).size < 2 ^ 63)
    {bases : Fs → Path → Except Fault (Fs × List (MapOp Path))} {length offset : ℕ}
    (hlen : g.LengthOk length offset) :
    Session.fmmapWith bases cfg fs fd length offset =
      (bases fs (baseImageName ((fs fd).getD .empty) 0)).map fun x =>
        some (chainSession g fd ls es length x) := by
  have hpos := hlen.pos
  rw [h.fmmapWith_eq rfl hf, if_neg (not_lt.mpr hlen.le), if_neg (not_lt.mpr hlen.offset_le),
    if_neg (not_or.mpr ⟨by omega, not_not.mpr hlen.dvd⟩)]

/-- `fmmap` returns a range where it accepts the length and the base is mapped. -/
theorem IsChain.exists_fmmap (h : IsChain g f 0 (ls ++ [es])) (hfs : (fs fd).getD .empty = f)
    (hf : f.size < 2 ^ 63) {length offset : ℕ} (hlen : g.LengthOk length offset)
    {x : Fs × List (MapOp Path)} (hmaps : Session.baseMaps cfg fs (baseImageName f 0) = .ok x) :
    ∃ ses, Session.fmmap cfg fs fd length offset = .ok (some ses) := by
  subst hfs
  rw [Session.fmmap, h.fmmapWith_of_lengthOk hf hlen, hmaps]
  exact ⟨_, rfl⟩

/-- **`fmmap` maps the overlay of the layers**, where it returns a range. -/
theorem IsChain.fmmap (h : IsChain g f 0 (ls ++ [es])) (hfs : (fs fd).getD .empty = f)
    (hf : f.size < 2 ^ 63) {base : List (ℕ × Path × ℕ)}
    (hbase : BaseIs g fs (baseImageName f 0) base) {length offset : ℕ} {ses : Session}
    (hr : Session.fmmap cfg fs fd length offset = .ok (some ses)) :
    ses.Opened g fs fd ls es base length := by
  obtain ⟨hlen, ⟨fs', m₁⟩, hmaps, rfl⟩ := h.fmmap_ok hfs hf hr
  obtain ⟨hfiles, ⟨base', rfl, hlow⟩, hmem⟩ := hbase.baseMaps hmaps
  have hlast := isLayers_singleton.mp (isLayers_append.mp h.layers).2
  have hnext : (superOf g fd (g.chainEnd 0 ls) es.length).nextOff =
      g.endOff (g.chainEnd 0 ls) es.length :=
    superOf_is.nextOff (hlast.blockAt_lt hf le_rfl)
  refine ⟨rfl, ⟨rfl, rfl, rfl, rfl, rfl, rfl, rfl⟩, hnext, rfl, hlen.le, rfl, rfl, rfl, hfiles,
    fun p => ?_, fun x hx => ?_⟩
  · rw [chainSession]
    simp only
    rw [← List.flatMap_append, PageTable.run_append, PageTable.run_blocks g.blockSize_pos]
    change PageTable.overlay _ _ _ (PageTable.run ((base' ++ g.chainBindings fd 0 ls).flatMap
      fun x => [.mmap (x.1 * g.blockSize) g.blockSize x.2.1 x.2.2 true,
        .mprotect (x.1 * g.blockSize) g.blockSize false]) _) p = _
    rw [PageTable.run_blocks_readonly g.blockSize_pos]
    refine overlay_eq_place (fun b => ?_) _ p
    rw [Geometry.lowBindings, PageTable.lastOf_append, PageTable.lastOf_append, hlow]
  · obtain ⟨h₁, h₂, hne, h₃⟩ := hmem x hx
    rw [h₁]
    refine ⟨fun heq => hne ?_, h₂⟩
    rw [heq, hfs] at h₃
    exact h₃

/-! ### Opening again -/

/-- An image that `fmmap` maps is not its own base. -/
theorem IsChain.name_ne (h : IsChain g f 0 (ls ++ [es])) (hfs : (fs fd).getD .empty = f)
    (hf : f.size < 2 ^ 63) {x : Fs × List (MapOp Path)}
    (hmaps : Session.baseMaps cfg fs (baseImageName f 0) = .ok x) :
    baseImageName f 0 = [] ∨ baseImageName f 0 ≠ fd := by
  by_contra hcon
  obtain ⟨hne, heq⟩ := not_or.mp hcon
  rw [not_not] at heq
  obtain ⟨e, l, hel⟩ := List.exists_cons_of_ne_nil (show ls ++ [es] ≠ [] by simp)
  have hl := h.layers
  rw [hel] at hl
  have hread := hl.1.readFirstSuper hf fd
  have hend := doBaseFmmap_endless (superOf g fd 0 e.length) hread rfl hne (f.size + 1)
  rw [Session.baseMaps, if_neg hne, heq] at hmaps
  simp only [hfs] at hmaps
  rw [hread] at hmaps
  simp only at hmaps
  rw [hend] at hmaps
  cases hmaps

/-- The base is the same where only the file of the image has changed. -/
theorem BaseIs.congr {fs' : Fs} {name : Path} {base : List (ℕ × Path × ℕ)}
    (h : BaseIs g fs name base)
    (hne : name = [] ∨ name ≠ fd)
    (hfiles : ∀ p, p ≠ fd → (fs' p).getD .empty = (fs p).getD .empty) :
    BaseIs g fs' name base := by
  rcases hne with rfl | hne
  · rcases h with hb | ⟨hb, -⟩ | ⟨hb, -⟩
    · exact Or.inl hb
    · exact absurd rfl hb
    · exact absurd rfl hb
  · rw [BaseIs, hfiles name hne]
    exact h

/-- **An image is opened again**: after a change of its file that leaves a chain of
layers and the name of the base, `fmmap` returns a range as it did before. -/
theorem IsChain.reopen (h : IsChain g f 0 (ls ++ [es])) (hfs : (fs fd).getD .empty = f)
    (hf : f.size < 2 ^ 63) {base : List (ℕ × Path × ℕ)}
    (hbase : BaseIs g fs (baseImageName f 0) base) {length offset : ℕ} {ses : Session}
    (hopen : Session.fmmap cfg fs fd length offset = .ok (some ses)) {fs' : Fs} {f' : ByteFile}
    {ls' : List (List ℕ)} {es' : List ℕ} (h' : IsChain g f' 0 (ls' ++ [es']))
    (hfs' : (fs' fd).getD .empty = f') (hf' : f'.size < 2 ^ 63)
    (hfiles : ∀ p, p ≠ fd → (fs' p).getD .empty = (fs p).getD .empty)
    (hname : baseImageName f' 0 = baseImageName f 0) :
    ∃ ses', Session.fmmap cfg fs' fd length offset = .ok (some ses') ∧
      ses'.Opened g fs' fd ls' es' base length := by
  obtain ⟨hlen, x, hmaps, -⟩ := h.fmmap_ok hfs hf hopen
  have hne := h.name_ne hfs hf hmaps
  generalize hn : baseImageName f 0 = name at *
  have hbase' : BaseIs g fs' name base := hbase.congr hne hfiles
  have hmaps' : ∃ x', Session.baseMaps cfg fs' name = .ok x' := by
    rw [Session.baseMaps] at hmaps ⊢
    split
    · exact ⟨_, rfl⟩
    rename_i hnil
    rw [if_neg hnil] at hmaps
    rw [hfiles name (hne.resolve_left hnil)]
    simp only at hmaps ⊢
    rcases hread : readFirstSuper cfg ((fs name).getD .empty) name 0 with err | _ | s
    · rw [hread] at hmaps
      cases hmaps
    · exact ⟨_, rfl⟩
    · rw [hread] at hmaps
      simp only at hmaps ⊢
      rcases hdo : Session.doBaseFmmap cfg ((fs name).getD .empty)
        (((fs name).getD .empty).size + 1) s with err | m
      · rw [hdo] at hmaps
        cases hmaps
      · exact ⟨_, rfl⟩
  obtain ⟨x', hx'⟩ := hmaps'
  rw [← hname] at hx' hbase'
  obtain ⟨ses', hses'⟩ := h'.exists_fmmap hfs' hf' hlen hx'
  exact ⟨ses', hses', h'.fmmap hfs' hf' hbase' hses'⟩

/-! ### What a session just opened shows -/

/-- The byte at a place, where all blocks of the last layer are complete, is that of
the overlay. -/
theorem place_overlayByte {n : ℕ} (lb tb : List (ℕ × Path × ℕ)) {moved : ℕ → Option (List ℕ)}
    (hmoved : ∀ b, moved b = none) (v : ℕ) :
    ((place n (PageTable.lastOf tb) (PageTable.lastOf lb) moved v).map fun e =>
      fs.byteOf e.file e.off).getD 0 = overlayByte fs n (lb ++ tb) v := by
  have hcop : Copied moved (v / n) (v % n) := by
    intro mv hmv
    rw [hmoved] at hmv
    cases hmv
  rw [overlayByte, PageTable.lastOf_append, place]
  rcases PageTable.lastOf tb (v / n) with _ | ⟨p, o⟩
  · simp only [Option.none_or]
    rw [lowerPlace]
    rcases PageTable.lastOf lb (v / n) with _ | ⟨p, o⟩
    · rfl
    · rfl
  · simp only [if_pos hcop, Option.map_some, Option.getD_some, Option.some_or]

/-- The bindings of an image: those of its base, and those of its layers. -/
def Geometry.imageBindings (g : Geometry cfg) (base : List (ℕ × Path × ℕ)) (fd : Path)
    (ls : List (List ℕ)) (es : List ℕ) : List (ℕ × Path × ℕ) :=
  base ++ g.chainBindings fd 0 (ls ++ [es])

theorem Geometry.imageBindings_eq {base : List (ℕ × Path × ℕ)} : g.imageBindings base fd ls es =
    base ++ g.chainBindings fd 0 ls ++ g.bindings fd (g.chainEnd 0 ls) es := by
  rw [imageBindings, chainBindings_concat, List.append_assoc]

namespace Session

variable {ses : Session} {base : List (ℕ × Path × ℕ)} {length : ℕ}

/-- **A session just opened shows the overlay of the image.** -/
theorem Opened.view (h : ses.Opened g fs fd ls es base length) (hdvd : pageSize ∣ g.blockSize) :
    ses.view = overlayByte fs g.blockSize (g.imageBindings base fd ls es) := by
  funext v
  have hbyte : ∀ p a, ses.fs.byteOf p a = fs.byteOf p a := by
    intro p a
    rw [Fs.byteOf, h.files, Fs.byteOf]
  rw [view_of_pages hdvd h.pages v, Geometry.imageBindings_eq]
  simp only [hbyte]
  exact place_overlayByte _ _ (fun _ => rfl) v

/-- A session without incomplete blocks shows the overlay of the image as it is. -/
theorem Core.view_overlay {moved : ℕ → Option (List ℕ)}
    (h : ses.Core g ls es (g.lowBindings base fd ls) moved) (hfd : ses.s.fd = fd)
    (hmoved : ∀ b, moved b = none) :
    ses.view = overlayByte ses.fs g.blockSize (g.imageBindings base fd ls es) := by
  funext v
  rw [h.view_eq, placeOf, Geometry.imageBindings_eq, hfd]
  exact place_overlayByte _ _ hmoved v

/-- Bindings found below the last layer are below it, or in the file of the base. -/
theorem Opened.below (h : ses.Opened g fs fd ls es base length) {b : ℕ} {p : Path} {o : ℕ}
    (hl : g.lowBindings base fd ls b = some (p, o)) :
    p = ses.s.fd ∧ o + g.blockSize ≤ g.chainEnd 0 ls ∨
      p ≠ ses.s.fd ∧ o + g.blockSize ≤ ((ses.fs p).getD .empty).size := by
  rw [h.fd_eq, h.files]
  rcases List.mem_append.mp (PageTable.mem_of_lastOf hl) with hm | hm
  · exact Or.inr (h.base_mem _ hm)
  · exact Or.inl (Geometry.mem_chainBindings hm)

/-- **The session `fmmap` starts on an image is in order.** -/
theorem Opened.inv (h : ses.Opened g fs fd ls es base length) (hdvd : pageSize ∣ g.blockSize)
    (himage : IsImage g ((fs fd).getD .empty) ls es) :
    ses.Inv g ls es (g.lowBindings base fd ls) := by
  have hfile : ses.file = (fs fd).getD .empty := by rw [file, h.fd_eq, h.files]
  have hnone : ∀ n, ses.cow.movedOf n = fun _ => none := by
    intro n
    rw [h.cow]
    rfl
  refine ⟨⟨⟨hdvd, hfile ▸ himage, h.super, fun _ => ?_, fun b p o hl => h.below hl,
    fun p => ?_⟩, ?_,
    ⟨fun i ce hce => ?_, fun i => ?_⟩, fun i ce hce => ?_⟩, fun i e he => ?_, fun _ i => ?_⟩
  · rw [h.ring, hfile]
    refine ⟨?_, ?_, le_rfl, fun i hi => ?_, ?_, himage.size_lt⟩
    · rw [h.allocOff]
      rfl
    · decide
    · exact absurd hi (Nat.not_lt_zero i)
    · rw [h.allocOff]
      exact himage.endOff_le
  · rw [h.pages, hnone, h.fd_eq]
  · rw [h.fmmapLength]
    exact h.length_le
  · rw [h.cow] at hce
    cases hce
  · rw [h.cow]
    exact List.nodup_nil
  · rw [h.cow] at hce
    cases hce
  · rw [h.cow] at he
    cases he
  · rw [h.cow]
    rfl

end Session

end Pcow
