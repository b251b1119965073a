import Pcow.Ready

/-!
# The command line tool

`main` of `tools/pcow-img.c` makes one call of `manager.c` from its arguments, or two of
`list_snapshots` around one, and `list_snapshots` prints what the layers of an image say of
themselves. What is printed is a function of the image (`listed`): a section for each layer, in
their order, from whose numbers those of its entries follow (`info_accounts`). So the two listings
of a rollback tell what it did: the second is a part of the first (`rollback_listings`). A snapshot
adds a section without entries and leaves the others as they were (`snapshot_listings`). In a system
of images a run of the tool is one operation, or none (`tool_runs`).
-/

namespace Pcow

/-! ### `list_snapshots` -/

/-- What is printed of a layer. -/
structure Section where
  /-- The number of the layer, from 1. -/
  no : ℤ
  /-- The offset of its super block. -/
  myOff : ℕ
  /-- The numbers and the counters of its meta blocks: of each tenth and of the last. -/
  metas : List (ℕ × ℤ)
  /-- The four characters of the magic. -/
  magic : List UInt8
  blockSize : ℤ
  maxBlockNum : ℤ
  activeMetaNum : ℤ
  maxPerSeg : ℤ
  /-- The counter of the active meta block, as it is cached. -/
  counter : ℤ
  /-- The same, as it is in the file. -/
  pmCounter : ℤ
  /-- The name of the base. -/
  backing : Path
deriving DecidableEq

/-- The line for meta block `i`, if there is one. -/
def listMeta (f : ByteFile) (s : Super) (i : ℕ) : Except Fault (List (ℕ × ℤ)) :=
  (readMeta f s (i32 i)).map fun m =>
    if i % 10 = 0 ∨ i = u64 s.activeMetaNum then [(i, m.counter)] else []

/-- One round of the loop of `list_snapshots`. -/
def listLayer (f : ByteFile) (no : ℤ) (s : Super) : Except Fault Section :=
  (collect (listMeta f s) 0 (u64 s.activeMetaNum + 1)).map fun metas =>
    { no, metas
      myOff := s.myOff
      magic := (List.range 4).map fun i => f.byte (s.myOff + 12 + i)
      blockSize := s.blockSize
      maxBlockNum := s.maxBlockNum
      activeMetaNum := s.activeMetaNum
      maxPerSeg := s.maxPerSeg
      counter := s.activeMeta.counter
      pmCounter := f.loadInt s.activeMeta.pmTop
      backing := baseImageName f s.myOff }

/-- The loop of `list_snapshots`, after `counter` layers. -/
def listLoop (cfg : Config) (f : ByteFile) : ℕ → ℤ → Super → Except Fault (List Section)
  | 0, _, _ => .error .endless
  | n + 1, counter, s =>
    match listLayer f (counter + 1) s with
    | .error e => .error e
    | .ok x => match readNextSuper cfg f s with
      | .error e => .error e
      | .ok none => .ok [x]
      | .ok (some t) => (listLoop cfg f n (counter + 1) t).map (x :: ·)

/-- `list_snapshots`: `none` where it returns -1, because the image is missing or not formatted. -/
def listSnapshots (cfg : Config) (fs : Fs) (imageName : Path) :
    Except Fault (Option (List Section)) :=
  match fs imageName with
  | none => .ok none
  | some f => match readFirstSuper cfg f imageName 0 with
    | .error e => .error e
    | .ok none => .ok none
    | .ok (some s) => (listLoop cfg f (f.size + 1) 0 s).map some

/-! ### `main` -/

/-- White space in the C locale. -/
def isSpace (c : UInt8) : Bool := c = 32 || (9 ≤ c && c ≤ 13)

/-- The value of the decimal digits a string begins with. -/
def leadingNumber (l : Path) : ℕ :=
  (l.takeWhile fun c => 48 ≤ c && c ≤ 57).foldl (fun n c => 10 * n + (c.toNat - 48)) 0

/-- The number a string begins with, after white space and a sign. -/
def signedNumber (l : Path) : ℤ :=
  match l.dropWhile isSpace with
  | [] => 0
  | c :: l => if c = 45 then -leadingNumber l else if c = 43 then leadingNumber l
    else leadingNumber (c :: l)

/-- `atoi`: what `strtol` returns, which stays in the range of a `long`, cut to an `int`. -/
def atoi (c : CString) : ℤ := i32 (max (-2 ^ 63) (min (2 ^ 63 - 1) (signedNumber c.chars)))

/-- The characters of a literal of the source. -/
def literal (s : String) : Path := s.toList.map fun c => UInt8.ofNat c.toNat

/-- What the tool has printed of images: for each call of `list_snapshots` the sections, or that it
failed. The usages and the messages are left out. -/
abbrev Listings := List (Option (List Section))

/-- A call of `manager.c` whose return value is not looked at. -/
def call (x : Except Fault (Fs × ℤ)) : Except Fault (Fs × Listings) := x.map fun y => (y.1, [])

/-- `main` of the tool. With a wrong number of arguments, an unknown option or none it does
nothing. -/
def main (cfg : Config) (fs : Fs) : List CString → Except Fault (Fs × Listings)
  | _ :: option :: args =>
    if option.chars = literal "help" then .ok (fs, [])
    else if option.chars = literal "create" then
      match args with
      | [blockSize, maxSize, name] =>
        call (newImage cfg fs name.chars (atoi blockSize) (u64 (atoi maxSize)) none)
      | [blockSize, maxSize, name, base] =>
        call (newImage cfg fs name.chars (atoi blockSize) (u64 (atoi maxSize)) (some base))
      | _ => .ok (fs, [])
    else if option.chars = literal "info" then
      match args with
      | [name] => (listSnapshots cfg fs name.chars).map fun l => (fs, [l])
      | _ => .ok (fs, [])
    else if option.chars = literal "rebase" then
      match args with
      | [name, base] => call (updateBaseImage cfg fs name.chars base)
      | _ => .ok (fs, [])
    else if option.chars = literal "snapshot" then
      match args with
      | [name] => call (snapshot cfg fs name.chars)
      | _ => .ok (fs, [])
    else if option.chars = literal "rollback" then
      match args with
      | [name, no] =>
        match listSnapshots cfg fs name.chars with
        | .error e => .error e
        | .ok before => match rollbackSnapshot cfg fs name.chars (atoi no) with
          | .error e => .error e
          | .ok (fs', _) => (listSnapshots cfg fs' name.chars).map fun after =>
              (fs', [before, after])
      | _ => .ok (fs, [])
    else .ok (fs, [])
  | _ => .ok (fs, [])

/-- **The operation a command line asks for**, if there is one. -/
def command : List CString → Option WorldOp
  | _ :: option :: args =>
    if option.chars = literal "create" then
      match args with
      | [blockSize, maxSize, name] =>
        some (.newImage name.chars (atoi blockSize) (u64 (atoi maxSize)) none)
      | [blockSize, maxSize, name, base] =>
        some (.newImage name.chars (atoi blockSize) (u64 (atoi maxSize)) (some base))
      | _ => none
    else if option.chars = literal "rebase" then
      match args with
      | [name, base] => some (.updateBaseImage name.chars base)
      | _ => none
    else if option.chars = literal "snapshot" then
      match args with
      | [name] => some (.snapshot name.chars)
      | _ => none
    else if option.chars = literal "rollback" then
      match args with
      | [name, no] => some (.rollbackSnapshot name.chars (atoi no))
      | _ => none
    else none
  | _ => none

/-! ### The listing of an image -/

variable {cfg : Config} {g : Geometry cfg} {f f' : ByteFile} {off : ℕ} {es : List ℕ}
  {ls : List (List ℕ)} {fd : Path} {no : ℤ}

/-- The section of a layer of `k` entries. -/
def sectionOf (g : Geometry cfg) (f : ByteFile) (no : ℤ) (off k : ℕ) : Section where
  no
  myOff := off
  metas := (List.range (g.lastSeg k + 1)).flatMap fun i =>
    if i % 10 = 0 ∨ i = g.lastSeg k then [(i, (g.fill k i : ℤ))] else []
  magic := (List.range 4).map fun i => f.byte (off + 12 + i)
  blockSize := g.blockSize
  maxBlockNum := g.maxBlockNum
  activeMetaNum := g.lastSeg k
  maxPerSeg := g.perSeg
  counter := (k - g.lastSeg k * g.perSeg : ℕ)
  pmCounter := (k - g.lastSeg k * g.perSeg : ℕ)
  backing := baseImageName f off

/-- **What is listed of a chain of layers.** -/
def listed (g : Geometry cfg) (f : ByteFile) : ℤ → ℕ → List (List ℕ) → List Section
  | _, _, [] => []
  | no, off, es :: ls =>
    sectionOf g f no off es.length :: listed g f (no + 1) (g.endOff off es.length) ls

@[simp] theorem length_listed : (listed g f no off ls).length = ls.length := by
  induction ls generalizing no off with
  | nil => rfl
  | cons es ls ih => rw [listed, List.length_cons, ih, List.length_cons]

theorem listed_append {ls' : List (List ℕ)} : listed g f no off (ls ++ ls') =
    listed g f no off ls ++ listed g f (no + ls.length) (g.chainEnd off ls) ls' := by
  induction ls generalizing no off with
  | nil =>
      rw [List.nil_append, listed, List.nil_append, List.length_nil, Nat.cast_zero, add_zero]; rfl
  | cons es ls ih =>
    rw [List.cons_append, listed, ih, listed, List.cons_append, List.length_cons, Nat.cast_succ,
      add_assoc, add_comm 1]
    rfl

theorem IsLayer.listLayer (h : IsLayer g f off es) (hf : f.size < 2 ^ 63) :
    listLayer f no (superOf g fd off es.length) = .ok (sectionOf g f no off es.length) := by
  have hseg : g.lastSeg es.length < 2 ^ 31 := by
    have h₁ := g.lastSeg_le (k := es.length)
    have h₂ := h.length_le
    have h₃ := g.cap_lt
    omega
  have hnum : u64 (superOf g fd off es.length).activeMetaNum = g.lastSeg es.length :=
    u64_natCast (by omega)
  have hmetas : collect (listMeta f (superOf g fd off es.length)) 0 (g.lastSeg es.length + 1) =
      .ok (sectionOf g f no off es.length).metas := by
    rw [collect_of_ok (F := fun i => if i % 10 = 0 ∨ i = g.lastSeg es.length
      then [(i, (g.fill es.length i : ℤ))] else []) fun i _ hi => ?_]
    · simp only [Nat.zero_add]
      rfl
    · rw [listMeta, i32_of_range (by omega) (by omega), h.readMeta hf superOf_is (by omega), hnum]
      rfl
  have hcounter : f.loadInt (superOf g fd off es.length).activeMeta.pmTop =
      (es.length - g.lastSeg es.length * g.perSeg : ℕ) := by
    rw [← Geometry.fill_lastSeg]
    exact h.counter _ le_rfl
  rw [Pcow.listLayer, hnum, hmetas]
  simp only [Except.map, hcounter]
  rfl

/-- **The loop lists the layers of a chain.** -/
theorem IsChain.listLoop (h : IsChain g f off (es :: ls)) (hf : f.size < 2 ^ 63) {n : ℕ}
    (hn : ls.length < n) :
    listLoop cfg f n no (superOf g fd off es.length) =
      .ok (listed g f (no + 1) off (es :: ls)) := by
  obtain ⟨h, hno⟩ := h
  induction ls generalizing off es n no with
  | nil =>
    obtain ⟨n, rfl⟩ : ∃ m, n = m + 1 := ⟨n - 1, by simp at hn; omega⟩
    rw [Pcow.listLoop, h.1.listLayer hf]
    simp only
    rw [h.1.readNextSuper_none hf superOf_is hno]
    rfl
  | cons es' ls ih =>
    obtain ⟨n, rfl⟩ : ∃ m, n = m + 1 := ⟨n - 1, by simp at hn; omega⟩
    rw [Pcow.listLoop, h.1.listLayer hf]
    simp only
    rw [h.1.readNextSuper hf superOf_is h.2.1]
    have hfd : (superOf g fd off es.length).fd = fd := rfl
    rw [hfd]
    simp only
    rw [ih (by simp at hn; omega) h.2 hno]
    rfl

/-- **`list_snapshots` lists the layers of an image.** -/
theorem IsImage.listSnapshots {fs : Fs} {name : Path} (h : IsImage g f ls es)
    (hf : fs name = some f) :
    listSnapshots cfg fs name = .ok (some (listed g f 1 0 (ls ++ [es]))) := by
  obtain ⟨e, l, hel, hread⟩ := h.readFirstSuper name
  have hchain := h.isChain
  have hlen := hchain.layers.chainEnd_le (by simp)
  rw [hel] at hchain hlen
  rw [List.length_cons] at hlen
  have hloop : listLoop cfg f (f.size + 1) 0 (superOf g name 0 e.length) =
      .ok (listed g f 1 0 (e :: l)) := by
    have hone : (1 : ℤ) = 0 + 1 := (zero_add 1).symm
    conv_rhs => rw [hone]
    exact hchain.listLoop h.size_lt (by omega)
  rw [hel]
  simp only [Pcow.listSnapshots, hf, hread]
  exact congrArg (Except.map some) hloop

/-- The name of the base depends on its page. -/
theorem baseImageName_congr_page (h : ∀ a, off ≤ a → a < off + 4096 → f'.byte a = f.byte a) :
    baseImageName f' off = baseImageName f off := by
  have key : ∀ n ≤ 4080, ((List.range n).map fun i => f'.byte (off + 16 + i)) =
      (List.range n).map fun i => f.byte (off + 16 + i) := by
    intro n hn
    refine List.map_congr_left fun i hi => ?_
    rw [List.mem_range] at hi
    exact h _ (by omega) (by omega)
  unfold baseImageName
  rw [key (4096 - 16) (by norm_num)]

/-- **The listing of layers depends on their bytes.** -/
theorem listed_congr {b : ℕ} (hb : ∀ a < b, f'.byte a = f.byte a) (he : g.chainEnd off ls ≤ b)
    (hpage : 4096 ≤ g.blockSize) : listed g f' no off ls = listed g f no off ls := by
  induction ls generalizing no off with
  | nil => rfl
  | cons es ls ih =>
    have h₁ : g.endOff off es.length ≤ b := le_trans Geometry.le_chainEnd he
    have h₂ := g.add_blockSize_le_endOff off es.length
    have hmagic : ((List.range 4).map fun i => f'.byte (off + 12 + i)) =
        (List.range 4).map fun i => f.byte (off + 12 + i) :=
      List.map_congr_left fun i hi => hb _ (by rw [List.mem_range] at hi; omega)
    have hname : baseImageName f' off = baseImageName f off :=
      baseImageName_congr_page fun a _ ha => hb a (by omega)
    rw [listed, listed, ih he, sectionOf, sectionOf, hmagic, hname]

/-! ### What the listing tells -/

/-- The number of entries a section tells of: those of full meta blocks, as many as the active one
has before it, and those in the active one. The counts of the lines do not add up to it, since not
every meta block has a line. -/
def Section.entries (x : Section) : ℤ := x.activeMetaNum * x.maxPerSeg + x.counter

/-- **The section is in order**: the counter is that of the active meta block, in the file as in the
cache, and the meta blocks before it are full. -/
structure Section.Ordered (x : Section) : Prop where
  counter_nonneg : 0 ≤ x.counter
  counter_le : x.counter ≤ x.maxPerSeg
  pmCounter : x.pmCounter = x.counter
  metas : ∀ (i : ℕ) (c : ℤ), (i, c) ∈ x.metas ↔ (i : ℤ) ≤ x.activeMetaNum ∧
    (i % 10 = 0 ∨ (i : ℤ) = x.activeMetaNum) ∧
    c = if (i : ℤ) = x.activeMetaNum then x.counter else x.maxPerSeg

theorem entries_sectionOf (g : Geometry cfg) (f : ByteFile) (no : ℤ) (off k : ℕ) :
    (sectionOf g f no off k).entries = k := by
  have hle := g.lastSeg_mul_le (k := k)
  rw [Section.entries, sectionOf, ← Nat.cast_mul, ← Nat.cast_add, Nat.add_sub_of_le hle]

theorem ordered_sectionOf (g : Geometry cfg) (f : ByteFile) (no : ℤ) (off k : ℕ) :
    (sectionOf g f no off k).Ordered where
  counter_nonneg := Nat.cast_nonneg _
  counter_le := by
    have hle : g.fill k (g.lastSeg k) ≤ g.perSeg := min_le_left _ _
    rw [Geometry.fill_lastSeg] at hle
    exact Nat.cast_le.mpr hle
  pmCounter := rfl
  metas i c := by
    have hfill : ∀ j ≤ g.lastSeg k, (g.fill k j : ℤ) =
        if (j : ℤ) = g.lastSeg k then ((k - g.lastSeg k * g.perSeg : ℕ) : ℤ) else g.perSeg := by
      intro j hj
      rcases eq_or_lt_of_le hj with rfl | hlt
      · rw [if_pos rfl, Geometry.fill_lastSeg]
      · rw [if_neg (by omega), Geometry.fill_of_lt hlt]
    simp only [sectionOf, List.mem_flatMap, List.mem_range]
    constructor
    · rintro ⟨j, hj, hmem⟩
      split_ifs at hmem with hline
      · obtain ⟨rfl, rfl⟩ := Prod.mk.inj (List.mem_singleton.mp hmem)
        exact ⟨by omega, by omega, hfill i (by omega)⟩
      · cases hmem
    · rintro ⟨hle, hline, rfl⟩
      refine ⟨i, by omega, ?_⟩
      rw [if_pos (by omega), hfill i (by omega)]
      exact List.mem_singleton_self _

/-- The sections are numbered. -/
theorem no_listed : (listed g f no off ls).map Section.no =
    (List.range ls.length).map fun i : ℕ => no + i := by
  induction ls generalizing no off with
  | nil => rfl
  | cons es ls ih =>
    rw [listed, List.map_cons, ih, List.length_cons, List.range_succ_eq_map, List.map_cons,
      List.map_map]
    congr 1
    · exact (add_zero no).symm
    · refine List.map_congr_left fun i _ => ?_
      rw [Function.comp_apply, Nat.cast_succ, add_assoc, add_comm 1]

/-- They are those of the layers. -/
theorem myOff_listed : (listed g f no off ls).map Section.myOff =
    (supersOf g fd off ls).map Super.myOff := by
  induction ls generalizing no off with
  | nil => rfl
  | cons es ls ih => rw [listed, List.map_cons, ih, supersOf, List.map_cons]; rfl

/-- They account for the entries. -/
theorem entries_listed : (listed g f no off ls).map Section.entries =
    ls.map fun es => (es.length : ℤ) := by
  induction ls generalizing no off with
  | nil => rfl
  | cons es ls ih => rw [listed, List.map_cons, ih, entries_sectionOf, List.map_cons]

theorem of_mem_listed {x : Section} (h : x ∈ listed g f no off ls) :
    x.Ordered ∧ x.blockSize = g.blockSize ∧ x.maxBlockNum = g.maxBlockNum := by
  induction ls generalizing no off with
  | nil => cases h
  | cons es ls ih =>
    rcases List.mem_cons.mp h with rfl | h
    · exact ⟨ordered_sectionOf g f no off es.length, rfl, rfl⟩
    · exact ih h

/-- The four characters that make a super block. -/
theorem HasMagic.chars (h : HasMagic f off) :
    (List.range 4).map (fun i => f.byte (off + 12 + i)) = [0x4e, 0x42, 0x4a, 0x4c] := by
  have h₀ := (f.byte (off + 12)).toNat_lt
  have h₁ := (f.byte (off + 12 + 1)).toNat_lt
  have h₂ := (f.byte (off + 12 + 1 + 1)).toNat_lt
  have h₃ := (f.byte (off + 12 + 1 + 1 + 1)).toNat_lt
  rw [HasMagic] at h
  simp only [ByteFile.load, magic] at h
  have e₀ : (f.byte (off + 12)).toNat = 0x4e := by omega
  have e₁ : (f.byte (off + 12 + 1)).toNat = 0x42 := by omega
  have e₂ : (f.byte (off + 12 + 1 + 1)).toNat = 0x4a := by omega
  have e₃ : (f.byte (off + 12 + 1 + 1 + 1)).toNat = 0x4c := by omega
  have hchars : [f.byte (off + 12), f.byte (off + 12 + 1), f.byte (off + 12 + 1 + 1),
      f.byte (off + 12 + 1 + 1 + 1)] = [0x4e, 0x42, 0x4a, 0x4c] := by
    rw [UInt8.toNat.inj (b := 0x4e) e₀, UInt8.toNat.inj (b := 0x42) e₁,
      UInt8.toNat.inj (b := 0x4a) e₂, UInt8.toNat.inj (b := 0x4c) e₃]
  exact hchars

theorem IsLayers.magic_listed (h : IsLayers g f off ls) {x : Section}
    (hx : x ∈ listed g f no off ls) :
    x.magic = [0x4e, 0x42, 0x4a, 0x4c] := by
  induction ls generalizing no off with
  | nil => cases hx
  | cons es ls ih =>
    rcases List.mem_cons.mp hx with rfl | hx
    · exact h.1.magic.chars
    · exact ih h.2 hx

/-! ### The listings of a system -/

variable {W W' : World} {sh : Shelf} {p : Path}

theorem listSnapshots_of_empty (h : W.file p = .empty) : listSnapshots cfg W.fs p = .ok none := by
  rw [World.file] at h
  rw [listSnapshots]
  rcases hf : W.fs p with _ | f
  · rfl
  · rw [hf, Option.getD_some] at h
    simp only [h, readFirstSuper_empty]

/-- A call on an image that is not there changes nothing. -/
theorem onImage_of_empty (body : ByteFile → Except Fault (ByteFile × ℤ)) (h : W.file p = .empty)
    (hbody : body .empty = .ok (.empty, -1)) : onImage W.fs p body = .ok (W.fs, -1) := by
  rw [World.file] at h
  rw [onImage]
  rcases hf : W.fs p with _ | f
  · rfl
  · rw [hf, Option.getD_some] at h
    simp only [h, hbody, Except.map]
    rw [← h, ← hf, Function.update_eq_self]

theorem IsImage.listSnapshots_file {fs : Fs} {name : Path}
    (h : IsImage g ((fs name).getD .empty) ls es) :
    Pcow.listSnapshots cfg fs name =
      .ok (some (listed g ((fs name).getD .empty) 1 0 (ls ++ [es]))) := by
  obtain ⟨f, hf⟩ := h.exists_file
  rw [hf, Option.getD_some] at h ⊢
  exact h.listSnapshots hf

/-- A volume has a section for each layer. -/
theorem Stands.exists_listing {w : Volume} (h : Stands cfg W sh p) (hw : sh.volumes p = some w) :
    ∃ L, listSnapshots cfg W.fs p = .ok (some L) ∧ L.length = w.layers.length := by
  cases h with
  | missing hses hopen hnone => rw [hnone] at hw; cases hw
  | closed hses hopen hw' hvolume =>
    obtain rfl := Option.some.inj (hw.symm.trans hw')
    refine ⟨_, hvolume.image.listSnapshots_file, ?_⟩
    rw [hvolume.layers, length_listed, length_chainLayers]
  | opened hses hopen hw' hvolume hbase =>
    obtain rfl := Option.some.inj (hw.symm.trans hw')
    have himage := hvolume.inv.core.image
    rw [Session.file, hvolume.fd] at himage
    refine ⟨_, himage.listSnapshots_file, ?_⟩
    rw [Volume.layers, hvolume.frozen, List.length_append, length_chainLayers, length_listed,
      List.length_append, List.length_singleton, List.length_singleton]

/-- **The listing accounts for all entries.** Of every file in a system, whatever tenants have done
to it and whether it is open or not, `list_snapshots` fails if there are no layers to be read.
Otherwise it prints a section for each layer that can be read, in their order and with their
offsets. They are numbered from 1, `active_meta_num * max_per_seg + counter` is the number of
entries of the layer, and the first one has the name of the base that `fmmap` goes by. -/
theorem info_accounts (cfg : Config) (W : World) (p : Path) (hW : W.Reachable cfg) :
    (listSnapshots cfg W.fs p = .ok none ∧ readBack cfg (W.file p) p = .ok []) ∨
    ∃ L R, listSnapshots cfg W.fs p = .ok (some L) ∧ readBack cfg (W.file p) p = .ok R ∧
      L.map Section.no = (List.range R.length).map (fun i : ℕ => 1 + (i : ℤ)) ∧
      L.map Section.myOff = R.map (fun y => y.1.myOff) ∧
      L.map Section.entries = R.map (fun y => (y.2.length : ℤ)) ∧
      (∀ x ∈ L, x.Ordered ∧ x.magic = [0x4e, 0x42, 0x4a, 0x4c] ∧
        x.blockSize = (W.file p).loadInt 0) ∧
      L.head?.map Section.backing = some (W.baseOf p) := by
  obtain ⟨sh, hsh⟩ := hW.shelved
  rcases (hsh p).image with hempty | ⟨g, ls, es, himage, -⟩
  · refine Or.inl ⟨listSnapshots_of_empty hempty, ?_⟩
    rw [readBack, supers, hempty, readFirstSuper_empty]
    rfl
  have hlist := himage.listSnapshots_file
  have hread := himage.isChain.readBack (List.concat_ne_nil es ls) himage.size_lt p
  obtain ⟨e, l, hel⟩ := List.exists_cons_of_ne_nil (List.concat_ne_nil es ls)
  have hlen : (supersOf g p 0 (ls ++ [es])).length = (ls ++ [es]).length := length_supersOf
  refine Or.inr ⟨_, _, hlist, hread, ?_, ?_, ?_, fun x hx => ?_, ?_⟩
  · rw [no_listed, List.length_zip, hlen, min_self]
  · have hmap := congrArg (List.map Super.myOff) (List.map_fst_zip hlen.le)
    rw [List.map_map] at hmap
    rw [myOff_listed, ← hmap]
    rfl
  · have hmap := congrArg (List.map fun es => (es.length : ℤ)) (List.map_snd_zip hlen.ge)
    rw [List.map_map] at hmap
    rw [entries_listed, ← hmap]
    rfl
  · have hlayers := himage.isChain.layers
    have hmagic := hlayers.magic_listed hx
    rw [hel] at hlayers
    exact ⟨(of_mem_listed hx).1, hmagic, (of_mem_listed hx).2.1.trans hlayers.1.blockSize.symm⟩
  · rw [hel]
    rfl

/-- A clone is listed with the name of its base. -/
theorem info_accounts_clone : ∃ (W : World) (L : List Section), W.Reachable .shipped ∧
    listSnapshots .shipped W.fs [2] = .ok (some L) ∧ L.length = 1 ∧
      L.head?.map Section.backing = some [1] := by
  have h₀ : Shelved .shipped .init .init := shelved_init
  obtain ⟨W₁, ha₁, hr₁, h₁⟩ := h₀.exists_created [1] none
    (h₀.free_of_closed (fun _ => rfl) _) rfl (by simp)
  obtain ⟨W₂, ha₂, hr₂, h₂⟩ := h₁.exists_created [2] (some .one)
    (h₁.free_of_closed (fun _ => rfl) _) rfl (by decide)
  have hW := (World.reachable_init.next ha₁ hr₁).next ha₂ hr₂
  obtain ⟨L, hlist, hlen⟩ := (h₂ [2]).exists_listing rfl
  have hbase : W₂.baseOf [2] = [1] := ((h₂ [2]).base_eq rfl).symm
  rcases info_accounts .shipped W₂ [2] hW with ⟨hnone, -⟩ | ⟨L', R, hlist', -, -, -, -, -, hbacking⟩
  · rw [hlist] at hnone
    cases hnone
  · rw [hlist] at hlist'
    cases hlist'
    exact ⟨W₂, L, hW, hlist, hlen, hbacking.trans (congrArg some hbase)⟩

/-! ### Rolling back -/

theorem main_rollback {fs : Fs} {prog option name no : CString}
    (hoption : option.chars = literal "rollback") {l : Option (List Section)} {x : Fs × ℤ}
    (hl : listSnapshots cfg fs name.chars = .ok l)
    (hx : rollbackSnapshot cfg fs name.chars (atoi no) = .ok x) :
    main cfg fs [prog, option, name, no] =
      (listSnapshots cfg x.1 name.chars).map fun after => (x.1, [l, after]) := by
  rw [main, hoption, if_neg (by decide), if_neg (by decide), if_neg (by decide), if_neg (by decide),
    if_neg (by decide), if_pos rfl]
  simp only [hl, hx]

/-- A file that is cut after one of its layers is listed up to it. -/
theorem listed_truncate (hpage : 4096 ≤ g.blockSize) {k : ℕ} (hk : k ≤ (ls ++ [es]).length) :
    listed g (f.truncate (g.chainEnd 0 ((ls ++ [es]).take k))) 1 0 ((ls ++ [es]).take k) =
      (listed g f 1 0 (ls ++ [es])).take k := by
  have hlen : (listed g f 1 0 ((ls ++ [es]).take k)).length = k := by
    rw [length_listed, List.length_take, min_eq_left hk]
  have hsplit : listed g f 1 0 ((ls ++ [es]).take k ++ (ls ++ [es]).drop k) = _ := listed_append
  rw [List.take_append_drop] at hsplit
  rw [hsplit, List.take_append_of_le_length hlen.ge, List.take_of_length_le hlen.le]
  refine listed_congr (fun a ha => ?_) le_rfl hpage
  rw [ByteFile.byte_truncate, if_pos ha]

/-- **An image that is rolled back is listed up to the number**, if it has a layer of that
number. -/
theorem IsImage.rollback_listed {fs : Fs} (h : IsImage g f ls es) (hf : fs p = some f)
    (hpage : 4096 ≤ g.blockSize) (no : ℤ) :
    ∃ fs', rollbackSnapshot cfg fs p no = .ok (fs', 0) ∧ Pcow.listSnapshots cfg fs' p =
      .ok (some (if 1 ≤ no ∧ no ≤ (listed g f 1 0 (ls ++ [es])).length
        then (listed g f 1 0 (ls ++ [es])).take no.toNat else listed g f 1 0 (ls ++ [es]))) := by
  have hlen : ((listed g f 1 0 (ls ++ [es])).length : ℤ) = ls.length + 1 := by
    rw [length_listed, List.length_append, List.length_singleton, Nat.cast_succ]
  rw [rollbackSnapshot, onImage, hf, hlen]
  simp only [h.rollbackFile]
  refine ⟨_, rfl, ?_⟩
  by_cases hno : 1 ≤ no ∧ no ≤ ls.length + 1
  swap
  · rw [if_neg hno, if_neg hno]
    exact h.listSnapshots (Function.update_self _ _ _)
  rw [if_pos hno, if_pos hno]
  obtain ⟨k, rfl⟩ : ∃ k : ℕ, no = (k + 1 : ℕ) := ⟨(no - 1).toNat, by omega⟩
  have hlt : k < (ls ++ [es]).length := by
    rw [List.length_append, List.length_singleton]
    omega
  have htake : (ls ++ [es]).take k ++ [(ls ++ [es])[k]] = (ls ++ [es]).take (k + 1) :=
    List.take_append_getElem hlt
  have himage := h.truncate (htake.symm ▸ List.take_prefix (k + 1) (ls ++ [es]))
  rw [htake] at himage
  rw [Int.toNat_natCast, himage.listSnapshots (Function.update_self _ _ _), htake,
    listed_truncate hpage hlt]

/-- **The listings of a rollback.** In a system the tool lists an image, rolls it back and lists it
again: the second listing is the first one up to the number it is given, with everything it tells of
these layers, and the same one if there is no such layer. Where there is no image, it fails to list
it twice and leaves every file as it is. -/
theorem rollback_listings (cfg : Config) (W : World) (prog option name no : CString)
    (hW : W.Reachable cfg) (hoption : option.chars = literal "rollback") :
    (listSnapshots cfg W.fs name.chars = .ok none ∧
      main cfg W.fs [prog, option, name, no] = .ok (W.fs, [none, none])) ∨
    ∃ fs' L, listSnapshots cfg W.fs name.chars = .ok (some L) ∧
      main cfg W.fs [prog, option, name, no] = .ok (fs', [some L,
        some (if 1 ≤ atoi no ∧ atoi no ≤ L.length then L.take (atoi no).toNat else L)]) := by
  obtain ⟨sh, hsh⟩ := hW.shelved
  rcases (hsh name.chars).image with hempty | ⟨g, ls, es, himage, hdvd⟩
  · have hlist : listSnapshots cfg W.fs name.chars = .ok none := listSnapshots_of_empty hempty
    have hbody : rollbackFile cfg .empty name.chars (atoi no) = .ok (.empty, -1) := by
      rw [rollbackFile, readFirstSuper_empty]
    have hroll := onImage_of_empty (fun f => rollbackFile cfg f name.chars (atoi no)) hempty hbody
    refine Or.inl ⟨hlist, ?_⟩
    rw [main_rollback hoption hlist hroll, hlist]
    rfl
  · have hpage : 4096 ≤ g.blockSize := Nat.le_of_dvd g.blockSize_pos hdvd
    have hlist := himage.listSnapshots_file
    obtain ⟨f, hf⟩ := himage.exists_file
    rw [World.file, hf, Option.getD_some] at himage
    rw [hf, Option.getD_some] at hlist
    obtain ⟨fs', hroll, hlist'⟩ := himage.rollback_listed hf hpage (atoi no)
    refine Or.inr ⟨fs', _, hlist, ?_⟩
    rw [main_rollback hoption hlist hroll, hlist']
    rfl

/-- No character of a literal is the terminating one. -/
theorem literal_ne_zero {s : String} (h : (literal s).all (· ≠ 0) = true) {c : UInt8}
    (hc : c ∈ literal s) : c ≠ 0 :=
  of_decide_eq_true (List.all_eq_true.mp h c hc)

theorem CString.digit_ne_zero (c : UInt8) (hc : c ∈ literal "1") : c ≠ 0 :=
  literal_ne_zero (by decide) hc

theorem CString.rollback_ne_zero (c : UInt8) (hc : c ∈ literal "rollback") : c ≠ 0 :=
  literal_ne_zero (by decide) hc

/-- An image with a snapshot is rolled back to it. -/
theorem rollback_listings_first : ∃ (W : World) (option no : CString) (fs' : Fs) (L : List Section),
    option.chars = literal "rollback" ∧ no.chars = literal "1" ∧ L.length = 2 ∧
      main .shipped W.fs [option, option, .one, no] = .ok (fs', [some L, some (L.take 1)]) := by
  have h₀ : Shelved .shipped .init .init := shelved_init
  obtain ⟨W₁, ha₁, hr₁, h₁⟩ := h₀.exists_created [1] none
    (h₀.free_of_closed (fun _ => rfl) _) rfl (by simp)
  have hfree : W₁.Admits .shipped (.snapshot [1]) := h₁.free_of_closed (fun _ => rfl) _
  obtain ⟨W₂, hr₂, h₂⟩ := h₁.exists_frozen [1] hfree rfl Volume.fresh_new
  have hW := (World.reachable_init.next ha₁ hr₁).next hfree hr₂
  obtain ⟨L, hlist, hlen⟩ := (h₂ [1]).exists_listing rfl
  have hlen' : L.length = 2 := hlen
  let option : CString := ⟨literal "rollback", fun _ => 0, CString.rollback_ne_zero⟩
  let no : CString := ⟨literal "1", fun _ => 0, CString.digit_ne_zero⟩
  rcases rollback_listings .shipped W₂ option option .one no hW rfl with
    ⟨hnone, -⟩ | ⟨fs', L', hlist', hmain⟩
  · have hnone' : listSnapshots .shipped W₂.fs [1] = .ok none := hnone
    rw [hlist] at hnone'
    cases hnone'
  · have hlist'' : listSnapshots .shipped W₂.fs [1] = .ok (some L') := hlist'
    rw [hlist] at hlist''
    cases hlist''
    have hno : atoi no = 1 := by decide
    rw [hno, hlen', if_pos (by decide)] at hmain
    exact ⟨W₂, option, no, fs', L, rfl, rfl, hlen', hmain⟩

/-! ### Freezing -/

theorem main_snapshot {fs : Fs} {prog option name : CString}
    (hoption : option.chars = literal "snapshot") :
    main cfg fs [prog, option, name] = call (snapshot cfg fs name.chars) := by
  rw [main, hoption, if_neg (by decide), if_neg (by decide), if_neg (by decide), if_neg (by decide),
    if_pos rfl]

/-- Past the end of a layer an append does not store to where a super block would have the name of
its base. -/
theorem AppendByte.not_name {k a : ℕ} (h : AppendByte g off k a) (ha : g.endOff off k ≤ a) :
    a < g.endOff off k + 8 ∨ g.endOff off k + 64 ≤ a := by
  have hbs := g.entry_le
  have hmem := g.slot_mem off k
  have hlast := g.blockAt_add_le off (g.metaBlock_lt (le_refl (g.lastSeg k)))
  have hend : g.endOff off k = g.blockAt off (g.blocks k) := rfl
  have hle := g.add_blockSize_le_endOff off k
  rcases h with ⟨h₁, h₂⟩ | ⟨-, h₁, h₂⟩ | ⟨hfull, h | ⟨h₁, h₂⟩⟩
  · rcases Nat.lt_or_ge (k - g.lastSeg k * g.perSeg) g.perSeg with hlt | hge
    · rw [(g.lastSeg_succ_of_lt hlt).2.1] at hmem
      omega
    · have hslot := g.slot_of_full off (le_antisymm g.counter_le hge)
      omega
  · omega
  · omega
  · omega

/-- **A new layer has no name of a base.** -/
theorem IsImage.baseImageName_snapshot (h : IsImage g f ls es) {x : ByteFile × ℤ}
    (hr : Pcow.snapshotFile cfg f fd = .ok x) :
    baseImageName x.1 (g.chainEnd 0 (ls ++ [es])) = [] := by
  obtain ⟨e, l, -, hfirst⟩ := h.readFirstSuper fd
  rw [Pcow.snapshotFile, hfirst] at hr
  simp only at hr
  obtain ⟨y, hnew, rfl⟩ := map_eq_ok hr
  rw [Pcow.newSuper, h.readLastSuper fd] at hnew
  simp only [h.last.endOff h.size_lt superOf_is] at hnew
  split at hnew
  · cases hnew
  rename_i hok
  split at hnew
  · cases hnew
  obtain ⟨s, -, rfl⟩ := map_eq_ok hnew
  obtain ⟨hbs, hoff⟩ := Geometry.blockSize_lt_of_fallocateOk (g := g) (not_not.mp hok)
  have hent := g.entry_le
  rw [g.chainEnd_concat]
  refine baseImageName_eq_nil ?_
  refine (FileOp.byte_run_of_not_touches fun o ho ht => ?_).trans
    (h.tail _ (by omega) fun happ => ?_)
  · have := touches_newSuperOps (by omega) ho ht
    omega
  · have := happ.not_name (by omega)
    omega

/-- **The listing after a snapshot.** In a system the tool freezes an image: what is listed before
stays as it was, and one section is added. It has the next number and no entries, and no name of a
base, which stands in the first one only. -/
theorem snapshot_listings (cfg : Config) (W : World) (prog option name : CString) (fs' : Fs)
    (out : Listings) (hW : W.Reachable cfg) (hoption : option.chars = literal "snapshot")
    (hr : main cfg W.fs [prog, option, name] = .ok (fs', out)) :
    (listSnapshots cfg W.fs name.chars = .ok none ∧ listSnapshots cfg fs' name.chars = .ok none) ∨
    ∃ L x, listSnapshots cfg W.fs name.chars = .ok (some L) ∧
      listSnapshots cfg fs' name.chars = .ok (some (L ++ [x])) ∧
      x.no = (L.length : ℤ) + 1 ∧ x.metas = [(0, 0)] ∧ x.entries = 0 ∧ x.backing = [] := by
  rw [main_snapshot hoption, call] at hr
  obtain ⟨⟨fs₁, rc⟩, hsnapshot, hout⟩ := map_eq_ok hr
  cases hout
  obtain ⟨sh, hsh⟩ := hW.shelved
  rcases (hsh name.chars).image with hempty | ⟨g, ls, es, himage, hdvd⟩
  · have hbody : snapshotFile cfg .empty name.chars = .ok (.empty, -1) := by
      rw [snapshotFile, readFirstSuper_empty]
    have hcall := onImage_of_empty (fun f => snapshotFile cfg f name.chars) hempty hbody
    rw [snapshot, hcall] at hsnapshot
    cases hsnapshot
    exact Or.inl ⟨listSnapshots_of_empty hempty, listSnapshots_of_empty hempty⟩
  have hpage : 4096 ≤ g.blockSize := Nat.le_of_dvd g.blockSize_pos hdvd
  have hlist := himage.listSnapshots_file
  obtain ⟨f, hf⟩ := himage.exists_file
  rw [World.file, hf, Option.getD_some] at himage
  rw [hf, Option.getD_some] at hlist
  rw [snapshot, onImage, hf] at hsnapshot
  obtain ⟨y, hy, hfs⟩ := map_eq_ok hsnapshot
  cases hfs
  obtain ⟨-, himage', hbytes⟩ := himage.snapshotFile hy
  have hlist' := himage'.listSnapshots (Function.update_self name.chars _ W.fs)
  rw [listed_append, listed_congr hbytes le_rfl hpage] at hlist'
  refine Or.inr ⟨_, _, hlist, hlist', ?_, ?_, entries_sectionOf g y.1 _ _ 0,
    himage.baseImageName_snapshot hy⟩
  · rw [length_listed, add_comm]
    rfl
  · simp [sectionOf, Geometry.fill]

theorem CString.snapshot_ne_zero (c : UInt8) (hc : c ∈ literal "snapshot") : c ≠ 0 :=
  literal_ne_zero (by decide) hc

/-- A new image is frozen. -/
theorem snapshot_listings_new : ∃ (W : World) (option : CString) (fs' : Fs) (L : List Section)
    (x : Section), option.chars = literal "snapshot" ∧
      main .shipped W.fs [option, option, .one] = .ok (fs', []) ∧
      listSnapshots .shipped W.fs [1] = .ok (some L) ∧
      listSnapshots .shipped fs' [1] = .ok (some (L ++ [x])) ∧ x.no = 2 := by
  have h₀ : Shelved .shipped .init .init := shelved_init
  obtain ⟨W₁, ha₁, hr₁, h₁⟩ := h₀.exists_created [1] none
    (h₀.free_of_closed (fun _ => rfl) _) rfl (by simp)
  obtain ⟨W₂, hr₂, h₂⟩ :=
    h₁.exists_frozen [1] (h₁.free_of_closed (fun _ => rfl) _) rfl Volume.fresh_new
  have hW := World.reachable_init.next ha₁ hr₁
  obtain ⟨L, hlist, hlen⟩ := (h₁ [1]).exists_listing rfl
  have hlen' : L.length = 1 := hlen
  obtain ⟨y, hy, hW₂⟩ := map_eq_ok hr₂
  let option : CString := ⟨literal "snapshot", fun _ => 0, CString.snapshot_ne_zero⟩
  have hmain : main .shipped W₁.fs [option, option, .one] = .ok (y.1, []) := by
    have hcall : main .shipped W₁.fs [option, option, .one] = call (snapshot .shipped W₁.fs [1]) :=
      main_snapshot rfl
    rw [hcall, hy]
    rfl
  rcases snapshot_listings .shipped W₁ option option .one y.1 [] hW rfl hmain with
    ⟨hnone, -⟩ | ⟨L', x, hlist', hafter, hno, -⟩
  · have hnone' : listSnapshots .shipped W₁.fs [1] = .ok none := hnone
    rw [hlist] at hnone'
    cases hnone'
  · have hlist'' : listSnapshots .shipped W₁.fs [1] = .ok (some L') := hlist'
    rw [hlist] at hlist''
    cases hlist''
    rw [hlen'] at hno
    exact ⟨W₁, option, y.1, L, x, rfl, hmain, hlist, hafter, hno⟩

/-! ### A run of the tool -/

/-- A call that returns, as a step of the system. -/
theorem map_call {x : Except Fault (Fs × ℤ)} {fs' : Fs} {out : Listings}
    (h : call x = .ok (fs', out)) :
    ∃ r, x.map (fun x => ({ W with fs := x.1 }, Answer.returned x.2)) =
      .ok ({ W with fs := fs' }, r) := by
  obtain ⟨y, rfl, hout⟩ := map_eq_ok h
  cases hout
  exact ⟨_, rfl⟩

/-- **A run of the tool does what its command line asks for**, and nothing else to the files. -/
theorem main_command {args : List CString} {fs' : Fs} {out : Listings}
    (hr : main cfg W.fs args = .ok (fs', out)) :
    match command args with
    | none => fs' = W.fs
    | some op => ∃ r, W.step cfg op = .ok ({ W with fs := fs' }, r) := by
  rcases args with _ | ⟨prog, _ | ⟨option, args⟩⟩
  · cases hr
    rfl
  · cases hr
    rfl
  unfold main at hr
  unfold command
  simp only at hr ⊢
  split_ifs at hr with hhelp hcreate hinfo hrebase hsnapshot hrollback
  · cases hr
    simp [hhelp, literal]
  · rw [if_pos hcreate]
    split at hr
    · exact map_call hr
    · exact map_call hr
    · cases hr
      split <;> simp_all
  · have hfs : fs' = W.fs := by
      split at hr
      · obtain ⟨l, -, hout⟩ := map_eq_ok hr
        cases hout
        rfl
      · cases hr
        rfl
    simp [hinfo, literal, hfs]
  · rw [if_neg hcreate, if_pos hrebase]
    split at hr
    · exact map_call hr
    · cases hr
      split <;> simp_all
  · rw [if_neg hcreate, if_neg hrebase, if_pos hsnapshot]
    split at hr
    · exact map_call hr
    · cases hr
      split <;> simp_all
  · rw [if_neg hcreate, if_neg hrebase, if_neg hsnapshot, if_pos hrollback]
    split at hr
    · rename_i name no
      simp only
      split at hr
      · cases hr
      · split at hr
        · cases hr
        · rename_i hroll
          obtain ⟨l, -, hout⟩ := map_eq_ok hr
          cases hout
          rw [World.step, hroll]
          exact ⟨_, rfl⟩
    · cases hr
      split <;> simp_all
  · rw [if_neg hcreate, if_neg hrebase, if_neg hsnapshot, if_neg hrollback]
    cases hr
    rfl

/-- Every file of a system can be listed. -/
theorem Shelved.exists_listSnapshots (h : Shelved cfg W sh) (p : Path) :
    ∃ l, listSnapshots cfg W.fs p = .ok l := by
  rcases (h p).image with hempty | ⟨g, ls, es, himage, -⟩
  · exact ⟨_, listSnapshots_of_empty hempty⟩
  · exact ⟨_, himage.listSnapshots_file⟩

theorem exists_call {x : Except Fault (Fs × ℤ)} {y : World × Answer}
    (h : x.map (fun x => ({ W with fs := x.1 }, Answer.returned x.2)) = .ok y) :
    ∃ z, call x = .ok z := by
  obtain ⟨y, rfl, -⟩ := map_eq_ok h
  exact ⟨_, rfl⟩

theorem Shelved.exists_main (h : Shelved cfg W sh) {args : List CString}
    (hcommand : ∀ op, command args = some op → W.Admits cfg op ∧ W.Ready false cfg op) :
    ∃ z, main cfg W.fs args = .ok z := by
  have hstep : ∀ op, command args = some op → ∃ W' r, W.step cfg op = .ok (W', r) ∧
      ∃ sh', Shelved cfg W' sh' := by
    intro op hop
    obtain ⟨W', r, sh', hr, -, hsh'⟩ := h.exists_next (hcommand op hop).1 (hcommand op hop).2
    exact ⟨W', r, hr, sh', hsh'⟩
  rcases args with _ | ⟨prog, _ | ⟨option, args⟩⟩
  · exact ⟨_, rfl⟩
  · exact ⟨_, rfl⟩
  unfold main
  unfold command at hstep
  simp only at hstep ⊢
  split_ifs with hhelp hcreate hinfo hrebase hsnapshot hrollback
  · exact ⟨_, rfl⟩
  · rw [if_pos hcreate] at hstep
    split
    · obtain ⟨W', r, hr, -⟩ := hstep _ rfl
      exact exists_call hr
    · obtain ⟨W', r, hr, -⟩ := hstep _ rfl
      exact exists_call hr
    · exact ⟨_, rfl⟩
  · split
    · rename_i name
      obtain ⟨l, hl⟩ := h.exists_listSnapshots name.chars
      rw [hl]
      exact ⟨_, rfl⟩
    · exact ⟨_, rfl⟩
  · rw [if_neg hcreate, if_pos hrebase] at hstep
    split
    · obtain ⟨W', r, hr, -⟩ := hstep _ rfl
      exact exists_call hr
    · exact ⟨_, rfl⟩
  · rw [if_neg hcreate, if_neg hrebase, if_pos hsnapshot] at hstep
    split
    · obtain ⟨W', r, hr, -⟩ := hstep _ rfl
      exact exists_call hr
    · exact ⟨_, rfl⟩
  · rw [if_neg hcreate, if_neg hrebase, if_neg hsnapshot, if_pos hrollback] at hstep
    split
    · rename_i name no
      obtain ⟨W', r, hr, sh', hsh'⟩ := hstep _ rfl
      obtain ⟨y, hy, hW'⟩ := map_eq_ok hr
      cases hW'
      obtain ⟨l, hl⟩ := h.exists_listSnapshots name.chars
      obtain ⟨l', hl'⟩ := hsh'.exists_listSnapshots name.chars
      simp only [hl, hy]
      rw [hl']
      exact ⟨_, rfl⟩
    · exact ⟨_, rfl⟩
  · exact ⟨_, rfl⟩

/-- **Every run of the tool is a step of the system.** In a state that is reached by using images as
they are to be, the tool returns for every command line that asks for nothing or for an operation
that is ready, it does to the files what that operation does, or nothing, and what comes of it is
such a state again. -/
theorem tool_runs (cfg : Config) (W : World) (args : List CString) (hW : W.Reachable cfg)
    (hargs : ∀ op, command args = some op → W.Admits cfg op ∧ W.Ready false cfg op) :
    ∃ fs' out, main cfg W.fs args = .ok (fs', out) ∧ World.Reachable cfg { W with fs := fs' } ∧
      match command args with
      | none => fs' = W.fs
      | some op => ∃ r, W.step cfg op = .ok ({ W with fs := fs' }, r) := by
  obtain ⟨sh, hsh⟩ := hW.shelved
  obtain ⟨z, hz⟩ := hsh.exists_main hargs
  have hstep := main_command hz
  refine ⟨z.1, z.2, hz, ?_, hstep⟩
  rcases hop : command args with _ | op
  · rw [hop] at hstep
    rw [show z.1 = W.fs from hstep]
    exact hW
  · rw [hop] at hstep
    obtain ⟨r, hr⟩ := hstep
    exact hW.next (hargs op hop).1 hr

theorem CString.create_ne_zero (c : UInt8) (hc : c ∈ literal "create") : c ≠ 0 :=
  literal_ne_zero (by decide) hc

theorem CString.four_ne_zero (c : UInt8) (hc : c ∈ literal "4") : c ≠ 0 :=
  literal_ne_zero (by decide) hc

/-- The tool makes an image, with blocks of 4 KiB. -/
theorem tool_runs_create : ∃ (option four : CString) (fs' : Fs) (out : Listings),
    option.chars = literal "create" ∧ four.chars = literal "4" ∧
      main .shipped World.init.fs [option, option, four, four, .one] = .ok (fs', out) ∧
      World.Reachable .shipped ⟨fs', World.init.sessions⟩ := by
  let option : CString := ⟨literal "create", fun _ => 0, CString.create_ne_zero⟩
  let four : CString := ⟨literal "4", fun _ => 0, CString.four_ne_zero⟩
  have hfour : atoi four = 4 := by decide
  have hcommand : command [option, option, four, four, .one] =
      some (.newImage [1] (atoi four) (u64 (atoi four)) none) := by
    rw [command, if_pos rfl]
    rfl
  have hok : BlockSizeOk 4 := ⟨1, by decide, by decide, rfl⟩
  have h₀ : Shelved .shipped .init .init := shelved_init
  obtain ⟨fs', out, hmain, hreach, -⟩ := tool_runs .shipped .init [option, option, four, four, .one]
    World.reachable_init (by
      intro op hop
      rw [hcommand, hfour] at hop
      cases hop
      constructor
      · exact ⟨h₀.free_of_closed (fun _ => rfl) _, by simp⟩
      · exact Or.inr hok)
  exact ⟨option, four, fs', out, rfl, rfl, hmain, hreach⟩

end Pcow
