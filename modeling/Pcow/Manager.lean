import Pcow.Image
import Pcow.Mapping

/-!
# Managing images

The functions of `manager.c`: an image is created by `new_image`, linked to a base
by `new_image` or `update_base_image`, frozen by `snapshot` and cut back by
`rollback_snapshot`. Each opens the image by its name; the files of the system are
a function from names to contents (`Fs`).

The name of the base is copied into the super block, 48 bytes of it whatever its
length; `CString` is the argument, with the memory behind its terminator, and
`baseImageName` the name as `strlen` delimits it when it is read back.
-/

namespace Pcow

variable {cfg : Config} {g : Geometry cfg} {f f' : ByteFile} {fd : Path} {off : ℕ}
  {es : List ℕ} {ls : List (List ℕ)}

/-- The files of the system: `none` where there is no file. -/
abbrev Fs := Path → Option ByteFile

/-- A string handed to a function: its characters, none of them zero, and what
stands in memory after the terminator. -/
structure CString where
  /-- The characters before the terminator. -/
  chars : Path
  /-- The bytes after the terminator. -/
  rest : ℕ → UInt8
  /-- The terminator is the first zero. -/
  ne_zero : ∀ c ∈ chars, c ≠ 0

/-- The byte at an offset from the pointer. -/
def CString.byte (c : CString) (i : ℕ) : UInt8 :=
  if i < c.chars.length then c.chars.getD i 0
  else if i = c.chars.length then 0 else c.rest (i - c.chars.length - 1)

/-- The name of the base in the super block at `off`, up to the first zero byte of
its page. -/
@[irreducible] def baseImageName (f : ByteFile) (off : ℕ) : Path :=
  ((List.range (4096 - 16)).map fun i => f.byte (off + 16 + i)).takeWhile (· ≠ 0)

/-- The stores of `memcpy(s->pm_super->base_image_name, base_image_name, 48)`. -/
def baseNameOps (off : ℕ) (base : CString) : List FileOp :=
  FileOp.memcpy (off + 16) 48 base.byte

/-- The stores of `new_image` to the name of the base. -/
def newNameOps (off : ℕ) : Option CString → List FileOp
  | some b => baseNameOps off b
  | none => [.store (off + 16) 1 0]

/-- The look `new_image` takes at the base. A base that is missing or not formatted
only causes a message. -/
def checkBase (cfg : Config) (fs : Fs) : Option CString → Except Fault (Option Super)
  | none => .ok none
  | some b => match fs b.chars with
    | none => .ok none
    | some fb => readFirstSuper cfg fb b.chars 0

/-- `new_image`: the block size is in KB, the maximal size in GB. -/
def newImage (cfg : Config) (fs : Fs) (newImageName : Path) (blockSize : ℤ) (maxSize : ℕ)
    (base : Option CString) : Except Fault (Fs × ℤ) :=
  let f := (fs newImageName).getD .empty
  let fs := Function.update fs newImageName (some f)
  match readFirstSuper cfg f newImageName 0 with
  | .error e => .error e
  | .ok (some _) => .ok (fs, -1)
  | .ok none =>
    match checkBase cfg fs base with
    | .error e => .error e
    | .ok _ =>
      if blockSize = 0 then .error .sigfpe
      else
        match newSuper cfg f newImageName (i32 (blockSize * 1024))
            (i32 (u64 (maxSize * 1024 * 1024) / u64 blockSize : ℕ)) with
        | .error e => .error e
        | .ok (_, none) => .error .sigsegv
        | .ok (ops, some s) =>
          .ok (Function.update fs newImageName (some (FileOp.run
            (ops ++ newNameOps s.myOff base ++ [.flush (s.myOff + 16), .fence]) f)), 0)

/-- `update_base_image`. -/
def updateBaseImage (cfg : Config) (fs : Fs) (imageName : Path) (base : CString) :
    Except Fault (Fs × ℤ) :=
  match fs imageName with
  | none => .ok (fs, -1)
  | some f =>
    match readFirstSuper cfg f imageName 0 with
    | .error e => .error e
    | .ok none => .ok (fs, -1)
    | .ok (some s) =>
      .ok (Function.update fs imageName (some (FileOp.run
        (baseNameOps s.myOff base ++ [.flush (s.myOff + 16), .fence]) f)), 0)

/-- `snapshot`, on the file of the image. -/
def snapshotFile (cfg : Config) (f : ByteFile) (imageName : Path) :
    Except Fault (ByteFile × ℤ) :=
  match readFirstSuper cfg f imageName 0 with
  | .error e => .error e
  | .ok none => .ok (f, -1)
  | .ok (some s) =>
    (newSuper cfg f imageName s.blockSize s.maxBlockNum).map fun x => (FileOp.run x.1 f, 0)

/-- The loop of `rollback_snapshot`. It goes on walking after it has cut the
file. -/
def rollbackLoop (cfg : Config) (snapshotNo : ℤ) : ℕ → ℤ → ByteFile → Super →
    Except Fault ByteFile
  | 0, _, _, _ => .error .endless
  | n + 1, counter, f, s =>
    let f' := if counter + 1 = snapshotNo then f.truncate (s.endOff f) else f
    match readNextSuper cfg f' s with
    | .error e => .error e
    | .ok none => .ok f'
    | .ok (some t) => rollbackLoop cfg snapshotNo n (counter + 1) f' t

/-- `rollback_snapshot`, on the file of the image. -/
def rollbackFile (cfg : Config) (f : ByteFile) (imageName : Path) (snapshotNo : ℤ) :
    Except Fault (ByteFile × ℤ) :=
  match readFirstSuper cfg f imageName 0 with
  | .error e => .error e
  | .ok none => .ok (f, -1)
  | .ok (some s) => (rollbackLoop cfg snapshotNo (f.size + 1) 0 f s).map fun f' => (f', 0)

/-- Open the image and apply one of the functions above; a missing file gives
-1. -/
def onImage (fs : Fs) (imageName : Path) (body : ByteFile → Except Fault (ByteFile × ℤ)) :
    Except Fault (Fs × ℤ) :=
  match fs imageName with
  | none => .ok (fs, -1)
  | some f => (body f).map fun x => (Function.update fs imageName (some x.1), x.2)

/-- `snapshot`. -/
def snapshot (cfg : Config) (fs : Fs) (imageName : Path) : Except Fault (Fs × ℤ) :=
  onImage fs imageName fun f => snapshotFile cfg f imageName

/-- `rollback_snapshot`. -/
def rollbackSnapshot (cfg : Config) (fs : Fs) (imageName : Path) (snapshotNo : ℤ) :
    Except Fault (Fs × ℤ) :=
  onImage fs imageName fun f => rollbackFile cfg f imageName snapshotNo

/-- The layers of an image, as `read_first_super` and `read_next_super` find
them. -/
def supers (cfg : Config) (f : ByteFile) (fd : Path) : Except Fault (List Super) :=
  match readFirstSuper cfg f fd 0 with
  | .error e => .error e
  | .ok none => .ok []
  | .ok (some s) => superChain cfg f (f.size + 1) s

/-! ### Reading the layers of an image -/

theorem IsChain.supers (h : IsChain g f 0 ls) (hne : ls ≠ []) (hf : f.size < 2 ^ 63) (fd : Path) :
    supers cfg f fd = .ok (supersOf g fd 0 ls) := by
  obtain ⟨e, l, rfl⟩ := List.exists_cons_of_ne_nil hne
  have hlen := (h.layers.chainEnd_le hne)
  rw [List.length_cons] at hlen
  rw [Pcow.supers, h.layers.1.readFirstSuper hf fd]
  simp only
  rw [h.superChain hf (by omega)]

theorem IsImage.supers (h : IsImage g f ls es) (fd : Path) :
    Pcow.supers cfg f fd = .ok (supersOf g fd 0 (ls ++ [es])) :=
  h.isChain.supers (by simp) h.size_lt fd

/-- The first layer of an image, as every function of this file reads it. -/
theorem IsImage.readFirstSuper (h : IsImage g f ls es) (fd : Path) :
    ∃ e l, ls ++ [es] = e :: l ∧
      Pcow.readFirstSuper cfg f fd 0 = .ok (some (superOf g fd 0 e.length)) := by
  obtain ⟨e, l, hel⟩ := List.exists_cons_of_ne_nil (show ls ++ [es] ≠ [] by simp)
  have hlayers := h.isChain.layers
  rw [hel] at hlayers
  exact ⟨e, l, hel, hlayers.1.readFirstSuper h.size_lt fd⟩

/-! ### Creating an image -/

/-- The stores of the name stay inside the first cache line. -/
theorem touches_baseNameOps {b : CString} {o : FileOp} {a : ℕ} (ho : o ∈ baseNameOps off b)
    (h : o.Touches a) : off + 16 ≤ a ∧ a < off + 64 := by
  rw [baseNameOps, FileOp.memcpy, List.mem_map] at ho
  obtain ⟨i, hi, rfl⟩ := ho
  rw [List.mem_range] at hi
  simp only [FileOp.Touches] at h
  omega

theorem touches_newNameOps {b : Option CString} {o : FileOp} {a : ℕ} (ho : o ∈ newNameOps off b)
    (h : o.Touches a) : off + 16 ≤ a ∧ a < off + 64 := by
  cases b with
  | some b => exact touches_baseNameOps ho h
  | none =>
    rw [newNameOps, List.mem_singleton] at ho
    subst ho
    simp only [FileOp.Touches] at h
    omega

theorem size_run_newNameOps {b : Option CString} :
    (FileOp.run (newNameOps off b) f).size = f.size := by
  refine FileOp.size_run_of_inPlace fun o ho => ?_
  cases b with
  | some b => exact FileOp.inPlace_memcpy ho
  | none =>
    rw [newNameOps, List.mem_singleton] at ho
    rw [ho]
    exact trivial

/-- What `new_image` stores: the super block, the first meta block and the name of the base. -/
def formatOps (g : Geometry cfg) (base : Option CString) : List FileOp :=
  newSuperOps cfg 0 g.blockSize g.maxBlockNum ++ newNameOps 0 base ++ [.flush (0 + 16), .fence]

section FormatOps

variable {base : Option CString}

theorem run_formatOps : FileOp.run (formatOps g base) f =
    FileOp.run (newNameOps 0 base)
      (FileOp.run (newSuperOps cfg 0 g.blockSize g.maxBlockNum) f) := by
  rw [formatOps, FileOp.run_append, FileOp.run_append,
    FileOp.run_of_barriers (by simp [FileOp.IsBarrier])]

theorem size_run_formatOps (hbs : g.blockSize < 2 ^ 30) :
    (FileOp.run (formatOps g base) f).size = max f.size (2 * g.blockSize) := by
  rw [run_formatOps, size_run_newNameOps, size_run_newSuperOps hbs, Nat.zero_add]

/-- The stores go to two cache lines. -/
theorem byte_run_formatOps {a : ℕ} (hbs : g.blockSize < 2 ^ 30) (ha : 64 ≤ a)
    (ha' : a < g.blockSize ∨ g.blockSize + 8 ≤ a) :
    (FileOp.run (formatOps g base) f).byte a = f.byte a := by
  rw [run_formatOps]
  refine (FileOp.byte_run_of_not_touches fun o ho ht => ?_).trans
    (FileOp.byte_run_of_not_touches fun o ho ht => ?_)
  · have := touches_newNameOps ho ht
    omega
  · have := touches_newSuperOps (by omega) ho ht
    omega

/-- **They make an empty layer**, whatever the file held. -/
theorem isLayer_run_formatOps (hbs : g.blockSize < 2 ^ 30) :
    IsLayer g (FileOp.run (formatOps g base) f) 0 [] := by
  have hlayer : IsLayer g (FileOp.run (newSuperOps cfg 0 g.blockSize g.maxBlockNum) f) 0 [] :=
    isLayer_newSuperOps hbs (by omega)
  rw [run_formatOps]
  refine hlayer.congr (le_of_le_of_eq hlayer.size_le size_run_newNameOps.symm) fun a ha =>
    FileOp.byte_run_of_not_touches fun o ho ht => ?_
  have hmem := touches_newNameOps ho ht
  have hent := g.entry_le
  rcases ha with h | ⟨i, -, h⟩ | ⟨i, hi, -⟩
  · omega
  · have h₁ := g.blockAt_add_le 0 (g.metaBlock_pos (i := i))
    rw [Geometry.blockAt, Nat.mul_zero] at h₁
    omega
  · simp at hi

theorem byte_run_formatOps_none (hbs : g.blockSize < 2 ^ 30) :
    (FileOp.run (formatOps g none) f).byte 16 = 0 := by
  have hent := g.entry_le
  rw [run_formatOps]
  refine ByteFile.byte_store_of_mem (by omega) (by omega) ?_
  rw [size_run_newSuperOps hbs]
  exact lt_of_lt_of_le (by omega) (le_max_right _ _)

end FormatOps

theorem readFirstSuper_myOff {s : Super} {readOff : ℕ}
    (h : readFirstSuper cfg f fd readOff = .ok (some s)) : s.myOff = readOff := by
  rw [readFirstSuper] at h
  split at h
  · cases h
  split at h
  · cases h
  split at h
  · cases h
  · dsimp only at h
    generalize readMeta f _ (-1) = m at h
    rcases m with e | m
    · cases h
    · cases h
      rfl

/-- **What `new_super` does on a file without an image**: the block size is a positive multiple of
the page size, or the call does not return. -/
theorem newSuper_of_unformatted {blockSize maxBlockNum : ℤ} {x : List FileOp × Option Super}
    (hlast : readLastSuper cfg f fd = .ok none)
    (hbs : -2 ^ 31 ≤ blockSize ∧ blockSize < 2 ^ 31)
    (hnum : -2 ^ 31 ≤ maxBlockNum ∧ maxBlockNum < 2 ^ 31)
    (hr : newSuper cfg f fd blockSize maxBlockNum = .ok x) :
    ∃ g : Geometry cfg, (g.blockSize : ℤ) = blockSize ∧ g.maxBlockNum = maxBlockNum ∧
      4096 ∣ g.blockSize ∧ g.blockSize < 2 ^ 30 ∧
      x.1 = newSuperOps cfg 0 blockSize maxBlockNum ∧
      readFirstSuper cfg (FileOp.run x.1 f) fd 0 = .ok x.2 := by
  simp only [newSuper, hlast] at hr
  split at hr
  · cases hr
  rename_i hok
  split at hr
  · cases hr
  rename_i hmap
  obtain ⟨hmap₁, hmap₂⟩ := not_or.mp hmap
  obtain ⟨hdvd, hlt⟩ := not_not.mp hmap₂
  have hnonneg : 0 ≤ blockSize := by
    by_contra hneg
    rw [u64] at hlt
    omega
  obtain ⟨b, rfl⟩ := Int.eq_ofNat_of_zero_le hnonneg
  rw [Nat.cast_zero, zero_add, u64_natCast (by omega)] at hdvd
  have hpos : 0 < b := by
    rcases Nat.eq_zero_or_pos b with rfl | hpos
    · exact absurd (not_not.mp hok).1 (by decide)
    · exact hpos
  have hle : 4096 ≤ b := Nat.le_of_dvd hpos hdvd
  obtain ⟨g, rfl, rfl⟩ : ∃ g : Geometry cfg, g.blockSize = b ∧ g.maxBlockNum = maxBlockNum :=
    ⟨⟨b, maxBlockNum, by rcases cfg.entrySize_cases with h | h <;> omega, by omega, hnum.1, hnum.2⟩,
      rfl, rfl⟩
  obtain ⟨hb30, -⟩ := Geometry.blockSize_lt_of_fallocateOk (g := g) (not_not.mp hok)
  rcases hread : readFirstSuper cfg (FileOp.run (newSuperOps cfg 0 g.blockSize g.maxBlockNum) f)
    fd 0 with e | y
  · rw [hread] at hr
    cases hr
  rw [hread] at hr
  cases hr
  exact ⟨g, rfl, rfl, hdvd, hb30, rfl, hread⟩

section NewImage

variable {fs fs' : Fs} {name : Path} {blockSize rc : ℤ} {maxSize : ℕ} {base : Option CString}

/-- A call of `new_image` that returns 0 has found no image in the file. -/
theorem readFirstSuper_of_newImage
    (hr : newImage cfg fs name blockSize maxSize base = .ok (fs', 0)) :
    readFirstSuper cfg ((fs name).getD .empty) name 0 = .ok none := by
  rw [newImage] at hr
  rcases hf : readFirstSuper cfg ((fs name).getD .empty) name 0 with e | _ | s
  · simp only [hf] at hr
    cases hr
  · rfl
  · simp only [hf] at hr
    cases hr

/-- **What a call of `new_image` does** where there is no image. The block size is a positive
multiple of the page size, or the call does not return. -/
theorem newImage_ok (hnone : readFirstSuper cfg ((fs name).getD .empty) name 0 = .ok none)
    (hr : newImage cfg fs name blockSize maxSize base = .ok (fs', rc)) :
    rc = 0 ∧ ∃ g : Geometry cfg, fs' = Function.update fs name
        (some (FileOp.run (formatOps g base) ((fs name).getD .empty))) ∧
      4096 ∣ g.blockSize ∧ g.blockSize < 2 ^ 30 ∧ (g.blockSize : ℤ) = i32 (blockSize * 1024) ∧
      g.maxBlockNum = i32 (u64 (maxSize * 1024 * 1024) / u64 blockSize : ℕ) := by
  have hlast : readLastSuper cfg ((fs name).getD .empty) name = .ok none := by
    rw [readLastSuper, hnone]
  rw [newImage] at hr
  simp only [hnone] at hr
  split at hr
  · cases hr
  split at hr
  · cases hr
  split at hr
  · cases hr
  · cases hr
  rename_i ops s hnew
  cases hr
  obtain ⟨g, hbs, hnum, hdvd, hb30, rfl, hread⟩ :=
    newSuper_of_unformatted hlast (i32_range _) (i32_range _) hnew
  refine ⟨rfl, g, ?_, hdvd, hb30, hbs, hnum⟩
  rw [Function.update_idem, readFirstSuper_myOff hread, ← hbs, ← hnum]
  rfl

/-- **`new_image` on an empty file makes an image** with a single, empty layer. -/
theorem isImage_newImage (hempty : (fs name).getD .empty = .empty)
    (hr : newImage cfg fs name blockSize maxSize base = .ok (fs', rc)) :
    ∃ (g : Geometry cfg) (f : ByteFile), fs' = Function.update fs name (some f) ∧ rc = 0 ∧
      IsImage g f [] [] ∧ 4096 ∣ g.blockSize ∧ g.blockSize < 2 ^ 30 ∧
      (base = none → f.byte 16 = 0) ∧ (g.blockSize : ℤ) = i32 (blockSize * 1024) ∧
      g.maxBlockNum = i32 (u64 (maxSize * 1024 * 1024) / u64 blockSize : ℕ) := by
  have hnone : readFirstSuper cfg ((fs name).getD .empty) name 0 = .ok none := by
    rw [hempty]
    exact if_pos (by decide)
  obtain ⟨rfl, g, rfl, hdvd, hb30, hbs, hmax⟩ := newImage_ok hnone hr
  rw [hempty]
  refine ⟨g, _, rfl, rfl, ⟨trivial, isLayer_run_formatOps hb30, fun a ha _ => ?_, ?_⟩, hdvd, hb30,
    fun hbase => ?_, hbs, hmax⟩
  · have h₁ : g.endOff 0 0 = 2 * g.blockSize := by
      rw [Geometry.endOff, Geometry.blocks_zero, Geometry.blockAt]
      omega
    have ha' : g.endOff 0 0 ≤ a := ha
    have hent := g.entry_le
    exact byte_run_formatOps hb30 (by omega) (by omega)
  · rw [size_run_formatOps hb30]
    exact max_lt (by decide) (by omega)
  · subst hbase
    exact byte_run_formatOps_none hb30

end NewImage

/-- `new_super` on a file without an image. -/
theorem newSuper_of_none {blockSize maxBlockNum : ℤ} (h : readLastSuper cfg f fd = .ok none)
    (hok : FallocateOk 0 (i32 (blockSize * 2))) (hmap : MmapOk 0)
    (hmap' : MmapOk (u64 ((0 : ℕ) + blockSize))) :
    newSuper cfg f fd blockSize maxBlockNum =
      (readFirstSuper cfg (FileOp.run (newSuperOps cfg 0 blockSize maxBlockNum) f) fd 0).map
        fun s => (newSuperOps cfg 0 blockSize maxBlockNum, s) := by
  rw [newSuper, h]
  exact (if_neg (not_not.mpr hok)).trans
    (if_neg (not_or.mpr ⟨not_not.mpr hmap, not_not.mpr hmap'⟩))

/-- `new_image` returns for every block size that is a multiple of the page size
and below 1 GB, where the file has no image and the look at the base comes to an end. -/
theorem newImage_returns (fs : Fs) (name : Path) {n : ℕ} {blockSize : ℤ} (maxSize : ℕ)
    {base : Option CString} {x : Option Super}
    (hnone : readFirstSuper cfg ((fs name).getD .empty) name 0 = .ok none)
    (hcheck : checkBase cfg (Function.update fs name (some ((fs name).getD .empty))) base = .ok x)
    (hsz : ((fs name).getD .empty).size < 2 ^ 63) (hpos : 0 < n) (hlt : n < 2 ^ 18)
    (hbs : i32 (blockSize * 1024) = (4096 * n : ℕ)) :
    ∃ fs', newImage cfg fs name blockSize maxSize base = .ok (fs', 0) := by
  have hlast : readLastSuper cfg ((fs name).getD .empty) name = .ok none := by
    rw [readLastSuper, hnone]
  have hne : blockSize ≠ 0 := by
    rintro rfl
    rw [zero_mul, i32_of_range (by norm_num) (by norm_num)] at hbs
    omega
  have hnum := i32_range (u64 (maxSize * 1024 * 1024) / u64 blockSize : ℕ)
  rw [newImage]
  simp only [hnone, hcheck]
  rw [if_neg hne, hbs]
  generalize i32 (u64 (maxSize * 1024 * 1024) / u64 blockSize : ℕ) = num at hnum ⊢
  obtain ⟨g, hg, rfl⟩ : ∃ g : Geometry cfg, g.blockSize = 4096 * n ∧ g.maxBlockNum = num :=
    ⟨⟨4096 * n, num, by rcases cfg.entrySize_cases with h | h <;> omega, by omega, hnum.1, hnum.2⟩,
      rfl, rfl⟩
  have hok : FallocateOk 0 (i32 ((g.blockSize : ℤ) * 2)) := by
    rw [i32_of_range (by omega) (by omega)]
    exact ⟨by omega, by omega⟩
  have hmap : MmapOk 0 ∧ MmapOk (u64 ((0 : ℕ) + (g.blockSize : ℤ))) := by
    rw [Nat.cast_zero, zero_add, u64_natCast (by omega)]
    exact ⟨⟨dvd_zero _, by norm_num⟩, ⟨by omega, by omega⟩⟩
  have hlayer : IsLayer g (FileOp.run (newSuperOps cfg 0 g.blockSize g.maxBlockNum)
      ((fs name).getD .empty)) 0 [] := isLayer_newSuperOps (by omega) (by omega)
  have hsz' : (FileOp.run (newSuperOps cfg 0 g.blockSize g.maxBlockNum)
      ((fs name).getD .empty)).size < 2 ^ 63 := by
    rw [size_run_newSuperOps (by omega)]
    exact max_lt hsz (by omega)
  rw [← hg]
  rw [newSuper_of_none hlast hok hmap.1 hmap.2, hlayer.readFirstSuper hsz' name]
  exact ⟨_, rfl⟩

/-- The same for a block size that is not cut, without a base. -/
theorem exists_newImage_of_none (cfg : Config) (fs : Fs) (name : Path) {n : ℕ} (maxSize : ℕ)
    (hnone : readFirstSuper cfg ((fs name).getD .empty) name 0 = .ok none)
    (hsz : ((fs name).getD .empty).size < 2 ^ 63) (hpos : 0 < n) (hlt : n < 2 ^ 18) :
    ∃ fs', newImage cfg fs name (4 * n) maxSize none = .ok (fs', 0) := by
  refine newImage_returns fs name maxSize hnone rfl hsz hpos hlt ?_
  rw [i32_of_range (by omega) (by omega)]
  push_cast
  ring

theorem exists_newImage (cfg : Config) (fs : Fs) (name : Path) {n : ℕ} (maxSize : ℕ)
    (hempty : (fs name).getD .empty = .empty) (hpos : 0 < n) (hlt : n < 2 ^ 18) :
    ∃ fs', newImage cfg fs name (4 * n) maxSize none = .ok (fs', 0) := by
  refine exists_newImage_of_none cfg fs name maxSize ?_ ?_ hpos hlt
  · rw [hempty]
    exact if_pos (by decide)
  · rw [hempty]
    decide

/-! ### Snapshots -/

/-- **`snapshot` freezes the last layer** and appends an empty one, and leaves
every byte of the layers alone. -/
theorem IsImage.snapshotFile (h : IsImage g f ls es) {x : ByteFile × ℤ}
    (hr : snapshotFile cfg f fd = .ok x) :
    x.2 = 0 ∧ IsImage g x.1 (ls ++ [es]) [] ∧
      ∀ a < g.chainEnd 0 (ls ++ [es]), x.1.byte a = f.byte a := by
  obtain ⟨e, l, -, hfirst⟩ := h.readFirstSuper fd
  rw [Pcow.snapshotFile, hfirst] at hr
  simp only at hr
  rw [show (superOf g fd 0 e.length).blockSize = g.blockSize from rfl,
    show (superOf g fd 0 e.length).maxBlockNum = g.maxBlockNum from rfl] at hr
  rcases hnew : Pcow.newSuper cfg f fd g.blockSize g.maxBlockNum with er | y
  · rw [hnew] at hr
    cases hr
  rw [hnew] at hr
  cases hr
  obtain ⟨himg, hbelow, -⟩ := h.newSuper hnew
  exact ⟨rfl, himg, hbelow⟩

theorem IsImage.exists_snapshotFile (h : IsImage g f ls es) (fd : Path) (hdvd : 4096 ∣ g.blockSize)
    (hbs : g.blockSize < 2 ^ 30)
    (hroom : g.endOff (g.chainEnd 0 ls) es.length + 2 * g.blockSize < 2 ^ 63) :
    ∃ f', Pcow.snapshotFile cfg f fd = .ok (f', 0) := by
  obtain ⟨e, l, -, hfirst⟩ := h.readFirstSuper fd
  obtain ⟨x, hx⟩ := h.exists_newSuper fd hdvd hbs hroom
  rw [Pcow.snapshotFile, hfirst]
  simp only
  rw [show (superOf g fd 0 e.length).blockSize = g.blockSize from rfl,
    show (superOf g fd 0 e.length).maxBlockNum = g.maxBlockNum from rfl, hx]
  exact ⟨_, rfl⟩

/-! ### Rolling back -/

/-- A layer stays where the file is cut at its end or later. -/
theorem IsLayer.truncate (h : IsLayer g f off es) {n : ℕ} (hn : g.endOff off es.length ≤ n) :
    IsLayer g (f.truncate n) off es := by
  refine h.congr hn fun a ha => ?_
  rw [ByteFile.byte_truncate, if_pos (lt_of_lt_of_le ha.mem.2 hn)]

/-- **The rollback loop cuts the file after the layer it looks for**, and leaves
it as it is if it never gets there. -/
theorem IsChain.rollbackLoop {e : List ℕ} (h : IsChain g f off (e :: ls)) (hf : f.size < 2 ^ 63)
    {n : ℕ} (hn : ls.length < n) (no c : ℤ) :
    rollbackLoop cfg no n c f (superOf g fd off e.length) =
      .ok (if c < no ∧ no ≤ c + (ls.length + 1) then
        f.truncate (g.chainEnd off ((e :: ls).take (no - c).toNat)) else f) := by
  obtain ⟨h, hno⟩ := h
  have hend : (superOf g fd off e.length).endOff f = g.endOff off e.length :=
    h.1.endOff hf superOf_is
  induction ls generalizing off e n c with
  | nil =>
    obtain ⟨n, rfl⟩ : ∃ m, n = m + 1 := ⟨n - 1, by rw [List.length_nil] at hn; omega⟩
    rw [Pcow.rollbackLoop, hend]
    simp only [List.length_nil, Nat.cast_zero, zero_add]
    by_cases hc : c + 1 = no
    · have hlayer := h.1.truncate le_rfl
      simp only [if_pos hc]
      rw [hlayer.readNextSuper_none (lt_of_le_of_lt h.1.size_le hf) superOf_is (Or.inl le_rfl),
        if_pos (by omega), show (no - c).toNat = 1 by omega]
      rfl
    · simp only [if_neg hc]
      rw [h.1.readNextSuper_none hf superOf_is hno, if_neg (by omega)]
  | cons e' ls ih =>
    obtain ⟨n, rfl⟩ : ∃ m, n = m + 1 := ⟨n - 1, by rw [List.length_cons] at hn; omega⟩
    rw [Pcow.rollbackLoop, hend]
    by_cases hc : c + 1 = no
    · -- the walk goes on, but at the end of the file there is nothing more
      have hlayer := h.1.truncate le_rfl
      simp only [if_pos hc]
      rw [hlayer.readNextSuper_none (lt_of_le_of_lt h.1.size_le hf) superOf_is (Or.inl le_rfl),
        if_pos (by rw [List.length_cons]; omega), show (no - c).toNat = 1 by omega]
      rfl
    · simp only [if_neg hc]
      rw [h.1.readNextSuper hf superOf_is h.2.1]
      simp only
      rw [show (superOf g fd off e.length).fd = fd from rfl,
        ih (by rw [List.length_cons] at hn; omega) (c + 1) h.2 hno
          (h.2.1.endOff hf superOf_is)]
      by_cases hin : c < no ∧ no ≤ c + (((e' :: ls).length : ℕ) + 1)
      · rw [List.length_cons] at hin
        rw [if_pos (by omega), if_pos (by rw [List.length_cons]; omega),
          show (no - c).toNat = (no - (c + 1)).toNat + 1 by omega, List.take_succ_cons,
          Geometry.chainEnd]
      · rw [List.length_cons] at hin
        rw [if_neg (by omega), if_neg (by rw [List.length_cons]; omega)]

/-- **`rollback_snapshot` cuts the file after the layer of the given number**, and
does nothing if there is no such layer. -/
theorem IsChain.rollbackFile (h : IsChain g f 0 ls) (hne : ls ≠ []) (hf : f.size < 2 ^ 63)
    (no : ℤ) : rollbackFile cfg f fd no = .ok (if 1 ≤ no ∧ no ≤ ls.length then
      f.truncate (g.chainEnd 0 (ls.take no.toNat)) else f, 0) := by
  obtain ⟨e, l, rfl⟩ := List.exists_cons_of_ne_nil hne
  have hlen := h.layers.chainEnd_le hne
  rw [List.length_cons] at hlen
  rw [Pcow.rollbackFile, h.layers.1.readFirstSuper hf fd]
  simp only
  rw [h.rollbackLoop hf (by omega) no 0, Except.map, sub_zero, zero_add, List.length_cons,
    Nat.cast_succ]
  rfl

theorem IsImage.rollbackFile (h : IsImage g f ls es) (no : ℤ) :
    rollbackFile cfg f fd no = .ok (if 1 ≤ no ∧ no ≤ ls.length + 1 then
      f.truncate (g.chainEnd 0 ((ls ++ [es]).take no.toNat)) else f, 0) := by
  rw [h.isChain.rollbackFile (by simp) h.size_lt no, List.length_append, List.length_singleton,
    Nat.cast_succ]

end Pcow
