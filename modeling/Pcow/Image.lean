import Pcow.Create
import Pcow.PreAlloc

/-!
# Images

`IsImage g f ls es` says that the file `f` is an image whose frozen layers have the
entries `ls`, whose last layer has the entries `es`, and which holds nothing but
zeros after them, except for what a `new_block` that was cut short may have left there.
All offsets of an image follow from its lists of entries: the last layer is at
`chainEnd 0 ls`, and the next block or layer goes to `chainEnd 0 (ls ++ [es])`.

Every operation on an image changes the last layer or what comes after it. The
frame rule `IsImage.of_last` reduces each of them to what it does there:
appending an entry (`IsImage.appends`), a guest write into a data block
(`IsImage.write`), a new layer (`IsImage.newSuper`).
-/

namespace Pcow

variable {cfg : Config} {g : Geometry cfg} {f f' : ByteFile} {fd : Path} {es es' : List ℕ}
  {ls : List (List ℕ)} {s : Super}

/-- **The file is an image**: the frozen layers, the last layer, and zeros, but for the
bytes that appending the next entry stores to. -/
structure IsImage (g : Geometry cfg) (f : ByteFile) (ls : List (List ℕ)) (es : List ℕ) :
    Prop where
  frozen : IsLayers g f 0 ls
  last : IsLayer g f (g.chainEnd 0 ls) es
  tail : ∀ a, g.endOff (g.chainEnd 0 ls) es.length ≤ a →
    ¬AppendByte g (g.chainEnd 0 ls) es.length a → f.byte a = 0
  size_lt : f.size < 2 ^ 63

theorem Geometry.chainEnd_concat {off : ℕ} :
    g.chainEnd off (ls ++ [es]) = g.endOff (g.chainEnd off ls) es.length :=
  g.chainEnd_append

/-- Zeros are not a super block. -/
theorem noSuper_of_zero {off : ℕ} (h : ∀ a, off + 12 ≤ a → a < off + 16 → f.byte a = 0) :
    NoSuper f off := by
  refine Or.inr fun hm => ?_
  rw [HasMagic, ByteFile.load_eq_zero fun x hx hx' => h x hx (by omega)] at hm
  exact absurd hm (by decide)

/-- **What an append has left is not a super block either**: it does not store to where the
magic would be. -/
theorem noSuper_of_tail {off k : ℕ}
    (h : ∀ a, g.endOff off k ≤ a → ¬AppendByte g off k a → f.byte a = 0) :
    NoSuper f (g.endOff off k) := by
  refine noSuper_of_zero fun a ha ha' => h a (by omega) fun happ => ?_
  have := happ.mem.2.2 (by omega)
  omega

theorem IsImage.isChain (h : IsImage g f ls es) : IsChain g f 0 (ls ++ [es]) where
  layers := isLayers_append.mpr ⟨h.frozen, isLayers_singleton.mpr h.last⟩
  noSuper := by
    rw [g.chainEnd_concat]
    exact noSuper_of_tail h.tail

/-- Past the block after the next entry there are zeros. -/
theorem IsImage.tail_zero (h : IsImage g f ls es) {a : ℕ}
    (ha : g.endOff (g.chainEnd 0 ls) (es.length + 1) ≤ a) : f.byte a = 0 := by
  refine h.tail a (le_trans (Geometry.blockAt_mono _ (Geometry.blocks_mono (Nat.le_succ _))) ha)
    fun happ => ?_
  have := happ.mem.2.1
  omega

theorem IsImage.endOff_le (h : IsImage g f ls es) :
    g.endOff (g.chainEnd 0 ls) es.length ≤ f.size := h.last.size_le

/-- `read_last_super` on an image. -/
theorem IsImage.readLastSuper (h : IsImage g f ls es) (fd : Path) :
    readLastSuper cfg f fd = .ok (some (superOf g fd (g.chainEnd 0 ls) es.length)) :=
  h.isChain.readLastSuper h.size_lt fd

theorem Geometry.endOff_succ_le (off k : ℕ) :
    g.endOff off (k + 1) ≤ g.endOff off k + 2 * g.blockSize := by
  rcases lt_or_eq_of_le (g.counter_le (k := k)) with hlt | hfull
  · have := (g.endOff_succ_of_lt off hlt).1
    omega
  · have := (g.endOff_succ_of_full off hfull).1
    omega

theorem IsImage.tail_zero_of_two (h : IsImage g f ls es) {a : ℕ}
    (ha : g.endOff (g.chainEnd 0 ls) es.length + 2 * g.blockSize ≤ a) : f.byte a = 0 :=
  h.tail_zero (le_trans (Geometry.endOff_succ_le _ _) ha)

/-- **The frame rule for images**: where the bytes below the last layer stay, only
the last layer has to be looked at. -/
theorem IsImage.of_last (h : IsImage g f ls es)
    (hb : ∀ a < g.chainEnd 0 ls, f'.byte a = f.byte a) (hlast : IsLayer g f' (g.chainEnd 0 ls) es')
    (htail : ∀ a, g.endOff (g.chainEnd 0 ls) es'.length ≤ a →
      ¬AppendByte g (g.chainEnd 0 ls) es'.length a → f'.byte a = 0)
    (hsz : f'.size < 2 ^ 63) : IsImage g f' ls es' where
  frozen := h.frozen.congr hb le_rfl
    (le_trans (le_trans (Nat.le_add_right _ _) hlast.clSize_le) le_rfl)
  last := hlast
  tail := htail
  size_lt := hsz

/-- Operations that append an entry to the last layer. -/
theorem IsImage.appends {v : ℕ} {ops : List FileOp} (h : IsImage g f ls es)
    (happ : Appends g f (g.chainEnd 0 ls) es v ops) (hsz : (FileOp.run ops f).size < 2 ^ 63) :
    IsImage g (FileOp.run ops f) ls (es ++ [v]) := by
  refine h.of_last (fun a ha => ?_) happ.layer (fun a ha _ => ?_) hsz
  · refine FileOp.byte_run_of_not_touches fun o ho ht => ?_
    have := (happ.touches o ho a ht).mem.1
    omega
  · rw [List.length_append, List.length_singleton] at ha
    rw [FileOp.byte_run_of_not_touches fun o ho ht => ?_]
    · exact h.tail_zero ha
    · have := (happ.touches o ho a ht).mem.2.1
      omega

/-- Bytes of the last layer that are not read as structure may change. -/
theorem IsImage.of_quiet (h : IsImage g f ls es) (hsz : f'.size = f.size)
    (hb : ∀ a, f'.byte a ≠ f.byte a → g.chainEnd 0 ls ≤ a ∧
      a < g.endOff (g.chainEnd 0 ls) es.length ∧ ¬StructByte g (g.chainEnd 0 ls) es.length a) :
    IsImage g f' ls es := by
  refine h.of_last (fun a ha => ?_) (h.last.congr ?_ fun a ha => ?_) (fun a ha hap => ?_) ?_
  · by_contra hne
    have := (hb a hne).1
    omega
  · rw [hsz]
    exact h.endOff_le
  · by_contra hne
    exact (hb a hne).2.2 ha
  · by_contra hne
    have := (hb a (by rwa [h.tail a ha hap])).2.1
    omega
  · rw [hsz]
    exact h.size_lt

/-- A byte of a data block lies inside the layer, and is not structure. -/
theorem Geometry.quiet_of_data {off k i a : ℕ} (hi : i < k) (hle : g.dataOff off i ≤ a)
    (hlt : a < g.dataOff off i + g.blockSize) :
    off ≤ a ∧ a < g.endOff off k ∧ ¬StructByte g off k a := by
  have h₁ : off ≤ g.dataOff off i := Geometry.le_blockAt
  have h₂ := g.blockAt_add_le off (g.dataBlock_lt hi)
  rw [endOff]
  rw [dataOff] at *
  exact ⟨by omega, by omega, fun hs => hs.not_data i ⟨hle, hlt⟩⟩

/-- Bytes written into data blocks of the last layer. -/
theorem IsImage.write (h : IsImage g f ls es) (hsz : f'.size = f.size)
    (hb : ∀ a, f'.byte a ≠ f.byte a → ∃ i < es.length, g.dataOff (g.chainEnd 0 ls) i ≤ a ∧
      a < g.dataOff (g.chainEnd 0 ls) i + g.blockSize) : IsImage g f' ls es := by
  refine h.of_quiet hsz fun a hne => ?_
  obtain ⟨i, hi, hle, hlt⟩ := hb a hne
  exact g.quiet_of_data hi hle hlt

/-- A block size for which `fallocate` accepts the two blocks of a new layer. -/
theorem Geometry.blockSize_lt_of_fallocateOk {off : ℕ}
    (h : FallocateOk off (i32 ((g.blockSize : ℤ) * 2))) :
    g.blockSize < 2 ^ 30 ∧ off + 2 * g.blockSize < 2 ^ 63 := by
  have hlt := g.blockSize_lt
  have hbs : g.blockSize < 2 ^ 30 := by
    by_contra hge
    have hneg : i32 ((g.blockSize : ℤ) * 2) ≤ 0 := by
      rw [i32, Int.bmod_def]
      split <;> omega
    have := h.1
    omega
  refine ⟨hbs, ?_⟩
  have := h.2
  rw [i32_of_range (by omega) (by omega)] at this
  omega

/-- What `new_super` leaves, once the two blocks are reserved. -/
theorem isLayer_run_newSuperOps {off : ℕ} (hbs : g.blockSize < 2 ^ 30)
    (hoff : off + 2 * g.blockSize < 2 ^ 63) (hf : f.size < 2 ^ 63)
    (htail : ∀ a, off + 2 * g.blockSize ≤ a → f.byte a = 0) :
    let f' := FileOp.run (newSuperOps cfg off g.blockSize g.maxBlockNum) f
    IsLayer g f' off [] ∧ (∀ a < off, f'.byte a = f.byte a) ∧
      (∀ a, g.endOff off 0 ≤ a → f'.byte a = 0) ∧ f'.size < 2 ^ 63 := by
  intro f'
  have hent := g.entry_le
  have hend : g.endOff off 0 = off + g.blockSize * 2 := by
    rw [Geometry.endOff, Geometry.blocks_zero, Geometry.blockAt]
  refine ⟨isLayer_newSuperOps hbs (by omega), fun a ha => ?_, fun a ha => ?_, ?_⟩
  · refine FileOp.byte_run_of_not_touches fun o ho ht => ?_
    have := touches_newSuperOps (by omega) ho ht
    omega
  · rw [FileOp.byte_run_of_not_touches fun o ho ht => ?_]
    · exact htail a (by omega)
    · have := touches_newSuperOps (by omega) ho ht
      omega
  · rw [size_run_newSuperOps hbs]
    exact max_lt hf hoff

/-- **`new_super` on an image** freezes the last layer and appends an empty one. -/
theorem IsImage.newSuper (h : IsImage g f ls es) {x : List FileOp × Option Super}
    (hr : newSuper cfg f fd g.blockSize g.maxBlockNum = .ok x) :
    IsImage g (FileOp.run x.1 f) (ls ++ [es]) [] ∧
      (∀ a < g.chainEnd 0 (ls ++ [es]), (FileOp.run x.1 f).byte a = f.byte a) ∧
      x.2 = some (superOf g fd (g.chainEnd 0 (ls ++ [es])) 0) := by
  rw [Pcow.newSuper, h.readLastSuper fd] at hr
  simp only [h.last.endOff h.size_lt superOf_is] at hr
  split at hr
  · cases hr
  rename_i hok
  split at hr
  · cases hr
  obtain ⟨hbs, hoff⟩ := Geometry.blockSize_lt_of_fallocateOk (g := g) (not_not.mp hok)
  obtain ⟨hlayer, hbelow, htail, hsz⟩ :=
    isLayer_run_newSuperOps hbs hoff h.size_lt fun a ha => h.tail_zero_of_two ha
  have hread := hlayer.readFirstSuper hsz fd
  rw [hread] at hr
  cases hr
  rw [g.chainEnd_concat]
  refine ⟨⟨?_, ?_, ?_, hsz⟩, hbelow, rfl⟩
  · exact h.isChain.layers.congr hbelow (le_of_eq g.chainEnd_concat)
      (le_trans (Nat.le_add_right _ _) hlayer.clSize_le)
  · rw [g.chainEnd_concat]
    exact hlayer
  · rw [g.chainEnd_concat]
    exact fun a ha _ => htail a ha

/-- Layers begin and end at multiples of the block size. -/
theorem Geometry.dvd_chainEnd {off : ℕ} (h : g.blockSize ∣ off) :
    g.blockSize ∣ g.chainEnd off ls := by
  induction ls generalizing off with
  | nil => exact h
  | cons e ls ih => exact ih (Nat.dvd_add h (Nat.dvd_mul_right _ _))

/-- `new_super` returns if the block size is that of an image, and the file has
room. -/
theorem IsImage.exists_newSuper (h : IsImage g f ls es) (fd : Path) (hdvd : 4096 ∣ g.blockSize)
    (hbs : g.blockSize < 2 ^ 30)
    (hroom : g.endOff (g.chainEnd 0 ls) es.length + 2 * g.blockSize < 2 ^ 63) :
    ∃ x, Pcow.newSuper cfg f fd g.blockSize g.maxBlockNum = .ok x := by
  have hpos := g.blockSize_pos
  have halign : g.blockSize ∣ g.endOff (g.chainEnd 0 ls) es.length := by
    rw [← g.chainEnd_concat]
    exact g.dvd_chainEnd (dvd_zero _)
  have hok : FallocateOk (g.endOff (g.chainEnd 0 ls) es.length) (i32 ((g.blockSize : ℤ) * 2)) := by
    rw [i32_of_range (by omega) (by omega)]
    exact ⟨by omega, by omega⟩
  have hu : u64 ((g.endOff (g.chainEnd 0 ls) es.length : ℕ) + (g.blockSize : ℤ)) =
      g.endOff (g.chainEnd 0 ls) es.length + g.blockSize := by
    rw [← Nat.cast_add, u64_natCast (by omega)]
  have hmap : MmapOk (g.endOff (g.chainEnd 0 ls) es.length) ∧
      MmapOk (g.endOff (g.chainEnd 0 ls) es.length + g.blockSize) :=
    ⟨⟨hdvd.trans halign, by omega⟩, ⟨Nat.dvd_add (hdvd.trans halign) hdvd, by omega⟩⟩
  obtain ⟨hlayer, -, -, hsz⟩ :=
    isLayer_run_newSuperOps hbs hroom h.size_lt fun a ha => h.tail_zero_of_two ha
  rw [Pcow.newSuper, h.readLastSuper fd]
  simp only [h.last.endOff h.size_lt superOf_is, hu, not_not.mpr hok, if_false, not_not.mpr hmap.1,
    not_not.mpr hmap.2, or_self]
  rw [hlayer.readFirstSuper hsz fd]
  exact ⟨_, rfl⟩

/-- **`new_block` on an image.** -/
theorem IsImage.newBlock (h : IsImage g f ls es) {r r' : Ring} {ops : List FileOp}
    {nb : NewBlock} {n n' faultOff : ℕ} {s' : Super}
    (hs : s.Is g (g.chainEnd 0 ls) es.length)
    (hring : RingInv g f (g.chainEnd 0 ls) es.length s r)
    (hr : newBlock cfg f s r n n' faultOff = .ok (s', r', nb, ops)) :
    IsImage g (FileOp.run ops f) ls (es ++ [g.blockOf faultOff]) ∧
      s'.Is g (g.chainEnd 0 ls) (es.length + 1) ∧ s.SameEnv s' ∧
      nb = ⟨g.dataOff (g.chainEnd 0 ls) es.length⟩ ∧
      RingInv g (FileOp.run ops f) (g.chainEnd 0 ls) (es.length + 1) s' r' ∧
      ∀ o ∈ ops, ∀ a, o.Touches a → AppendByte g (g.chainEnd 0 ls) es.length a := by
  obtain ⟨-, hnb, hs', henv, happ, hsz, hring'⟩ := h.last.newBlock h.size_lt hs hring hr
  exact ⟨h.appends happ hsz, hs', henv, hnb, hring', happ.touches⟩

end Pcow
