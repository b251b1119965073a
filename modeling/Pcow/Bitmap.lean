import Pcow.Slots
import Pcow.Table

/-!
# The copy bitmap

The high half of the entry of a block says which units of the block are copied: `cow_handler` sets a
bit of it for each unit it copies. The word has 64 bits and the low half is the number of the block,
so that there are bits for 32 units; nothing bounds the number of units of a block, and the bit of a
later unit is shifted out of the word. So the bitmap is exact for blocks of at most 32 units
(`bitmap_exact_iff`), where the entries are in the first meta block, the one in which `insert_ht`
finds them.
-/

namespace Pcow

variable {cfg : Config} {g : Geometry cfg} {f f' : ByteFile} {fs : Fs} {fd : Path} {off b v k : ℕ}
  {es : List ℕ} {ls : List (List ℕ)} {low : PageTable Path} {moved : List ℕ}

/-! ### The word of an entry -/

/-- The entry of block `b` once some units of the block are copied. -/
def markedWord (b : ℕ) (moved : List ℕ) : ℕ :=
  moved.foldr (fun d x => x ||| Session.cowBit (d / cowUnit)) b

theorem testBit_cowBit {u : ℕ} (hu : u < 32) (i : ℕ) :
    (Session.cowBit u).testBit i = decide (i = 32 + u) := by
  have hbit : Session.cowBit u = 2 ^ (32 + u) := by
    rw [Session.cowBit, Nat.mod_eq_of_lt (show u < 64 by omega), Nat.one_shiftLeft,
      Nat.shiftLeft_eq, ← pow_add, Nat.add_comm u 32]
    exact Nat.mod_eq_of_lt (Nat.pow_lt_pow_right (by norm_num) (by omega))
  rw [hbit, Nat.testBit_two_pow]
  exact decide_eq_decide.mpr eq_comm

/-- The marks leave the number of the block alone. -/
theorem markedWord_mod : markedWord b moved % 2 ^ 32 = b % 2 ^ 32 := by
  induction moved with
  | nil => rfl
  | cons d l ih =>
    have := or_cowBit_mod (d / cowUnit) (markedWord b l)
    exact this.trans ih

theorem markedWord_lt (hb : b < 2 ^ 32) : markedWord b moved < 2 ^ 64 := by
  induction moved with
  | nil => exact lt_trans hb (by norm_num)
  | cons d l ih => exact Nat.or_lt_two_pow ih (Nat.mod_lt _ (by norm_num))

/-- **A unit has a bit of its own** among the first 32 units. -/
theorem testBit_markedWord (hb : b < 2 ^ 32) (hm : ∀ d ∈ moved, d / cowUnit < 32) (u : ℕ) :
    (markedWord b moved).testBit (32 + u) = true ↔ ∃ d ∈ moved, d / cowUnit = u := by
  induction moved with
  | nil =>
    have : b.testBit (32 + u) = false :=
      Nat.testBit_lt_two_pow (lt_of_lt_of_le hb (Nat.pow_le_pow_right (by norm_num) (by omega)))
    simp [markedWord, this]
  | cons d l ih =>
    have hd := hm d List.mem_cons_self
    have hl : ∀ d ∈ l, d / cowUnit < 32 := fun d hd => hm d (List.mem_cons_of_mem _ hd)
    have hcons : markedWord b (d :: l) = markedWord b l ||| Session.cowBit (d / cowUnit) := rfl
    rw [hcons, Nat.testBit_or, Bool.or_eq_true, ih hl, testBit_cowBit hd, decide_eq_true_eq,
      List.exists_mem_cons_iff]
    constructor
    · rintro (h | h)
      · exact Or.inr h
      · exact Or.inl (by omega)
    · rintro (h | h)
      · exact Or.inr (by omega)
      · exact Or.inl h

/-! ### Slots that a step leaves alone -/

/-- An append stores to no slot but its own. -/
theorem AppendByte.not_slot {a j : ℕ} (h : AppendByte g off k a) (hj : j ≠ k) :
    a < g.slot off j ∨ g.slot off j + cfg.entrySize ≤ a := by
  rcases h with ⟨h₁, h₂⟩ | ⟨-, h₁, h₂⟩ | ⟨hfull, ⟨h₁, h₂⟩ | ⟨h₁, h₂⟩⟩
  · have := g.slot_disjoint off hj
    omega
  · exact Geometry.slot_not_line h₁ (by omega)
  · rw [Geometry.endOff, ← (g.blocks_succ_of_full hfull).2.2] at h₁ h₂
    exact Geometry.slot_not_line h₁ (by omega)
  · exact Geometry.slot_not_top (Or.inl ⟨by omega, by omega⟩)

/-- A range of a data block holds no byte of a slot. -/
theorem Geometry.slot_not_data {a i j d len : ℕ} (hle : d + len ≤ g.blockSize)
    (h₁ : g.dataOff off i + d ≤ a) (h₂ : a < g.dataOff off i + d + len) :
    a < g.slot off j ∨ g.slot off j + cfg.entrySize ≤ a := by
  by_contra hcon
  have happ : AppendByte g off j a := Or.inl ⟨by omega, by omega⟩
  exact happ.not_data i ⟨by omega, by omega⟩

/-- Two files with the same bytes in the slot of an entry have the same entry there. -/
theorem word_congr (hcfg : cfg.entrySize = 8)
    (h : ∀ a, ¬(a < g.slot off k ∨ g.slot off k + cfg.entrySize ≤ a) → f'.byte a = f.byte a) :
    f'.load (g.slot off k) 8 = f.load (g.slot off k) 8 :=
  ByteFile.load_congr fun a h₁ h₂ => h a (by rw [hcfg]; omega)

/-- A slot of the layer lies inside the file. -/
theorem IsLayer.slot_lt_size (h : IsLayer g f off es) (hk : k < es.length) :
    g.slot off k + cfg.entrySize ≤ f.size := by
  have h₁ := g.slot_mem off k
  have h₂ := g.blockAt_add_le off (g.metaBlock_lt (Geometry.div_le_lastSeg hk))
  have h₃ := h.size_le
  rw [Geometry.endOff] at h₃
  omega

/-- **The entry of a block of the table**: it is entry `k` of the layer, in the first meta block,
and it is marked for the units that are copied. -/
structure MarkedAt (g : Geometry cfg) (f : ByteFile) (off : ℕ) (es : List ℕ) (k : ℕ)
    (ce : CowEntry) :
    Prop where
  first : k < g.perSeg
  block : ∃ b, es[k]? = some b ∧ ce.faultVoffAligned = b * g.blockSize ∧
    f.load (g.slot off k) 8 = markedWord b ce.moved
  data : ce.blockOff = g.dataOff off k
  entry : ce.metaEntry = g.slot off k
  units : ∀ d ∈ ce.moved, cowUnit ∣ d ∧ d < g.blockSize
  /-- A block of one unit is never copied in part. -/
  whole : g.blockSize = cowUnit → ce.moved = []

section MarkedAt

variable {ce : CowEntry}

theorem MarkedAt.congr (h : MarkedAt g f off es k ce)
    (hf : f'.load (g.slot off k) 8 = f.load (g.slot off k) 8) : MarkedAt g f' off es k ce := by
  obtain ⟨b, hb, hkey, hw⟩ := h.block
  exact ⟨h.first, ⟨b, hb, hkey, hf.trans hw⟩, h.data, h.entry, h.units, h.whole⟩

theorem MarkedAt.lt_length (h : MarkedAt g f off es k ce) : k < es.length := by
  obtain ⟨b, hb, -⟩ := h.block
  exact (List.getElem?_eq_some_iff.mp hb).1

theorem MarkedAt.mono_entries {es' : List ℕ} (h : MarkedAt g f off es k ce) (hpre : es <+: es') :
    MarkedAt g f off es' k ce := by
  obtain ⟨l, rfl⟩ := hpre
  obtain ⟨b, hb, hkey, hw⟩ := h.block
  refine ⟨h.first, ⟨b, ?_, hkey, hw⟩, h.data, h.entry, h.units, h.whole⟩
  rw [List.getElem?_append_left h.lt_length, hb]

/-- Entries of different blocks are different entries of the layer. -/
theorem MarkedAt.ne {ce' : CowEntry} {k' : ℕ} (h : MarkedAt g f off es k ce)
    (h' : MarkedAt g f off es k' ce') (hne : ce'.faultVoffAligned ≠ ce.faultVoffAligned) :
    k' ≠ k := by
  rintro rfl
  obtain ⟨b, hb, hkey, -⟩ := h.block
  obtain ⟨b', hb', hkey', -⟩ := h'.block
  rw [hb'] at hb
  cases hb
  exact hne (hkey'.trans hkey.symm)

/-- The numbers of blocks are those an entry can hold. -/
theorem IsLayer.entry_lt (h : IsLayer g f off es) (hb : es[k]? = some b) : b < 2 ^ 32 := by
  obtain ⟨hk, rfl⟩ := List.getElem?_eq_some_iff.mp hb
  have := h.entry k hk
  rw [← this]
  exact ByteFile.load_lt

end MarkedAt

namespace Session

variable {ses ses' : Session} {n n' : ℕ} {ops : List FileOp} {ce : CowEntry} {fr : Option CowEntry}

/-- **The entries of the blocks of the table are marked** for the units that are copied. -/
structure Marked (ses : Session) (g : Geometry cfg) (off : ℕ) (es : List ℕ)
    (low : PageTable Path) : Prop extends ses.Tabled g off es low where
  marked : ∀ i, ∀ ce ∈ ses.cow.buckets i, ∃ k, MarkedAt g ses.file off es k ce

/-- The slots of the entries of a layer are left alone. -/
def SameWords (g : Geometry cfg) (off : ℕ) (es : List ℕ) (f f' : ByteFile) : Prop :=
  ∀ k < es.length, f'.load (g.slot off k) 8 = f.load (g.slot off k) 8

theorem SameWords.trans {f₁ f₂ f₃ : ByteFile} (h : SameWords g off es f₁ f₂)
    (h' : SameWords g off es f₂ f₃) : SameWords g off es f₁ f₃ :=
  fun k hk => (h' k hk).trans (h k hk)

/-- A step that leaves the table and the slots alone. -/
theorem Marked.of_sameWords {es' : List ℕ} (h : ses.Marked g off es low) (hpre : es <+: es')
    (ht : ses'.Tabled g off es' low) (hcow : ses'.cow = ses.cow)
    (hw : SameWords g off es ses.file ses'.file) : ses'.Marked g off es' low := by
  refine ⟨ht, fun i ce hce => ?_⟩
  rw [hcow] at hce
  obtain ⟨k, hk⟩ := h.marked i ce hce
  exact ⟨k, (hk.congr (hw k hk.lt_length)).mono_entries hpre⟩

/-- **`new_block`** leaves the slots alone, and its own has no mark. -/
theorem Layered.words_newBlock (h : ses.Layered g off es) (hcfg : cfg.entrySize = 8) {s' : Super}
    {r' : Ring} {nb : NewBlock} {faultOff : ℕ}
    (hr : Pcow.newBlock cfg ses.file ses.s ses.ring n n' faultOff = .ok (s', r', nb, ops)) :
    SameWords g off es ses.file ({ ses.issue ops with s := s', ring := r' } : Session).file ∧
      ({ ses.issue ops with s := s', ring := r' } : Session).file.load (g.slot off es.length) 8 =
        g.blockOf faultOff := by
  obtain ⟨-, -, -, henv, happ, -, -⟩ := h.layer.newBlock h.size_lt h.super h.ring hr
  have hfile : ({ ses.issue ops with s := s', ring := r' } : Session).file =
      FileOp.run ops ses.file := file_issue_of_fd henv.1
  rw [hfile]
  refine ⟨fun k hk => word_congr hcfg fun a ha => ?_, ?_⟩
  · exact FileOp.byte_run_of_not_touches fun o ho ht =>
      ha ((happ.touches o ho a ht).not_slot (Nat.ne_of_lt hk))
  · have := happ.word
    rwa [hcfg] at this

/-- `uf_monitor`. -/
theorem Layered.words_ufMonitor (h : ses.Layered g off es) (hcfg : cfg.entrySize = 8)
    (hr : ses.ufMonitor cfg n n' v = .ok (ses', ops)) :
    SameWords g off es ses.file ses'.file := by
  rcases ufMonitor_cases hr with ⟨rfl, -⟩ | ⟨s', r', nb, hnb, rfl⟩
  · exact fun k _ => rfl
  · exact (h.words_newBlock hcfg hnb).1

/-- A store of the guest. -/
theorem Paged.words_poke (h : ses.Paged g off es low) (hcfg : cfg.entrySize = 8) {e : Pte Path}
    {p x : ℕ} (hp : ses.pages p = some e) (hw : e.writable = true) (hx : x < pageSize) (y : ℕ) :
    SameWords g off es ses.file (ses.poke e x y).file := by
  obtain ⟨hf, i, -, hle, hlt⟩ := h.writable_lt hp hw
  obtain ⟨d, hd⟩ := Nat.exists_eq_add_of_le hle
  intro k _
  rw [file_poke hf]
  refine word_congr hcfg fun a ha => ByteFile.byte_store_of_notMem ?_
  by_contra hmem
  refine ha (@Geometry.slot_not_data cfg g off a i k d pageSize ?_ ?_ ?_) <;> omega

/-- An iteration of the allocator thread. -/
theorem words_tick (hr : ses.tick cfg = .ok ses') : SameWords g off es ses.file ses'.file :=
  fun _ _ => ByteFile.load_congr fun a _ _ => by rw [tick_byte hr]

/-- A copy into a data block leaves the slots alone. -/
theorem words_memcpy (hcfg : cfg.entrySize = 8) {i d len o : ℕ} (src : ℕ → UInt8)
    (ho : o = g.dataOff off i + d) (hle : d + len ≤ g.blockSize) (j : ℕ) :
    (ses.issue (FileOp.memcpy o len src)).file.load (g.slot off j) 8 =
      ses.file.load (g.slot off j) 8 := by
  rw [file_issue]
  refine word_congr hcfg fun a ha => FileOp.byte_run_of_not_touches fun op hop ht => ?_
  obtain ⟨h₁, h₂⟩ := FileOp.touches_memcpy hop ht
  rw [ho] at h₁ h₂
  exact ha (Geometry.slot_not_data hle h₁ h₂)

/-- The file after a part of a block was copied and flushed. -/
theorem file_copied {o len : ℕ} {src : ℕ → UInt8} {m : MapOp Path} {ses₁ : Session}
    (hses₁ : ses₁ = (ses.issue (FileOp.memcpy o len src ++ flushLoop o len ++ [.fence])).remap m) :
    ses₁.file = FileOp.run (FileOp.memcpy o len src) ses.file := by
  have hremap : ses₁.file =
      (ses.issue (FileOp.memcpy o len src ++ flushLoop o len ++ [.fence])).file := by
    rw [hses₁]
    rfl
  rw [hremap, file_issue, List.append_assoc, FileOp.run_append,
    FileOp.run_of_barriers isBarrier_flushLoop]

/-- The file after an entry was stored to. -/
theorem file_entryStore {e : ℕ} {F : ℕ → ℕ} : (ses.issue (entryStore cfg ses.file e F)).file =
    ses.file.store e cfg.entrySize (F (ses.file.load e cfg.entrySize)) := by
  rw [file_issue, entryStore]
  rfl

/-- The file after the copy of a unit. -/
theorem file_copyUnit {aligned d : ℕ}
    (hr : ses.copyUnit cfg ⟨aligned + d, cowUnit⟩ ce aligned = .ok (ses', ops)) :
    ∃ ses₁, ses₁ = (ses.issue (FileOp.memcpy (ce.blockOff + d) cowUnit (ses.source (aligned + d)) ++
        flushLoop (ce.blockOff + d) cowUnit ++ [.fence])).remap
          (.mremap (aligned + d) cowUnit ses.s.fd (ce.blockOff + d)) ∧
      ses'.file = (ses₁.issue (entryStore cfg ses₁.file ce.metaEntry
        (· ||| cowBit (d / cowUnit)))).file := by
  rw [Session.copyUnit] at hr
  split_ifs at hr
  simp only [Nat.add_sub_cancel_left, Int.toNat_natCast] at hr
  refine ⟨_, rfl, ?_⟩
  cases hr
  rfl

/-- **The entry of a block is stored to**: no other entry changes. -/
theorem words_entryStore (hcfg : cfg.entrySize = 8) {F : ℕ → ℕ}
    (hk : g.slot off k + cfg.entrySize ≤ ses.file.size) :
    (ses.issue (entryStore cfg ses.file (g.slot off k) F)).file.load (g.slot off k) 8 =
        F (ses.file.load (g.slot off k) 8) % 2 ^ 64 ∧
      ∀ j ≠ k, (ses.issue (entryStore cfg ses.file (g.slot off k) F)).file.load (g.slot off j) 8 =
        ses.file.load (g.slot off j) 8 := by
  rw [file_entryStore, hcfg]
  constructor
  · rw [ByteFile.load_store_prefix le_rfl (by rw [← hcfg]; exact hk),
      show (256 : ℕ) ^ 8 = 2 ^ 64 by norm_num]
  · intro j hj
    rw [ByteFile.load_store_disjoint (by rw [← hcfg]; exact g.slot_disjoint off hj)]

/-- **A part of a block is copied and the entry of the block stored to**, as both branches of
`cow_handler` do: the entry is what it is stored to be, and no other changes. -/
theorem words_copyPart (hcfg : cfg.entrySize = 8) {i d len o : ℕ} {src : ℕ → UInt8} {F : ℕ → ℕ}
    {m : MapOp Path} (ho : o = g.dataOff off i + d) (hle : d + len ≤ g.blockSize)
    (hk : g.slot off k + cfg.entrySize ≤ ses.file.size) {ses₁ : Session}
    (hses₁ : ses₁ = (ses.issue (FileOp.memcpy o len src ++ flushLoop o len ++ [.fence])).remap m) :
    (ses₁.issue (entryStore cfg ses₁.file (g.slot off k) F)).file.load (g.slot off k) 8 =
        F (ses.file.load (g.slot off k) 8) % 2 ^ 64 ∧
      ∀ j ≠ k, (ses₁.issue (entryStore cfg ses₁.file (g.slot off k) F)).file.load (g.slot off j) 8 =
        ses.file.load (g.slot off j) 8 := by
  have hrun := file_copied hses₁
  have hsize : ses₁.file.size = ses.file.size := by
    rw [hrun]
    exact FileOp.size_run_of_inPlace fun o ho => FileOp.inPlace_memcpy ho
  have hdata : ∀ j, ses₁.file.load (g.slot off j) 8 = ses.file.load (g.slot off j) 8 := by
    intro j
    rw [hrun, ← file_issue]
    exact words_memcpy hcfg src ho hle j
  obtain ⟨hown, hother⟩ := @words_entryStore cfg g off k ses₁ hcfg F (by rw [hsize]; exact hk)
  rw [hdata k] at hown
  exact ⟨hown, fun j hj => (hother j hj).trans (hdata j)⟩

/-- The partial branch of `cow_handler`. -/
theorem words_copyUnit (hcfg : cfg.entrySize = 8) {aligned d : ℕ}
    (hdata : ce.blockOff = g.dataOff off k)
    (hentry : ce.metaEntry = g.slot off k) (hle : d + cowUnit ≤ g.blockSize)
    (hk : g.slot off k + cfg.entrySize ≤ ses.file.size)
    (hr : ses.copyUnit cfg ⟨aligned + d, cowUnit⟩ ce aligned = .ok (ses', ops)) :
    ses'.file.load (g.slot off k) 8 =
        (ses.file.load (g.slot off k) 8 ||| cowBit (d / cowUnit)) % 2 ^ 64 ∧
      ∀ j ≠ k, ses'.file.load (g.slot off j) 8 = ses.file.load (g.slot off j) 8 := by
  obtain ⟨ses₁, hses₁, hfile⟩ := file_copyUnit hr
  rw [hfile, hentry]
  exact words_copyPart hcfg (by rw [hdata]) hle hk hses₁

/-- The other branch. -/
theorem words_copyBlock (hcfg : cfg.entrySize = 8) {aligned : ℕ}
    (hdata : ce.blockOff = g.dataOff off k) (hentry : ce.metaEntry = g.slot off k)
    (hbs : u64 ses.s.blockSize = g.blockSize) (hk : g.slot off k + cfg.entrySize ≤ ses.file.size) :
    (ses.copyBlock cfg ce aligned).1.file.load (g.slot off k) 8 =
        (ses.file.load (g.slot off k) 8 &&& addrMask) % 2 ^ 64 ∧
      ∀ j ≠ k, (ses.copyBlock cfg ce aligned).1.file.load (g.slot off j) 8 =
        ses.file.load (g.slot off j) 8 := by
  rw [Session.copyBlock]
  simp only [hbs, hdata, hentry]
  exact words_copyPart hcfg (Nat.add_zero _).symm (Nat.zero_add _).le hk rfl

/-- The copy of a block with a missing page, for which `uf_monitor` appends an entry. -/
theorem Paged.words_copyMissing (h : ses.Paged g off es low) (hcfg : cfg.entrySize = 8) {o i : ℕ}
    (hb : g.HasBlock off es b o) (hmiss : ses.firstMissing (v / g.blockSize * g.blockSize) = some i)
    (hr : ses.copyMissing cfg n n' o (v / g.blockSize * g.blockSize) i = .ok (ses', ops)) :
    SameWords g off es ses.file ses'.file := by
  obtain ⟨hle, -⟩ := firstMissing_eq_some hmiss
  obtain ⟨ses₂, ops₂, hmon, -, rfl, -⟩ := copyMissing_ok hr
  rw [h.super.u64_blockSize] at hle ⊢
  have hfront := h.copy (d := 0) (ses.source (v / g.blockSize * g.blockSize)) [] hb
    (show 0 + i * pageSize ≤ g.blockSize by omega) fun x hx => by cases hx
  rw [List.append_nil, Nat.add_zero] at hfront
  obtain ⟨m, -, ho⟩ := hb
  have h₁ : SameWords g off es ses.file
      (ses.issue (FileOp.memcpy o (i * pageSize)
        (ses.source (v / g.blockSize * g.blockSize)))).file :=
    fun k _ => words_memcpy (d := 0) hcfg _ ho (by omega) k
  have h₂ := hfront.toLayered.words_ufMonitor hcfg hmon
  have h₃ : SameWords g off es ses₂.file (ses₂.issue (FileOp.memcpy (o + i * pageSize)
      (g.blockSize - i * pageSize)
      (ses₂.source (v / g.blockSize * g.blockSize + i * pageSize)))).file :=
    fun k _ => words_memcpy (d := i * pageSize) hcfg _ (by rw [ho]) (by omega) k
  exact (h₁.trans h₂).trans h₃

/-- The copy of a whole block, whether all of it is mapped or not. -/
theorem Paged.words_copyWhole (h : ses.Paged g off es low) (hcfg : cfg.entrySize = 8)
    (hv : v < ses.s.fmmapLength) (hk : k < es.length) (hce : EntryAt g off es ce)
    (hdata : ce.blockOff = g.dataOff off k) (hentry : ce.metaEntry = g.slot off k)
    (hkey : ce.faultVoffAligned = v / g.blockSize * g.blockSize)
    (hr : ses.copyWhole cfg n n' ce (v / g.blockSize * g.blockSize) = .ok (ses', ops)) :
    ses'.file.load (g.slot off k) 8 =
        (ses.file.load (g.slot off k) 8 &&& addrMask) % 2 ^ 64 ∧
      ∀ j < es.length, j ≠ k →
        ses'.file.load (g.slot off j) 8 = ses.file.load (g.slot off j) 8 := by
  rcases copyWhole_cases hr with ⟨-, hblock⟩ | ⟨i, ses₁, ops₁, hmiss, hcopy, rfl, -⟩
  · obtain ⟨hown, hother⟩ := @words_copyBlock cfg g off k ses ce hcfg
      (v / g.blockSize * g.blockSize) hdata hentry h.super.u64_blockSize (h.layer.slot_lt_size hk)
    rw [hblock] at hown hother
    exact ⟨hown, fun j _ hj => hother j hj⟩
  · have hb := hce.hasBlock hkey
    have hsame := h.words_copyMissing hcfg hb hmiss hcopy
    obtain ⟨h₁, -⟩ := h.copyMissing hv hb hmiss hcopy
    have hrun : ∀ f : ByteFile,
      FileOp.run (flushLoop ce.blockOff (u64 ses₁.s.blockSize) ++ [.fence]) f =
        f := fun f => FileOp.run_of_barriers isBarrier_flushLoop
    have hfit := h₁.layer.slot_lt_size
      (lt_of_lt_of_le hk (List.prefix_append es [v / g.blockSize]).length_le)
    rw [Session.finishBlock, hentry]
    simp only
    generalize hses₂ : (ses₁.issue (flushLoop ce.blockOff (u64 ses₁.s.blockSize) ++ [.fence])).remap
      (.mremap (v / g.blockSize * g.blockSize) (u64 ses₁.s.blockSize) ses₁.s.fd ce.blockOff) = ses₂
    have hfile : ses₂.file = ses₁.file := by
      rw [← hrun ses₁.file, ← file_issue, ← hses₂]
      rfl
    obtain ⟨hown, hother⟩ := @words_entryStore cfg g off k ses₂ hcfg (· &&& addrMask)
      (by rw [hfile]; exact hfit)
    refine ⟨hown.trans (by rw [hfile, hsame k hk]), fun j hj hjk => (hother j hjk).trans ?_⟩
    rw [hfile, hsame j hj]

/-- A table that has lost entries at most. -/
theorem Marked.setCow (h : ses.Marked g off es low) {c : CowTables} (hok : c.Ok g.blockSize)
    (hc : ∀ i, ∀ e ∈ c.buckets i, e ∈ ses.cow.buckets i) :
    ({ ses with cow := c } : Session).Marked g off es low :=
  ⟨⟨h.toPaged.setCow c fun i e he => ⟨i, e, hc i e he, rfl, rfl, rfl⟩, hok⟩,
    fun i e he => h.marked i e (hc i e he)⟩

/-- The lists of recent copies do not matter. -/
theorem Marked.setLists (h : ses.Marked g off es low) {c : CowTables}
    (hc : c.buckets = ses.cow.buckets) : ({ ses with cow := c } : Session).Marked g off es low :=
  h.setCow (h.tables.congr hc) fun i e he => by rwa [hc] at he

/-- The copy of a unit keeps the table in order. -/
theorem Tabled.copiesUnit (h : ses.Tabled g off es low) (hcfg : cfg.entrySize = 8)
    (hv : v < ses.s.fmmapLength) (hce : ce ∈ ses.cow.buckets (v / g.blockSize % bucketNum))
    (hkey : ce.faultVoffAligned = v / g.blockSize * g.blockSize)
    (hcopy : ses.CopiesUnit cfg n n' ce (v / cowUnit * cowUnit) (v / g.blockSize * g.blockSize)
      ses' fr) : ∃ es', es <+: es' ∧ ((cowUnit : ℤ) ≠ ses.s.blockSize → es' = es) ∧
      ses'.Tabled g off es' low := by
  have hok := hcopy.ok h.super.u64_blockSize h.tables hce hkey
  rcases hcopy with ⟨-, -, ops, hr⟩ | ⟨heq, -, ops, hr⟩
  · exact ⟨es, List.prefix_rfl, fun _ => rfl,
      h.toPaged.copyUnit hcfg (h.table _ ce hce) hkey hr, hok⟩
  · obtain ⟨es', rfl | ⟨-, rfl⟩, h'⟩ := h.toPaged.copyWhole hcfg hv (h.table _ ce hce) hkey hr
    · exact ⟨es', List.prefix_rfl, fun _ => rfl, h', hok⟩
    · exact ⟨_, List.prefix_append _ _, fun hne => absurd heq hne, h', hok⟩

/-- **A unit of a block of the table is copied**: the bit of the unit is set. Where the block has no
other unit, its entry is stored to as before. -/
theorem Marked.copiesUnit (h : ses.Marked g off es low) (hcfg : cfg.entrySize = 8)
    (hv : v < ses.s.fmmapLength) (hce : ce ∈ ses.cow.buckets (v / g.blockSize % bucketNum))
    (hkey : ce.faultVoffAligned = v / g.blockSize * g.blockSize)
    (hcopy : ses.CopiesUnit cfg n n' ce (v / cowUnit * cowUnit) (v / g.blockSize * g.blockSize)
      ses' fr) : ∃ es', es <+: es' ∧ ((cowUnit : ℤ) ≠ ses.s.blockSize → es' = es) ∧
      ses'.Marked g off es' low := by
  obtain ⟨k, hk⟩ := h.marked _ ce hce
  obtain ⟨b, hb, hkey', hword⟩ := hk.block
  have hb32 := h.layer.entry_lt hb
  have hu := h.super.u64_blockSize
  have hfit := h.layer.slot_lt_size hk.lt_length
  obtain ⟨hunit, hdle⟩ := g.unit_eq h.page_dvd v
  have hcow := hcopy.cow
  obtain ⟨es', hpre, hsame, ht⟩ := h.toTabled.copiesUnit hcfg hv hce hkey hcopy
  refine ⟨es', hpre, hsame, ht, fun i e he => ?_⟩
  rw [hunit] at hcopy
  rcases hcopy with ⟨hne, -, ops, hr⟩ | ⟨heq, -, ops, hr⟩
  · obtain ⟨hown, hother⟩ := words_copyUnit hcfg hk.data hk.entry hdle hfit hr
    rcases hcow with ⟨heq, -⟩ | ⟨-, -, hcow⟩
    · exact absurd heq hne
    rw [hcow, hunit, Nat.add_sub_cancel_left, bucketNumber, hu,
      Nat.mul_div_cancel _ g.blockSize_pos] at he
    rcases h.tables.mem_modify g.blockSize_pos hce hkey he with rfl | ⟨he, hne'⟩
    · refine ⟨k, MarkedAt.mono_entries ⟨hk.first, ⟨b, hb, hkey', ?_⟩, hk.data, hk.entry, ?_,
        fun hone => absurd ?_ hne⟩ hpre⟩
      · have hlt : markedWord b ce.moved ||| cowBit
          (v % g.blockSize / cowUnit * cowUnit / cowUnit) <
            2 ^ 64 := Nat.or_lt_two_pow (markedWord_lt hb32) (Nat.mod_lt _ (by norm_num))
        rw [hown, hword, Nat.mod_eq_of_lt hlt]
        rfl
      · intro d hd
        rcases List.mem_cons.mp hd with rfl | hd
        · exact ⟨Nat.dvd_mul_left _ _, lt_of_lt_of_le (Nat.lt_add_of_pos_right (by decide)) hdle⟩
        · exact hk.units d hd
      · rw [h.super.blockSize, hone]
    · obtain ⟨j, hj⟩ := h.marked i e he
      exact ⟨j, (hj.congr (hother j (hk.ne hj (by rw [hkey]; exact hne')))).mono_entries hpre⟩
  · -- a block of one unit: its entry has no mark before and none after
    have hone : g.blockSize = cowUnit := by
      have := h.super.blockSize
      omega
    obtain ⟨hown, hother⟩ := h.toPaged.words_copyWhole hcfg hv hk.lt_length (h.table _ ce hce)
      hk.data hk.entry hkey hr
    rw [copyWhole_cow hr] at he
    obtain ⟨j, hj⟩ := h.marked i e he
    refine ⟨j, MarkedAt.mono_entries ?_ hpre⟩
    by_cases hjk : j = k
    · subst hjk
      refine hj.congr (hown.trans ?_)
      have hnil : markedWord b [] = b := rfl
      rw [hword, hk.whole hone, hnil, show addrMask = 2 ^ 32 - 1 from rfl,
        Nat.and_two_pow_sub_one_eq_mod, Nat.mod_eq_of_lt hb32]
      exact Nat.mod_eq_of_lt (lt_trans hb32 (by norm_num))
    · exact hj.congr (hother j hj.lt_length hjk)

/-- **A block of the table is copied as a whole**, and has left the table: no other entry is stored
to. -/
theorem Marked.copyWhole (h : ses.Marked g off es low) (hcfg : cfg.entrySize = 8)
    (hv : v < ses.s.fmmapLength) {l₁ l₂ : List CowEntry} {c : CowTables}
    (hl : ses.cow.buckets (v / g.blockSize % bucketNum) = l₁ ++ ce :: l₂)
    (hkey : ce.faultVoffAligned = v / g.blockSize * g.blockSize)
    (hc : c.buckets = (ses.cow.setBucket (v / g.blockSize % bucketNum) (l₁ ++ l₂)).buckets)
    (hr : ({ ses with cow := c } : Session).copyWhole cfg n n' ce (v / g.blockSize * g.blockSize) =
      .ok (ses', ops)) : ∃ es', ses'.Marked g off es' low := by
  have hce : ce ∈ ses.cow.buckets (v / g.blockSize % bucketNum) := by
    rw [hl]
    exact List.mem_append_right _ List.mem_cons_self
  obtain ⟨k, hk⟩ := h.marked _ ce hce
  have hok := (h.tables.unlink g.blockSize_pos hl hkey).1.congr hc
  have hmem : ∀ i, ∀ e ∈ c.buckets i,
      e ∈ ses.cow.buckets i ∧ e.faultVoffAligned ≠ v / g.blockSize * g.blockSize := by
    intro i e he
    rw [hc] at he
    exact h.tables.mem_unlink g.blockSize_pos hl hkey he
  have h' := h.setCow hok fun i e he => (hmem i e he).1
  have hat := h.table _ ce hce
  obtain ⟨-, hother⟩ := h'.toPaged.words_copyWhole hcfg hv hk.lt_length hat hk.data hk.entry hkey hr
  have hcow := copyWhole_cow hr
  obtain ⟨es', hgrow, hpaged⟩ := h'.toPaged.copyWhole hcfg hv hat hkey hr
  have hpre : es <+: es' := by
    rcases hgrow with rfl | ⟨-, rfl⟩
    · exact List.prefix_rfl
    · exact List.prefix_append _ _
  refine ⟨es', ⟨hpaged, by rw [hcow]; exact hok⟩, fun i e he => ?_⟩
  rw [hcow] at he
  obtain ⟨hold, hne⟩ := hmem i e he
  obtain ⟨j, hj⟩ := h.marked i e hold
  exact ⟨j, (hj.congr (hother j hj.lt_length (hk.ne hj (by rw [hkey]; exact hne)))).mono_entries
    hpre⟩

/-- **`insert_ht`** in the first meta block: the entry it makes is where it says, and has no
mark. -/
theorem Marked.insertHt (h : ses.Marked g off es low) (hcfg : cfg.entrySize = 8)
    (hv : v < ses.s.fmmapLength) (hroom : es.length < g.perSeg)
    (hnone : ∀ e ∈ ses.cow.buckets (v / g.blockSize % bucketNum),
      e.faultVoffAligned ≠ v / g.blockSize * g.blockSize)
    (hr : ses.insertHt cfg n n' (v / g.blockSize * g.blockSize) = .ok (ses', ce, ops)) :
    ses'.Marked g off (es ++ [v / g.blockSize]) low := by
  obtain ⟨hpaged, -, hkey⟩ := h.toPaged.insertHt hcfg hv hr
  obtain ⟨hok, -, -, hnil, hoff, hmem, -, -⟩ := h.toTabled.insertHt_table hnone hr
  obtain ⟨s', r', nb, ops₁, ops₂, hnb, hlink, -⟩ := insertHt_ok hr
  obtain ⟨hsame, hown⟩ := h.toLayered.words_newBlock hcfg hnb
  rw [g.blockOf_block h.page_dvd (lt_of_lt_of_le hv h.length_le)] at hown
  obtain ⟨hm, hentry⟩ := h.toLayered.insertHt_locatesEntry h.page_dvd hroom hr
  -- the increment of `fg_counter` is in the first cache line of the meta block
  have hlinked : ∀ j, ses'.file.load (g.slot off j) 8 =
      ({ ses.issue ops₁ with s := s', ring := r' } : Session).file.load (g.slot off j) 8 := by
    obtain ⟨m, -, hce, hses', hops⟩ := linkEntry_ok hlink
    have hpm : m.pmTop = g.blockAt off (g.metaBlock (es.length / g.perSeg)) := by
      rw [← hm, hce]
      rfl
    have hfile : ses'.file = FileOp.run ops₂
        ({ ses.issue ops₁ with s := s', ring := r' } : Session).file := by
      rw [← file_issue, hses']
      rfl
    intro j
    rw [hfile, hops]
    refine word_congr hcfg fun a ha => ByteFile.byte_store_of_notMem ?_
    by_contra hmem
    rw [hpm] at hmem
    exact ha (Geometry.slot_not_line (i := es.length / g.perSeg) (by omega) (by omega))
  refine ⟨⟨hpaged, hok⟩, fun i e he => ?_⟩
  rcases hmem i e he with rfl | he
  · have hsome : (es ++ [v / g.blockSize])[es.length]? = some (v / g.blockSize) :=
      List.getElem?_concat_length
    refine ⟨es.length, hroom, ⟨v / g.blockSize, hsome, hkey, ?_⟩, hoff, hentry, ?_, fun _ => hnil⟩
    · rw [hlinked, hown, hnil]
      rfl
    · rw [hnil]
      intro d hd
      cases hd
  · obtain ⟨k, hk⟩ := h.marked i e he
    refine ⟨k, (hk.congr ?_).mono_entries (List.prefix_append _ _)⟩
    rw [hlinked, hsame k hk.lt_length]

/-! ### Runs -/

/-- **A step of a session in which new entries of the table are for the first meta block**: a
missing fault, a write fault, a store of the guest or an iteration of the allocator thread. -/
inductive CopiesFirst (cfg : Config) (ses : Session) : Session → Prop
  | missing {ses' : Session} {ops : List FileOp} {n n' v : ℕ} : v < ses.s.fmmapLength →
      ses.ufMonitor cfg n n' v = .ok (ses', ops) → CopiesFirst cfg ses ses'
  | copy {ses' : Session} {ops : List FileOp} {n n' v : ℕ} : v < ses.s.fmmapLength →
      (ses.NeedsBlock v → ses.s.toAllocNum ≤ ses.s.maxPerSeg) →
      ses.cowHandler cfg n n' v = .ok (ses', ops) → CopiesFirst cfg ses ses'
  | write {p x : ℕ} {e : Pte Path} (y : ℕ) : ses.pages p = some e → e.writable = true →
      x < pageSize → CopiesFirst cfg ses (ses.poke e x y)
  | tick {ses' : Session} : ses.tick cfg = .ok ses' → CopiesFirst cfg ses ses'

/-- **`cow_handler`**. -/
theorem Marked.cowHandler (h : ses.Marked g off es low) (hfine : cfg.finegrainedCow = true)
    (hv : v < ses.s.fmmapLength) (hroom : ses.NeedsBlock v → es.length < g.perSeg)
    (hr : ses.cowHandler cfg n n' v = .ok (ses', ops)) : ∃ es', ses'.Marked g off es' low := by
  have hcfg : cfg.entrySize = 8 := by rw [Config.entrySize, hfine]; rfl
  rcases h.toLayered.cowHandler_cases h.page_dvd hfine hr with ⟨rfl, -⟩ |
    ⟨c, ce, l, hl, hkey, hc, -, -, ops₂, hcopy⟩ | ⟨c, ce, hce, hkey, hc, -, -, hcopy⟩ |
    ⟨c, ses₁, ce, ops₁, hnone, hins, hc, -, hcopy⟩
  · exact ⟨es, h⟩
  · have hl' : ses.cow.buckets (v / g.blockSize % bucketNum) = [] ++ ce :: l := hl
    exact h.copyWhole hcfg hv hl' hkey hc hcopy
  · obtain ⟨es', -, -, h'⟩ := (h.setLists hc).copiesUnit hcfg hv (hc ▸ hce) hkey hcopy
    exact ⟨es', h'⟩
  · obtain ⟨-, hmem, hkey, -⟩ := h.toTabled.insertHt_table hnone hins
    have hneeds : ses.NeedsBlock v := by
      rw [NeedsBlock, h.super.u64_blockSize]
      exact searchHt_eq_none.mpr hnone
    have h₁ := h.insertHt hcfg hv (hroom hneeds) hnone hins
    have hv₁ : v < ({ ses₁ with cow := c } : Session).s.fmmapLength :=
      (insertHt_sameFixed hins).1.fmmapLength.symm ▸ hv
    obtain ⟨es', -, -, h'⟩ := (h₁.setLists hc).copiesUnit hcfg hv₁ (hc ▸ hmem) hkey hcopy
    exact ⟨es', h'⟩

/-- **Every step keeps the entries marked.** -/
theorem Marked.step (h : ses.Marked g off es low) (hfine : cfg.finegrainedCow = true)
    (hstep : ses.CopiesFirst cfg ses') : ∃ es', ses'.Marked g off es' low := by
  have hcfg : cfg.entrySize = 8 := by rw [Config.entrySize, hfine]; rfl
  cases hstep with
  | missing hv hr =>
    have hcow := ufMonitor_cow hr
    obtain ⟨es', hpre, ht⟩ := h.toTabled.of_cow_eq (.missing hv hr) hcow
    exact ⟨es', h.of_sameWords hpre ht hcow (h.toLayered.words_ufMonitor hcfg hr)⟩
  | copy hv hroom hr =>
    refine h.cowHandler hfine hv (fun hneeds => ?_) hr
    have := hroom hneeds
    rw [h.super.toAllocNum, h.super.maxPerSeg] at this
    omega
  | write y hp hw hx =>
    obtain ⟨es', hpre, ht⟩ := h.toTabled.of_cow_eq (.write y hp hw hx) rfl
    exact ⟨es', h.of_sameWords hpre ht rfl (h.toPaged.words_poke hcfg hp hw hx y)⟩
  | tick hr =>
    have hcow := (tick_ok hr).2.2.2
    obtain ⟨es', hpre, ht⟩ := h.toTabled.of_cow_eq (.tick hr) hcow
    exact ⟨es', h.of_sameWords hpre ht hcow (words_tick hr)⟩

/-- **So does every run.** -/
theorem Marked.run (h : ses.Marked g off es low) (hfine : cfg.finegrainedCow = true)
    (hrun : Relation.ReflTransGen (CopiesFirst cfg) ses ses') :
    ∃ es', ses'.Marked g off es' low := by
  induction hrun with
  | refl => exact ⟨es, h⟩
  | tail _ hstep ih =>
    obtain ⟨es₁, h₁⟩ := ih
    exact h₁.step hfine hstep

/-- **The bitmap is exact**, for a choice of the bits: the entry of each block of the table is an
entry of the first meta block, it has the number of the block in its low half, and the bit of each
unit is set if the unit is copied, and not otherwise. -/
def BitmapExact (ses : Session) (g : Geometry cfg) (off : ℕ) (bit : ℕ → ℕ) : Prop :=
  ∃ es, IsLayer g ses.file off es ∧ ∀ i, ∀ ce ∈ ses.cow.buckets i, ∃ k < g.perSeg, ∃ b,
    es[k]? = some b ∧ ce.faultVoffAligned = b * g.blockSize ∧
    ses.file.load (g.slot off k) 8 % 2 ^ 32 = b ∧
    ∀ u < g.blockSize / cowUnit, (ses.file.load (g.slot off k) 8).testBit (bit u) = true ↔
      u * cowUnit ∈ ce.moved

/-- With blocks of at most 32 units, the bits of the high half in order will do. -/
theorem Marked.bitmapExact (h : ses.Marked g off es low) (hle : g.blockSize ≤ 32 * cowUnit) :
    ses.BitmapExact g off (32 + ·) := by
  refine ⟨es, h.layer, fun i ce hce => ?_⟩
  obtain ⟨k, hk⟩ := h.marked i ce hce
  obtain ⟨b, hb, hkey, hword⟩ := hk.block
  have hb32 := h.layer.entry_lt hb
  have hlt : ∀ d ∈ ce.moved, d / cowUnit < 32 := fun d hd =>
    Nat.div_lt_of_lt_mul (by rw [Nat.mul_comm]; exact lt_of_lt_of_le (hk.units d hd).2 hle)
  refine ⟨k, hk.first, b, hb, hkey, ?_, fun u hu => ?_⟩
  · rw [hword, markedWord_mod, Nat.mod_eq_of_lt hb32]
  · rw [hword, testBit_markedWord hb32 hlt]
    constructor
    · rintro ⟨d, hd, rfl⟩
      rwa [Nat.div_mul_cancel (hk.units d hd).1]
    · intro hd
      exact ⟨_, hd, Nat.mul_div_cancel _ (by decide)⟩

/-- The session `fmmap` starts: its table is empty. -/
theorem marked_of_fmmap {length offset : ℕ} (h : IsChain g ((fs fd).getD .empty) 0 (ls ++ [es]))
    (hf : ((fs fd).getD .empty).size < 2 ^ 63) (hdvd : pageSize ∣ g.blockSize)
    (hopen : Session.fmmap cfg fs fd length offset = .ok (some ses)) :
    ∃ low, ses.Marked g (g.chainEnd 0 ls) es low := by
  obtain ⟨low, htabled⟩ := h.tabled_of_fmmap hf hdvd hopen
  obtain ⟨-, x, -, rfl⟩ := h.fmmap_ok rfl hf hopen
  exact ⟨low, htabled, fun i ce hce => by cases hce⟩

/-- The first write fault of a session: the table has an entry for its block, with the unit of the
fault as copied. -/
theorem Marked.firstCopy (h : ses.Marked g off [] low) (hfine : cfg.finegrainedCow = true)
    (hv : v < ses.s.fmmapLength) (hlt : cowUnit < g.blockSize)
    (hempty : ∀ i, ses.cow.buckets i = []) (hr : ses.cowHandler cfg n n' v = .ok (ses', ops))
    (hne : ses' ≠ ses) : ses'.Marked g off [v / g.blockSize] low ∧
      ∃ ce ∈ ses'.cow.buckets (v / g.blockSize % bucketNum),
        ce.faultVoffAligned = v / g.blockSize * g.blockSize ∧
          ce.moved = [v % g.blockSize / cowUnit * cowUnit] := by
  have hcfg : cfg.entrySize = 8 := by rw [Config.entrySize, hfine]; rfl
  rcases h.toLayered.cowHandler_cases h.page_dvd hfine hr with ⟨rfl, -⟩ |
    ⟨c, ce, l, hl, -⟩ | ⟨c, ce, hce, -⟩ | ⟨c, ses₁, ce, ops₁, hnone, hins, hc, -, hcopy⟩
  · exact absurd rfl hne
  · rw [hempty] at hl
    cases hl
  · rw [hempty] at hce
    cases hce
  · obtain ⟨-, hmem, hkey, hnil, -, -, hbs, -⟩ := h.toTabled.insertHt_table hnone hins
    have h₁ := (h.insertHt hcfg hv g.perSeg_pos hnone hins).setLists hc
    have hmem' : ce ∈ c.buckets (v / g.blockSize % bucketNum) := hc ▸ hmem
    have hv₁ : v < ({ ses₁ with cow := c } : Session).s.fmmapLength :=
      (insertHt_sameFixed hins).1.fmmapLength.symm ▸ hv
    have hne₁ : (cowUnit : ℤ) ≠ ({ ses₁ with cow := c } : Session).s.blockSize := by
      have := h₁.super.blockSize
      omega
    obtain ⟨es', -, hsame, h'⟩ := h₁.copiesUnit hcfg hv₁ hmem' hkey hcopy
    rw [hsame hne₁] at h'
    refine ⟨h', CowEntry.moveOut (v % g.blockSize / cowUnit * cowUnit) ce, ?_, hkey,
      by rw [CowEntry.moveOut, hnil]⟩
    obtain ⟨hunit, -⟩ := g.unit_eq h.page_dvd v
    have hu : u64 ({ ses₁ with cow := c } : Session).s.blockSize = g.blockSize :=
      h₁.super.u64_blockSize
    rcases hcopy.cow with ⟨heq, -⟩ | ⟨-, -, hcow⟩
    · exact absurd heq hne₁
    · rw [hcow, hunit, Nat.add_sub_cancel_left, bucketNumber, hu,
        Nat.mul_div_cancel _ g.blockSize_pos]
      exact CowTables.mem_modify_self hmem' hkey

end Session

/-- **The copy bitmap is exact for blocks of at most 32 units, and for no others.** There is a bit
of the high half of an entry for each unit of a block, with different bits for different units, such
that the bits say in every state that faults lead to which units are copied. -/
theorem bitmap_exact_iff {length offset : ℕ} {ses : Session}
    (hfine : cfg.finegrainedCow = true) (h : IsChain g ((fs fd).getD .empty) 0 (ls ++ [es]))
    (hf : ((fs fd).getD .empty).size < 2 ^ 63) (hdvd : cowUnit ∣ g.blockSize)
    (hopen : Session.fmmap cfg fs fd length offset = .ok (some ses)) :
    (∃ bit : ℕ → ℕ, (∀ u < g.blockSize / cowUnit, 32 ≤ bit u ∧ bit u < 64) ∧
      Set.InjOn bit (Set.Iio (g.blockSize / cowUnit)) ∧
      ∀ ses', Relation.ReflTransGen (Session.CopiesFirst cfg) ses ses' →
        ses'.BitmapExact g (g.chainEnd 0 ls) bit) ↔ g.blockSize ≤ 32 * cowUnit := by
  constructor
  · rintro ⟨bit, hbit, hinj, -⟩
    have hcard := Finset.card_le_card_of_injOn (s := Finset.range (g.blockSize / cowUnit))
      (t := Finset.Ico 32 64) bit
      (fun u hu => Finset.mem_coe.mpr (Finset.mem_Ico.mpr (hbit u (Finset.mem_range.mp hu))))
      (by rwa [Finset.coe_range])
    rw [Finset.card_range, Nat.card_Ico] at hcard
    obtain ⟨m, hm⟩ := hdvd
    rw [hm, Nat.mul_div_cancel_left _ (by decide)] at hcard
    rw [hm, Nat.mul_comm]
    exact Nat.mul_le_mul_right _ hcard
  · intro hle
    obtain ⟨low, hmarked⟩ := Session.marked_of_fmmap h hf hdvd hopen
    refine ⟨(32 + ·), fun u hu => ?_, fun u _ u' _ heq => Nat.add_left_cancel heq,
      fun ses' hrun => ?_⟩
    · have hlt : u < 32 := lt_of_lt_of_le hu (Nat.div_le_of_le_mul (by rwa [Nat.mul_comm]))
      exact ⟨Nat.le_add_right _ _, Nat.add_lt_add_left hlt 32⟩
    · obtain ⟨es', h'⟩ := hmarked.run hfine hrun
      exact h'.bitmapExact hle

/-- A session in which one write fault was served, in an image with a frozen layer of one block. -/
theorem exists_firstCopy (g : Geometry .shipped) (hdvd : cowUnit ∣ g.blockSize)
    (hlt : cowUnit < g.blockSize) (hbs : g.blockSize < 2 ^ 30) (hcap : 2 ≤ g.cap)
    (hv : v < g.blockSize) :
    ∃ (f : ByteFile) (ses ses' : Session) (ops : List FileOp), IsImage g f [[0]] [] ∧
      f.byte 16 = 0 ∧
      Session.fmmap .shipped (fun _ => some f) [1] (g.blockSize * 2) 0 = .ok (some ses) ∧
      ses.CopiesFirst .shipped ses' ∧ ses.cowHandler .shipped 0 0 v = .ok (ses', ops) ∧ ses' ≠ ses ∧
      ses.s.Is g (g.chainEnd 0 [[0]]) 0 ∧ (∀ i, ses.cow.buckets i = []) ∧
        ∃ low, ses'.Marked g (g.chainEnd 0 [[0]]) [0] low ∧ ∃ i, ∃ ce ∈ ses'.cow.buckets i,
        ce.faultVoffAligned = 0 ∧ ce.moved = [v / cowUnit * cowUnit] := by
  have hpos := g.blockSize_pos
  have hv0 : v / g.blockSize = 0 := Nat.div_eq_of_lt hv
  obtain ⟨f, ses, himage, hname, hopen, hopened, hroom, hlen, hglob⟩ :=
    exists_frozen g hdvd hbs hcap
  obtain ⟨e, hp, hw⟩ : ∃ e, ses.pages (v / pageSize) = some e ∧ e.writable = false :=
    hopened.protected hdvd (List.mem_singleton_self _)
      (by rw [hv0]; exact List.mem_singleton_self _) List.not_mem_nil
  have hv' : v < ses.s.fmmapLength := by
    rw [hlen]
    omega
  have hle : v ≤ u64 ((ses.globalLength : ℤ) - g.blockSize) := by
    rw [hglob]
    exact hv.le
  obtain ⟨ses', ops, hr, es', -, -, -, e', hp', hw'⟩ : ∃ ses' ops,
      ses.cowHandler .shipped 0 0 v = .ok (ses', ops) ∧ ses.Served ses' g [[0]] [] _ v :=
    (hopened.inv hdvd himage).exists_cowHandler hroom rfl hlt hv' hp hw hle fun _ =>
      hopened.super.metaNOk
  have hne : ses' ≠ ses := by
    rintro rfl
    rw [hp] at hp'
    cases hp'
    rw [hw] at hw'
    cases hw'
  have hstep : ses.CopiesFirst .shipped ses' := by
    refine .copy hv' (fun _ => ?_) hr
    have := g.perSeg_pos
    rw [hopened.super.toAllocNum, hopened.super.maxPerSeg, List.length_nil]
    omega
  have hempty : ∀ i, ses.cow.buckets i = [] := fun i => by
    rw [hopened.cow]
    rfl
  obtain ⟨low, hmarked⟩ :=
    @Session.marked_of_fmmap _ _ (fun _ => some f) [1] _ _ _ _ _ himage.isChain himage.size_lt
    hdvd hopen
  obtain ⟨h', ce, hce, hkey, hmoved⟩ := hmarked.firstCopy rfl hv' hlt hempty hr hne
  rw [hv0, Nat.zero_mul] at hkey
  rw [Nat.mod_eq_of_lt hv] at hmoved
  rw [hv0] at h'
  exact ⟨f, ses, ses', ops, himage, hname, hopen, hstep, hr, hne, hopened.super, hempty, _, h',
    _, ce, hce,
    hkey, hmoved⟩

/-- A write fault on the second unit of a block of two units. -/
theorem bitmap_exact_second : ∃ (fs : Fs) (ses ses' : Session) (ops : List FileOp),
    IsImage (Geometry.twoPages .shipped) ((fs [1]).getD .empty) [[0]] [] ∧
      Session.fmmap .shipped fs [1] (8192 * 2) 0 = .ok (some ses) ∧
      ses.cowHandler .shipped 0 0 4096 = .ok (ses', ops) ∧ (∃ i, ses'.cow.buckets i ≠ []) ∧
      ∃ bit : ℕ → ℕ, (∀ u < 2, 32 ≤ bit u ∧ bit u < 64) ∧ Set.InjOn bit (Set.Iio 2) ∧
        ses'.BitmapExact (Geometry.twoPages .shipped)
          ((Geometry.twoPages .shipped).chainEnd 0 [[0]]) bit := by
  obtain ⟨f, ses, ses', ops, himage, -, hopen, hstep, hr, -, -, -, low, -, i, ce, hce, -⟩ :=
    @exists_firstCopy 4096 (Geometry.twoPages .shipped) (by decide) (by decide) (by decide)
      (by decide)
      (by decide)
  obtain ⟨bit, hbit, hinj, hexact⟩ := (@bitmap_exact_iff .shipped (.twoPages .shipped)
    (fun _ => some f) [1] _ _ _ _ _ rfl himage.isChain himage.size_lt (by decide) hopen).mpr
    (by decide)
  exact ⟨fun _ => some f, ses, ses', ops, himage, hopen, hr, ⟨i, List.ne_nil_of_mem hce⟩, bit, hbit,
    hinj, hexact ses' (.single hstep)⟩

/-- Blocks of 64 pages, and layers of up to 4096 blocks. -/
def Geometry.manyPages (cfg : Config) : Geometry cfg where
  blockSize := 262144
  maxBlockNum := 4096
  entry_le := by
    rcases cfg.entrySize_cases with h | h <;> omega
  blockSize_lt := by norm_num
  maxBlockNum_ge := pages_ge
  maxBlockNum_lt := pages_lt

/-- **With blocks of 64 units a copied unit is not marked.** After a write fault on unit 32 of a
block, the entry of the block has no bit set. -/
theorem bitmap_misses_unit : ∃ (fs : Fs) (ses ses' : Session) (ops : List FileOp) (i : ℕ)
    (ce : CowEntry),
    IsImage (Geometry.manyPages .shipped) ((fs [1]).getD .empty) [[0]] [] ∧
      Session.fmmap .shipped fs [1] (262144 * 2) 0 = .ok (some ses) ∧
      ses.cowHandler .shipped 0 0 (32 * 4096) = .ok (ses', ops) ∧
      IsLayer (Geometry.manyPages .shipped) ses'.file
        ((Geometry.manyPages .shipped).chainEnd 0 [[0]]) [0] ∧
      ce ∈ ses'.cow.buckets i ∧ ce.faultVoffAligned = 0 ∧ ce.moved = [32 * 4096] ∧
      ce.metaEntry = (Geometry.manyPages .shipped).slot
        ((Geometry.manyPages .shipped).chainEnd 0 [[0]]) 0 ∧
      ∀ j, (ses'.file.load ce.metaEntry 8).testBit j = false := by
  obtain ⟨f, ses, ses', ops, himage, -, hopen, -, hr, -, -, -, low, h', i, ce, hce, hkey, hmoved⟩ :=
    @exists_firstCopy (32 * 4096) (Geometry.manyPages .shipped) (by decide) (by decide) (by decide)
      (by decide) (by decide)
  obtain ⟨k, hk⟩ := h'.marked i ce hce
  obtain ⟨b, hb, -, hword⟩ := hk.block
  obtain rfl : k = 0 := by
    have := hk.lt_length
    simpa using this
  cases hb
  refine ⟨fun _ => some f, ses, ses', ops, i, ce, himage, hopen, hr, h'.layer, hce, hkey, hmoved,
    hk.entry, fun j => ?_⟩
  have hzero : markedWord 0 [32 * 4096] = 0 := by decide
  rw [hk.entry, hword, hmoved, show 32 * 4096 / cowUnit * cowUnit = 32 * 4096 from rfl, hzero,
    Nat.zero_testBit]

end Pcow
