import Pcow.Range
import Mathlib.Logic.Relation

/-!
# The pages of a session

Which page of which file a page of the range maps, in every state that faults lead to. A writable
page maps its part of a data block of the last layer whose entry names the block of the page, and a
protected page is as the layers below have it (`Session.Paged`). This holds also where `insert_ht`
takes the wrong block for the meta block of an entry: the marks it leaves there are in the high
halves of words of eight bytes (`MarkWord`), which no layer reads as structure.

`reached_pages` are the consequences: nothing but the last layer is writable, and no two pages of
the range map the same page of a file.
-/

namespace Pcow

variable {cfg : Config} {g g₀ : Geometry cfg} {f f' : ByteFile} {fs : Fs} {fd name : Path}
  {off b v p : ℕ} {es : List ℕ} {ls lb : List (List ℕ)} {low : PageTable Path} {s : Super}

/-! ### Bindings that do not overlap -/

/-- Two bindings of blocks of `n` bytes to the same bytes of a file are for the same block. -/
def BlocksApart (n : ℕ) (x x' : ℕ × Path × ℕ) : Prop :=
  x.2.1 = x'.2.1 → x.2.2 < x'.2.2 + n → x'.2.2 < x.2.2 + n → x.1 = x'.1

theorem BlocksApart.symm {n : ℕ} {x x' : ℕ × Path × ℕ} (h : BlocksApart n x x') :
    BlocksApart n x' x :=
  fun hfile h₁ h₂ => (h hfile.symm h₂ h₁).symm

/-- The bindings of a layer do not overlap. -/
theorem Geometry.bindings_apart {x x' : ℕ × Path × ℕ} (h : x ∈ g.bindings fd off es)
    (h' : x' ∈ g.bindings fd off es) : BlocksApart g.blockSize x x' := by
  obtain ⟨i, hi, rfl⟩ := g.mem_bindings h
  obtain ⟨i', hi', rfl⟩ := g.mem_bindings h'
  intro _ h₁ h₂
  obtain rfl : i = i' := g.dataOff_apart h₁ h₂
  rfl

/-- The data blocks of the layers of a chain lie behind its start. -/
theorem Geometry.le_of_mem_chainBindings {x : ℕ × Path × ℕ} (h : x ∈ g.chainBindings fd off ls) :
    off ≤ x.2.2 := by
  induction ls generalizing off with
  | nil => cases h
  | cons e ls ih =>
    rw [Geometry.chainBindings, List.mem_append] at h
    rcases h with h | h
    · obtain ⟨i, hi, rfl⟩ := g.mem_bindings h
      exact Geometry.le_blockAt
    · have h₁ : off ≤ g.endOff off e.length := Geometry.le_blockAt
      exact le_trans h₁ (ih h)

/-- Nor do those of a chain of layers. -/
theorem Geometry.chainBindings_apart {x x' : ℕ × Path × ℕ} (h : x ∈ g.chainBindings fd off ls)
    (h' : x' ∈ g.chainBindings fd off ls) : BlocksApart g.blockSize x x' := by
  -- a data block of a layer ends before the next layer begins
  have hbefore : ∀ {off : ℕ} {e : List ℕ} {ls : List (List ℕ)} {y y' : ℕ × Path × ℕ},
      y ∈ g.bindings fd off e → y' ∈ g.chainBindings fd (g.endOff off e.length) ls →
      BlocksApart g.blockSize y y' := by
    intro off e ls y y' hy hy' _ _ h₂
    have h₃ := g.le_of_mem_chainBindings hy'
    obtain ⟨i, hi, rfl⟩ := g.mem_bindings hy
    have h₁ := g.blockAt_add_le off (g.dataBlock_lt hi)
    rw [Geometry.endOff] at h₃
    simp only [Geometry.dataOff] at h₂
    omega
  induction ls generalizing off with
  | nil => cases h
  | cons e ls ih =>
    rw [Geometry.chainBindings, List.mem_append] at h h'
    rcases h with h | h
    · rcases h' with h' | h'
      · exact g.bindings_apart h h'
      · exact hbefore h h'
    · rcases h' with h' | h'
      · exact (hbefore h' h).symm
      · exact ih h h'

/-- What the layers below and the base bind does not overlap. -/
theorem BaseIs.lowBindings_apart {base : List (ℕ × Path × ℕ)} (hbase : BaseIs g fs name base)
    (hne : ∀ x ∈ base, x.2.1 ≠ fd) {b b' : ℕ} {y y' : Path × ℕ}
    (h : g.lowBindings base fd ls b = some y) (h' : g.lowBindings base fd ls b' = some y') :
    BlocksApart g.blockSize (b, y) (b', y') := by
  have hapart : ∀ x ∈ base, ∀ x' ∈ base, BlocksApart g.blockSize x x' := by
    intro x hx x' hx'
    rcases hbase with ⟨-, rfl⟩ | ⟨-, -, rfl⟩ | ⟨-, g₀, hbs, ls₀, -, -, -, rfl⟩
    · cases hx
    · cases hx
    · rw [← hbs]
      exact g₀.chainBindings_apart hx hx'
  rcases List.mem_append.mp (PageTable.mem_of_lastOf h) with hm | hm
  · rcases List.mem_append.mp (PageTable.mem_of_lastOf h') with hm' | hm'
    · exact hapart _ hm _ hm'
    · exact fun hfile => absurd (hfile.trans (g.mem_chainBindings hm').1) (hne _ hm)
  · rcases List.mem_append.mp (PageTable.mem_of_lastOf h') with hm' | hm'
    · exact fun hfile => absurd (hfile.symm.trans (g.mem_chainBindings hm).1) (hne _ hm')
    · exact g.chainBindings_apart hm hm'

/-- Two pages of one block at overlapping offsets are the same. -/
theorem page_eq_of_overlap {n o p' : ℕ}
    (hb : p * pageSize / n = p' * pageSize / n)
    (h₁ : o + p * pageSize % n < o + p' * pageSize % n + pageSize)
    (h₂ : o + p' * pageSize % n < o + p * pageSize % n + pageSize) : p = p' := by
  have hdiv := Nat.div_add_mod (p * pageSize) n
  have hdiv' := Nat.div_add_mod (p' * pageSize) n
  rw [hb] at hdiv
  rw [show pageSize = 4096 from rfl] at *
  omega

/-- The pages that bindings of blocks below the last layer map. -/
def Geometry.lowPages (g : Geometry cfg) (low : ℕ → Option (Path × ℕ)) : PageTable Path :=
  fun p => lowerPlace g.blockSize low (p * pageSize)

/-- The pages of the layers below do not overlap either. -/
theorem BaseIs.lowPages_apart {base : List (ℕ × Path × ℕ)} (hbase : BaseIs g fs name base)
    (hdvd : pageSize ∣ g.blockSize) (hne : ∀ x ∈ base, x.2.1 ≠ fd) {p p' : ℕ} {e e' : Pte Path}
    (h : g.lowPages (g.lowBindings base fd ls) p = some e)
    (h' : g.lowPages (g.lowBindings base fd ls) p' = some e') (hfile : e.file = e'.file)
    (h₁ : e.off < e'.off + pageSize) (h₂ : e'.off < e.off + pageSize) : p = p' := by
  obtain ⟨y, hy, rfl⟩ := Option.map_eq_some_iff.mp h
  obtain ⟨y', hy', rfl⟩ := Option.map_eq_some_iff.mp h'
  have hm := page_mod_le hdvd g.blockSize_pos p
  have hm' := page_mod_le hdvd g.blockSize_pos p'
  simp only at hfile h₁ h₂
  have hb := hbase.lowBindings_apart hne hy hy' hfile (by simp only; omega) (by simp only; omega)
  simp only at hb
  rw [hb, hy'] at hy
  cases hy
  exact page_eq_of_overlap hb h₁ h₂

/-! ### Marks -/

/-- **A word whose high half may be marked**: it is none of the two words of the super block of the
layer. -/
def MarkWord (off a : ℕ) : Prop := 8 ∣ a ∧ a ≠ off ∧ a ≠ off + 8

/-- The high half of such a word is not read as structure. Numbers of blocks are the low halves
of words, and counters the first halves of pages. -/
theorem MarkWord.not_structByte {a x k : ℕ} (h : MarkWord off a) (hcfg : cfg.entrySize = 8)
    (hdvd : pageSize ∣ g.blockSize) (hoff : pageSize ∣ off) (h₁ : a + 4 ≤ x) (h₂ : x < a + 8) :
    ¬StructByte g off k x := by
  obtain ⟨⟨q, rfl⟩, hne₁, hne₂⟩ := h
  obtain ⟨B, hB⟩ := hdvd
  obtain ⟨o, rfl⟩ := hoff
  have hblock : ∀ i, ∃ z, g.blockAt (pageSize * o) i = 8 * z := by
    intro i
    refine ⟨512 * (o + B * i), ?_⟩
    rw [Geometry.blockAt, hB]
    ring
  have ho : pageSize * o = 8 * (512 * o) := by ring
  rintro (⟨h₃, h₄⟩ | ⟨i, -, h₃, h₄⟩ | ⟨i, -, h₃, h₄⟩)
  · omega
  · obtain ⟨z, hz⟩ := hblock (g.metaBlock i)
    omega
  · obtain ⟨z, hz⟩ := hblock (g.metaBlock (i / g.perSeg))
    rw [Geometry.slot, hz, hcfg] at h₃ h₄
    omega

/-- The block that `insert_ht` takes for the meta block of an entry is at the distance of one block
from the super block, modulo `2 ^ 36`: the number it computes is a multiple of the square of the
page size. -/
theorem Super.Is.metaOff_metaN {k : ℕ} (hs : s.Is g off k) (hdvd : pageSize ∣ g.blockSize)
    (hlt : g.blockAt off (g.metaBlock (g.lastSeg k)) < 2 ^ 64) :
    s.metaOff (Session.metaN s) % 2 ^ 36 = (off + g.blockSize) % 2 ^ 36 := by
  obtain ⟨B, hB⟩ := hdvd
  have hn : (2 ^ 24 : ℤ) ∣ Session.metaN s := by
    have hz : (2 ^ 24 : ℤ) ∣ ((g.lastSeg k * g.blockSize * g.blockSize : ℕ) : ℤ) := by
      refine ⟨g.lastSeg k * B * B, ?_⟩
      rw [hB]
      push_cast
      ring
    rw [hs.metaN hlt, i32]
    refine (Int.dvd_iff_dvd_of_dvd_sub ?_).mp hz
    exact Int.dvd_trans ⟨2 ^ 8, by norm_num⟩ Int.dvd_self_sub_bmod
  obtain ⟨m, hm⟩ := hn
  have hne : Session.metaN s ≠ -1 := by omega
  rw [Super.metaOff, if_neg hne, hm, hs.myOff, hs.blockSize, hs.maxPerSeg]
  have hmul : (2 ^ 24 * m * ((g.perSeg : ℤ) + 1) * (g.blockSize : ℤ)) =
      2 ^ 36 * (m * (g.perSeg + 1) * B) := by
    rw [hB]
    push_cast
    ring
  rw [hmul]
  generalize m * ((g.perSeg : ℤ) + 1) * (B : ℤ) = t
  rw [u64]
  omega

theorem markWord_of_mod {a d : ℕ} (hoff : 8 ∣ off) (hd : 8 ∣ d) (h₁ : 16 ≤ d) (h₂ : d < 2 ^ 36)
    (ha : a % 2 ^ 36 = (off + d) % 2 ^ 36) : MarkWord off a := by
  refine ⟨?_, ?_, ?_⟩
  · omega
  · omega
  · omega

theorem readMeta_pmTop {k : ℤ} {m : Meta} (h : readMeta f s k = .ok m) :
    m.pmTop = s.metaOff k := by
  rw [readMeta] at h
  split_ifs at h
  exact congrArg Meta.pmTop (Except.ok.inj h).symm

/-- **Where `insert_ht` marks**: the meta block it takes for that of the entry, and the slot in
it. -/
theorem Super.Is.markWords {k : ℕ} (hs : s.Is g off (k + 1)) (hcfg : cfg.entrySize = 8)
    (hdvd : pageSize ∣ g.blockSize) (hoff : pageSize ∣ off)
    (hlt : g.blockAt off (g.metaBlock (g.lastSeg (k + 1))) < 2 ^ 64) :
    MarkWord off (s.metaOff (Session.metaN s)) ∧
      MarkWord off (u64 (s.metaOff (Session.metaN s) + (clSize : ℕ) +
        (cfg.entrySize : ℕ) * (s.activeMeta.counter - 1))) := by
  have hmod := hs.metaOff_metaN hdvd hlt
  have hpos : g.lastSeg (k + 1) * g.perSeg ≤ k := Nat.div_mul_le_self k g.perSeg
  have hper := g.counter_le (k := k + 1)
  have hmul := g.perSeg_mul_le
  have hbs := g.blockSize_lt
  have hbs' := g.entry_le
  rw [hcfg] at hmul hbs' ⊢
  have hoff8 : 8 ∣ off := Nat.dvd_trans (by norm_num) hoff
  have hbs8 : 8 ∣ g.blockSize := Nat.dvd_trans (by norm_num) hdvd
  refine ⟨markWord_of_mod hoff8 hbs8 (by omega) (by omega) hmod, ?_⟩
  obtain ⟨j, hj⟩ : ∃ j, k = g.lastSeg (k + 1) * g.perSeg + j := ⟨_, (Nat.add_sub_cancel' hpos).symm⟩
  have hc : s.activeMeta.counter = (j : ℤ) + 1 := by
    rw [hs.counter]
    omega
  refine @markWord_of_mod off _ (g.blockSize + 64 + 8 * j) hoff8 (by omega) (by omega) (by omega) ?_
  rw [hc, show ((clSize : ℕ) : ℤ) = 64 from rfl, u64]
  omega

namespace Session

variable {ses ses' : Session} {n n' : ℕ} {ops : List FileOp}

/-- A byte of a mapped page is stored to. -/
def poke (ses : Session) (e : Pte Path) (x y : ℕ) : Session :=
  { ses with
    fs := Function.update ses.fs e.file
      (some (((ses.fs e.file).getD .empty).store (e.off + x) 1 y)) }

/-- It is stored to the image, if the page is of the image. -/
theorem file_poke {e : Pte Path} (hf : e.file = ses.s.fd) (x y : ℕ) :
    (ses.poke e x y).file = ses.file.store (e.off + x) 1 y := by
  rw [Session.poke, hf, file]
  simp only [Function.update_self, Option.getD_some]
  rfl

/-! ### The last layer of a session -/

/-- The last layer of the image file is in order, and so is what the session knows of it. -/
structure Layered (ses : Session) (g : Geometry cfg) (off : ℕ) (es : List ℕ) : Prop where
  layer : IsLayer g ses.file off es
  super : ses.s.Is g off es.length
  ring : RingInv g ses.file off es.length ses.s ses.ring
  size_lt : ses.file.size < 2 ^ 63

/-- Operations that keep the size of the file and the structure of the layer. -/
theorem Layered.issue (h : ses.Layered g off es)
    (hsz : (FileOp.run ops ses.file).size = ses.file.size)
    (hb : ∀ a, StructByte g off es.length a →
      (FileOp.run ops ses.file).byte a = ses.file.byte a) : (ses.issue ops).Layered g off es := by
  refine ⟨?_, h.super, ?_, ?_⟩
  · rw [file_issue]
    exact h.layer.congr (by rw [hsz]; exact h.layer.size_le) hb
  · rw [file_issue]
    exact h.ring.of_size hsz
  · rw [file_issue, hsz]
    exact h.size_lt

/-- `new_block`. -/
theorem Layered.newBlock (h : ses.Layered g off es) {faultOff : ℕ} {s' : Super} {r' : Ring}
    {nb : NewBlock}
    (hr : newBlock cfg ses.file ses.s ses.ring n n' faultOff = .ok (s', r', nb, ops)) :
    ({ ses.issue ops with s := s', ring := r' } : Session).Layered g off
        (es ++ [g.blockOf faultOff]) ∧
      s'.fd = ses.s.fd ∧ s'.fmmapLength = ses.s.fmmapLength ∧
      nb.blockOff = g.dataOff off es.length := by
  obtain ⟨-, rfl, hs', henv, happ, hsz, hring'⟩ := h.layer.newBlock h.size_lt h.super h.ring hr
  have hfile : ({ ses.issue ops with s := s', ring := r' } : Session).file =
      FileOp.run ops ses.file := file_issue_of_fd henv.1
  refine ⟨⟨hfile ▸ happ.layer, ?_, ?_, by rw [hfile]; exact hsz⟩, henv.1, henv.2, rfl⟩
  · rw [List.length_append]
    exact hs'
  · rw [List.length_append]
    exact hfile ▸ hring'

/-- A copy into a data block. -/
theorem Layered.copy (h : ses.Layered g off es) (i d len : ℕ) (src : ℕ → UInt8)
    (post : List FileOp) (hi : i < es.length) (hle : d + len ≤ g.blockSize)
    (hpost : ∀ x ∈ post, x.IsBarrier) :
    (ses.issue (FileOp.memcpy (g.dataOff off i + d) len src ++ post)).Layered g off es := by
  have hrun : FileOp.run (FileOp.memcpy (g.dataOff off i + d) len src ++ post) ses.file =
      FileOp.run (FileOp.memcpy (g.dataOff off i + d) len src) ses.file := by
    rw [FileOp.run_append, FileOp.run_of_barriers hpost]
  refine h.issue ?_ fun a ha => ?_
  · rw [hrun]
    exact FileOp.size_run_of_inPlace fun o ho => FileOp.inPlace_memcpy ho
  · rw [hrun]
    refine FileOp.byte_run_of_not_touches fun o ho ht => ?_
    have hmem := FileOp.touches_memcpy ho ht
    exact (Geometry.quiet_of_data hi (by omega) (by omega)).2.2 ha

/-- A mark in the high half of a word. -/
theorem Layered.mark (h : ses.Layered g off es) {a : ℕ} (hdvd : pageSize ∣ g.blockSize)
    (hoff : pageSize ∣ off) (hcfg : cfg.entrySize = 8) (ha : MarkWord off a)
    (hsz : (FileOp.run ops ses.file).size = ses.file.size)
    (hb : ∀ x, x < a + 4 ∨ a + 8 ≤ x → (FileOp.run ops ses.file).byte x = ses.file.byte x) :
    (ses.issue ops).Layered g off es := by
  refine h.issue hsz fun x hx => hb x ?_
  by_contra hnot
  obtain ⟨h₁, h₂⟩ := not_or.mp hnot
  exact ha.not_structByte hcfg hdvd hoff (by omega) (by omega) hx

/-- A store into a data block. -/
theorem Layered.poke (h : ses.Layered g off es) {e : Pte Path} {i x : ℕ} (hf : e.file = ses.s.fd)
    (hi : i < es.length) (hle : g.dataOff off i ≤ e.off + x)
    (hlt : e.off + x < g.dataOff off i + g.blockSize) (y : ℕ) :
    (ses.poke e x y).Layered g off es := by
  have hissue : (ses.issue [.store (e.off + x) 1 y]).Layered g off es := by
    refine h.issue rfl fun a ha => ByteFile.byte_store_of_notMem ?_
    by_contra hmem
    exact (Geometry.quiet_of_data hi (by omega) (by omega)).2.2 ha
  rw [Session.poke, hf]
  exact hissue

/-- An iteration of the allocator thread. -/
theorem Layered.tick (h : ses.Layered g off es) (hr : ses.tick cfg = .ok ses') :
    ses'.Layered g off es := by
  have hbyte := tick_byte hr
  rcases tick_cases hr with ⟨-, rfl⟩ | ⟨hpre, s', r', ops, hal, rfl⟩
  · exact h
  · obtain ⟨hring, hsame, -, -⟩ := (h.ring hpre).allocate h.super hal
    have hfd : s'.fd = ses.s.fd := by rw [hsame]
    have hfile : ({ ses.issue ops with s := s', ring := r' } : Session).file =
        FileOp.run ops ses.file := file_issue_of_fd hfd
    rw [hfile] at hbyte
    refine ⟨?_, h.super.sameLayer hsame, fun _ => hfile ▸ hring, by rw [hfile]; exact hring.size_lt⟩
    rw [hfile]
    exact h.layer.congr (le_trans h.layer.size_le FileOp.size_le_size_run) fun a _ => by rw [hbyte]

/-- The second half of `insert_ht`: the mark is in the field `fg_counter` of whatever block was
taken for the meta block, and the slot is one that may be marked. -/
theorem Layered.linkEntry (h : ses.Layered g off (es ++ [b])) (hcfg : cfg.entrySize = 8)
    (hdvd : pageSize ∣ g.blockSize) (hoff : pageSize ∣ off) {nb : NewBlock} {key : ℕ}
    {ce : CowEntry}
    (hr : ses.linkEntry cfg nb key = .ok (ses', ce, ops)) :
    ses'.Layered g off (es ++ [b]) ∧ MarkWord off ce.metaEntry ∧ ses'.s = ses.s := by
  obtain ⟨m, hread, rfl, rfl, rfl⟩ := linkEntry_ok hr
  have hlt : g.blockAt off (g.metaBlock (g.lastSeg (es.length + 1))) < 2 ^ 64 := by
    have := h.layer.blockAt_lt h.size_lt (g.metaBlock_lt le_rfl).le
    rwa [List.length_append] at this
  have hsuper : ses.s.Is g off (es.length + 1) := by
    have := h.super
    rwa [List.length_append] at this
  obtain ⟨hmark₁, hmark₂⟩ := hsuper.markWords hcfg hdvd hoff hlt
  have hm : m.pmTop = ses.s.metaOff (metaN ses.s) := readMeta_pmTop hread
  have hmarked : (ses.issue (fgCounterOps ses.file m)).Layered g off (es ++ [b]) := by
    refine h.mark hdvd hoff hcfg hmark₁ rfl fun x hx => ?_
    rw [← hm] at hx
    exact ByteFile.byte_store_of_notMem (by omega)
  rw [← hm] at hmark₂
  exact ⟨⟨hmarked.layer, hmarked.super, hmarked.ring, hmarked.size_lt⟩, hmark₂, rfl⟩

end Session

/-! ### Pages and entries -/

/-- The last layer has an entry for the block `b`, with its data block at `o`. -/
def Geometry.HasBlock (g : Geometry cfg) (off : ℕ) (es : List ℕ) (b o : ℕ) : Prop :=
  ∃ i, es[i]? = some b ∧ o = g.dataOff off i

/-- **What a page of the range maps**: if it is writable, its part of a data block of the last layer
whose entry names its block, and otherwise what the layers below have for it. -/
def PageOk (g : Geometry cfg) (fd : Path) (off : ℕ) (es : List ℕ) (low : PageTable Path)
    (p : ℕ) (e : Pte Path) : Prop :=
  (e.writable = true ∧ e.file = fd ∧ ∃ o, g.HasBlock off es (p * pageSize / g.blockSize) o ∧
    e.off = o + p * pageSize % g.blockSize) ∨
  (e.writable = false ∧ low p = some e)

/-- What an entry of the table of incomplete blocks names: the data block of its block, and a word
that may be marked. -/
structure EntryAt (g : Geometry cfg) (off : ℕ) (es : List ℕ) (ce : CowEntry) : Prop where
  block : ∃ b, ce.faultVoffAligned = b * g.blockSize ∧ g.HasBlock off es b ce.blockOff
  mark : MarkWord off ce.metaEntry

section PageOk

variable {o : ℕ} {es' : List ℕ} {ce : CowEntry} {e : Pte Path}

theorem Geometry.HasBlock.append (h : g.HasBlock off es b o) : g.HasBlock off (es ++ es') b o := by
  obtain ⟨i, hi, ho⟩ := h
  have hlt := (List.getElem?_eq_some_iff.mp hi).1
  exact ⟨i, by rw [List.getElem?_append_left hlt, hi], ho⟩

theorem Geometry.hasBlock_last : g.HasBlock off (es ++ [b]) b (g.dataOff off es.length) :=
  ⟨es.length, by rw [List.getElem?_concat_length], rfl⟩

theorem PageOk.append (h : PageOk g fd off es low p e) : PageOk g fd off (es ++ es') low p e := by
  rcases h with ⟨hw, hf, o, ho, he⟩ | h
  · exact Or.inl ⟨hw, hf, o, ho.append, he⟩
  · exact Or.inr h

theorem EntryAt.append (h : EntryAt g off es ce) : EntryAt g off (es ++ es') ce := by
  obtain ⟨⟨b, hb, ho⟩, hmark⟩ := h
  exact ⟨⟨b, hb, ho.append⟩, hmark⟩

/-- An entry with this key is of this block. -/
theorem EntryAt.hasBlock (h : EntryAt g off es ce) (hkey : ce.faultVoffAligned = b * g.blockSize) :
    g.HasBlock off es b ce.blockOff := by
  obtain ⟨⟨b', hb', ho⟩, -⟩ := h
  obtain rfl : b = b' := Nat.eq_of_mul_eq_mul_right g.blockSize_pos (hkey.symm.trans hb')
  exact ho

/-- **A part of a data block, mapped at its place in the block.** -/
theorem pageOk_part {d len : ℕ} (h : g.HasBlock off es b o) (hle : d + len ≤ g.blockSize)
    (hp : PageTable.InRange (b * g.blockSize + d) len p) :
    PageOk g fd off es low p ⟨fd, o + d + (p * pageSize - (b * g.blockSize + d)), true⟩ := by
  obtain ⟨h₁, h₂⟩ := hp
  have hpos := g.blockSize_pos
  have hdiv : p * pageSize / g.blockSize = b :=
    Nat.div_eq_of_lt_le (by omega) (by rw [Nat.add_mul]; omega)
  have hmod := Nat.div_add_mod' (p * pageSize) g.blockSize
  rw [hdiv] at hmod
  refine Or.inl ⟨rfl, rfl, o, by rwa [hdiv], ?_⟩
  simp only
  omega

end PageOk

namespace Session

variable {ses ses' : Session} {n n' : ℕ} {ops : List FileOp}

/-- **The pages of a session are in order**, and so are the last layer and the table of incomplete
blocks. Of the layers below, which the table `low` maps, those of the image itself lie before the
last one. -/
structure Paged (ses : Session) (g : Geometry cfg) (off : ℕ) (es : List ℕ)
    (low : PageTable Path) : Prop extends ses.Layered g off es where
  page_dvd : pageSize ∣ g.blockSize
  off_dvd : pageSize ∣ off
  length_le : ses.s.fmmapLength ≤ regLen
  below : ∀ p e, low p = some e → e.file = ses.s.fd → e.off + pageSize ≤ off
  page : ∀ p e, ses.pages p = some e → PageOk g ses.s.fd off es low p e
  table : ∀ i, ∀ ce ∈ ses.cow.buckets i, EntryAt g off es ce

/-- **A step**: the layer stays in order and grows at most, and every page and every entry that is
not as it was is in order. -/
theorem Paged.of_layered (h : ses.Paged g off es low) (es' : List ℕ)
    (hl : ses'.Layered g off (es ++ es')) (hfd : ses'.s.fd = ses.s.fd)
    (hlen : ses'.s.fmmapLength = ses.s.fmmapLength)
    (hpages : ∀ p e, ses'.pages p = some e → ses.pages p = some e ∨
      PageOk g ses.s.fd off (es ++ es') low p e)
    (htable : ∀ i, ∀ ce ∈ ses'.cow.buckets i, (∃ j, ce ∈ ses.cow.buckets j) ∨
      EntryAt g off (es ++ es') ce) : ses'.Paged g off (es ++ es') low := by
  refine ⟨hl, h.page_dvd, h.off_dvd, hlen ▸ h.length_le,
    fun p e he hf => h.below p e he (hf.trans hfd), fun p e he => ?_, fun i ce hce => ?_⟩
  · rw [hfd]
    rcases hpages p e he with hold | hnew
    · exact (h.page p e hold).append
    · exact hnew
  · rcases htable i ce hce with ⟨j, hold⟩ | hnew
    · exact (h.table j ce hold).append
    · exact hnew

/-- The same for a step after which the layer has the same entries. -/
theorem Paged.of_layered_same (h : ses.Paged g off es low) (hl : ses'.Layered g off es)
    (hfd : ses'.s.fd = ses.s.fd) (hlen : ses'.s.fmmapLength = ses.s.fmmapLength)
    (hpages : ∀ p e, ses'.pages p = some e → ses.pages p = some e ∨
      PageOk g ses.s.fd off es low p e)
    (htable : ∀ i, ∀ ce ∈ ses'.cow.buckets i, (∃ j, ce ∈ ses.cow.buckets j) ∨
      EntryAt g off es ce) : ses'.Paged g off es low := by
  have hnil : es ++ [] = es := List.append_nil es
  have := h.of_layered [] (hnil.symm ▸ hl) hfd hlen (by simpa only [hnil] using hpages)
    (by simpa only [hnil] using htable)
  rwa [hnil] at this

/-- Pages after a part of a block was mapped. -/
theorem page_mapRange {t : PageTable Path} {o d len : ℕ} {e : Pte Path}
    (hb : g.HasBlock off es b o) (hle : d + len ≤ g.blockSize)
    (he : t.mapRange (b * g.blockSize + d) len fd (o + d) true p = some e) :
    t p = some e ∨ PageOk g fd off es low p e := by
  by_cases hp : PageTable.InRange (b * g.blockSize + d) len p
  · rw [PageTable.mapRange_of_inRange hp] at he
    cases he
    exact Or.inr (pageOk_part hb hle hp)
  · rw [PageTable.mapRange_of_not_inRange hp] at he
    exact Or.inl he

/-! ### The table -/

theorem mem_setBucket {c : CowTables} {l : List CowEntry} {i j : ℕ} {e : CowEntry}
    (h : e ∈ (c.setBucket j l).buckets i) : e ∈ l ∨ e ∈ c.buckets i := by
  change e ∈ Function.update c.buckets j l i at h
  by_cases hi : i = j
  · rw [hi, Function.update_self] at h
    exact Or.inl h
  · rw [Function.update_of_ne hi] at h
    exact Or.inr h

theorem mem_modify_cases {c : CowTables} {F : CowEntry → CowEntry} {i j key : ℕ} {e : CowEntry}
    (h : e ∈ (c.modify j key F).buckets i) : ∃ k, ∃ e₀ ∈ c.buckets k, e = F e₀ ∨ e = e₀ := by
  rcases mem_setBucket h with h | h
  · obtain ⟨e₀, he₀, rfl⟩ := List.mem_map.mp h
    refine ⟨j, e₀, he₀, ?_⟩
    split
    · exact Or.inl rfl
    · exact Or.inr rfl
  · exact ⟨i, e, h, Or.inr rfl⟩

/-! ### The handlers -/

/-- A new block, for the block of an offset of the range. -/
theorem Paged.newBlock (h : ses.Paged g off es low) (hv : v < ses.s.fmmapLength) {s' : Super}
    {r' : Ring} {nb : NewBlock}
    (hr : newBlock cfg ses.file ses.s ses.ring n n' (v / g.blockSize * g.blockSize) =
      .ok (s', r', nb, ops)) :
    ({ ses.issue ops with s := s', ring := r' } : Session).Paged g off
        (es ++ [v / g.blockSize]) low ∧
      s'.fd = ses.s.fd ∧ s'.fmmapLength = ses.s.fmmapLength ∧
      nb.blockOff = g.dataOff off es.length := by
  obtain ⟨hl, hfd, hlen, hnb⟩ := h.toLayered.newBlock hr
  rw [g.blockOf_block h.page_dvd (lt_of_lt_of_le hv h.length_le)] at hl
  exact ⟨h.of_layered _ hl hfd hlen (fun p e he => Or.inl he) fun i ce hce => Or.inl ⟨i, hce⟩,
    hfd, hlen, hnb⟩

/-- A new block is mapped at the block it is for. -/
theorem Paged.mapNew (h : ses.Paged g off es low) (hv : v < ses.s.fmmapLength) {s' : Super}
    {r' : Ring} {nb : NewBlock}
    (hr : Pcow.newBlock cfg ses.file ses.s ses.ring n n' (v / g.blockSize * g.blockSize) =
      .ok (s', r', nb, ops))
    (hses' : ses' = ({ ses.issue ops with s := s', ring := r' } : Session).remap
      (.mmap (v / g.blockSize * g.blockSize) g.blockSize ses.s.fd nb.blockOff true)) :
    ses'.Paged g off (es ++ [v / g.blockSize]) low ∧
      ses'.pages = ses.pages.mapRange (v / g.blockSize * g.blockSize) g.blockSize ses.s.fd
        (g.dataOff off es.length) true := by
  obtain ⟨h', hfd, -, hoff⟩ := h.newBlock hv hr
  subst hses'
  refine ⟨h'.of_layered_same ⟨h'.layer, h'.super, h'.ring, h'.size_lt⟩ rfl rfl
    (fun p e he => ?_) fun i ce hce => Or.inl ⟨i, hce⟩, by rw [← hoff]; rfl⟩
  refine page_mapRange (d := 0) g.hasBlock_last (Nat.zero_add _).le ?_
  rw [Nat.add_zero, Nat.add_zero, ← hoff]
  simp only [hfd]
  exact he

/-- **`uf_monitor`**: it does nothing, or appends an entry for the block of the fault and maps the
data block. -/
theorem Paged.ufMonitor (h : ses.Paged g off es low) (hv : v < ses.s.fmmapLength)
    (hr : ses.ufMonitor cfg n n' v = .ok (ses', ops)) :
    ses' = ses ∨ (ses'.Paged g off (es ++ [v / g.blockSize]) low ∧
      ses'.pages = ses.pages.mapRange (v / g.blockSize * g.blockSize) g.blockSize ses.s.fd
        (g.dataOff off es.length) true) := by
  rcases ufMonitor_cases hr with ⟨rfl, -⟩ | ⟨s', r', nb, hnb, hses'⟩
  · exact Or.inl rfl
  · rw [h.super.u64_blockSize, div_page h.page_dvd] at hnb hses'
    exact Or.inr (h.mapNew hv hnb hses')

/-- Operations on the image that keep its last layer in order. -/
theorem Paged.issue (h : ses.Paged g off es low) (hl : (ses.issue ops).Layered g off es) :
    (ses.issue ops).Paged g off es low :=
  h.of_layered_same hl rfl rfl (fun _ _ he => Or.inl he) fun i _ hce => Or.inl ⟨i, hce⟩

/-- A copy into a data block, and barriers behind it. -/
theorem Paged.copy (h : ses.Paged g off es low) {o d len : ℕ} (src : ℕ → UInt8)
    (post : List FileOp) (hb : g.HasBlock off es b o) (hle : d + len ≤ g.blockSize)
    (hpost : ∀ x ∈ post, x.IsBarrier) :
    (ses.issue (FileOp.memcpy (o + d) len src ++ post)).Paged g off es low := by
  obtain ⟨i, hi, rfl⟩ := hb
  have hlt := (List.getElem?_eq_some_iff.mp hi).1
  exact h.issue (h.toLayered.copy i d len src post hlt hle hpost)

/-- `uf_monitor` looks only at the block of a fault. -/
theorem ufMonitor_congr {v' : ℕ} (hdvd : pageSize ∣ u64 ses.s.blockSize)
    (h : v / u64 ses.s.blockSize = v' / u64 ses.s.blockSize) :
    ses.ufMonitor cfg n n' v = ses.ufMonitor cfg n n' v' := by
  rw [Session.ufMonitor, Session.ufMonitor]
  simp only [div_page hdvd, h]

/-- **A copy of a block with a missing page**: `uf_monitor` appends an entry for the same block. -/
theorem Paged.copyMissing (h : ses.Paged g off es low) (hv : v < ses.s.fmmapLength) {o i : ℕ}
    (hb : g.HasBlock off es b o)
    (hmiss : ses.firstMissing (v / g.blockSize * g.blockSize) = some i)
    (hr : ses.copyMissing cfg n n' o (v / g.blockSize * g.blockSize) i = .ok (ses', ops)) :
    ses'.Paged g off (es ++ [v / g.blockSize]) low ∧ ses'.s.fd = ses.s.fd := by
  have hu := h.super.u64_blockSize
  obtain ⟨hle, -⟩ := firstMissing_eq_some hmiss
  rw [hu] at hle
  obtain ⟨ses₂, ops₂, hmon, hfull, rfl, -⟩ := copyMissing_ok hr
  have h₁ := h.copy (d := 0) (ses.source (v / g.blockSize * g.blockSize)) [] hb
    (show 0 + i * pageSize ≤ g.blockSize by omega) fun x hx => by cases hx
  rw [List.append_nil, Nat.add_zero] at h₁
  have hu₁ := h₁.super.u64_blockSize
  rw [@ufMonitor_congr _ _ _ _ _ v (hu₁.symm ▸ h.page_dvd) (by rw [hu₁, add_page_div hle])] at hmon
  rcases h₁.ufMonitor hv hmon with rfl | ⟨h₂, -⟩
  · -- the fault is there again
    have hagain : ses.firstMissing (v / g.blockSize * g.blockSize) = none := hfull
    rw [hmiss] at hagain
    cases hagain
  · have hfd := (ufMonitor_confined (hu₁.symm ▸ h.page_dvd) (hu₁.symm ▸ g.blockSize_pos) hmon)
    have h₃ := h₂.copy (d := i * pageSize)
      (ses₂.source (v / g.blockSize * g.blockSize + i * pageSize)) [] hb.append
      (show i * pageSize + (u64 ses.s.blockSize - i * pageSize) ≤ g.blockSize by omega)
      fun x hx => by cases hx
    rw [List.append_nil] at h₃
    exact ⟨h₃, hfd.super.fd⟩

/-- A data block is mapped at its place. -/
theorem Paged.remap (h : ses.Paged g off es low) {o d len : ℕ} (hb : g.HasBlock off es b o)
    (hle : d + len ≤ g.blockSize) :
    (ses.remap (.mremap (b * g.blockSize + d) len ses.s.fd (o + d))).Paged g off es low :=
  h.of_layered_same ⟨h.layer, h.super, h.ring, h.size_lt⟩ rfl rfl
    (fun _ _ he => page_mapRange hb hle he) fun i _ hce => Or.inl ⟨i, hce⟩

/-- **`cow_handler` without fine-grained copies**: a block is appended, and another one where a page
of the block is missing. -/
theorem Paged.copyPlain (h : ses.Paged g off es low) (hv : v < ses.s.fmmapLength)
    (hr : ses.copyPlain cfg n n' (v / g.blockSize * g.blockSize) = .ok (ses', ops)) :
    ∃ es', (es' = es ++ [v / g.blockSize] ∨
      ses.firstMissing (v / g.blockSize * g.blockSize) ≠ none ∧
        es' = es ++ [v / g.blockSize, v / g.blockSize]) ∧ ses'.Paged g off es' low := by
  obtain ⟨s', r', nb, ops₁, ses₁, hnb, hses₁, hcases⟩ := copyPlain_cases hr
  obtain ⟨h', hfd, hlen, hoff⟩ := h.newBlock hv hnb
  rw [← hses₁] at h'
  have hs₁ : ses₁.s = s' := by rw [hses₁]
  have hbs : u64 s'.blockSize = g.blockSize := hs₁ ▸ h'.super.u64_blockSize
  have hb : g.HasBlock off (es ++ [v / g.blockSize]) (v / g.blockSize) nb.blockOff :=
    hoff ▸ g.hasBlock_last
  have hsame : ses₁.firstMissing (v / g.blockSize * g.blockSize) =
      ses.firstMissing (v / g.blockSize * g.blockSize) := by
    refine firstMissing_congr ?_ (by rw [hses₁]; rfl)
    rw [h'.super.blockSize, h.super.blockSize]
  rw [hbs] at hcases
  rcases hcases with ⟨-, rfl, -⟩ | ⟨i, ses₂, ops₂, hmiss, hcopy, rfl, -⟩
  · have hcopy := h'.copy (d := 0) (ses₁.source (v / g.blockSize * g.blockSize)) [] hb
      (Nat.zero_add g.blockSize).le fun x hx => by cases hx
    have hmap := hcopy.remap (d := 0) hb (Nat.zero_add _).le
    rw [List.append_nil, Nat.add_zero, Nat.add_zero] at hmap
    rw [← hs₁]
    exact ⟨_, Or.inl rfl, hmap⟩
  · have hv₁ : v < ses₁.s.fmmapLength := by rwa [hs₁, hlen]
    obtain ⟨h₂, hfd₂⟩ := h'.copyMissing hv₁ hb hmiss hcopy
    have hmap := h₂.remap (d := 0) hb.append (Nat.zero_add _).le
    rw [Nat.add_zero, Nat.add_zero, hfd₂, hs₁, List.append_assoc] at hmap
    refine ⟨_, Or.inr ⟨?_, rfl⟩, hmap⟩
    rw [← hsame, hmiss]
    exact Option.some_ne_none i

/-- The second half of `insert_ht`: the new entry of the table names the data block just
appended. -/
theorem Paged.linkEntry (h : ses.Paged g off (es ++ [b]) low) (hcfg : cfg.entrySize = 8)
    {nb : NewBlock} {ce : CowEntry} (hnb : nb.blockOff = g.dataOff off es.length)
    (hr : ses.linkEntry cfg nb (b * g.blockSize) = .ok (ses', ce, ops)) :
    ses'.Paged g off (es ++ [b]) low ∧ EntryAt g off (es ++ [b]) ce ∧
      ce.faultVoffAligned = b * g.blockSize ∧ ses'.s = ses.s := by
  obtain ⟨hl, hmark, hs⟩ := h.toLayered.linkEntry hcfg h.page_dvd h.off_dvd hr
  obtain ⟨m, -, hce, hses', -⟩ := linkEntry_ok hr
  have hentry : EntryAt g off (es ++ [b]) ce := by
    refine ⟨⟨b, by rw [hce]; rfl, ?_⟩, hmark⟩
    rw [hce, newEntry]
    simp only
    rw [hnb]
    exact g.hasBlock_last
  refine ⟨h.of_layered_same hl (congrArg Super.fd hs) (congrArg Super.fmmapLength hs)
    (fun p e he => Or.inl ?_) (fun i x hx => ?_), hentry, by rw [hce]; rfl, hs⟩
  · rw [hses'] at he
    exact he
  rw [hses'] at hx
  rcases mem_setBucket hx with hx | hx
  · rcases List.mem_cons.mp hx with rfl | hx
    · exact Or.inr hentry
    · exact Or.inl ⟨_, hx⟩
  · exact Or.inl ⟨i, hx⟩

/-- `insert_ht`. -/
theorem Paged.insertHt (h : ses.Paged g off es low) (hcfg : cfg.entrySize = 8)
    (hv : v < ses.s.fmmapLength) {ce : CowEntry}
    (hr : ses.insertHt cfg n n' (v / g.blockSize * g.blockSize) = .ok (ses', ce, ops)) :
    ses'.Paged g off (es ++ [v / g.blockSize]) low ∧ EntryAt g off (es ++ [v / g.blockSize]) ce ∧
      ce.faultVoffAligned = v / g.blockSize * g.blockSize := by
  obtain ⟨s', r', nb, ops₁, ops₂, hnb, hlink, -⟩ := insertHt_ok hr
  obtain ⟨h', -, -, hoff⟩ := h.newBlock hv hnb
  obtain ⟨h'', hentry, hkey, -⟩ := h'.linkEntry hcfg hoff hlink
  exact ⟨h'', hentry, hkey⟩

/-- **`insert_list`**: what it hands over to be copied names the data block of the block. -/
theorem Paged.insertList (h : ses.Paged g off es low) (hcfg : cfg.entrySize = 8)
    (hv : v < ses.s.fmmapLength) {le : CowLEntry} {ce : CowEntry}
    (hr : ses.insertList cfg n n' v = .ok (ses', some (le, ce), ops)) :
    ∃ es', (es' = es ∨ ses.NeedsBlock v ∧ es' = es ++ [v / g.blockSize]) ∧
      ses'.Paged g off es' low ∧ EntryAt g off es' ce ∧
      ce.faultVoffAligned = v / g.blockSize * g.blockSize ∧
      (le = ⟨v, cowUnit⟩ ∨ le = ⟨v / g.blockSize * g.blockSize, g.blockSize⟩) := by
  rcases insertList_cases hr with
    ⟨full, rest, hsearch, rfl, rfl, -⟩ | ⟨hneeds, rfl, ses₁, hins, rfl⟩
  · rw [h.super.u64_blockSize] at *
    obtain ⟨e₀, he₀, hkey, hcases⟩ := searchHt_eq_some hsearch
    have hold := h.table _ e₀ he₀
    have hrest : ∀ x ∈ rest, x ∈ ses.cow.buckets (bucketNumber g.blockSize v) := by
      intro x hx
      rcases hcases with ⟨-, -, l₁, l₂, hl, rfl⟩ | ⟨-, -, rfl⟩
      · rw [hl]
        rcases List.mem_append.mp hx with hx | hx
        · exact List.mem_append_left _ hx
        · exact List.mem_append_right _ (List.mem_cons_of_mem _ hx)
      · exact hx
    refine ⟨es, Or.inl rfl, h.of_layered_same ⟨h.layer, h.super, h.ring, h.size_lt⟩ rfl rfl
      (fun p e he => Or.inl he) (fun i x hx => Or.inl ?_), ?_⟩
    · rcases mem_setBucket hx with hx | hx
      · exact ⟨_, hrest x hx⟩
      · exact ⟨i, hx⟩
    · rcases hcases with ⟨rfl, rfl, -⟩ | ⟨rfl, rfl, -⟩
      · refine ⟨⟨hold.block, hold.mark⟩, hkey, Or.inr ?_⟩
        rw [if_pos rfl, h.super.blockSize]
      · exact ⟨hold, hkey, Or.inl rfl⟩
  · rw [h.super.u64_blockSize] at hins
    obtain ⟨h', hentry, hkey⟩ := h.insertHt hcfg hv hins
    exact ⟨_, Or.inr ⟨hneeds, rfl⟩,
      h'.of_layered_same ⟨h'.layer, h'.super, h'.ring, h'.size_lt⟩ rfl rfl
      (fun p e he => Or.inl he) (fun i ce hce => Or.inl ⟨i, hce⟩), hentry, hkey, Or.inl rfl⟩

/-- A part of a block is mapped, and its entry marked. -/
theorem Paged.mapPart (h : ses.Paged g off es low) (hcfg : cfg.entrySize = 8) {o d len a : ℕ}
    {F : ℕ → ℕ} (hb : g.HasBlock off es b o) (hle : d + len ≤ g.blockSize)
    (ha : MarkWord off a) (hF : ∀ x, F x % 2 ^ 32 = x % 2 ^ 32) {ses₁ : Session}
    (hses₁ : ses₁ = ses.remap (.mremap (b * g.blockSize + d) len ses.s.fd (o + d))) :
    (ses₁.issue (entryStore cfg ses₁.file a F)).Paged g off es low := by
  have h₁ : ses₁.Paged g off es low := hses₁ ▸ h.remap hb hle
  exact h₁.issue (h₁.toLayered.mark h.page_dvd h.off_dvd hcfg ha rfl fun x hx =>
    byte_run_entryStore hcfg hF hx)

/-- **A part of a block is copied and mapped, and its entry marked**, as both branches of
`cow_handler` do. -/
theorem Paged.copyPart (h : ses.Paged g off es low) (hcfg : cfg.entrySize = 8) {o d len a : ℕ}
    (src : ℕ → UInt8) {F : ℕ → ℕ} (hb : g.HasBlock off es b o) (hle : d + len ≤ g.blockSize)
    (ha : MarkWord off a) (hF : ∀ x, F x % 2 ^ 32 = x % 2 ^ 32) {ses₁ : Session}
    (hses₁ : ses₁ = (ses.issue (FileOp.memcpy (o + d) len src ++ flushLoop (o + d) len ++
      [.fence])).remap (.mremap (b * g.blockSize + d) len ses.s.fd (o + d))) :
    (ses₁.issue (entryStore cfg ses₁.file a F)).Paged g off es low ∧ ses₁.cow = ses.cow := by
  have hcopy := h.copy src (flushLoop (o + d) len ++ [.fence]) hb hle isBarrier_flushLoop
  rw [← List.append_assoc] at hcopy
  exact ⟨hcopy.mapPart hcfg hb hle ha hF hses₁, by rw [hses₁]; rfl⟩

/-- A table whose entries were changed, but not in what they name. -/
theorem Paged.setCow (h : ses.Paged g off es low) (c : CowTables)
    (hc : ∀ i, ∀ ce ∈ c.buckets i, ∃ j, ∃ ce₀ ∈ ses.cow.buckets j,
      ce.faultVoffAligned = ce₀.faultVoffAligned ∧ ce.blockOff = ce₀.blockOff ∧
        ce.metaEntry = ce₀.metaEntry) : ({ ses with cow := c } : Session).Paged g off es low := by
  refine ⟨⟨h.layer, h.super, h.ring, h.size_lt⟩, h.page_dvd, h.off_dvd, h.length_le,
    h.below, h.page,
    fun i ce hce => ?_⟩
  obtain ⟨j, ce₀, hce₀, hkey, hoff, hentry⟩ := hc i ce hce
  obtain ⟨⟨b, hb, ho⟩, hmark⟩ := h.table j ce₀ hce₀
  exact ⟨⟨b, hkey.trans hb, by rwa [hoff]⟩, by rwa [hentry]⟩

/-- The partial branch of `cow_handler`. -/
theorem Paged.copyUnit (h : ses.Paged g off es low) (hcfg : cfg.entrySize = 8) {ce : CowEntry}
    (hce : EntryAt g off es ce) (hkey : ce.faultVoffAligned = v / g.blockSize * g.blockSize)
    (hr : ses.copyUnit cfg ⟨v / cowUnit * cowUnit, cowUnit⟩ ce (v / g.blockSize * g.blockSize) =
      .ok (ses', ops)) : ses'.Paged g off es low := by
  obtain ⟨hunit, hdle⟩ := g.unit_eq h.page_dvd v
  obtain ⟨⟨b, hb, ho⟩, hmark⟩ := hce
  have hvb : v / g.blockSize = b := Nat.eq_of_mul_eq_mul_right g.blockSize_pos (hkey.symm.trans hb)
  rw [hvb] at hunit hr
  rw [Session.copyUnit] at hr
  simp only [hunit, Nat.add_sub_cancel_left, Int.toNat_natCast] at hr
  split_ifs at hr
  cases hr
  obtain ⟨hpart, hcow⟩ := h.copyPart hcfg (ses.source _) ho hdle hmark
    (or_cowBit_mod (v % g.blockSize / cowUnit * cowUnit / cowUnit)) rfl
  refine hpart.setCow _ fun i e he => ?_
  simp only [hcow] at he
  obtain ⟨j, e₀, he₀, rfl | rfl⟩ := mem_modify_cases he
  · exact ⟨j, e₀, he₀, rfl, rfl, rfl⟩
  · exact ⟨j, e, he₀, rfl, rfl, rfl⟩

/-- The other branch of `cow_handler`. -/
theorem Paged.copyBlock (h : ses.Paged g off es low) (hcfg : cfg.entrySize = 8) {ce : CowEntry}
    (hce : EntryAt g off es ce) (hkey : ce.faultVoffAligned = b * g.blockSize) :
    (ses.copyBlock cfg ce (b * g.blockSize)).1.Paged g off es low := by
  rw [Session.copyBlock]
  simp only [h.super.u64_blockSize]
  exact (h.copyPart hcfg (d := 0) _ (hce.hasBlock hkey) (Nat.zero_add _).le hce.mark
    and_addrMask_mod rfl).1

/-- What follows the copy there. -/
theorem Paged.finishBlock (h : ses.Paged g off es low) (hcfg : cfg.entrySize = 8) {ce : CowEntry}
    (hce : EntryAt g off es ce) (hkey : ce.faultVoffAligned = b * g.blockSize) :
    (ses.finishBlock cfg ce (b * g.blockSize)).1.Paged g off es low := by
  have hrun : FileOp.run (flushLoop ce.blockOff g.blockSize ++ [.fence]) ses.file = ses.file :=
    FileOp.run_of_barriers isBarrier_flushLoop
  have h₁ := h.issue (h.toLayered.issue (congrArg ByteFile.size hrun) fun a _ => by rw [hrun])
  rw [Session.finishBlock]
  simp only [h.super.u64_blockSize]
  exact h₁.mapPart hcfg (d := 0) (hce.hasBlock hkey)
    (Nat.zero_add _).le hce.mark and_addrMask_mod rfl

/-- The copy of a whole block: an entry is appended where a page of the block is missing. -/
theorem Paged.copyWhole (h : ses.Paged g off es low) (hcfg : cfg.entrySize = 8)
    (hv : v < ses.s.fmmapLength) {ce : CowEntry} (hce : EntryAt g off es ce)
    (hkey : ce.faultVoffAligned = v / g.blockSize * g.blockSize)
    (hr : ses.copyWhole cfg n n' ce (v / g.blockSize * g.blockSize) = .ok (ses', ops)) :
    ∃ es', (es' = es ∨ ses.firstMissing (v / g.blockSize * g.blockSize) ≠ none ∧
      es' = es ++ [v / g.blockSize]) ∧ ses'.Paged g off es' low := by
  rcases copyWhole_cases hr with ⟨-, hblock⟩ | ⟨i, ses₁, ops₁, hmiss, hcopy, rfl, -⟩
  · have h₁ := h.copyBlock hcfg hce hkey
    rw [hblock] at h₁
    exact ⟨es, Or.inl rfl, h₁⟩
  · obtain ⟨h₁, -⟩ := h.copyMissing hv (hce.hasBlock hkey) hmiss hcopy
    refine ⟨_, Or.inr ⟨?_, rfl⟩, h₁.finishBlock hcfg hce.append hkey⟩
    rw [hmiss]
    exact Option.some_ne_none i

/-- **How a write fault on the block `b` makes the last layer grow**: not at all, or by an entry for
the block if it has none to be completed, or, where a page of the block is missing, by entries for
it. -/
def Gains (cfg : Config) (ses : Session) (v b aligned : ℕ) (es es' : List ℕ) : Prop :=
  es' = es ∨ ((cfg.finegrainedCow = true → ses.NeedsBlock v) ∧ es' = es ++ [b]) ∨
    (ses.firstMissing aligned ≠ none ∧ ∃ k, es' = es ++ List.replicate k b)

/-- **`cow_handler`**: the layer gets an entry for the block of the fault where the block is not in
the table, and one for each page that it finds missing. -/
theorem Paged.cowHandler (h : ses.Paged g off es low) (hv : v < ses.s.fmmapLength)
    (hr : ses.cowHandler cfg n n' v = .ok (ses', ops)) :
    ∃ es', ses.Gains cfg v (v / g.blockSize) (v / g.blockSize * g.blockSize) es es' ∧
      ses'.Paged g off es' low := by
  rcases cowHandler_cases hr with
    ⟨rfl, -⟩ | ⟨-, hfine, -, ses₁, le, ce, ops₁, ops₂, hins, -, hcopy⟩ | ⟨-, hfine, hplain⟩
  · exact ⟨es, Or.inl rfl, h⟩
  · have hcfg : cfg.entrySize = 8 := by rw [Config.entrySize, hfine]; rfl
    have hunit : v / cowUnit * cowUnit / g.blockSize = v / g.blockSize := div_page h.page_dvd v
    have hle : v / cowUnit * cowUnit ≤ v := Nat.div_mul_le_self v cowUnit
    obtain ⟨es', hgrow, h₁, hce, hkey, hcases⟩ := h.insertList hcfg (lt_of_le_of_lt hle hv) hins
    rw [hunit] at hkey hcases hgrow
    have hneeds : ses.NeedsBlock (v / cowUnit * cowUnit) → ses.NeedsBlock v := by
      rw [NeedsBlock, NeedsBlock, h.super.u64_blockSize, bucketNumber, bucketNumber, hunit]
      exact id
    replace hgrow : es' = es ∨ (cfg.finegrainedCow = true → ses.NeedsBlock v) ∧
        es' = es ++ [v / g.blockSize] :=
      hgrow.imp_right fun hnew => ⟨fun _ => hneeds hnew.1, hnew.2⟩
    rw [h.super.u64_blockSize] at hcopy
    rcases hcopy with ⟨hsize, hcopy⟩ | ⟨-, hcopy⟩
    · rcases hcases with rfl | rfl
      · exact ⟨es', hgrow.imp_right Or.inl, h₁.copyUnit hcfg hce hkey hcopy⟩
      · exact absurd h₁.super.blockSize.symm hsize
    · have hfixed := insertList_range hins
      have hsame : ses₁.firstMissing (v / g.blockSize * g.blockSize) =
          ses.firstMissing (v / g.blockSize * g.blockSize) :=
        firstMissing_congr hfixed.1.blockSize hfixed.2.2.1
      obtain ⟨es₂, hgrow₂, h₂⟩ := h₁.copyWhole hcfg (hfixed.1.fmmapLength.symm ▸ hv) hce hkey hcopy
      refine ⟨es₂, ?_, h₂⟩
      rcases hgrow₂ with rfl | ⟨hmiss, rfl⟩
      · exact hgrow.imp_right Or.inl
      · rw [hsame] at hmiss
        refine Or.inr (Or.inr ⟨hmiss, ?_⟩)
        rcases hgrow with rfl | ⟨-, rfl⟩
        · exact ⟨1, rfl⟩
        · exact ⟨2, by simp⟩
  · rw [h.super.u64_blockSize] at hplain
    obtain ⟨es', hgrow, h'⟩ := h.copyPlain hv hplain
    refine ⟨es', ?_, h'⟩
    rcases hgrow with rfl | ⟨hmiss, rfl⟩
    · exact Or.inr (Or.inl ⟨fun hf => absurd hf (by rw [hfine]; decide), rfl⟩)
    · exact Or.inr (Or.inr ⟨hmiss, 2, rfl⟩)

/-! ### Runs -/

/-- **A step of a session**: a missing fault or a write fault at an offset of the range is handled,
the guest stores to a writable page, or the allocator thread makes an iteration. -/
inductive Advances (cfg : Config) (ses : Session) : Session → Prop
  | missing {ses' : Session} {ops : List FileOp} {n n' v : ℕ} : v < ses.s.fmmapLength →
      ses.ufMonitor cfg n n' v = .ok (ses', ops) → Advances cfg ses ses'
  | copy {ses' : Session} {ops : List FileOp} {n n' v : ℕ} : v < ses.s.fmmapLength →
      ses.cowHandler cfg n n' v = .ok (ses', ops) → Advances cfg ses ses'
  | write {p x : ℕ} {e : Pte Path} (y : ℕ) : ses.pages p = some e → e.writable = true →
      x < pageSize → Advances cfg ses (ses.poke e x y)
  | tick {ses' : Session} : ses.tick cfg = .ok ses' → Advances cfg ses ses'

/-- **The faults of a session**: a missing page is touched or a protected one written to, and the
fault is handled; stores of the guest and iterations of the allocator thread come in between. -/
inductive Faults (cfg : Config) (ses : Session) : Session → Prop
  | missing {ses' : Session} {ops : List FileOp} {n n' v : ℕ} : v < ses.s.fmmapLength →
      ses.pages (v / pageSize) = none → ses.ufMonitor cfg n n' v = .ok (ses', ops) →
      Faults cfg ses ses'
  | copy {ses' : Session} {ops : List FileOp} {n n' v : ℕ} {e : Pte Path} : v < ses.s.fmmapLength →
      ses.pages (v / pageSize) = some e → e.writable = false →
      ses.cowHandler cfg n n' v = .ok (ses', ops) → Faults cfg ses ses'
  | write {p x : ℕ} {e : Pte Path} (y : ℕ) : ses.pages p = some e → e.writable = true →
      x < pageSize → Faults cfg ses (ses.poke e x y)
  | tick {ses' : Session} : ses.tick cfg = .ok ses' → Faults cfg ses ses'

theorem Faults.advances (h : ses.Faults cfg ses') : ses.Advances cfg ses' := by
  cases h with
  | missing hv _ hr => exact .missing hv hr
  | copy hv _ _ hr => exact .copy hv hr
  | write y hp hw hx => exact .write y hp hw hx
  | tick hr => exact .tick hr

/-- The place of a writable page. -/
theorem Paged.writable (h : ses.Paged g off es low) {e : Pte Path} (hp : ses.pages p = some e)
    (hw : e.writable = true) : e.file = ses.s.fd ∧ ∃ i, es[i]? = some (p * pageSize / g.blockSize) ∧
      e.off = g.dataOff off i + p * pageSize % g.blockSize := by
  rcases h.page p e hp with ⟨-, hf, o, ⟨i, hi, rfl⟩, he⟩ | ⟨hro, -⟩
  · exact ⟨hf, i, hi, he⟩
  · rw [hw] at hro
    cases hro

theorem Paged.writable_lt (h : ses.Paged g off es low) {e : Pte Path} (hp : ses.pages p = some e)
    (hw : e.writable = true) : e.file = ses.s.fd ∧ ∃ i < es.length, g.dataOff off i ≤ e.off ∧
      e.off + pageSize ≤ g.dataOff off i + g.blockSize := by
  obtain ⟨hf, i, hi, he⟩ := h.writable hp hw
  have hlt := (List.getElem?_eq_some_iff.mp hi).1
  have hmod := page_mod_le h.page_dvd g.blockSize_pos p
  exact ⟨hf, i, hlt, by omega, by omega⟩

/-- A store of the guest. -/
theorem Paged.poke (h : ses.Paged g off es low) {e : Pte Path} (hp : ses.pages p = some e)
    (hw : e.writable = true) {x : ℕ} (hx : x < pageSize) (y : ℕ) :
    (ses.poke e x y).Paged g off es low := by
  obtain ⟨hf, i, hi, hle, hlt⟩ := h.writable_lt hp hw
  have hl := h.toLayered.poke (x := x) hf hi (by omega) (by omega) y
  exact ⟨hl, h.page_dvd, h.off_dvd, h.length_le, h.below, h.page, h.table⟩

/-- An iteration of the allocator thread. -/
theorem Paged.tick (h : ses.Paged g off es low) (hr : ses.tick cfg = .ok ses') :
    ses'.Paged g off es low := by
  obtain ⟨hs, -, hpages, hcow⟩ := tick_ok hr
  refine h.of_layered_same (h.toLayered.tick hr) hs.fd hs.fmmapLength (fun p e he => ?_)
    fun i ce hce => Or.inl ⟨i, ?_⟩
  · exact Or.inl (by rwa [← hpages])
  · rwa [← hcow]

/-- The layer keeps the entries it has. -/
theorem Gains.isPrefix {aligned : ℕ} {es' : List ℕ} (h : ses.Gains cfg v b aligned es es') :
    es <+: es' := by
  rcases h with rfl | ⟨-, rfl⟩ | ⟨-, k, rfl⟩
  · exact List.prefix_rfl
  · exact List.prefix_append _ _
  · exact List.prefix_append _ _

/-- **Every step keeps the pages in order**, and is on the same file. -/
theorem Paged.step (h : ses.Paged g off es low) (hstep : ses.Advances cfg ses') :
    ∃ es', es <+: es' ∧ ses'.Paged g off es' low ∧ ses'.s.fd = ses.s.fd := by
  have hu := h.super.u64_blockSize
  have hdvd : pageSize ∣ u64 ses.s.blockSize := hu.symm ▸ h.page_dvd
  have hpos : 0 < u64 ses.s.blockSize := hu.symm ▸ g.blockSize_pos
  cases hstep with
  | missing hv hr =>
    have hfd := (ufMonitor_confined hdvd hpos hr).super.fd
    rcases h.ufMonitor hv hr with rfl | ⟨h', -⟩
    · exact ⟨es, List.prefix_rfl, h, rfl⟩
    · exact ⟨_, List.prefix_append _ _, h', hfd⟩
  | copy hv hr =>
    obtain ⟨es', hgrow, h'⟩ := h.cowHandler hv hr
    exact ⟨es', hgrow.isPrefix, h', (cowHandler_confined hdvd hpos hr).super.fd⟩
  | write y hp hw hx => exact ⟨es, List.prefix_rfl, h.poke hp hw hx y, rfl⟩
  | tick hr => exact ⟨es, List.prefix_rfl, h.tick hr, (tick_ok hr).1.fd⟩

/-- **So does every run.** -/
theorem Paged.run (h : ses.Paged g off es low)
    (hrun : Relation.ReflTransGen (Advances cfg) ses ses') :
    ∃ es', es <+: es' ∧ ses'.Paged g off es' low ∧ ses'.s.fd = ses.s.fd := by
  induction hrun with
  | refl => exact ⟨es, List.prefix_rfl, h, rfl⟩
  | tail _ hstep ih =>
    obtain ⟨es₁, hpre₁, h₁, hfd₁⟩ := ih
    obtain ⟨es₂, hpre₂, h₂, hfd₂⟩ := h₁.step hstep
    exact ⟨es₂, hpre₁.trans hpre₂, h₂, hfd₂.trans hfd₁⟩

/-- The ring of a session just opened. -/
theorem ringInv_init {k : ℕ} (hlast : IsLayer g f off es) (hsz : f.size < 2 ^ 63)
    (hend : s.allocOff = g.endOff off es.length) (hk : k = es.length) :
    RingInv g f off k s .init := by
  subst hk
  refine fun _ => ⟨hend, by decide, le_rfl, fun i hi => absurd hi (Nat.not_lt_zero i), ?_, hsz⟩
  rw [hend]
  exact hlast.size_le

/-- The session `fmmap` starts. -/
theorem Opened.paged {base : List (ℕ × Path × ℕ)} {length : ℕ}
    (h : ses.Opened g fs fd ls es base length)
    (hchain : IsChain g ((fs fd).getD .empty) 0 (ls ++ [es]))
    (hsz : ((fs fd).getD .empty).size < 2 ^ 63) (hdvd : pageSize ∣ g.blockSize) :
    ses.Paged g (g.chainEnd 0 ls) es (g.lowPages (g.lowBindings base fd ls)) := by
  have hfile : ses.file = (fs fd).getD .empty := by rw [file, h.fd_eq, h.files]
  have hlast : IsLayer g ses.file (g.chainEnd 0 ls) es := by
    rw [hfile]
    exact isLayers_singleton.mp (isLayers_append.mp hchain.layers).2
  have hsz' : ses.file.size < 2 ^ 63 := by rwa [hfile]
  refine ⟨⟨hlast, h.super, ?_, hsz'⟩, hdvd,
    Nat.dvd_trans hdvd (g.dvd_chainEnd (Nat.dvd_zero _)), ?_,
    fun p e he hf => ?_, fun p e he => ?_, fun i ce hce => ?_⟩
  · rw [h.ring]
    exact ringInv_init hlast hsz' h.allocOff rfl
  · rw [h.fmmapLength]
    exact h.length_le
  · obtain ⟨y, hy, rfl⟩ := Option.map_eq_some_iff.mp he
    have hmod := page_mod_le hdvd g.blockSize_pos p
    rcases h.below hy with ⟨-, hle⟩ | ⟨hne, -⟩
    · simp only
      omega
    · exact absurd hf hne
  · rw [h.pages, place] at he
    rcases htop : g.top fd (g.chainEnd 0 ls) es (p * pageSize / g.blockSize) with _ | y
    · rw [htop] at he
      refine Or.inr ⟨?_, he⟩
      obtain ⟨y, -, rfl⟩ := Option.map_eq_some_iff.mp he
      rfl
    · rw [htop] at he
      obtain ⟨i, hi, hb, rfl⟩ := Geometry.top_eq_some htop
      cases he
      exact Or.inl ⟨rfl, h.fd_eq.symm, _, ⟨i, by rw [List.getElem?_eq_getElem hi, hb], rfl⟩, rfl⟩
  · rw [h.cow] at hce
    cases hce

end Session

/-- What lies below the last layer when `fmmap` maps it: read-only pages, and those of the image
are of its frozen layers. -/
theorem IsChain.lowMaps (h : IsChain g ((fs fd).getD .empty) 0 (ls ++ [es]))
    (hsz : ((fs fd).getD .empty).size < 2 ^ 63) (hdvd : pageSize ∣ g.blockSize) {fs' : Fs}
    {m : List (MapOp Path)}
    (hmaps : Session.baseMaps cfg fs (baseImageName ((fs fd).getD .empty) 0) = .ok (fs', m)) :
    PageTable.All (fun e => e.writable = false ∧
        (e.file = fd → e.off + pageSize ≤ g.chainEnd 0 ls))
      (PageTable.run (m ++ (g.chainBindings fd 0 ls).flatMap (readonlyCalls g.blockSize))
        fun _ => none) := by
  have hbase : PageTable.All (fun e => e.writable = false ∧
      (e.file = fd → e.off + pageSize ≤ g.chainEnd 0 ls)) (PageTable.run m fun _ => none) := by
    rcases h.name_ne rfl hsz hmaps with hnil | hne
    · rw [Session.baseMaps, if_pos hnil] at hmaps
      cases hmaps
      exact PageTable.all_empty
    · exact (keeps_baseMaps (fun o => ⟨rfl, fun hf => absurd hf hne⟩) hmaps).1 _
        PageTable.all_empty
  intro p e he
  rw [PageTable.run_append, Geometry.run_readonlyCalls] at he
  rcases PageTable.overlay_eq_some he with ⟨x, hx, -, rfl⟩ | he
  · obtain ⟨-, hle⟩ := Geometry.mem_chainBindings hx
    have hmod := page_mod_le hdvd g.blockSize_pos p
    refine ⟨rfl, fun _ => ?_⟩
    simp only
    omega
  · exact hbase p e he

/-- **The session `fmmap` starts has its pages in order**, whatever its base is. -/
theorem IsChain.paged_of_fmmap {ses : Session} {length offset : ℕ}
    (h : IsChain g ((fs fd).getD .empty) 0 (ls ++ [es]))
    (hsz : ((fs fd).getD .empty).size < 2 ^ 63) (hdvd : pageSize ∣ g.blockSize)
    (hopen : Session.fmmap cfg fs fd length offset = .ok (some ses)) :
    ∃ low, ses.Paged g (g.chainEnd 0 ls) es low := by
  obtain ⟨hlen, ⟨fs', m⟩, hmaps, rfl⟩ := h.fmmap_ok rfl hsz hopen
  have hlow := h.lowMaps hsz hdvd hmaps
  have hfile : (chainSession g fd ls es length (fs', m)).file = (fs fd).getD .empty :=
    (keeps_baseMaps (P := fun _ => True) (fun _ => trivial) hmaps).2 fd
  have hlast : IsLayer g ((fs fd).getD .empty) (g.chainEnd 0 ls) es :=
    isLayers_singleton.mp (isLayers_append.mp h.layers).2
  have hsuper : (superOf g fd (g.chainEnd 0 ls) es.length).Is g (g.chainEnd 0 ls) es.length :=
    superOf_is
  have hnext := hsuper.nextOff (lt_of_le_of_lt hlast.size_le (lt_trans hsz (by norm_num)))
  refine ⟨_, ⟨hfile ▸ hlast, ⟨rfl, rfl, rfl, rfl, rfl, rfl, rfl⟩,
    hfile ▸ Session.ringInv_init hlast hsz hnext rfl,
    hfile ▸ hsz⟩, hdvd, Nat.dvd_trans hdvd (g.dvd_chainEnd (Nat.dvd_zero _)), hlen.le,
    fun p e he hf => (hlow p e he).2 hf, fun p e he => ?_, fun i ce hce => by cases hce⟩
  change PageTable.run _ _ p = some e at he
  rw [PageTable.run_append, PageTable.run_blocks g.blockSize_pos] at he
  rcases PageTable.overlay_eq_some he with ⟨x, hx, hb, rfl⟩ | he
  · obtain ⟨i, hi, rfl⟩ := Geometry.mem_bindings hx
    simp only at hb
    exact Or.inl ⟨rfl, rfl, _, ⟨i, by rw [List.getElem?_eq_getElem hi, hb], rfl⟩, rfl⟩
  · exact Or.inr ⟨(hlow p e he).1, he⟩

namespace Session

variable {ses ses' : Session} {n n' : ℕ} {ops : List FileOp}

/-- **No two pages map the same page of a file**, if no two pages of the layers below do. -/
theorem Paged.page_injective (h : ses.Paged g off es low)
    (hapart : ∀ p p' e e', low p = some e → low p' = some e' → e.file = e'.file →
      e.off < e'.off + pageSize → e'.off < e.off + pageSize → p = p') {p p' : ℕ}
    {e e' : Pte Path} (hp : ses.pages p = some e) (hp' : ses.pages p' = some e')
    (hfile : e.file = e'.file) (h₁ : e.off < e'.off + pageSize) (h₂ : e'.off < e.off + pageSize) :
    p = p' := by
  have hm := page_mod_le h.page_dvd g.blockSize_pos p
  have hm' := page_mod_le h.page_dvd g.blockSize_pos p'
  -- a page of the last layer is none of a layer below
  have hnot : ∀ {p p' : ℕ} {e e' : Pte Path}, e.file = ses.s.fd →
      (∃ o, g.HasBlock off es (p * pageSize / g.blockSize) o ∧
        e.off = o + p * pageSize % g.blockSize) → low p' = some e' → e.file = e'.file →
      e.off < e'.off + pageSize → False := by
    rintro p p' e e' hf ⟨o, ⟨i, -, rfl⟩, ho⟩ hlow hfile hlt
    have := h.below p' e' hlow (hfile.symm.trans hf)
    have : off ≤ g.dataOff off i := Geometry.le_blockAt
    omega
  rcases h.page p e hp with ⟨-, hf, hb⟩ | ⟨-, hlow⟩
  · rcases h.page p' e' hp' with ⟨-, -, o', ⟨i', hi', rfl⟩, ho'⟩ | ⟨-, hlow'⟩
    · obtain ⟨o, ⟨i, hi, rfl⟩, ho⟩ := hb
      obtain rfl : i = i' := @Geometry.dataOff_apart cfg g off i i' (by omega) (by omega)
      have hsame : p * pageSize / g.blockSize = p' * pageSize / g.blockSize :=
        Option.some.inj (hi.symm.trans hi')
      rw [ho, ho'] at h₁ h₂
      exact page_eq_of_overlap hsame h₁ h₂
    · exact (hnot hf hb hlow' hfile h₁).elim
  · rcases h.page p' e' hp' with ⟨-, hf', hb'⟩ | ⟨-, hlow'⟩
    · exact (hnot hf' hb' hlow hfile.symm h₂).elim
    · exact hapart p p' e e' hlow hlow' hfile h₁ h₂

end Session

/-- **Frozen data is never writable, and pages never alias.** For every image, without a base or
with one of the same block size, and every state that faults lead to after `fmmap`, handled one at
a time, with stores of the guest and iterations of the allocator thread in between: the file of the
image has its last layer, with entries `es'`; a writable page maps its part of a data block of that
layer whose entry names the block of the page; pages that overlap in a file are the same page of
the range; and a store of the guest to a writable page changes no other file, and no byte of a
frozen layer. -/
theorem reached_pages (g gb : Geometry cfg) (fs : Fs) (fd : Path) (ls lb : List (List ℕ))
    (es : List ℕ) (length offset : ℕ) (ses₀ ses : Session)
    (h : IsChain g ((fs fd).getD .empty) 0 (ls ++ [es]))
    (hf : ((fs fd).getD .empty).size < 2 ^ 63)
    (hbase : HasBase fs (baseImageName ((fs fd).getD .empty) 0) gb lb)
    (hbs : gb.blockSize = g.blockSize) (hdvd : pageSize ∣ g.blockSize)
    (hopen : Session.fmmap cfg fs fd length offset = .ok (some ses₀))
    (hrun : Relation.ReflTransGen (Session.Advances cfg) ses₀ ses) :
    (∃ es', IsLayer g ((ses.fs fd).getD .empty) (g.chainEnd 0 ls) es' ∧
      ∀ p e, ses.pages p = some e → e.writable = true → e.file = fd ∧
        ∃ i, es'[i]? = some (p * pageSize / g.blockSize) ∧
          e.off = g.dataOff (g.chainEnd 0 ls) i + p * pageSize % g.blockSize) ∧
      (∀ p p' e e', ses.pages p = some e → ses.pages p' = some e' → e.file = e'.file →
        e.off < e'.off + pageSize → e'.off < e.off + pageSize → p = p') ∧
      ∀ p e x y, ses.pages p = some e → e.writable = true → x < pageSize →
        (∀ q ≠ fd, (ses.poke e x y).fs q = ses.fs q) ∧
          ∀ a < g.chainEnd 0 ls, (((ses.poke e x y).fs fd).getD .empty).byte a =
            ((ses.fs fd).getD .empty).byte a := by
  have hbase' := hbase.baseIs hbs
  have hopened := h.fmmap rfl hf hbase' hopen
  obtain ⟨es', -, h', hfd⟩ := (hopened.paged h hf hdvd).run hrun
  rw [hopened.fd_eq] at hfd
  have hwritable : ∀ p e, ses.pages p = some e → e.writable = true → e.file = fd ∧
        ∃ i, es'[i]? = some (p * pageSize / g.blockSize) ∧
          e.off = g.dataOff (g.chainEnd 0 ls) i + p * pageSize % g.blockSize := by
    intro p e hp hw
    rw [← hfd]
    exact h'.writable hp hw
  refine ⟨⟨es', ?_, hwritable⟩, fun p p' e e' hp hp' hfile h₁ h₂ => ?_,
    fun p e x y hp hw hx => ⟨fun q hq => ?_, fun a ha => ?_⟩⟩
  · rw [← hfd]
    exact h'.layer
  · refine h'.page_injective (fun p p' e e' he he' => ?_) hp hp' hfile h₁ h₂
    exact hbase'.lowPages_apart hdvd (fun x hx => (hopened.base_mem x hx).1) he he'
  · rw [← (hwritable p e hp hw).1] at hq
    exact Function.update_of_ne hq _ _
  · obtain ⟨hef, i, -, heo⟩ := hwritable p e hp hw
    have hle : g.chainEnd 0 ls ≤ g.dataOff (g.chainEnd 0 ls) i := Geometry.le_blockAt
    rw [Session.poke, hef]
    simp only [Function.update_self, Option.getD_some]
    exact ByteFile.byte_store_of_notMem (by omega)

/-- An image with one frozen block, after a write fault on it: the first page is writable now, and
maps no page of a file that another page maps. -/
theorem reached_pages_copied : ∃ (fs : Fs) (ses₀ ses : Session) (ops : List FileOp),
    IsChain (Geometry.twoPages .shipped) ((fs [1]).getD .empty) 0 ([[0]] ++ [[]]) ∧
      Session.fmmap .shipped fs [1] (8192 * 2) 0 = .ok (some ses₀) ∧
      ses₀.cowHandler .shipped 0 0 5 = .ok (ses, ops) ∧
      (∃ e, ses.pages 0 = some e ∧ e.writable = true ∧ e.file = [1]) ∧
      ∀ p p' e e', ses.pages p = some e → ses.pages p' = some e' → e.file = e'.file →
        e.off < e'.off + pageSize → e'.off < e.off + pageSize → p = p' := by
  obtain ⟨f, ses₀, himage, hname, -, hopen, hopened, hroom, e, hp, hw⟩ := exists_session .shipped 0
  have hbase : HasBase (fun _ => some f) (baseImageName f 0) (Geometry.twoPages .shipped) [] :=
    Or.inl ⟨baseImageName_eq_nil hname, rfl⟩
  have hinv := hopened.inv (by decide) himage
  have hv : 5 < ses₀.s.fmmapLength := by
    rw [hopened.fmmapLength]
    decide
  have hle : 5 ≤ u64 ((ses₀.globalLength : ℤ) - (Geometry.twoPages .shipped).blockSize) := by
    rw [hopened.globalLength]
    decide
  obtain ⟨ses, ops, hcow, hserved⟩ : ∃ ses ops, ses₀.cowHandler .shipped 0 0 5 = .ok (ses, ops) ∧
      ses₀.Served ses (Geometry.twoPages .shipped) [[0]] [] _ 5 :=
    hinv.exists_cowHandler hroom rfl (by decide) hv hp hw hle fun _ => hopened.super.metaNOk
  obtain ⟨-, -, -, -, e', hp', hw'⟩ := hserved
  obtain ⟨⟨es', -, hwritable⟩, hinj, -⟩ := reached_pages (Geometry.twoPages .shipped)
    (Geometry.twoPages .shipped) (fun _ => some f) [1] [[0]] [] [] (8192 * 2) 0 ses₀ ses
    himage.isChain himage.size_lt hbase rfl (by decide) hopen
    (Relation.ReflTransGen.single (.copy hv hcow))
  exact ⟨fun _ => some f, ses₀, ses, ops, himage.isChain, hopen, hcow,
    ⟨e', hp', hw', (hwritable 0 e' hp' hw').1⟩, hinj⟩

end Pcow
