import Pcow.Access
import Pcow.Reopen

/-!
# Images and sessions exist

For every list of layers that fits there is an image with these layers and without a
base (`exists_image`), built by the operations of `meta.c`, and `fmmap` accepts it
(`IsImage.exists_fmmap`). What is said of sessions on images is therefore said of
something.
-/

namespace Pcow

variable {cfg : Config} {g : Geometry cfg} {f : ByteFile} {fs : Fs} {fd : Path} {es : List ℕ}
  {ls : List (List ℕ)}

/-- The first byte of the name decides whether there is one. -/
theorem baseImageName_eq_nil {off : ℕ} (h : f.byte (off + 16) = 0) : baseImageName f off = [] := by
  have key : ∀ n : ℕ, ((List.range (n + 1)).map fun i => f.byte (off + 16 + i)).takeWhile (· ≠ 0) =
      [] := by
    intro n
    rw [List.range_succ_eq_map, List.map_cons, List.takeWhile_cons_of_neg]
    simp [h]
  unfold baseImageName
  exact key 4079

/-- A name of one character. -/
theorem baseImageName_eq_singleton {off : ℕ} {c : UInt8} (h : f.byte (off + 16) = c) (hc : c ≠ 0)
    (h' : f.byte (off + 17) = 0) : baseImageName f off = [c] := by
  have key : ∀ n : ℕ, ((List.range (n + 2)).map fun i => f.byte (off + 16 + i)).takeWhile (· ≠ 0) =
      [c] := by
    intro n
    rw [List.range_succ_eq_map, List.map_cons, List.takeWhile_cons_of_pos (by simpa [h] using hc),
      List.map_map, List.range_succ_eq_map, List.map_cons, List.takeWhile_cons_of_neg]
    · rw [Nat.add_zero, h]
    · simpa [Nat.add_assoc] using h'
  unfold baseImageName
  exact key 4078

/-- No append to an image stores to the name of its base. -/
theorem AppendByte.ne_name {k : ℕ} : ¬AppendByte g (g.chainEnd 0 ls) k 16 := by
  intro h
  have hbs := g.entry_le
  rcases ls with _ | ⟨e, ls⟩
  · have hmeta : ∀ q, 0 < q → g.blockSize ≤ g.blockAt 0 q := by
      intro q hq
      rw [Geometry.blockAt, Nat.zero_add]
      exact Nat.le_mul_of_pos_right _ hq
    have hmem := g.slot_mem 0 k
    have h₁ := hmeta (g.metaBlock (k / g.perSeg)) Geometry.metaBlock_pos
    have h₂ := hmeta (g.metaBlock (g.lastSeg k)) Geometry.metaBlock_pos
    have h₃ := g.add_blockSize_le_endOff 0 k
    rw [Geometry.chainEnd] at h
    rcases h with ⟨h, -⟩ | ⟨-, h, -⟩ | ⟨-, ⟨h, -⟩ | ⟨-, h⟩⟩
    · omega
    · omega
    · omega
    · omega
  · have h₁ := h.mem.1
    have h₂ := g.add_blockSize_le_endOff 0 e.length
    have h₃ : g.endOff 0 e.length ≤ g.chainEnd (g.endOff 0 e.length) ls := Geometry.le_chainEnd
    rw [Geometry.chainEnd] at h₁
    omega

/-- An image without entries. -/
theorem exists_image_nil (g : Geometry cfg) (hbs : g.blockSize < 2 ^ 30) :
    ∃ f, IsImage g f [] [] ∧ f.byte 16 = 0 ∧ f.size = g.chainEnd 0 [[]] := by
  have hent := g.entry_le
  obtain ⟨hlayer, -, htail, hsz⟩ := isLayer_run_newSuperOps (g := g) hbs
    (show 0 + 2 * g.blockSize < 2 ^ 63 by omega) (show ByteFile.empty.size < 2 ^ 63 by decide)
    (fun a _ => rfl)
  refine ⟨_, ⟨trivial, hlayer, fun a ha _ => htail a ha, hsz⟩,
    FileOp.byte_run_of_not_touches fun o ho ht => ?_, ?_⟩
  · have := touches_newSuperOps (by omega) ho ht
    omega
  · rw [size_run_newSuperOps hbs, Geometry.chainEnd, Geometry.chainEnd, List.length_nil,
      Geometry.endOff, Geometry.blocks_zero, Geometry.blockAt, show ByteFile.empty.size =
        0 from rfl]
    omega

/-- An image with a single layer, made to name a base. -/
theorem IsImage.exists_name (h : IsImage g f [] es) {c : UInt8} (hc : c ≠ 0) :
    ∃ f', IsImage g f' [] es ∧ baseImageName f' 0 = [c] := by
  have hent := g.entry_le
  have hsz : g.endOff 0 es.length ≤ f.size := h.last.size_le
  have hend := g.add_blockSize_le_endOff 0 es.length
  have hmeta : ∀ i, g.blockSize ≤ g.blockAt 0 (g.metaBlock i) := by
    intro i
    rw [Geometry.blockAt, Nat.zero_add]
    exact Nat.le_mul_of_pos_right _ Geometry.metaBlock_pos
  refine ⟨f.store 16 2 c.toNat, h.of_quiet rfl fun a ha => ?_, ?_⟩
  · have hmem : 16 ≤ a ∧ a < 18 := by
      by_contra hnot
      exact ha (ByteFile.byte_store_of_notMem (by omega))
    refine ⟨Nat.zero_le a, ?_, fun hstruct => ?_⟩
    · change a < g.endOff 0 es.length
      omega
    · rcases hstruct with ⟨-, hlt⟩ | ⟨i, -, hle, -⟩ | ⟨i, -, hle, -⟩
      · change a < 0 + 16 at hlt
        omega
      · have := hmeta i
        change g.blockAt 0 (g.metaBlock i) ≤ a at hle
        omega
      · have := (g.slot_mem 0 i).1
        have := hmeta (i / g.perSeg)
        change g.slot 0 i ≤ a at hle
        omega
  · refine baseImageName_eq_singleton ?_ hc ?_
    · rw [ByteFile.byte_store_of_mem (by omega) (by omega) (by omega)]
      simp
    · rw [ByteFile.byte_store_of_mem (by omega) (by omega) (by omega)]
      have := c.toNat_lt
      simp only [Nat.zero_add, Nat.reduceSub, pow_one]
      rw [Nat.div_eq_of_lt this]
      rfl

/-- An image with one more entry in the last layer. -/
theorem IsImage.exists_append (h : IsImage g f ls es) {b : ℕ} (hb : b < 2 ^ 32)
    (hcap : es.length + 1 ≤ g.cap) (hend : g.endOff (g.chainEnd 0 ls) (es.length + 1) < 2 ^ 63) :
    ∃ f', IsImage g f' ls (es ++ [b]) ∧
      (∀ a, ¬AppendByte g (g.chainEnd 0 ls) es.length a → f'.byte a = f.byte a) ∧
      f'.size = max f.size (g.endOff (g.chainEnd 0 ls) (es.length + 1)) := by
  have hs : (superOf g [] (g.chainEnd 0 ls) es.length).Is g (g.chainEnd 0 ls) es.length :=
    superOf_is
  obtain ⟨s', ops, -, -, -, happ, hsz⟩ :=
    h.last.newBlockPlain h.size_lt hs hcap hend (b * g.blockSize)
  have hblock : g.blockOf (b * g.blockSize) = b := by
    rw [Geometry.blockOf, Nat.mul_div_cancel _ g.blockSize_pos, Nat.mod_eq_of_lt hb]
  rw [hblock] at happ
  refine ⟨_, h.appends happ (by rw [hsz]; exact max_lt h.size_lt hend), fun a ha => ?_, hsz⟩
  exact FileOp.byte_run_of_not_touches fun o ho ht => ha (happ.touches o ho a ht)

/-- An image with one more layer. -/
theorem IsImage.exists_freeze (h : IsImage g f ls es) (hbs : g.blockSize < 2 ^ 30)
    (hend : g.endOff (g.chainEnd 0 (ls ++ [es])) 0 < 2 ^ 63) :
    ∃ f', IsImage g f' (ls ++ [es]) [] ∧
      (∀ a < g.chainEnd 0 (ls ++ [es]), f'.byte a = f.byte a) ∧
      f'.size = max f.size (g.endOff (g.chainEnd 0 (ls ++ [es])) 0) := by
  have hroom : g.chainEnd 0 (ls ++ [es]) + 2 * g.blockSize < 2 ^ 63 := by
    rw [Geometry.endOff, Geometry.blocks_zero, Geometry.blockAt] at hend
    omega
  have htail : ∀ a, g.chainEnd 0 (ls ++ [es]) + 2 * g.blockSize ≤ a → f.byte a = 0 := by
    rw [g.chainEnd_concat]
    exact fun a ha => h.tail_zero_of_two ha
  obtain ⟨hlayer, hbelow, htail', hsz⟩ := isLayer_run_newSuperOps hbs hroom h.size_lt htail
  refine ⟨_, ⟨?_, hlayer, fun a ha _ => htail' a ha, hsz⟩, hbelow, ?_⟩
  · exact h.isChain.layers.congr hbelow le_rfl (le_trans (Nat.le_add_right _ _) hlayer.clSize_le)
  · rw [size_run_newSuperOps hbs, Geometry.endOff, Geometry.blocks_zero, Geometry.blockAt,
      Nat.mul_comm 2]

/-- An image with more entries in the last layer. -/
theorem IsImage.exists_appends {es' : List ℕ} (h : IsImage g f ls es) (hname : f.byte 16 = 0)
    (hsz : f.size = g.chainEnd 0 (ls ++ [es])) (hcap : (es ++ es').length ≤ g.cap)
    (hlt : ∀ b ∈ es', b < 2 ^ 32) (hend : g.chainEnd 0 (ls ++ [es ++ es']) < 2 ^ 63) :
    ∃ f', IsImage g f' ls (es ++ es') ∧ f'.byte 16 = 0 ∧
      f'.size = g.chainEnd 0 (ls ++ [es ++ es']) := by
  induction es' generalizing f es with
  | nil =>
    rw [List.append_nil]
    exact ⟨f, h, hname, hsz⟩
  | cons b es' ih =>
    have hle : es.length + 1 ≤ (es ++ b :: es').length := by simp
    have hmono : ∀ {i j : ℕ}, i ≤ j →
        g.endOff (g.chainEnd 0 ls) i ≤ g.endOff (g.chainEnd 0 ls) j := fun hij =>
      Geometry.blockAt_mono _ (Geometry.blocks_mono hij)
    obtain ⟨f₁, h₁, hbytes, hsz₁⟩ := h.exists_append (hlt b List.mem_cons_self) (by omega)
      (lt_of_le_of_lt (hmono hle) (by rw [← g.chainEnd_concat]; exact hend))
    rw [List.append_cons es] at hcap hend ⊢
    refine ih h₁ ?_ ?_ hcap (fun b' hb' => hlt b' (List.mem_cons_of_mem b hb')) hend
    · rw [hbytes 16 AppendByte.ne_name, hname]
    · rw [hsz₁, hsz, g.chainEnd_concat, g.chainEnd_concat, List.length_append,
        List.length_singleton]
      exact max_eq_right (hmono (Nat.le_succ _))

/-- **There are images with any layers**, as long as these are within the capacity and
the file does not get too long. -/
theorem exists_image (g : Geometry cfg) (ls : List (List ℕ)) (es : List ℕ)
    (hbs : g.blockSize < 2 ^ 30) (hcap : ∀ e ∈ ls ++ [es], e.length ≤ g.cap)
    (hlt : ∀ e ∈ ls ++ [es], ∀ b ∈ e, b < 2 ^ 32) (hend : g.chainEnd 0 (ls ++ [es]) < 2 ^ 63) :
    ∃ f, IsImage g f ls es ∧ f.byte 16 = 0 ∧ f.size = g.chainEnd 0 (ls ++ [es]) := by
  induction ls using List.reverseRecOn generalizing es with
  | nil =>
    obtain ⟨f, h, hname, hsz⟩ := exists_image_nil g hbs
    exact h.exists_appends hname hsz (hcap _ (by simp)) (hlt _ (by simp)) hend
  | append_singleton ls e ih =>
    have hmono : g.endOff (g.chainEnd 0 (ls ++ [e])) 0 ≤
        g.endOff (g.chainEnd 0 (ls ++ [e])) es.length :=
      Geometry.blockAt_mono _ (Geometry.blocks_mono (Nat.zero_le _))
    have hle := g.add_blockSize_le_endOff (g.chainEnd 0 (ls ++ [e])) 0
    have hend₀ := lt_of_le_of_lt hmono (by rw [← g.chainEnd_concat]; exact hend)
    obtain ⟨f, h, hname, hsz⟩ := ih e (fun e' he' => hcap e' (List.mem_append_left _ he'))
      (fun e' he' => hlt e' (List.mem_append_left _ he')) (by omega)
    obtain ⟨f', h', hbytes, hsz'⟩ := h.exists_freeze hbs hend₀
    refine h'.exists_appends ?_ ?_ (hcap es (by simp)) (hlt es (by simp)) hend
    · rw [hbytes 16 ?_, hname]
      have h₁ := g.add_blockSize_le_endOff (g.chainEnd 0 ls) e.length
      have hent := g.entry_le
      rw [g.chainEnd_concat]
      omega
    · have hnil : g.chainEnd 0 (ls ++ [e] ++ [[]]) = g.endOff (g.chainEnd 0 (ls ++ [e])) 0 :=
        g.chainEnd_concat
      rw [hsz', hsz, hnil]
      exact max_eq_right (by omega)

/-- A length of a number of blocks of two pages. -/
theorem Geometry.lengthOk_of_pages {n : ℕ} (hn : 0 < n) (hle : 8192 * n ≤ regLen) :
    g.LengthOk (8192 * n) 0 := by
  have hlen : g.mapLength (8192 * n) = 8192 * n := if_neg (by omega)
  refine ⟨?_, Nat.zero_le _, ?_, ?_⟩
  · rw [hlen]
    exact hle
  · omega
  · rw [hlen]
    exact Nat.dvd_mul_right_of_dvd (by norm_num) n

/-- **`fmmap` accepts an image without a base**, where the length is one of whole pages
and within the limit. -/
theorem IsImage.exists_fmmap (fs : Fs) (fd : Path) (h : IsImage g ((fs fd).getD .empty) ls es)
    (hname : ((fs fd).getD .empty).byte 16 = 0) {length offset : ℕ}
    (hlen : g.LengthOk length offset) :
    ∃ ses, Session.fmmap cfg fs fd length offset = .ok (some ses) ∧
      ses.Opened g fs fd ls es [] length := by
  have hbase : BaseIs g fs (baseImageName ((fs fd).getD .empty) 0) [] :=
    Or.inl ⟨baseImageName_eq_nil hname, rfl⟩
  have hmaps : Session.baseMaps cfg fs (baseImageName ((fs fd).getD .empty) 0) = .ok (fs, []) := by
    rw [Session.baseMaps, if_pos (baseImageName_eq_nil hname)]
  obtain ⟨ses, hses⟩ := h.isChain.exists_fmmap rfl h.size_lt hlen hmaps
  exact ⟨ses, hses, h.isChain.fmmap rfl h.size_lt hbase hses⟩

/-- A block with an entry in some layer has a binding. -/
theorem Geometry.exists_mem_chainBindings {off b : ℕ} {e : List ℕ} (he : e ∈ ls) (hb : b ∈ e) :
    ∃ x ∈ g.chainBindings fd off ls, x.1 = b := by
  induction ls generalizing off with
  | nil => cases he
  | cons e' ls ih =>
    rw [chainBindings]
    rcases List.mem_cons.mp he with rfl | he
    · obtain ⟨i, hi, rfl⟩ := List.getElem_of_mem hb
      refine ⟨(e[i], fd, g.dataOff off i), List.mem_append_left _ ?_, rfl⟩
      rw [bindings, List.mem_map]
      exact ⟨i, List.mem_range.mpr hi, by rw [List.getElem?_eq_getElem hi, Option.getD_some]⟩
    · obtain ⟨x, hx, hxb⟩ := @ih (g.endOff off e'.length) he
      exact ⟨x, List.mem_append_right _ hx, hxb⟩

/-- The blocks of the layers below that are not in the last layer are mapped, and write
protected. -/
theorem Session.Opened.protected {ses : Session} {base : List (ℕ × Path × ℕ)} {length : ℕ}
    (h : ses.Opened g fs fd ls es base length) (hdvd : pageSize ∣ g.blockSize) {v : ℕ} {e : List ℕ}
    (he : e ∈ ls) (hv : v / g.blockSize ∈ e) (hnot : v / g.blockSize ∉ es) :
    ∃ p, ses.pages (v / pageSize) = some p ∧ p.writable = false := by
  have hlow : g.lowBindings base fd ls (v / g.blockSize) ≠ none := by
    intro hnone
    obtain ⟨x, hx, hxb⟩ := g.exists_mem_chainBindings he hv
    exact PageTable.lastOf_eq_none_iff.mp hnone x (List.mem_append_right _ hx) hxb
  obtain ⟨y, hy⟩ := Option.ne_none_iff_exists'.mp hlow
  refine ⟨⟨y.1, y.2 + v / pageSize * pageSize % g.blockSize, false⟩, ?_, rfl⟩
  have htop : g.top fd (g.chainEnd 0 ls) es (v / pageSize * pageSize / g.blockSize) = none := by
    rw [div_page hdvd]
    exact Geometry.top_eq_none.mpr hnot
  rw [h.pages, place_of_none htop, lowerPlace, div_page hdvd, hy]
  rfl

/-- A session just opened has room for a block, where the layer is below its capacity by
the blocks the entry takes and the file is not at its limit. -/
theorem Session.Opened.room {ses : Session} {base : List (ℕ × Path × ℕ)} {length : ℕ}
    (h : ses.Opened g fs fd ls es base length) (hcap : es.length + g.need es.length ≤ g.cap)
    (hend : g.endOff (g.chainEnd 0 ls) es.length + g.blockSize * maxPreNum < 2 ^ 63) :
    ses.Room cfg := by
  have hs := h.super
  have hneed : ses.s.need = g.need es.length := by
    rw [Super.need, Geometry.need, hs.counter, hs.maxPerSeg]
    simp only [Nat.cast_lt]
  have hpos : 1 ≤ g.need es.length := by
    rw [Geometry.need]
    split <;> omega
  rw [Geometry.cap] at hcap
  refine ⟨?_, ?_, fun _ => Or.inr ⟨by rw [h.ring]; rfl, ?_⟩⟩
  · rw [hs.toAllocNum, hs.maxBlockNum]
    omega
  · rw [hs.nextOff (by omega), hs.blockSize]
    exact_mod_cast hend
  · rw [hs.toAllocNum, hs.maxBlockNum, hneed]
    omega

/-- Blocks of two pages, and layers of up to 4096 blocks. -/
def Geometry.twoPages (cfg : Config) : Geometry cfg where
  blockSize := 8192
  maxBlockNum := 4096
  entry_le := by
    rcases cfg.entrySize_cases with h | h <;> omega
  blockSize_lt := by norm_num
  maxBlockNum_ge := by norm_num
  maxBlockNum_lt := by norm_num

/-- Two thousand blocks of three pages. -/
def Geometry.threePages (cfg : Config) : Geometry cfg where
  blockSize := 12288
  maxBlockNum := 2000
  entry_le := by
    rcases cfg.entrySize_cases with h | h <;> omega
  blockSize_lt := by norm_num
  maxBlockNum_ge := by omega
  maxBlockNum_lt := by norm_num

/-- An image with a frozen layer of the first block, all of whose bytes but one are zero. -/
theorem exists_frozenImage (g : Geometry cfg) (hbs : g.blockSize < 2 ^ 30) (hcap : 2 ≤ g.cap)
    (x : UInt8) {y : ℕ} (hy : y < g.blockSize) : ∃ f, IsImage g f [[0]] [] ∧ f.byte 16 = 0 ∧
      ∀ i < g.blockSize, f.byte (g.dataOff 0 0 + i) = if i = y then x else 0 := by
  have hpos := g.blockSize_pos
  have hent := g.entry_le
  have hdata : g.dataOff 0 0 = g.blockSize * 2 := by
    rw [Geometry.dataOff, Geometry.blockAt, Geometry.dataBlock, Nat.zero_div, Nat.zero_add]
  have hend : g.endOff 0 1 = g.blockSize * 3 := by
    rw [Geometry.endOff, Geometry.blockAt, Geometry.blocks, Geometry.lastSeg, Nat.sub_self,
      Nat.zero_div,
      Nat.zero_add]
  obtain ⟨f₀, h₀, hname₀, -⟩ := exists_image_nil g hbs
  obtain ⟨f₁, h₁, hbytes₁, hsz₁⟩ := @IsImage.exists_append _ _ _ _ _ h₀ 0 (Nat.two_pow_pos 32)
    (one_le_two.trans hcap) (by
      change g.endOff 0 1 < 2 ^ 63
      rw [hend]
      omega)
  have hzero : ∀ i, f₁.byte (g.dataOff 0 0 + i) = 0 := by
    intro i
    have hnot : ¬AppendByte g 0 0 (g.dataOff 0 0 + i) := fun h => by
      have hlt := h.lt_dataOff
      omega
    rw [hbytes₁ _ hnot]
    refine h₀.tail _ ?_ hnot
    change g.endOff 0 0 ≤ _
    rw [hdata, Geometry.endOff, Geometry.blocks_zero, Geometry.blockAt, Nat.zero_add]
    exact Nat.le_add_right _ _
  have hname₁ : f₁.byte 16 = 0 := by rw [hbytes₁ 16 AppendByte.ne_name, hname₀]
  have hsize : g.dataOff 0 0 + y < f₁.size := by
    have hle : g.endOff 0 1 ≤ f₁.size := h₁.last.size_le
    rw [hend] at hle
    omega
  -- the byte is written before the layer is frozen
  have h₂ : IsImage g (f₁.store (g.dataOff 0 0 + y) 1 x.toNat) [] [0] := by
    refine h₁.write rfl fun a ha => ⟨0, Nat.one_pos, ?_⟩
    have hmem : g.dataOff 0 0 + y ≤ a ∧ a < g.dataOff 0 0 + y + 1 := by
      by_contra hout
      exact ha (ByteFile.byte_store_of_notMem (by omega))
    change g.dataOff 0 0 ≤ a ∧ a < g.dataOff 0 0 + g.blockSize
    omega
  obtain ⟨f, himage, hbytes, -⟩ := h₂.exists_freeze hbs (by
    change g.endOff (g.endOff 0 1) 0 < 2 ^ 63
    rw [hend, Geometry.endOff, Geometry.blocks_zero, Geometry.blockAt]
    omega)
  have hlow : ∀ a < g.blockSize * 3,
      f.byte a = (f₁.store (g.dataOff 0 0 + y) 1 x.toNat).byte a := by
    rw [← hend]
    exact hbytes
  refine ⟨f, himage, ?_, fun i hi => ?_⟩
  · rw [hlow 16 (by omega), ByteFile.byte_store_of_notMem (by omega), hname₁]
  · rw [hlow _ (by omega)]
    split_ifs with hiy
    · rw [hiy, ByteFile.byte_store_of_mem le_rfl (Nat.lt_succ_self _) hsize, Nat.sub_self, pow_zero,
        Nat.div_one, Nat.mod_eq_of_lt x.toNat_lt, UInt8.ofNat_toNat]
    · rw [ByteFile.byte_store_of_notMem (by omega), hzero]

/-- A session of two blocks on such an image. -/
theorem exists_frozenByte (g : Geometry cfg) (hdvd : pageSize ∣ g.blockSize)
    (hbs : g.blockSize < 2 ^ 30)
    (hcap : 2 ≤ g.cap) (x : UInt8) {y : ℕ} (hy : y < g.blockSize) : ∃ (f : ByteFile)
    (ses : Session),
      IsImage g f [[0]] [] ∧ f.byte 16 = 0 ∧
      (∀ i < g.blockSize, f.byte (g.dataOff 0 0 + i) = if i = y then x else 0) ∧
      Session.fmmap cfg (fun _ => some f) [1] (g.blockSize * 2) 0 = .ok (some ses) ∧
      ses.Opened g (fun _ => some f) [1] [[0]] [] [] (g.blockSize * 2) ∧ ses.Room cfg ∧
      ses.s.fmmapLength = g.blockSize * 2 ∧
      u64 ((ses.globalLength : ℤ) - g.blockSize) = g.blockSize := by
  have hpos := g.blockSize_pos
  have hlow : g.chainEnd 0 ([] ++ [[0]]) = g.blockSize * 3 := by
    rw [g.chainEnd_concat, Geometry.endOff, Geometry.blockAt, Geometry.blocks, Geometry.lastSeg,
      List.length_singleton, Nat.sub_self, Nat.zero_div, Geometry.chainEnd, Nat.zero_add]
  have hend : g.endOff (g.chainEnd 0 ([] ++ [[0]])) ([] : List ℕ).length = g.blockSize * 5 := by
    rw [hlow, List.length_nil, Geometry.endOff, Geometry.blocks_zero, Geometry.blockAt]
    omega
  have hneed : ([] : List ℕ).length + g.need 0 ≤ g.cap := by
    rw [List.length_nil, Geometry.need]
    split <;> omega
  obtain ⟨f, himage, hname, hbytes⟩ := exists_frozenImage g hbs hcap x hy
  have hmap : g.mapLength (g.blockSize * 2) = g.blockSize * 2 := if_neg (by omega)
  have hlen : g.LengthOk (g.blockSize * 2) 0 := by
    refine ⟨?_, Nat.zero_le _, by rw [hmap]; omega, by rw [hmap]; exact hdvd.mul_right 2⟩
    rw [hmap, show regLen = 549755813888 from rfl]
    omega
  obtain ⟨ses, hopen, hopened⟩ := IsImage.exists_fmmap (fun _ => some f) [1] himage hname hlen
  refine ⟨f, ses, himage, hname, hbytes, hopen, hopened, hopened.room hneed ?_, ?_, ?_⟩
  · have hend' : g.endOff (g.chainEnd 0 [[0]]) ([] : List ℕ).length = g.blockSize * 5 := hend
    rw [hend', show maxPreNum = 5 from rfl]
    omega
  · rw [hopened.fmmapLength, hmap]
  · have hsub : ((ses.globalLength : ℤ) - g.blockSize) = (g.blockSize : ℕ) := by
      rw [hopened.globalLength]
      push_cast
      ring
    rw [hsub, u64_natCast (by omega)]

/-- A session of two blocks, on an image with a frozen layer of the first block. -/
theorem exists_frozen (g : Geometry cfg) (hdvd : pageSize ∣ g.blockSize)
    (hbs : g.blockSize < 2 ^ 30)
    (hcap : 2 ≤ g.cap) : ∃ (f : ByteFile) (ses : Session), IsImage g f [[0]] [] ∧ f.byte 16 = 0 ∧
      Session.fmmap cfg (fun _ => some f) [1] (g.blockSize * 2) 0 = .ok (some ses) ∧
      ses.Opened g (fun _ => some f) [1] [[0]] [] [] (g.blockSize * 2) ∧ ses.Room cfg ∧
      ses.s.fmmapLength = g.blockSize * 2 ∧
      u64 ((ses.globalLength : ℤ) - g.blockSize) = g.blockSize := by
  obtain ⟨f, ses, himage, hname, -, hsession⟩ := exists_frozenByte g hdvd hbs hcap 0 g.blockSize_pos
  exact ⟨f, ses, himage, hname, hsession⟩

/-- A session on an image with a frozen layer of one block, whose second page starts with
a given byte. -/
theorem exists_session (cfg : Config) (x : UInt8) : ∃ (f : ByteFile) (ses : Session),
    IsImage (Geometry.twoPages cfg) f [[0]] [] ∧ f.byte 16 = 0 ∧
      f.byte ((Geometry.twoPages cfg).dataOff 0 0 + 4096) = x ∧
      Session.fmmap cfg (fun _ => some f) [1] (8192 * 2) 0 = .ok (some ses) ∧
      ses.Opened (Geometry.twoPages cfg) (fun _ => some f) [1] [[0]] [] [] (8192 * 2) ∧
      ses.Room cfg ∧ ∃ e, ses.pages 0 = some e ∧ e.writable = false := by
  have hbs : (Geometry.twoPages cfg).blockSize = 8192 := rfl
  have hcap : 2 ≤ (Geometry.twoPages cfg).cap := by
    change 2 ≤ 4096
    norm_num
  generalize Geometry.twoPages cfg = g at *
  have hdvd : pageSize ∣ g.blockSize := by norm_num [hbs]
  obtain ⟨f, ses, himage, hname, hbytes, hopen, hopened, hroom, -⟩ :=
    @exists_frozenByte _ g hdvd (by norm_num [hbs]) hcap x 4096 (by norm_num [hbs])
  rw [hbs] at hopen hopened
  refine ⟨f, ses, himage, hname, ?_, hopen, hopened, hroom, ?_⟩
  · rw [hbytes 4096 (by norm_num [hbs]), if_pos rfl]
  · refine hopened.protected hdvd (v := 0) (List.mem_singleton_self _) ?_ List.not_mem_nil
    rw [Nat.zero_div]
    exact List.mem_singleton_self _

end Pcow
