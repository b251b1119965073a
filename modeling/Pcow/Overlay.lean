import Pcow.Session

/-!
# What a session shows

Where a byte of the mapped range comes from follows from three things: the
entries of the last layer, the bindings of the layers below it, and the table of
incomplete blocks. `place` is this map. A block with an entry in the last layer is
there, except for those of its units that are still to be copied; everything else
is taken from the layers below, write protected, or is missing.

`Session.Inv` is the invariant of a session: its file is an image, its page table is
`place` page by page, what the tables of `cow.c` say is true of it, and the layers
below are where no operation of the session writes. The byte the guest sees is then
the byte at its place (`Session.Core.view_eq`).
-/

namespace Pcow

variable {cfg : Config} {g : Geometry cfg} {f f' : ByteFile} {fd : Path} {off b v : ℕ}
  {es : List ℕ} {ls : List (List ℕ)}

/-! ### Bindings -/

/-- The bindings of a layer: the virtual block of each entry and its data
block. -/
def Geometry.bindings (g : Geometry cfg) (fd : Path) (off : ℕ) (es : List ℕ) :
    List (ℕ × Path × ℕ) :=
  (List.range es.length).map fun i => (es[i]?.getD 0, fd, g.dataOff off i)

theorem Geometry.bindings_concat : g.bindings fd off (es ++ [v]) =
    g.bindings fd off es ++ [(v, fd, g.dataOff off es.length)] := by
  rw [bindings, List.length_append, List.length_singleton, List.range_succ, List.map_append,
    List.map_singleton, List.getElem?_concat_length, Option.getD_some, bindings]
  congr 1
  refine List.map_congr_left fun i hi => ?_
  rw [List.mem_range] at hi
  rw [List.getElem?_append_left hi]

theorem Geometry.mem_bindings {x : ℕ × Path × ℕ} (h : x ∈ g.bindings fd off es) :
    ∃ i, ∃ hi : i < es.length, x = (es[i], fd, g.dataOff off i) := by
  rw [bindings, List.mem_map] at h
  obtain ⟨i, hi, rfl⟩ := h
  rw [List.mem_range] at hi
  exact ⟨i, hi, by rw [List.getElem?_eq_getElem hi, Option.getD_some]⟩

/-- The data block of a virtual block in a layer: that of the last entry that names
it. -/
def Geometry.top (g : Geometry cfg) (fd : Path) (off : ℕ) (es : List ℕ) (b : ℕ) :
    Option (Path × ℕ) :=
  PageTable.lastOf (g.bindings fd off es) b

theorem Geometry.top_eq_some {y : Path × ℕ} (h : g.top fd off es b = some y) :
    ∃ i, ∃ hi : i < es.length, es[i] = b ∧ y = (fd, g.dataOff off i) := by
  obtain ⟨i, hi, hx⟩ := g.mem_bindings (PageTable.mem_of_lastOf h)
  rw [Prod.mk.injEq] at hx
  exact ⟨i, hi, hx.1.symm, hx.2⟩

theorem Geometry.top_eq_none : g.top fd off es b = none ↔ b ∉ es := by
  rw [top, PageTable.lastOf_eq_none_iff]
  constructor
  · intro h hb
    obtain ⟨i, hi, rfl⟩ := List.getElem_of_mem hb
    refine h (es[i], fd, g.dataOff off i) ?_ rfl
    rw [bindings, List.mem_map]
    exact ⟨i, List.mem_range.mpr hi, by rw [List.getElem?_eq_getElem hi, Option.getD_some]⟩
  · intro h x hx hb
    obtain ⟨i, hi, rfl⟩ := g.mem_bindings hx
    exact h (hb ▸ List.getElem_mem hi)

/-- A new entry binds its block, and leaves the others alone. -/
theorem Geometry.top_concat : g.top fd off (es ++ [v]) b =
    if v = b then some (fd, g.dataOff off es.length) else g.top fd off es b := by
  rw [top, bindings_concat, PageTable.lastOf_concat, top]

/-- The data blocks of a layer do not overlap. -/
theorem Geometry.dataOff_apart {i i' : ℕ} (h₁ : g.dataOff off i < g.dataOff off i' + g.blockSize)
    (h₂ : g.dataOff off i' < g.dataOff off i + g.blockSize) : i = i' := by
  by_contra hne
  have hdb : g.dataBlock i ≠ g.dataBlock i' := fun heq => hne (g.dataBlock_injective heq)
  rw [Geometry.dataOff, Geometry.dataOff] at h₁ h₂
  rcases Nat.lt_or_gt_of_ne hdb with hlt | hlt
  · have := g.blockAt_add_le off hlt
    omega
  · have := g.blockAt_add_le off hlt
    omega

/-! ### Bytes that are never stored to -/

/-- The bytes `baseImageName` reads, in the first page of the image. -/
def NameByte (a : ℕ) : Prop := 16 ≤ a ∧ a < 4096

theorem baseImageName_congr (h : ∀ a, NameByte a → f'.byte a = f.byte a) :
    baseImageName f' 0 = baseImageName f 0 := by
  have key : ∀ n ≤ 4080, ((List.range n).map fun i => f'.byte (0 + 16 + i)) =
      (List.range n).map fun i => f.byte (0 + 16 + i) := by
    intro n hn
    refine List.map_congr_left fun i hi => ?_
    rw [List.mem_range] at hi
    exact h _ ⟨by omega, by omega⟩
  unfold baseImageName
  rw [key (4096 - 16) (by norm_num)]

/-- The bytes a session over a last layer at `off` does not store to: those of the layers
below, and those of the name. -/
def KeptByte (off a : ℕ) : Prop := a < off ∨ NameByte a

/-- There are none past the super block of the last layer. -/
theorem Geometry.not_keptByte {a : ℕ} (hdvd : pageSize ∣ g.blockSize)
    (h : g.chainEnd 0 ls + g.blockSize ≤ a) : ¬KeptByte (g.chainEnd 0 ls) a := by
  have hpage := Nat.le_of_dvd g.blockSize_pos hdvd
  rw [show pageSize = 4096 from rfl] at hpage
  rintro (ha | ⟨-, ha⟩)
  · omega
  · omega

theorem Geometry.not_keptByte_of_data {i a : ℕ} (hdvd : pageSize ∣ g.blockSize)
    (h : g.dataOff (g.chainEnd 0 ls) i ≤ a) : ¬KeptByte (g.chainEnd 0 ls) a :=
  g.not_keptByte hdvd (le_trans (Nat.add_le_add_left
    (Nat.le_mul_of_pos_right _ g.dataBlock_pos) _) h)

/-- No append to the last layer stores to one. -/
theorem AppendByte.not_keptByte {k a : ℕ} (hdvd : pageSize ∣ g.blockSize)
    (h : AppendByte g (g.chainEnd 0 ls) k a) : ¬KeptByte (g.chainEnd 0 ls) a := by
  intro hkept
  have hname : NameByte a := hkept.resolve_left (not_lt.mpr h.mem.1)
  have hblock : ∀ q, 0 < q → g.chainEnd 0 ls + g.blockSize ≤ g.blockAt (g.chainEnd 0 ls) q := by
    intro q hq
    exact Nat.add_le_add_left (Nat.le_mul_of_pos_right _ hq) _
  have hpast : ∀ {q}, 0 < q → ¬g.blockAt (g.chainEnd 0 ls) q ≤ a := fun hq hle =>
    g.not_keptByte hdvd (le_trans (hblock _ hq) hle) hkept
  have hend : 0 < g.blocks k := by
    rw [Geometry.blocks]
    omega
  rcases h with ⟨h, -⟩ | ⟨-, h, -⟩ | ⟨-, ⟨h, -⟩ | ⟨hge, hlt⟩⟩
  · have hmem := g.slot_mem (g.chainEnd 0 ls) k
    exact hpast (g.metaBlock_pos (i := k / g.perSeg)) (by omega)
  · exact hpast Geometry.metaBlock_pos h
  · exact hpast hend h
  · -- the number of the active meta block stands before the name
    obtain ⟨h₁, h₂⟩ := hname
    rcases ls with _ | ⟨e, ls⟩
    · rw [Geometry.chainEnd] at hlt
      omega
    · have hle : g.endOff 0 e.length ≤ g.chainEnd (g.endOff 0 e.length) ls := Geometry.le_chainEnd
      have hend := g.add_blockSize_le_endOff 0 e.length
      have hpage := Nat.le_of_dvd g.blockSize_pos hdvd
      rw [Geometry.chainEnd] at hge
      rw [show pageSize = 4096 from rfl] at hpage
      omega

/-! ### Places -/

/-- The unit of byte `x` of a block is copied: the block is not in the table, or
the table has the unit. -/
def Copied (moved : ℕ → Option (List ℕ)) (b x : ℕ) : Prop :=
  ∀ mv ∈ moved b, x / cowUnit * cowUnit ∈ mv

instance (moved : ℕ → Option (List ℕ)) (b x : ℕ) : Decidable (Copied moved b x) :=
  inferInstanceAs (Decidable (∀ mv ∈ _, _))

/-- The place of a byte in the layers below. -/
def lowerPlace (n : ℕ) (low : ℕ → Option (Path × ℕ)) (v : ℕ) : Option (Pte Path) :=
  (low (v / n)).map fun y => ⟨y.1, y.2 + v % n, false⟩

/-- **The place of a byte of the range**, in blocks of size `n`: the file it comes
from, its offset there, and whether it may be written to. -/
def place (n : ℕ) (top low : ℕ → Option (Path × ℕ)) (moved : ℕ → Option (List ℕ)) (v : ℕ) :
    Option (Pte Path) :=
  match top (v / n) with
  | some y => if Copied moved (v / n) (v % n) then some ⟨y.1, y.2 + v % n, true⟩
    else lowerPlace n low v
  | none => lowerPlace n low v

section Place

variable {n : ℕ} {top low : ℕ → Option (Path × ℕ)} {moved : ℕ → Option (List ℕ)}

/-- A page lies in one block. -/
theorem div_page (h : pageSize ∣ n) (v : ℕ) : v / pageSize * pageSize / n = v / n := by
  obtain ⟨m, rfl⟩ := h
  rw [← Nat.div_div_eq_div_mul, ← Nat.div_div_eq_div_mul,
    Nat.mul_div_cancel _ (show 0 < pageSize by decide)]

theorem mod_page (h : pageSize ∣ n) (v : ℕ) :
    v / pageSize * pageSize % n + v % pageSize = v % n := by
  have h₁ := Nat.div_add_mod (v / pageSize * pageSize) n
  have h₂ := Nat.div_add_mod v n
  have h₃ := Nat.div_add_mod v pageSize
  rw [div_page h] at h₁
  rw [Nat.mul_comm pageSize] at h₃
  omega

/-- A page lies in one unit. -/
theorem unit_page (h : pageSize ∣ n) (v : ℕ) :
    v / pageSize * pageSize % n / cowUnit * cowUnit = v % n / cowUnit * cowUnit := by
  obtain ⟨m, rfl⟩ := h
  have h₁ := mod_page (Nat.dvd_mul_right pageSize m) v
  have h₂ : v / pageSize * pageSize % (pageSize * m) = pageSize * (v / pageSize % m) := by
    rw [Nat.mul_comm (v / pageSize), Nat.mul_mod_mul_left]
  have h₃ := Nat.mod_lt v (show 0 < pageSize by decide)
  rw [h₂] at h₁
  rw [h₂, ← h₁]
  rw [show pageSize = 4096 from rfl] at *
  rw [show cowUnit = 4096 from rfl]
  omega

/-- **The place of a byte is that of its page**, and the byte's offset in it. -/
theorem place_page (h : pageSize ∣ n) (v : ℕ) : place n top low moved v =
    (place n top low moved (v / pageSize * pageSize)).map fun e =>
      { e with off := e.off + v % pageSize } := by
  have hmod := mod_page h v
  have hlower : lowerPlace n low v = (lowerPlace n low (v / pageSize * pageSize)).map fun e =>
      { e with off := e.off + v % pageSize } := by
    rw [lowerPlace, lowerPlace, div_page h, Option.map_map]
    simp only [Function.comp_def, Nat.add_assoc, hmod]
  have hcop : Copied moved (v / n) (v / pageSize * pageSize % n) ↔
      Copied moved (v / n) (v % n) := by
    rw [Copied, Copied, unit_page h]
  rw [place, place, div_page h]
  rcases top (v / n) with _ | y
  · exact hlower
  · simp only [hcop]
    split
    · rw [Option.map_some]
      simp only [Nat.add_assoc, hmod]
    · exact hlower

/-- A writable place is in the layer on top, a protected one below it. -/
theorem place_eq_some {e : Pte Path} (h : place n top low moved v = some e) :
    (e.writable = true ∧ Copied moved (v / n) (v % n) ∧
      top (v / n) = some (e.file, e.off - v % n) ∧ v % n ≤ e.off) ∨
    (e.writable = false ∧ lowerPlace n low v = some e ∧
      low (v / n) = some (e.file, e.off - v % n) ∧ v % n ≤ e.off) := by
  have hlower : lowerPlace n low v = some e → e.writable = false ∧ lowerPlace n low v = some e ∧
      low (v / n) = some (e.file, e.off - v % n) ∧ v % n ≤ e.off := by
    intro hl
    have hl' := hl
    rw [lowerPlace, Option.map_eq_some_iff] at hl
    obtain ⟨y, hy, rfl⟩ := hl
    exact ⟨rfl, hl', by simp [hy], Nat.le_add_left _ _⟩
  rw [place] at h
  split at h
  · rename_i y hy
    split at h
    · rename_i hc
      cases h
      exact Or.inl ⟨rfl, hc, by simp [hy], Nat.le_add_left _ _⟩
    · exact Or.inr (hlower h)
  · exact Or.inr (hlower h)

theorem copied_congr {moved' : ℕ → Option (List ℕ)} {x : ℕ} (h : moved' b = moved b) :
    Copied moved' b x ↔ Copied moved b x := by
  rw [Copied, Copied, h]

theorem place_congr {top' : ℕ → Option (Path × ℕ)} {moved' : ℕ → Option (List ℕ)}
    (htop : top' (v / n) = top (v / n))
    (hc : Copied moved' (v / n) (v % n) ↔ Copied moved (v / n) (v % n)) :
    place n top' low moved' v = place n top low moved v := by
  rw [place, place, htop]
  simp only [hc]

theorem place_of_not_copied (h : ¬Copied moved (v / n) (v % n)) :
    place n top low moved v = lowerPlace n low v := by
  rw [place]
  split
  · exact if_neg h
  · rfl

theorem place_of_none (h : top (v / n) = none) :
    place n top low moved v = lowerPlace n low v := by
  rw [place, h]

/-- A block that gets an entry and has no unit copied is where it was. -/
theorem place_append {y : Path × ℕ} (hnone : top b = none) (v : ℕ) :
    place n (fun c => if b = c then some y else top c) low (Function.update moved b (some [])) v =
      place n top low moved v := by
  by_cases hv : b = v / n
  · have hc : ¬Copied (Function.update moved b (some [])) (v / n) (v % n) := by
      intro hc
      refine List.not_mem_nil (hc [] ?_)
      rw [← hv, Function.update_self]
      rfl
    rw [place_of_not_copied hc, place_of_none (hv ▸ hnone)]
  · exact place_congr (if_neg hv) (copied_congr (Function.update_of_ne (Ne.symm hv) _ _))

/-- Where `len` bytes from `d` on become copied in block `b`, they go to its data
block, and nothing else moves. -/
theorem place_expose {p : Path} {o d len : ℕ} {moved' : ℕ → Option (List ℕ)} (hn : 0 < n)
    (htop : top b = some (p, o))
    (hmoved : ∀ x < n, Copied moved' b x ↔ (d ≤ x ∧ x < d + len) ∨ Copied moved b x)
    (hother : ∀ c, c ≠ b → moved' c = moved c) (v : ℕ) :
    place n top low moved' v =
      if v / n = b ∧ d ≤ v % n ∧ v % n < d + len then some ⟨p, o + v % n, true⟩
      else place n top low moved v := by
  by_cases hv : v / n = b
  · have hiff := hmoved (v % n) (Nat.mod_lt v hn)
    rw [place, place, hv, htop]
    by_cases hx : d ≤ v % n ∧ v % n < d + len
    · rw [if_pos ⟨rfl, hx⟩]
      simp only [if_pos (hiff.mpr (Or.inl hx))]
    · rw [if_neg fun hx' => hx hx'.2]
      simp only [hiff, hx, false_or]
  · rw [if_neg fun hx => hv hx.1]
    exact place_congr rfl (copied_congr (hother _ hv))

end Place

/-! ### The core of a session -/

/-- The byte of a file of the system. -/
def Fs.byteOf (fs : Fs) (p : Path) (a : ℕ) : UInt8 := ((fs p).getD .empty).byte a

/-- What the guest sees at `v`; a missing page reads as zeros. -/
def Session.view (ses : Session) (v : ℕ) : UInt8 := (ses.byteAt v).getD 0

/-- **The core of the invariant of a session** on an image with the frozen layers
`ls` and the last layer `es`, over the bindings `low`: the pages are those of
`place`, for the copied units `moved`. -/
structure Session.Core (ses : Session) (g : Geometry cfg) (ls : List (List ℕ)) (es : List ℕ)
    (low : ℕ → Option (Path × ℕ)) (moved : ℕ → Option (List ℕ)) : Prop where
  page_dvd : pageSize ∣ g.blockSize
  image : IsImage g ses.file ls es
  super : ses.s.Is g (g.chainEnd 0 ls) es.length
  ring : RingInv g ses.file (g.chainEnd 0 ls) es.length ses.s ses.ring
  below : ∀ b p o, low b = some (p, o) →
    p = ses.s.fd ∧ o + g.blockSize ≤ g.chainEnd 0 ls ∨
      p ≠ ses.s.fd ∧ o + g.blockSize ≤ ((ses.fs p).getD .empty).size
  pages : ∀ p, ses.pages p = place g.blockSize (g.top ses.s.fd (g.chainEnd 0 ls) es) low moved
    (p * pageSize)

namespace Session

variable {ses ses' : Session} {low : ℕ → Option (Path × ℕ)} {moved : ℕ → Option (List ℕ)}

/-- The place of a byte in a session. -/
def placeOf (ses : Session) (g : Geometry cfg) (ls : List (List ℕ)) (es : List ℕ)
    (low : ℕ → Option (Path × ℕ)) (moved : ℕ → Option (List ℕ)) (v : ℕ) : Option (Pte Path) :=
  place g.blockSize (g.top ses.s.fd (g.chainEnd 0 ls) es) low moved v

/-- What the guest sees follows from the pages. -/
theorem view_of_pages {n : ℕ} {top : ℕ → Option (Path × ℕ)} (hdvd : pageSize ∣ n)
    (hpages : ∀ p, ses.pages p = place n top low moved (p * pageSize)) (v : ℕ) : ses.view v =
      ((place n top low moved v).map fun e => ses.fs.byteOf e.file e.off).getD 0 := by
  rw [view, Session.byteAt, hpages, place_page hdvd v, Option.map_map]
  rfl

theorem Core.placeOf_eq (h : ses.Core g ls es low moved) (v : ℕ) :
    ses.placeOf g ls es low moved v =
      (ses.pages (v / pageSize)).map fun e => { e with off := e.off + v % pageSize } := by
  rw [placeOf, place_page h.page_dvd v, h.pages]

/-- **The guest sees the byte at its place.** -/
theorem Core.view_eq (h : ses.Core g ls es low moved) (v : ℕ) : ses.view v =
    ((ses.placeOf g ls es low moved v).map fun e => ses.fs.byteOf e.file e.off).getD 0 :=
  view_of_pages h.page_dvd h.pages v

theorem Core.view_of_place (h : ses.Core g ls es low moved) {e : Pte Path}
    (he : ses.placeOf g ls es low moved v = some e) : ses.view v = ses.fs.byteOf e.file e.off := by
  rw [h.view_eq, he, Option.map_some, Option.getD_some]

/-- **Where a place is**: a protected one below the last layer or in another file, a
writable one in a data block of the last layer that an entry gives to the block. -/
theorem Core.place_cases (h : ses.Core g ls es low moved) {e : Pte Path}
    (he : ses.placeOf g ls es low moved v = some e) :
    (e.writable = false ∧ lowerPlace g.blockSize low v = some e ∧
      (e.file = ses.s.fd → e.off < g.chainEnd 0 ls)) ∨
    (e.writable = true ∧ e.file = ses.s.fd ∧ Copied moved (v / g.blockSize) (v % g.blockSize) ∧
      ∃ i, ∃ hi : i < es.length, es[i] = v / g.blockSize ∧
        e.off = g.dataOff (g.chainEnd 0 ls) i + v % g.blockSize) := by
  have hlt := Nat.mod_lt v g.blockSize_pos
  rcases place_eq_some he with ⟨hw, hc, htop, hle⟩ | ⟨hw, hl, hlow, hle⟩
  · obtain ⟨i, hi, hb, hy⟩ := Geometry.top_eq_some htop
    rw [Prod.mk.injEq] at hy
    exact Or.inr ⟨hw, hy.1, hc, i, hi, hb, by omega⟩
  · refine Or.inl ⟨hw, hl, fun hf => ?_⟩
    rcases h.below _ _ _ hlow with ⟨-, ho⟩ | ⟨hne, -⟩
    · omega
    · exact absurd hf hne

/-- A place is inside its file. -/
theorem Core.place_backed (h : ses.Core g ls es low moved) {e : Pte Path}
    (he : ses.placeOf g ls es low moved v = some e) :
    e.off < ((ses.fs e.file).getD .empty).size := by
  have hlt := Nat.mod_lt v g.blockSize_pos
  have hend := h.image.endOff_le
  rcases place_eq_some he with ⟨hw, hc, htop, hle⟩ | ⟨hw, hl, hlow, hle⟩
  · obtain ⟨i, hi, hb, hy⟩ := Geometry.top_eq_some htop
    rw [Prod.mk.injEq] at hy
    have := g.blockAt_add_le (g.chainEnd 0 ls) (g.dataBlock_lt hi)
    rw [Geometry.endOff] at hend
    rw [Geometry.dataOff] at hy
    rw [hy.1]
    change e.off < ses.file.size
    omega
  · rcases h.below _ _ _ hlow with ⟨hf, ho⟩ | ⟨hf, ho⟩
    · have := g.add_blockSize_le_endOff (g.chainEnd 0 ls) es.length
      rw [hf]
      change e.off < ses.file.size
      omega
    · omega

/-! ### Steps the guest does not see -/

/-- The session goes on over the same range and the same files; the file of the image
is the only one that may have changed, and not in its frozen layers or in the name of its
base. -/
structure Env (ses ses' : Session) : Prop where
  fd : ses'.s.fd = ses.s.fd
  fmmapLength : ses'.s.fmmapLength = ses.s.fmmapLength
  globalLength : ses'.globalLength = ses.globalLength
  files : ∀ p, p ≠ ses.s.fd → ses'.fs p = ses.fs p
  myOff : ses'.s.myOff = ses.s.myOff
  kept : ∀ a, KeptByte ses.s.myOff a → ses'.file.byte a = ses.file.byte a

/-- A step the guest does not see: every byte of the range is as it was, what was
mapped still is, and what was writable still is. -/
structure Same (ses ses' : Session) : Prop extends Env ses ses' where
  view : ses'.view = ses.view
  mapped : ∀ p, ses.pages p ≠ none → ses'.pages p ≠ none
  writable : ∀ p e, ses.pages p = some e → e.writable = true →
    ∃ e', ses'.pages p = some e' ∧ e'.writable = true

theorem Env.refl : ses.Env ses := ⟨rfl, rfl, rfl, fun _ _ => rfl, rfl, fun _ _ => rfl⟩

theorem Env.trans {ses'' : Session} (h : ses.Env ses') (h' : ses'.Env ses'') :
    ses.Env ses'' where
  fd := h'.fd.trans h.fd
  fmmapLength := h'.fmmapLength.trans h.fmmapLength
  globalLength := h'.globalLength.trans h.globalLength
  files p hp := (h'.files p (h.fd ▸ hp)).trans (h.files p hp)
  myOff := h'.myOff.trans h.myOff
  kept a ha := (h'.kept a (h.myOff ▸ ha)).trans (h.kept a ha)

theorem Same.refl : ses.Same ses := ⟨Env.refl, rfl, fun _ h => h, fun _ e he hw => ⟨e, he, hw⟩⟩

theorem Same.trans {ses'' : Session} (h : ses.Same ses') (h' : ses'.Same ses'') :
    ses.Same ses'' where
  toEnv := h.toEnv.trans h'.toEnv
  view := h'.view.trans h.view
  mapped p hp := h'.mapped p (h.mapped p hp)
  writable p e he hw := by
    obtain ⟨e', he', hw'⟩ := h.writable p e he hw
    exact h'.writable p e' he' hw'

theorem file_issue {ops : List FileOp} : (ses.issue ops).file = FileOp.run ops ses.file := by
  rw [file, issue]
  simp only [Function.update_self, Option.getD_some]

theorem issue_nil (h : ses.fs ses.s.fd ≠ none) : ses.issue [] = ses := by
  obtain ⟨f, hf⟩ := Option.ne_none_iff_exists'.mp h
  have hfile : ses.file = f := by rw [file, hf, Option.getD_some]
  rw [issue, FileOp.run_nil, hfile, ← hf, Function.update_eq_self]

theorem issue_issue {ops ops' : List FileOp} :
    (ses.issue ops).issue ops' = ses.issue (ops ++ ops') := by
  rw [issue, file_issue, ← FileOp.run_append]
  simp only [issue, Function.update_idem]

/-- The file where the super block and the ring have changed too. -/
theorem file_issue_of_fd {ops : List FileOp} {s' : Super} {r' : Ring} (hfd : s'.fd = ses.s.fd) :
    ({ ses.issue ops with s := s', ring := r' } : Session).file = FileOp.run ops ses.file := by
  rw [← file_issue, file, file]
  simp only [hfd]
  rfl

theorem issue_fs_of_ne {ops : List FileOp} {p : Path} (h : p ≠ ses.s.fd) :
    (ses.issue ops).fs p = ses.fs p :=
  Function.update_of_ne h _ _

theorem env_issue {ops : List FileOp}
    (h : ∀ a, KeptByte ses.s.myOff a → (FileOp.run ops ses.file).byte a = ses.file.byte a) :
    ses.Env (ses.issue ops) :=
  ⟨rfl, rfl, rfl, fun _ hp => issue_fs_of_ne hp, rfl, fun a ha => by rw [file_issue, h a ha]⟩

theorem byteOf_fd {a : ℕ} : ses.fs.byteOf ses.s.fd a = ses.file.byte a := rfl

/-- The bytes of the files after operations that keep every byte the range shows. -/
theorem byteOf_issue {ops : List FileOp} {e : Pte Path}
    (h : e.file = ses.s.fd → (FileOp.run ops ses.file).byte e.off = ses.file.byte e.off) :
    (ses.issue ops).fs.byteOf e.file e.off = ses.fs.byteOf e.file e.off := by
  by_cases hf : e.file = ses.s.fd
  · have h₁ : (ses.issue ops).fs.byteOf ses.s.fd e.off = (ses.issue ops).file.byte e.off := rfl
    rw [hf, h₁, file_issue, h hf, byteOf_fd]
  · rw [Fs.byteOf, issue_fs_of_ne hf, Fs.byteOf]

/-- Two sessions whose places and bytes agree show the same. -/
theorem Core.view_congr {es' : List ℕ} {moved' : ℕ → Option (List ℕ)}
    (h : ses.Core g ls es low moved) (h' : ses'.Core g ls es' low moved')
    (hplace : ses'.placeOf g ls es' low moved' v = ses.placeOf g ls es low moved v)
    (hbyte : ∀ e, ses.placeOf g ls es low moved v = some e →
      ses'.fs.byteOf e.file e.off = ses.fs.byteOf e.file e.off) : ses'.view v = ses.view v := by
  rw [h.view_eq, h'.view_eq, hplace]
  rcases hp : ses.placeOf g ls es low moved v with _ | e
  · rfl
  · rw [Option.map_some, Option.map_some, hbyte e hp]

/-- Operations that leave an image of the same size. -/
theorem Core.issue_core (h : ses.Core g ls es low moved) {ops : List FileOp}
    (hsz : (FileOp.run ops ses.file).size = ses.file.size)
    (himage : IsImage g (FileOp.run ops ses.file) ls es) :
    (ses.issue ops).Core g ls es low moved := by
  refine ⟨h.page_dvd, ?_, h.super, ?_, fun b p o hl => ?_, h.pages⟩
  · rw [file_issue]
    exact himage
  · rw [file_issue]
    exact h.ring.of_size hsz
  · refine (h.below b p o hl).imp id fun hp => ⟨hp.1, ?_⟩
    rw [issue_fs_of_ne hp.1]
    exact hp.2

/-- **Operations on the file that the range does not show.** -/
theorem Core.issue (h : ses.Core g ls es low moved) {ops : List FileOp}
    (hsz : (FileOp.run ops ses.file).size = ses.file.size)
    (himage : IsImage g (FileOp.run ops ses.file) ls es)
    (hkept : ∀ a, KeptByte (g.chainEnd 0 ls) a →
      (FileOp.run ops ses.file).byte a = ses.file.byte a)
    (hkeep : ∀ v e, ses.placeOf g ls es low moved v = some e → e.file = ses.s.fd →
      (FileOp.run ops ses.file).byte e.off = ses.file.byte e.off) :
    (ses.issue ops).Core g ls es low moved ∧ ses.Same (ses.issue ops) := by
  have hcore := h.issue_core hsz himage
  refine ⟨hcore, env_issue (h.super.myOff ▸ hkept), ?_, fun _ hp => hp, fun _ e he hw =>
    ⟨e, he, hw⟩⟩
  funext v
  exact h.view_congr hcore rfl fun e he => byteOf_issue (hkeep v e he)

/-- Operations that change bytes of meta blocks only, and none that is read as
structure. -/
theorem Core.issue_quiet (h : ses.Core g ls es low moved) {ops : List FileOp}
    (hsz : (FileOp.run ops ses.file).size = ses.file.size)
    (hb : ∀ a, (FileOp.run ops ses.file).byte a ≠ ses.file.byte a →
      g.chainEnd 0 ls + g.blockSize ≤ a ∧ a < g.endOff (g.chainEnd 0 ls) es.length ∧
      ¬StructByte g (g.chainEnd 0 ls) es.length a ∧
      ∀ i, ¬(g.dataOff (g.chainEnd 0 ls) i ≤ a ∧
        a < g.dataOff (g.chainEnd 0 ls) i + g.blockSize)) :
    (ses.issue ops).Core g ls es low moved ∧ ses.Same (ses.issue ops) := by
  refine h.issue hsz (h.image.of_quiet hsz fun a ha => ?_) (fun a hkept => ?_) fun v e he hf => ?_
  · obtain ⟨h₁, h₂, h₃, -⟩ := hb a ha
    exact ⟨by omega, h₂, h₃⟩
  · by_contra hne
    exact g.not_keptByte h.page_dvd (hb a hne).1 hkept
  · by_contra hne
    obtain ⟨h₁, -, -, h₄⟩ := hb _ hne
    rcases h.place_cases he with ⟨-, -, hlt⟩ | ⟨-, -, -, i, hi, -, ho⟩
    · have := hlt hf
      omega
    · have := Nat.mod_lt v g.blockSize_pos
      exact h₄ i ⟨by omega, by omega⟩

/-- **A block gets an entry in the last layer**, and none of its units is copied
yet. -/
theorem Core.append (h : ses.Core g ls es low moved) {n n' faultOff : ℕ} {s' : Super} {r' : Ring}
    {nb : NewBlock} {ops : List FileOp}
    (hr : newBlock cfg ses.file ses.s ses.ring n n' faultOff = .ok (s', r', nb, ops))
    (hb : g.blockOf faultOff = b) (hnot : b ∉ es)
    (hses : ses' = { ses.issue ops with s := s', ring := r' }) :
    ses'.Core g ls (es ++ [b]) low (Function.update moved b (some [])) ∧ ses.Same ses' ∧
      nb = ⟨g.dataOff (g.chainEnd 0 ls) es.length⟩ ∧
      (∀ i, ∀ x < g.blockSize, ses'.file.byte (g.dataOff (g.chainEnd 0 ls) i + x) =
        ses.file.byte (g.dataOff (g.chainEnd 0 ls) i + x)) ∧
      ∀ x, ses'.file.byte (g.dataOff (g.chainEnd 0 ls) es.length + x) = 0 := by
  obtain ⟨himage, hs', henv, hnb, hring, htouch⟩ := h.image.newBlock h.super h.ring hr
  rw [hb] at himage
  have hfile : ses'.file = FileOp.run ops ses.file := by
    rw [← file_issue, hses, file, file]
    simp only [henv.1]
    rfl
  have hkeep : ∀ a, (a < g.chainEnd 0 ls ∨ ∃ i, g.dataOff (g.chainEnd 0 ls) i ≤ a ∧
      a < g.dataOff (g.chainEnd 0 ls) i + g.blockSize) →
      (FileOp.run ops ses.file).byte a = ses.file.byte a := by
    intro a ha
    refine FileOp.byte_run_of_not_touches fun o ho ht => ?_
    have hap := htouch o ho a ht
    rcases ha with ha | ⟨i, hi⟩
    · have := hap.mem.1
      omega
    · exact hap.not_data i hi
  have htop : ∀ c, g.top s'.fd (g.chainEnd 0 ls) (es ++ [b]) c =
      if b = c then some (s'.fd, g.dataOff (g.chainEnd 0 ls) es.length) else
        g.top ses.s.fd (g.chainEnd 0 ls) es c := by
    intro c
    rw [Geometry.top_concat, henv.1]
  have hplace : ∀ v, place g.blockSize (g.top s'.fd (g.chainEnd 0 ls) (es ++ [b])) low
      (Function.update moved b (some [])) v = ses.placeOf g ls es low moved v := by
    intro v
    rw [funext htop]
    exact place_append (Geometry.top_eq_none.mpr hnot) v
  have hcore : ses'.Core g ls (es ++ [b]) low (Function.update moved b (some [])) := by
    refine ⟨h.page_dvd, hfile ▸ himage, ?_, ?_, fun c p o hl => ?_, fun p => ?_⟩
    · rw [hses, List.length_append, List.length_singleton]
      exact hs'
    · rw [hfile, hses, List.length_append, List.length_singleton]
      exact hring
    · rw [hses]
      simp only [henv.1]
      refine (h.below c p o hl).imp id fun hp => ⟨hp.1, ?_⟩
      rw [issue_fs_of_ne hp.1]
      exact hp.2
    · rw [hses]
      simp only [hplace]
      exact h.pages p
  have henv' : ses.Env ses' := by
    rw [hses]
    refine ⟨henv.1, henv.2, rfl, fun p hp => issue_fs_of_ne hp,
      hs'.myOff.trans h.super.myOff.symm, fun a ha => ?_⟩
    rw [h.super.myOff] at ha
    rw [← hses, hfile, FileOp.byte_run_of_not_touches fun o ho ht => ?_]
    exact (htouch o ho a ht).not_keptByte h.page_dvd ha
  refine ⟨hcore, ⟨henv', ?_, fun p hp => by rwa [hses], fun p e he hw => ?_⟩, hnb,
    fun i x hx => ?_, fun x => ?_⟩
  · funext v
    refine h.view_congr hcore ?_ fun e he => ?_
    · rw [placeOf, hses]
      exact hplace v
    · rw [hses]
      refine byteOf_issue fun hf => hkeep _ ?_
      rcases h.place_cases he with ⟨-, -, hlt⟩ | ⟨-, -, -, i, -, -, ho⟩
      · exact Or.inl (hlt hf)
      · have := Nat.mod_lt v g.blockSize_pos
        exact Or.inr ⟨i, by omega, by omega⟩
  · rw [hses]
    exact ⟨e, he, hw⟩
  · rw [hfile]
    exact hkeep _ (Or.inr ⟨i, by omega, by omega⟩)
  · rw [hfile, FileOp.byte_run_of_not_touches fun o ho ht => ?_]
    · refine h.image.tail _ (le_trans (g.endOff_le_dataOff _ _) (Nat.le_add_right _ _))
        fun happ => ?_
      have := happ.lt_dataOff
      omega
    · have := (htouch o ho _ ht).lt_dataOff
      omega

/-- **A part of a block becomes writable**: where the data block holds what the
guest sees of it, mapping it is not seen. -/
theorem Core.expose (h : ses.Core g ls es low moved) (b o d len : ℕ)
    (moved' : ℕ → Option (List ℕ)) (op : MapOp Path)
    (htop : g.top ses.s.fd (g.chainEnd 0 ls) es b = some (ses.s.fd, o))
    (hle : d + len ≤ g.blockSize)
    (hmoved : ∀ x < g.blockSize, Copied moved' b x ↔ (d ≤ x ∧ x < d + len) ∨ Copied moved b x)
    (hother : ∀ c, c ≠ b → moved' c = moved c)
    (hbytes : ∀ x, d ≤ x → x < d + len → ses.file.byte (o + x) = ses.view (b * g.blockSize + x))
    (hop : ses.pages.apply op =
      ses.pages.mapRange (b * g.blockSize + d) len ses.s.fd (o + d) true) :
    (ses.remap op).Core g ls es low moved' ∧ ses.Same (ses.remap op) ∧
      ∀ p, PageTable.InRange (b * g.blockSize + d) len p →
        ∃ e, (ses.remap op).pages p = some e ∧ e.writable = true := by
  have hpos := g.blockSize_pos
  have hin : ∀ v, (v / g.blockSize = b ∧ d ≤ v % g.blockSize ∧ v % g.blockSize < d + len) ↔
      b * g.blockSize + d ≤ v ∧ v < b * g.blockSize + d + len := by
    intro v
    have hdm := Nat.div_add_mod v g.blockSize
    rw [Nat.mul_comm] at hdm
    constructor
    · rintro ⟨rfl, h₁, h₂⟩
      omega
    · rintro ⟨h₁, h₂⟩
      have hv : v / g.blockSize = b := by
        refine Nat.div_eq_of_lt_le (by omega) ?_
        rw [Nat.succ_mul]
        omega
      rw [hv] at hdm
      exact ⟨hv, by omega, by omega⟩
  have hplace : ∀ v, ses.placeOf g ls es low moved' v =
      if b * g.blockSize + d ≤ v ∧ v < b * g.blockSize + d + len then
        some ⟨ses.s.fd, o + v % g.blockSize, true⟩ else ses.placeOf g ls es low moved v := by
    intro v
    rw [placeOf, place_expose hpos htop hmoved hother, placeOf]
    simp only [hin]
  have hpage : ∀ p, ses.placeOf g ls es low moved' (p * pageSize) =
      if PageTable.InRange (b * g.blockSize + d) len p then
        some ⟨ses.s.fd, o + p * pageSize % g.blockSize, true⟩
      else ses.placeOf g ls es low moved (p * pageSize) := fun p => hplace (p * pageSize)
  have hpages : ∀ p, (ses.remap op).pages p = ses.placeOf g ls es low moved' (p * pageSize) := by
    intro p
    rw [hpage]
    change ses.pages.apply op p = _
    rw [hop, PageTable.mapRange]
    by_cases hp : PageTable.InRange (b * g.blockSize + d) len p
    · have hv := (hin (p * pageSize)).mpr hp
      have hdm := Nat.div_add_mod (p * pageSize) g.blockSize
      rw [hv.1, Nat.mul_comm] at hdm
      have hoff : o + d + (p * pageSize - (b * g.blockSize + d)) =
          o + p * pageSize % g.blockSize := by omega
      rw [if_pos hp, if_pos hp, hoff]
    · rw [if_neg hp, if_neg hp]
      exact h.pages p
  have hcore : (ses.remap op).Core g ls es low moved' :=
    ⟨h.page_dvd, h.image, h.super, h.ring, h.below, hpages⟩
  have hwritable : ∀ p, PageTable.InRange (b * g.blockSize + d) len p →
      ∃ e, (ses.remap op).pages p = some e ∧ e.writable = true := by
    intro p hp
    rw [hpages, hpage, if_pos hp]
    exact ⟨_, rfl, rfl⟩
  refine ⟨hcore, ⟨⟨rfl, rfl, rfl, fun _ _ => rfl, rfl, fun _ _ => rfl⟩, ?_, fun p hp => ?_,
    fun p e he hw => ?_⟩, hwritable⟩
  · funext v
    by_cases hv : b * g.blockSize + d ≤ v ∧ v < b * g.blockSize + d + len
    · have hpl : (ses.remap op).placeOf g ls es low moved' v =
          some ⟨ses.s.fd, o + v % g.blockSize, true⟩ := (hplace v).trans (if_pos hv)
      obtain ⟨hb, h₁, h₂⟩ := (hin v).mpr hv
      have hdm := Nat.div_add_mod v g.blockSize
      rw [hb, Nat.mul_comm] at hdm
      rw [hcore.view_of_place hpl]
      change ses.file.byte (o + v % g.blockSize) = _
      rw [hbytes _ h₁ h₂, hdm]
    · exact h.view_congr hcore ((hplace v).trans (if_neg hv)) fun _ _ => rfl
  · rw [hpages, hpage]
    split
    · simp
    · rw [h.pages] at hp
      exact hp
  · by_cases hp : PageTable.InRange (b * g.blockSize + d) len p
    · exact hwritable p hp
    · refine ⟨e, ?_, hw⟩
      rw [hpages, hpage, if_neg hp, ← he, h.pages]
      rfl

/-- **Copying what the guest sees of a block into its data block** is not seen. -/
theorem Core.copy (h : ses.Core g ls es low moved) (b o d len : ℕ) {post : List FileOp}
    (htop : g.top ses.s.fd (g.chainEnd 0 ls) es b = some (ses.s.fd, o))
    (hle : d + len ≤ g.blockSize) (hlen : 8 ∣ len) (hpost : ∀ x ∈ post, x.IsBarrier)
    {ops : List FileOp}
    (hops : ops = FileOp.memcpy (o + d) len (ses.source (b * g.blockSize + d)) ++ post) :
    (ses.issue ops).Core g ls es low moved ∧ ses.Same (ses.issue ops) ∧
      (∀ x, d ≤ x → x < d + len →
        (ses.issue ops).file.byte (o + x) = (ses.issue ops).view (b * g.blockSize + x)) ∧
      ∀ a, ¬(o + d ≤ a ∧ a < o + d + len) → (ses.issue ops).file.byte a = ses.file.byte a := by
  obtain ⟨j, hj, hbj, hy⟩ := Geometry.top_eq_some htop
  obtain rfl : o = g.dataOff (g.chainEnd 0 ls) j := (Prod.mk.inj hy).2
  have hrun : FileOp.run ops ses.file = FileOp.run (FileOp.memcpy
      (g.dataOff (g.chainEnd 0 ls) j + d) len (ses.source (b * g.blockSize + d))) ses.file := by
    rw [hops, FileOp.run_append, FileOp.run_of_barriers hpost]
  have hsz : (FileOp.run ops ses.file).size = ses.file.size := by
    rw [hrun]
    exact FileOp.size_run_of_inPlace fun o ho => FileOp.inPlace_memcpy ho
  have hfits : g.dataOff (g.chainEnd 0 ls) j + d + len ≤ ses.file.size := by
    have h₁ := g.blockAt_add_le (g.chainEnd 0 ls) (g.dataBlock_lt hj)
    have h₂ := h.image.endOff_le
    rw [Geometry.endOff] at h₂
    rw [Geometry.dataOff]
    omega
  have hbyte : ∀ a, (FileOp.run ops ses.file).byte a =
      if g.dataOff (g.chainEnd 0 ls) j + d ≤ a ∧ a < g.dataOff (g.chainEnd 0 ls) j + d + len then
        ses.view (b * g.blockSize + d + (a - (g.dataOff (g.chainEnd 0 ls) j + d)))
      else ses.file.byte a := by
    intro a
    rw [hrun]
    exact FileOp.byte_run_memcpy hlen hfits
  have himage : IsImage g (FileOp.run ops ses.file) ls es := by
    refine h.image.write hsz fun a hne => ⟨j, hj, ?_⟩
    rw [hbyte] at hne
    by_cases ha : g.dataOff (g.chainEnd 0 ls) j + d ≤ a ∧
        a < g.dataOff (g.chainEnd 0 ls) j + d + len
    · omega
    · exact absurd (if_neg ha) hne
  have hkept : ∀ a, KeptByte (g.chainEnd 0 ls) a →
      (FileOp.run ops ses.file).byte a = ses.file.byte a := by
    intro a ha
    refine (hbyte a).trans (if_neg fun hin => ?_)
    exact g.not_keptByte_of_data h.page_dvd (le_trans (Nat.le_add_right _ _) hin.1) ha
  obtain ⟨hcore, hsame⟩ := h.issue hsz himage hkept fun v e he hf => by
    rw [hbyte]
    split
    · rename_i ha
      -- the place is in the block that is copied, and is overwritten by itself
      rcases h.place_cases he with ⟨-, -, hlt⟩ | ⟨-, -, -, i, hi, hbi, ho⟩
      · have h₁ : g.chainEnd 0 ls ≤ g.dataOff (g.chainEnd 0 ls) j := Geometry.le_blockAt
        have := hlt hf
        omega
      · have hmod := Nat.mod_lt v g.blockSize_pos
        have hij : i = j := by
          by_contra hne
          have hdis : ¬(g.dataOff (g.chainEnd 0 ls) j ≤ e.off ∧
              e.off < g.dataOff (g.chainEnd 0 ls) j + g.blockSize) := by
            rw [ho]
            exact g.blockAt_disjoint (fun hd => hne (g.dataBlock_injective hd))
              (Nat.le_add_right _ _) (Nat.add_lt_add_left hmod _)
          exact hdis ⟨by omega, by omega⟩
        subst hij
        have hdm := Nat.div_add_mod v g.blockSize
        rw [← hbi, hbj, Nat.mul_comm] at hdm
        have hv : b * g.blockSize + d + (e.off - (g.dataOff (g.chainEnd 0 ls) i + d)) = v := by
          omega
        rw [hv, h.view_of_place he, hf]
        rfl
    · rfl
  refine ⟨hcore, hsame, fun x h₁ h₂ => ?_, fun a ha => ?_⟩
  · rw [hsame.view, file_issue, hbyte, if_pos ⟨by omega, by omega⟩]
    congr 1
    omega
  · rw [file_issue, hbyte, if_neg ha]

/-- Writable bytes of the range are different bytes of the file. -/
theorem Core.place_injective (h : ses.Core g ls es low moved) {v v' : ℕ} {e e' : Pte Path}
    (he : ses.placeOf g ls es low moved v = some e) (hw : e.writable = true)
    (he' : ses.placeOf g ls es low moved v' = some e') (hf : e'.file = ses.s.fd)
    (ho : e'.off = e.off) : v' = v := by
  have hm := Nat.mod_lt v g.blockSize_pos
  have hm' := Nat.mod_lt v' g.blockSize_pos
  rcases h.place_cases he with ⟨hn, -⟩ | ⟨-, -, -, i, hi, hb, hoff⟩
  · rw [hw] at hn
    cases hn
  rcases h.place_cases he' with ⟨-, -, hlt⟩ | ⟨-, -, -, i', hi', hb', hoff'⟩
  · have h₁ : g.chainEnd 0 ls ≤ g.dataOff (g.chainEnd 0 ls) i := Geometry.le_blockAt
    have := hlt hf
    omega
  have hii : i' = i := by
    by_contra hne
    have hdis : ¬(g.dataOff (g.chainEnd 0 ls) i ≤ e'.off ∧
        e'.off < g.dataOff (g.chainEnd 0 ls) i + g.blockSize) := by
      rw [hoff']
      exact g.blockAt_disjoint (fun hd => hne (g.dataBlock_injective hd))
        (Nat.le_add_right _ _) (Nat.add_lt_add_left hm' _)
    exact hdis ⟨by omega, by omega⟩
  subst hii
  rw [← Nat.div_add_mod v g.blockSize, ← Nat.div_add_mod v' g.blockSize, ← hb, ← hb']
  omega

/-- **A store of the guest** to a writable page: the byte it names changes, and no
other. -/
theorem Core.guestStore (h : ses.Core g ls es low moved) {e : Pte Path}
    (hp : ses.pages (v / pageSize) = some e) (hw : e.writable = true) (x : UInt8) :
    e.file = ses.s.fd ∧
      (ses.issue [.store (e.off + v % pageSize) 1 x.toNat]).Core g ls es low moved ∧
      ses.Env (ses.issue [.store (e.off + v % pageSize) 1 x.toNat]) ∧
      (ses.issue [.store (e.off + v % pageSize) 1 x.toNat]).view =
      Function.update ses.view v x := by
  have he : ses.placeOf g ls es low moved v =
      some { e with off := e.off + v % pageSize } := by
    rw [h.placeOf_eq, hp, Option.map_some]
  have hback := h.place_backed he
  rcases h.place_cases he with ⟨hn, -⟩ | ⟨-, hf, -, i, hi, -, hoff⟩
  · rw [hw] at hn
    cases hn
  simp only at hf hoff hback
  have hmod := Nat.mod_lt v g.blockSize_pos
  have hstore : FileOp.run [.store (e.off + v % pageSize) 1 x.toNat] ses.file =
      ses.file.store (e.off + v % pageSize) 1 x.toNat := rfl
  have hbyte : ∀ a, (ses.file.store (e.off + v % pageSize) 1 x.toNat).byte a =
      if a = e.off + v % pageSize then x else ses.file.byte a := by
    intro a
    split
    · rename_i ha
      rw [hf] at hback
      rw [ByteFile.byte_store_of_mem (by omega) (by omega) (by rw [ha]; exact hback), ha,
        Nat.sub_self, pow_zero, Nat.div_one, Nat.mod_eq_of_lt (UInt8.toNat_lt x), UInt8.ofNat_toNat]
    · exact ByteFile.byte_store_of_notMem (by omega)
  have hcore : (ses.issue [.store (e.off + v % pageSize) 1 x.toNat]).Core g ls es low moved := by
    refine h.issue_core rfl (h.image.write rfl fun a hne => ⟨i, hi, ?_⟩)
    rw [hstore, hbyte] at hne
    split at hne
    · omega
    · exact absurd rfl hne
  refine ⟨hf, hcore, env_issue fun a ha => ?_, ?_⟩
  · rw [h.super.myOff] at ha
    rw [hstore]
    refine (hbyte a).trans (if_neg fun heq => ?_)
    have hle : g.dataOff (g.chainEnd 0 ls) i ≤ a := by omega
    exact g.not_keptByte_of_data h.page_dvd hle ha
  funext v'
  by_cases hv : v' = v
  · rw [hv, Function.update_self, hcore.view_of_place he]
    change ((ses.issue _).fs.byteOf e.file (e.off + v % pageSize)) = x
    rw [hf]
    change (ses.issue _).file.byte (e.off + v % pageSize) = x
    rw [file_issue, hstore, hbyte, if_pos rfl]
  · rw [Function.update_of_ne hv]
    refine h.view_congr hcore rfl fun e' he' => byteOf_issue fun hf' => ?_
    rw [hstore, hbyte, if_neg fun ho => hv (h.place_injective he hw he' hf' ho)]

/-! ### Copies of blocks with missing pages -/

section Missing

variable {ops : List FileOp} {n n' : ℕ}

theorem firstMissing_eq_none {aligned : ℕ} : ses.firstMissing aligned = none ↔
    ∀ i < u64 ses.s.blockSize / pageSize, ses.pages (aligned / pageSize + i) ≠ none := by
  rw [firstMissing, List.find?_eq_none]
  simp only [List.mem_range, Option.isNone_iff_eq_none, ne_eq]

/-- Which page is missing is a matter of the mappings. -/
theorem firstMissing_congr {aligned : ℕ} (hbs : ses'.s.blockSize = ses.s.blockSize)
    (hpages : ses'.pages = ses.pages) : ses'.firstMissing aligned = ses.firstMissing aligned := by
  rw [firstMissing, firstMissing, hbs, hpages]

theorem firstMissing_eq_some {aligned i : ℕ} (h : ses.firstMissing aligned = some i) :
    i * pageSize + pageSize ≤ u64 ses.s.blockSize ∧ ses.pages (aligned / pageSize + i) = none := by
  rw [firstMissing] at h
  have hmem := List.mem_range.mp (List.mem_of_find?_eq_some h)
  have hp := List.find?_some h
  rw [Option.isNone_iff_eq_none] at hp
  refine ⟨?_, hp⟩
  calc i * pageSize + pageSize = (i + 1) * pageSize := (Nat.succ_mul i pageSize).symm
    _ ≤ u64 ses.s.blockSize / pageSize * pageSize := Nat.mul_le_mul_right pageSize hmem
    _ ≤ u64 ses.s.blockSize := Nat.div_mul_le_self _ pageSize

/-- **A copy that runs into a missing page**: the pages before it are copied, `uf_monitor` serves
the fault, and the rest is copied. -/
theorem copyMissing_ok {dst aligned i : ℕ}
    (hr : ses.copyMissing cfg n n' dst aligned i = .ok (ses', ops)) : ∃ ses₂ ops₂,
    (ses.issue (FileOp.memcpy dst (i * pageSize) (ses.source aligned))).ufMonitor cfg n n'
      (aligned + i * pageSize) = .ok (ses₂, ops₂) ∧ ses₂.firstMissing aligned = none ∧
    ses' = ses₂.issue (FileOp.memcpy (dst + i * pageSize) (u64 ses.s.blockSize - i * pageSize)
      (ses₂.source (aligned + i * pageSize))) ∧
    ops = FileOp.memcpy dst (i * pageSize) (ses.source aligned) ++ ops₂ ++
      FileOp.memcpy (dst + i * pageSize) (u64 ses.s.blockSize - i * pageSize)
        (ses₂.source (aligned + i * pageSize)) := by
  rw [copyMissing] at hr
  simp only at hr
  rcases hmon : (ses.issue (FileOp.memcpy dst (i * pageSize) (ses.source aligned))).ufMonitor cfg n
    n'
    (aligned + i * pageSize) with e | ⟨ses₂, ops₂⟩
  · rw [hmon] at hr
    cases hr
  · rw [hmon] at hr
    simp only at hr
    split_ifs at hr with hnone
    cases hr
    exact ⟨ses₂, ops₂, rfl, not_not.mp hnone, rfl, rfl⟩

/-- The copy of a whole block, whether all of it is mapped or not. -/
theorem copyWhole_cases {ce : CowEntry} {aligned : ℕ}
    (hr : ses.copyWhole cfg n n' ce aligned = .ok (ses', ops)) :
    (ses.firstMissing aligned = none ∧ ses.copyBlock cfg ce aligned = (ses', ops)) ∨
    ∃ i ses₁ ops₁, ses.firstMissing aligned = some i ∧
      ses.copyMissing cfg n n' ce.blockOff aligned i = .ok (ses₁, ops₁) ∧
      ses' = (ses₁.finishBlock cfg ce aligned).1 ∧
      ops = ops₁ ++ (ses₁.finishBlock cfg ce aligned).2 := by
  rw [copyWhole] at hr
  rcases hmiss : ses.firstMissing aligned with _ | i
  · rw [hmiss] at hr
    exact Or.inl ⟨rfl, Except.ok.inj hr⟩
  · rw [hmiss] at hr
    simp only at hr
    rcases hcopy : ses.copyMissing cfg n n' ce.blockOff aligned i with e | ⟨ses₁, ops₁⟩
    · rw [hcopy] at hr
      cases hr
    · rw [hcopy] at hr
      cases hr
      exact Or.inr ⟨i, ses₁, ops₁, rfl, hcopy, rfl, rfl⟩

/-- The copy of a block that is mapped. -/
theorem copyWhole_of_mapped {ce : CowEntry} {aligned : ℕ} (h : ses.firstMissing aligned = none) :
    ses.copyWhole cfg n n' ce aligned = .ok (ses.copyBlock cfg ce aligned) := by
  rw [copyWhole, h]

/-- Without fine-grained copies: a block is allocated first. -/
theorem copyPlain_cases {aligned : ℕ} (hr : ses.copyPlain cfg n n' aligned = .ok (ses', ops)) :
    ∃ s' r' nb ops₁ ses₁, newBlock cfg ses.file ses.s ses.ring n n' aligned =
      .ok (s', r', nb, ops₁) ∧
      ses₁ = ({ ses.issue ops₁ with s := s', ring := r' } : Session) ∧
      ((ses₁.firstMissing aligned = none ∧
          ses' = (ses₁.issue (FileOp.memcpy nb.blockOff (u64 s'.blockSize)
            (ses₁.source aligned))).remap (.mremap aligned (u64 s'.blockSize) s'.fd nb.blockOff) ∧
          ops = ops₁ ++ FileOp.memcpy nb.blockOff (u64 s'.blockSize) (ses₁.source aligned)) ∨
        ∃ i ses₂ ops₂, ses₁.firstMissing aligned = some i ∧
          ses₁.copyMissing cfg n n' nb.blockOff aligned i = .ok (ses₂, ops₂) ∧
          ses' = ses₂.remap (.mremap aligned (u64 s'.blockSize) s'.fd nb.blockOff) ∧
          ops = ops₁ ++ ops₂) := by
  rw [copyPlain] at hr
  rcases hnb : newBlock cfg ses.file ses.s ses.ring n n' aligned with e | ⟨s', r', nb, ops₁⟩
  · rw [hnb] at hr
    cases hr
  rw [hnb] at hr
  simp only at hr
  refine ⟨s', r', nb, ops₁, _, rfl, rfl, ?_⟩
  rcases hmiss : ({ ses.issue ops₁ with s := s', ring := r' } : Session).firstMissing aligned with
    _ | i
  · rw [hmiss] at hr
    cases hr
    exact Or.inl ⟨rfl, rfl, rfl⟩
  · rw [hmiss] at hr
    simp only at hr
    rcases hcopy : ({ ses.issue ops₁ with s := s', ring := r' } : Session).copyMissing cfg n n'
      nb.blockOff aligned i with e | ⟨ses₂, ops₂⟩
    · rw [hcopy] at hr
      cases hr
    · rw [hcopy] at hr
      cases hr
      exact Or.inr ⟨i, ses₂, ops₂, rfl, hcopy, rfl, rfl⟩

/-- A block all of whose pages are mapped. -/
theorem firstMissing_of_mapped {k : ℕ} (hdvd : pageSize ∣ k) (hpos : 0 < k)
    (hu : u64 ses.s.blockSize = k) (h : ∀ p, p * pageSize / k = b → ses.pages p ≠ none) :
    ses.firstMissing (b * k) = none := by
  obtain ⟨m, rfl⟩ := hdvd
  rw [firstMissing_eq_none, hu]
  intro i hi
  rw [Nat.mul_div_cancel_left _ (by decide)] at hi
  refine h _ ?_
  rw [show b * (pageSize * m) = b * m * pageSize by ring, Nat.mul_div_cancel _ (by decide),
    show (b * m + i) * pageSize = pageSize * (b * m + i) by ring,
    Nat.mul_div_mul_left _ _ (by decide), Nat.mul_comm b, Nat.mul_add_div (by omega),
    Nat.div_eq_of_lt hi, Nat.add_zero]

/-- A block that a layer below has is mapped as a whole. -/
theorem Core.firstMissing_eq_none (h : ses.Core g ls es low moved) (hlow : low b ≠ none) :
    ses.firstMissing (b * g.blockSize) = none := by
  refine firstMissing_of_mapped h.page_dvd g.blockSize_pos h.super.u64_blockSize fun p hp => ?_
  obtain ⟨y, hy⟩ := Option.ne_none_iff_exists'.mp hlow
  have hbelow : lowerPlace g.blockSize low (p * pageSize) ≠ none := by
    rw [lowerPlace, hp, hy]
    exact Option.some_ne_none _
  rw [h.pages, place]
  split
  · split_ifs
    · exact Option.some_ne_none _
    · exact hbelow
  · exact hbelow

end Missing

end Session

end Pcow
