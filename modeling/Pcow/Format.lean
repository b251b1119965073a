import Pcow.Missing

/-!
# Formatting a file that is not empty

`new_image` takes any file without an image. It stores to two cache lines of it, the super block and
the first meta block, and leaves the rest as it was; when `read_first_super` formats a file by
itself it truncates the file first, but `new_image` does not ask it to. So the old content shows in
two places. Where the next layer would begin it may be taken for one, and the data blocks that
`uf_monitor` hands out hold what the file had there. `newImage_empty_iff` says exactly when nothing
shows: there is no magic behind the first meta block, and the data blocks that are handed out were
zero.
-/

namespace Pcow

variable {cfg : Config} {g : Geometry cfg} {f f' : ByteFile} {fs fs' : Fs} {fd name : Path}
  {off v : ℕ} {es : List ℕ} {low : PageTable Path}

/-! ### The walk after formatting -/

/-- **The walk over the layers finds one, and it has no entries.** -/
def IsEmptyImage (cfg : Config) (f : ByteFile) (fd : Path) : Prop :=
  ∃ s, supers cfg f fd = .ok [s] ∧ s.activeMetaNum = 0 ∧ s.activeMeta.counter = 0

theorem Geometry.endOff_empty : g.endOff off 0 = off + 2 * g.blockSize := by
  rw [Geometry.endOff, Geometry.blocks_zero, Geometry.blockAt]
  omega

/-- A super block is found inside the file only. -/
theorem HasMagic.lt_size (h : HasMagic f off) : off < f.size := by
  by_contra hle
  have hzero : f.load (off + 12) 4 = 0 :=
    ByteFile.load_eq_zero fun x h₁ _ => f.zero_of_size_le x (by omega)
  rw [HasMagic, hzero] at h
  exact absurd h (by decide)

theorem noSuper_iff : NoSuper f off ↔ ¬HasMagic f off := by
  constructor
  · rintro (hle | hno) h
    · exact absurd h.lt_size (not_lt.mpr hle)
    · exact hno h
  · exact Or.inr

/-- What `read_next_super` finds of a super block: the walk goes on, or faults. -/
theorem readNextSuper_ne_none {s : Super} (h : HasMagic f (s.endOff f)) :
    readNextSuper cfg f s ≠ .ok none := by
  intro hnone
  rw [readNextSuper] at hnone
  simp only at hnone
  rw [if_neg (not_le.mpr h.lt_size), if_neg (not_not.mpr h)] at hnone
  generalize readMeta f _ (-1) = m at hnone
  rcases m with e | m <;> cases hnone

/-- A walk visits the layer it starts with. -/
theorem superChain_ne_nil {n : ℕ} {s : Super} {l : List Super} (h : superChain cfg f n s = .ok l) :
    l ≠ [] := by
  rcases n with _ | n
  · cases h
  rw [superChain] at h
  split at h
  · cases h
  · cases h
    exact List.cons_ne_nil _ _
  · rename_i t _
    rcases hl : superChain cfg f n t with e | l'
    · rw [hl] at h
      cases h
    · rw [hl] at h
      cases h
      exact List.cons_ne_nil _ _

/-- **The walk over a file with an empty first layer** finds nothing else exactly if no super block
follows. -/
theorem IsLayer.isEmptyImage_iff (h : IsLayer g f 0 []) (hf : f.size < 2 ^ 63) :
    IsEmptyImage cfg f fd ↔ ¬HasMagic f (2 * g.blockSize) := by
  have hend : g.endOff 0 ([] : List ℕ).length = 2 * g.blockSize := by
    rw [List.length_nil, Geometry.endOff_empty, Nat.zero_add]
  constructor
  · rintro ⟨s, hs, -⟩ hmagic
    rw [supers, h.readFirstSuper hf fd] at hs
    simp only at hs
    rw [superChain] at hs
    have hne : Pcow.readNextSuper cfg f (superOf g fd 0 ([] : List ℕ).length) ≠ .ok none :=
      readNextSuper_ne_none (by rwa [h.endOff hf superOf_is, hend])
    rcases hnext : Pcow.readNextSuper cfg f (superOf g fd 0 ([] : List ℕ).length) with e | _ | t
    · rw [hnext] at hs
      cases hs
    · exact hne hnext
    · -- a walk that goes on visits another layer
      rw [hnext] at hs
      simp only at hs
      rcases hrest : superChain cfg f f.size t with e | l
      · rw [hrest] at hs
        cases hs
      · rw [hrest] at hs
        cases hs
        exact superChain_ne_nil hrest rfl
  · intro hno
    have hchain : IsChain g f 0 [[]] :=
      ⟨isLayers_singleton.mpr h,
        noSuper_iff.mpr (by rwa [Geometry.chainEnd, Geometry.chainEnd, hend])⟩
    refine ⟨superOf g fd 0 0, hchain.supers (by simp) hf fd, ?_, ?_⟩
    · rw [superOf, Geometry.lastSeg_zero]
      rfl
    · rw [superOf, Nat.zero_sub]
      rfl

section FormatOps

variable {base : Option CString}

theorem byte_run_formatOps_behind (hbs : g.blockSize < 2 ^ 30) {a : ℕ} (ha : 2 * g.blockSize ≤ a) :
    (FileOp.run (formatOps g base) f).byte a = f.byte a := by
  have hent := g.entry_le
  exact byte_run_formatOps hbs (by omega) (by omega)

theorem size_run_formatOps_lt (hbs : g.blockSize < 2 ^ 30) (hf : f.size < 2 ^ 63) :
    (FileOp.run (formatOps g base) f).size < 2 ^ 63 := by
  rw [size_run_formatOps hbs]
  exact max_lt hf (by omega)

theorem hasMagic_run_formatOps (hbs : g.blockSize < 2 ^ 30) :
    HasMagic (FileOp.run (formatOps g base) f) (2 * g.blockSize) ↔
      HasMagic f (2 * g.blockSize) := by
  constructor
  · intro h
    exact h.congr fun a ha _ => (byte_run_formatOps_behind hbs ha).symm
  · intro h
    exact h.congr fun a ha _ => byte_run_formatOps_behind hbs ha

/-- **What `new_image` leaves is an empty image** exactly if the file had no magic where the next
layer would begin. -/
theorem isEmptyImage_run_formatOps (hbs : g.blockSize < 2 ^ 30) (hf : f.size < 2 ^ 63) :
    IsEmptyImage cfg (FileOp.run (formatOps g base) f) fd ↔ ¬HasMagic f (2 * g.blockSize) := by
  rw [(isLayer_run_formatOps hbs).isEmptyImage_iff (size_run_formatOps_lt hbs hf)]
  exact not_congr (hasMagic_run_formatOps hbs)

theorem isChain_run_formatOps (hbs : g.blockSize < 2 ^ 30) (hno : ¬HasMagic f (2 * g.blockSize)) :
    IsChain g (FileOp.run (formatOps g base) f) 0 ([] ++ [[]]) := by
  have hend : g.chainEnd 0 ([] ++ [[]]) = 2 * g.blockSize := by
    rw [g.chainEnd_concat, List.length_nil, Geometry.endOff_empty, Geometry.chainEnd, Nat.zero_add]
  refine ⟨isLayers_singleton.mpr (isLayer_run_formatOps hbs), noSuper_iff.mpr ?_⟩
  rw [hend, hasMagic_run_formatOps hbs]
  exact hno

/-- A session that `fmmap` starts on the image. -/
theorem opened_run_formatOps {ses : Session} {length offset : ℕ} (hbs : g.blockSize < 2 ^ 30)
    (hf : f.size < 2 ^ 63) (hfs : (fs fd).getD .empty = FileOp.run (formatOps g none) f)
    (hno : ¬HasMagic f (2 * g.blockSize))
    (hopen : Session.fmmap cfg fs fd length offset = .ok (some ses)) :
    ses.Opened g fs fd [] [] [] length := by
  have hnil : baseImageName (FileOp.run (formatOps g none) f) 0 = [] :=
    baseImageName_eq_nil (byte_run_formatOps_none hbs)
  exact (isChain_run_formatOps hbs hno).fmmap hfs (size_run_formatOps_lt hbs hf)
    (Or.inl ⟨hnil, rfl⟩)
    hopen

end FormatOps

/-! ### First touches -/

namespace Session

variable {ses ses' ses₀ : Session} {n n' : ℕ} {ops : List FileOp} {l : List (ℕ × Session)}

/-- **First touches of blocks**: a run of missing faults that are served, in any order, with stores
of the guest and iterations of the allocator thread in between. The list has, for each fault, its
offset and the session after it. -/
inductive Touches (cfg : Config) (ses : Session) : List (ℕ × Session) → Session → Prop
  | refl : Touches cfg ses [] ses
  | touch {l : List (ℕ × Session)} {ses₁ ses₂ : Session} {n n' v : ℕ} {ops : List FileOp} :
      Touches cfg ses l ses₁ → v < ses₁.s.fmmapLength → ses₁.pages (v / pageSize) = none →
      ses₁.ufMonitor cfg n n' v = .ok (ses₂, ops) → ses₂.pages (v / pageSize) ≠ none →
      Touches cfg ses (l ++ [(v, ses₂)]) ses₂
  | write {l : List (ℕ × Session)} {ses₁ : Session} {p x : ℕ} {e : Pte Path} (y : ℕ) :
      Touches cfg ses l ses₁ → ses₁.pages p = some e → e.writable = true → x < pageSize →
      Touches cfg ses l (ses₁.poke e x y)
  | tick {l : List (ℕ × Session)} {ses₁ ses₂ : Session} : Touches cfg ses l ses₁ →
      ses₁.tick cfg = .ok ses₂ → Touches cfg ses l ses₂

/-- After a fault the block of the fault reads as zeros. -/
def ReadsZeros (n : ℕ) (x : ℕ × Session) : Prop := ∀ w, w / n = x.1 / n → x.2.byteAt w = some 0

/-- **A missing fault that is served** hands out the next data block as it is. -/
theorem Stale.ufMonitor (h : ses.Stale g f off es low) (hv : v < ses.s.fmmapLength)
    (hmiss : ses.pages (v / pageSize) = none) (hr : ses.ufMonitor cfg n n' v = .ok (ses', ops))
    (hserved : ses'.pages (v / pageSize) ≠ none) :
    ses'.Stale g f off (es ++ [v / g.blockSize]) low ∧ (ReadsZeros g.blockSize (v, ses') ↔
      ∀ x < g.blockSize, f.byte (g.dataOff off es.length + x) = 0) := by
  have hin : v / g.blockSize * g.blockSize ≤ u64 ((ses.s.fmmapLength : ℤ) - g.blockSize) := by
    by_contra hout
    rw [ufMonitor_out h.super h.page_dvd hout] at hr
    cases hr
    exact hserved hmiss
  obtain ⟨h', hread⟩ := h.missing hv hr hin
  refine ⟨h', ?_⟩
  constructor
  · intro hz x hx
    have hw : (v / g.blockSize * g.blockSize + x) / g.blockSize = v / g.blockSize :=
      g.mul_add_div hx
    have hbyte := hz _ hw
    rw [hread, if_pos hw, g.mul_add_mod hx] at hbyte
    exact Option.some.inj hbyte
  · intro hz w hw
    rw [hread, if_pos hw, hz _ (Nat.mod_lt w g.blockSize_pos)]

/-- **Along a run of first touches** each block reads as zeros exactly if its data block held
zeros. -/
theorem Stale.touches (h : ses.Stale g f off [] low) (hrun : ses.Touches cfg l ses') :
    ∃ es, es.length = l.length ∧ ses'.Stale g f off es low ∧
      ((∀ x ∈ l, ReadsZeros g.blockSize x) ↔
        ∀ i < l.length, ∀ x < g.blockSize, f.byte (g.dataOff off i + x) = 0) := by
  induction hrun with
  | refl => exact ⟨[], rfl, h, by simp⟩
  | @touch l ses₁ ses₂ n n' v ops _ hv hmiss hr hserved ih =>
    obtain ⟨es, hlen, h₁, hiff⟩ := ih
    obtain ⟨h₂, hiff₂⟩ := h₁.ufMonitor hv hmiss hr hserved
    refine ⟨_, by simp [hlen], h₂, ?_⟩
    rw [List.forall_mem_append, List.forall_mem_singleton, hiff, hiff₂, hlen, List.length_append,
      List.length_singleton, Nat.forall_lt_succ_right]
  | write y _ hp hw hx ih =>
    obtain ⟨es, hlen, h₁, hiff⟩ := ih
    exact ⟨es, hlen, h₁.poke hp hw hx y, hiff⟩
  | tick _ hr ih =>
    obtain ⟨es, hlen, h₁, hiff⟩ := ih
    exact ⟨es, hlen, h₁.tick hr, hiff⟩

/-- A session on a file just formatted, if no layer shows behind the first. -/
theorem Opened.stale {length : ℕ} (h : ses.Opened g fs fd [] [] [] length)
    (hbs : g.blockSize < 2 ^ 30) (hdvd : pageSize ∣ g.blockSize) (hf : f.size < 2 ^ 63)
    (hfs : (fs fd).getD .empty = FileOp.run (formatOps g none) f)
    (hno : ¬HasMagic f (2 * g.blockSize)) :
    ses.Stale g f 0 [] (g.lowPages (g.lowBindings [] fd [])) := by
  have hsz : ((fs fd).getD .empty).size < 2 ^ 63 := by
    rw [hfs]
    exact size_run_formatOps_lt hbs hf
  have hchain : IsChain g ((fs fd).getD .empty) 0 ([] ++ [[]]) := by
    rw [hfs]
    exact isChain_run_formatOps hbs hno
  refine ⟨h.paged hchain hsz hdvd, fun i _ x _ => ?_⟩
  have hfile : ses.file = (fs fd).getD .empty := by rw [file, h.fd_eq, h.files]
  have hdata : 2 * g.blockSize ≤ g.blockSize * g.dataBlock i := by
    rw [Nat.mul_comm 2, Geometry.dataBlock, Nat.add_assoc]
    exact Nat.mul_le_mul_left _ (Nat.le_add_right 2 _)
  rw [hfile, hfs]
  refine byte_run_formatOps_behind hbs ?_
  rw [Geometry.dataOff, Geometry.blockAt]
  omega

/-- A first touch is served where there is room for a block. -/
theorem Stale.exists_touch (h : ses.Stale g f off es low) (hroom : ses.Room cfg)
    (hin : v / g.blockSize * g.blockSize ≤ u64 ((ses.s.fmmapLength : ℤ) - g.blockSize)) (n n' : ℕ) :
    ∃ ses' ops, ses.ufMonitor cfg n n' v = .ok (ses', ops) ∧ ses'.pages (v / pageSize) ≠ none := by
  obtain ⟨⟨s', r', nb, ops⟩, hnb⟩ := @Room.exists_newBlock cfg g es ses n n' off hroom h.layer
    h.size_lt h.super h.ring (v / g.blockSize * g.blockSize)
  rw [Session.ufMonitor]
  simp only
  rw [h.super.u64_blockSize, div_page h.page_dvd, h.super.blockSize, if_pos hin, hnb]
  refine ⟨_, _, rfl, ?_⟩
  change ses.pages.mapRange (v / g.blockSize * g.blockSize) g.blockSize ses.s.fd nb.blockOff true
    (v / pageSize) ≠ none
  rw [PageTable.mapRange_block g.blockSize_pos, div_page h.page_dvd, if_pos rfl]
  exact Option.some_ne_none _

end Session

/-- **The first touch after `new_image`**, with blocks of 8 KB, on a file that has no magic in the
two places where a super block is looked for. -/
theorem exists_firstTouch (f : ByteFile) (hf : f.size < 2 ^ 63) (hfirst : ¬HasMagic f 0)
    (hno : ¬HasMagic f (2 * 8192)) : ∃ (fs' : Fs) (ses₀ ses : Session),
    newImage .shipped (fun _ => some f) [1] 8 1 none = .ok (fs', 0) ∧
      Session.fmmap .shipped fs' [1] (8192 * 2) 0 = .ok (some ses₀) ∧
      ses₀.Touches .shipped [(0, ses)] ses ∧
      (Session.ReadsZeros 8192 (0, ses) ↔ ∀ x < 8192, f.byte (2 * 8192 + x) = 0) := by
  have hnone : readFirstSuper .shipped f [1] 0 = .ok none := by
    rw [readFirstSuper]
    by_cases hsz : f.size < clSize
    · exact if_pos hsz
    · have hback : f.Backed 0 := ByteFile.backed_of_lt (lt_of_lt_of_le (by decide) (not_lt.mp hsz))
      rw [if_neg hsz, if_neg (not_not.mpr hback), if_pos hfirst]
  obtain ⟨fs', hr⟩ := @exists_newImage_of_none .shipped (fun _ => some f) [1] 2 1 hnone hf
    (by norm_num) (by norm_num)
  obtain ⟨-, g, rfl, hdvd, hb30, hbs, hmax⟩ := newImage_ok hnone hr
  have hg : g.blockSize = 8192 := by
    have : i32 (4 * (2 : ℕ) * 1024) = 8192 := by decide
    omega
  have hcap : g.cap = 131072 := by
    rw [Geometry.cap, hmax]
    decide
  have hdata : g.dataOff 0 0 = 2 * 8192 := by
    rw [Geometry.dataOff, Geometry.blockAt, Geometry.dataBlock, hg, Nat.zero_div]
  set fs' : Fs := Function.update (fun _ => some f) [1]
    (some (FileOp.run (formatOps g none) f)) with hfs'
  have hfs : (fs' [1]).getD .empty = FileOp.run (formatOps g none) f := by
    rw [hfs', Function.update_self, Option.getD_some]
  have hmagic : ¬HasMagic f (2 * g.blockSize) := by rwa [hg]
  have hnil : baseImageName (FileOp.run (formatOps g none) f) 0 = [] :=
    baseImageName_eq_nil (byte_run_formatOps_none hb30)
  have hmaps : Session.baseMaps .shipped fs' (baseImageName (FileOp.run (formatOps g none) f) 0) =
      .ok (fs', []) := by
    rw [Session.baseMaps, if_pos hnil]
  obtain ⟨ses₀, hopen⟩ := (isChain_run_formatOps hb30 hmagic).exists_fmmap hfs
    (size_run_formatOps_lt hb30 hf) (g.lengthOk_of_pages (n := 2) (by norm_num) (by norm_num)) hmaps
  have hopened := opened_run_formatOps hb30 hf hfs hmagic hopen
  have h := hopened.stale hb30 hdvd hf hfs hmagic
  have hlen : ses₀.s.fmmapLength = 8192 * 2 := hopened.fmmapLength
  have hmiss : ses₀.pages (0 / pageSize) = none := by
    rw [hopened.pages]
    rfl
  have hroom : ses₀.Room .shipped := by
    refine hopened.room ?_ ?_
    · rw [hcap, Geometry.need]
      split <;> simp
    · rw [List.length_nil, Geometry.chainEnd, Geometry.endOff_empty, hg]
      norm_num
  obtain ⟨ses, ops, hmon, hserved⟩ := h.exists_touch (v := 0) hroom
    (by rw [Nat.zero_div, Nat.zero_mul]; exact Nat.zero_le _) 0 0
  obtain ⟨-, hiff⟩ := h.ufMonitor (by rw [hlen]; norm_num) hmiss hmon hserved
  rw [hg, List.length_nil, hdata] at hiff
  refine ⟨fs', ses₀, ses, hr, hopen, ?_, hiff⟩
  exact .touch .refl (by rw [hlen]; norm_num) hmiss hmon hserved

/-- **When `new_image` makes an empty image of a file.** For every file and every call of
`new_image` without a base that returns 0 on it: the walk over the layers finds a single empty layer
exactly if the file had no magic behind the blocks of the super block and the first meta block; and
for every session on the image and every run of first touches in it, the walk does so and each
touched block reads as zeros exactly if there was no such magic and the data blocks of the touches,
handed out in the order of the file, held zeros before. Where there is room, first touches are
served. -/
theorem newImage_empty_iff (cfg : Config) (fs fs' : Fs) (name : Path) (blockSize : ℤ) (maxSize : ℕ)
    (hf : ((fs name).getD .empty).size < 2 ^ 63)
    (hr : newImage cfg fs name blockSize maxSize none = .ok (fs', 0)) :
    ∃ g : Geometry cfg, (g.blockSize : ℤ) = i32 (blockSize * 1024) ∧
      (IsEmptyImage cfg ((fs' name).getD .empty) name ↔
        ¬HasMagic ((fs name).getD .empty) (2 * g.blockSize)) ∧
      ∀ length offset ses₀ ses l, Session.fmmap cfg fs' name length offset = .ok (some ses₀) →
        ses₀.Touches cfg l ses →
        ((IsEmptyImage cfg ((fs' name).getD .empty) name ∧
            ∀ x ∈ l, Session.ReadsZeros g.blockSize x) ↔
          ¬HasMagic ((fs name).getD .empty) (2 * g.blockSize) ∧
            ∀ i < l.length, ∀ x < g.blockSize,
              ((fs name).getD .empty).byte (g.dataOff 0 i + x) = 0) ∧
        (¬HasMagic ((fs name).getD .empty) (2 * g.blockSize) → ses.Room cfg → ∀ n n' v,
          v / g.blockSize * g.blockSize ≤ u64 ((ses.s.fmmapLength : ℤ) - g.blockSize) →
          ∃ ses' ops, ses.ufMonitor cfg n n' v = .ok (ses', ops) ∧
            ses'.pages (v / pageSize) ≠ none) := by
  obtain ⟨-, g, rfl, hdvd, hb30, hbs, -⟩ := newImage_ok (readFirstSuper_of_newImage hr) hr
  rw [Function.update_self, Option.getD_some]
  have hiff := @isEmptyImage_run_formatOps cfg g ((fs name).getD .empty) name none hb30 hf
  refine ⟨g, hbs, hiff, fun length offset ses₀ ses l hopen hrun => ?_⟩
  by_cases hno : HasMagic ((fs name).getD .empty) (2 * g.blockSize)
  · exact ⟨⟨fun h => absurd hno (hiff.mp h.1), fun h => absurd hno h.1⟩, fun h => absurd hno h⟩
  · have hfs : (Function.update fs name (some (FileOp.run (formatOps g none)
        ((fs name).getD .empty))) name).getD .empty =
          FileOp.run (formatOps g none) ((fs name).getD .empty) := by
      rw [Function.update_self, Option.getD_some]
    have h₀ := (opened_run_formatOps hb30 hf hfs hno hopen).stale hb30 hdvd hf hfs hno
    obtain ⟨es, -, h, hzeros⟩ := h₀.touches hrun
    exact ⟨and_congr hiff hzeros, fun _ hroom n n' v hin => h.exists_touch hroom hin n n'⟩

/-- An empty file: the first touch reads as zeros. -/
theorem newImage_empty_touched : ∃ (fs' : Fs) (ses₀ ses : Session),
    newImage .shipped (fun _ => some .empty) [1] 8 1 none = .ok (fs', 0) ∧
      Session.fmmap .shipped fs' [1] (8192 * 2) 0 = .ok (some ses₀) ∧
      ses₀.Touches .shipped [(0, ses)] ses ∧ IsEmptyImage .shipped ((fs' [1]).getD .empty) [1] ∧
      Session.ReadsZeros 8192 (0, ses) := by
  have hno : ∀ off, ¬HasMagic .empty off := fun off h => Nat.not_lt_zero _ h.lt_size
  obtain ⟨fs', ses₀, ses, hr, hopen, hrun, -⟩ :=
    exists_firstTouch .empty (by decide) (hno 0) (hno (2 * 8192))
  obtain ⟨g, hbs, -, hall⟩ := newImage_empty_iff .shipped _ fs' [1] 8 1 (by decide) hr
  have hg : g.blockSize = 8192 := by
    have : i32 (8 * 1024) = 8192 := by decide
    omega
  obtain ⟨hempty, hzeros⟩ := (hall _ _ _ _ _ hopen hrun).1.mpr ⟨hno _, fun i _ x _ => rfl⟩
  rw [hg] at hzeros
  exact ⟨fs', ses₀, ses, hr, hopen, hrun, hempty, hzeros _ List.mem_cons_self⟩

/-- **An image that is not empty**: the file had a byte other than zero in its third block, and the
first touch of a block shows it. -/
theorem newImage_shows_old : ∃ (f : ByteFile) (fs' : Fs) (ses₀ ses : Session),
    f.size = 8192 * 3 ∧ newImage .shipped (fun _ => some f) [1] 8 1 none = .ok (fs', 0) ∧
      Session.fmmap .shipped fs' [1] (8192 * 2) 0 = .ok (some ses₀) ∧
      ses₀.Touches .shipped [(0, ses)] ses ∧ ¬Session.ReadsZeros 8192 (0, ses) := by
  have hsz : (ByteFile.empty.reserve 0 (8192 * 3)).size = 8192 * 3 := rfl
  have hbyte : ((ByteFile.empty.reserve 0 (8192 * 3)).store (2 * 8192) 1 7).byte (2 * 8192) = 7 :=
    ByteFile.byte_store_of_mem le_rfl (by norm_num) (by rw [hsz]; norm_num)
  obtain ⟨fs', ses₀, ses, hr, hopen, hrun, hiff⟩ :=
    exists_firstTouch ((ByteFile.empty.reserve 0 (8192 * 3)).store (2 * 8192) 1 7) (by decide)
      (by decide) (by decide)
  refine ⟨_, fs', ses₀, ses, rfl, hr, hopen, hrun, fun hzero => ?_⟩
  have := hiff.mp hzero 0 (by norm_num)
  rw [Nat.add_zero, hbyte] at this
  exact absurd this (by decide)

end Pcow
