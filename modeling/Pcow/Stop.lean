import Pcow.Close
import Pcow.Walk

/-!
# Stopping without closing

A process that stops inside a session leaves the file as its stores so far have made it.
The next `fmmap` reads the entries of the last layer and maps their blocks as a whole; the
bitmap of copied units, which the entries carry for this case, is read by no one.

`Shows` says that a file, opened, shows what the guest saw in a session, except in the unit
a store is in progress to. It holds at every point of every handler where the units that
are still to be copied are zero in the layers below (`Session.Inv.shows_fault`), so that a
stop loses nothing there (`stop_fmmap`). Elsewhere the zeros of the new block are seen in
place of the bytes below (`stop_loses`).
-/

namespace Pcow

variable {cfg : Config} {g : Geometry cfg} {T T' : ByteFile} {es esT : List ℕ}
  {ls : List (List ℕ)} {low : ℕ → Option (Path × ℕ)} {ses ses' : Session} {target : ℕ → Prop}
  {moved : ℕ → Option (List ℕ)} {b v w : ℕ}

/-- **The file, opened, shows what the guest sees in the session**, outside of a target: it
is an image with the frozen layers of the session, and what the data blocks of its last
layer hold is what the guest sees. -/
structure Shows (g : Geometry cfg) (ls : List (List ℕ)) (es : List ℕ) (ses : Session)
    (target : ℕ → Prop) (T : ByteFile) (esT : List ℕ) : Prop where
  layer : IsLayer g T (g.chainEnd 0 ls) esT
  noSuper : NoSuper T (g.endOff (g.chainEnd 0 ls) esT.length)
  size_lt : T.size < 2 ^ 63
  kept : ∀ a, KeptByte (g.chainEnd 0 ls) a → T.byte a = ses.file.byte a
  subset : es ⊆ esT
  data : ∀ c o, g.top ses.s.fd (g.chainEnd 0 ls) esT c = some (ses.s.fd, o) →
    ∀ x < g.blockSize, ¬target (c * g.blockSize + x) →
      T.byte (o + x) = ses.view (c * g.blockSize + x)

theorem Shows.isChain (h : Shows g ls es ses target T esT) (himage : IsImage g ses.file ls es) :
    IsChain g T 0 (ls ++ [esT]) where
  layers := by
    refine isLayers_append.mpr ⟨himage.frozen.congr (fun a ha => h.kept a (Or.inl ha)) le_rfl ?_,
      isLayers_singleton.mpr h.layer⟩
    exact le_trans (Nat.le_add_right _ _) h.layer.clSize_le
  noSuper := by
    rw [g.chainEnd_concat]
    exact h.noSuper

/-- **Opening such a file** shows what the guest saw. -/
theorem Shows.view {fd : Path} {base : List (ℕ × Path × ℕ)} {length : ℕ} {fs' : Fs}
    (h : Shows g ls es ses target T esT) (hcore : ses.Core g ls es (g.lowBindings base fd ls) moved)
    (hfd : ses.s.fd = fd) (hT : (fs' fd).getD .empty = T)
    (hfiles : ∀ p, p ≠ fd → (fs' p).getD .empty = (ses.fs p).getD .empty)
    (hopened : ses'.Opened g fs' fd ls esT base length) (hw : ¬target w) :
    ses'.view w = ses.view w := by
  have hmod := Nat.mod_lt w g.blockSize_pos
  have hdm : w / g.blockSize * g.blockSize + w % g.blockSize = w := by
    rw [Nat.mul_comm]
    exact Nat.div_add_mod w g.blockSize
  have hlast : PageTable.lastOf (g.imageBindings base fd ls esT) (w / g.blockSize) =
      (g.top fd (g.chainEnd 0 ls) esT (w / g.blockSize)).or
      (g.lowBindings base fd ls (w / g.blockSize)) := by
    rw [Geometry.imageBindings_eq, PageTable.lastOf_append]
    rfl
  rw [hopened.view hcore.page_dvd, overlayByte, hlast]
  rcases htop : g.top fd (g.chainEnd 0 ls) esT (w / g.blockSize) with _ | y
  · -- the block is not in the last layer, now or then
    have hes : g.top ses.s.fd (g.chainEnd 0 ls) es (w / g.blockSize) = none := by
      rw [Geometry.top_eq_none] at htop ⊢
      exact fun hmem => htop (h.subset hmem)
    rw [hcore.view_eq, Session.placeOf, place_of_none hes, lowerPlace]
    rcases hlow : g.lowBindings base fd ls (w / g.blockSize) with _ | ⟨p, o⟩
    · rfl
    · simp only [Option.none_or, Option.map_some, Option.getD_some]
      rw [Fs.byteOf, Fs.byteOf]
      rcases hcore.below _ p o hlow with ⟨hp, hle⟩ | ⟨hp, -⟩
      · rw [hp, hfd, hT, h.kept _ (Or.inl (by omega)), Session.file, hfd]
      · rw [hfiles p (hfd ▸ hp)]
  · obtain ⟨i, -, -, rfl⟩ := Geometry.top_eq_some htop
    simp only [Option.some_or]
    have hd := h.data _ _ (hfd.symm ▸ htop) _ hmod (by rwa [hdm])
    rw [Fs.byteOf, hT, hd, hdm]

/-! ### What keeps a file showing -/

/-- Stores to bytes that are not read as structure, and into data blocks what the guest
sees. -/
theorem Shows.of_quiet (h : Shows g ls es ses target T esT) (hdvd : pageSize ∣ g.blockSize)
    (hsz : T'.size = T.size)
    (hb : ∀ a, T'.byte a ≠ T.byte a →
      (g.chainEnd 0 ls + g.blockSize ≤ a ∧ a < g.endOff (g.chainEnd 0 ls) esT.length ∧
        ¬StructByte g (g.chainEnd 0 ls) esT.length a ∧
        ∀ i, ¬(g.dataOff (g.chainEnd 0 ls) i ≤ a ∧
          a < g.dataOff (g.chainEnd 0 ls) i + g.blockSize)) ∨
      ∃ c o x, g.top ses.s.fd (g.chainEnd 0 ls) esT c = some (ses.s.fd, o) ∧ x < g.blockSize ∧
        a = o + x ∧ (target (c * g.blockSize + x) ∨
          T'.byte a = ses.view (c * g.blockSize + x))) : Shows g ls es ses target T' esT := by
  -- in both cases the byte is one of the last layer, past its super block
  have hin : ∀ a, T'.byte a ≠ T.byte a → g.chainEnd 0 ls + g.blockSize ≤ a ∧
      a < g.endOff (g.chainEnd 0 ls) esT.length ∧ ¬StructByte g (g.chainEnd 0 ls) esT.length a := by
    intro a hne
    rcases hb a hne with ⟨h₁, h₂, h₃, -⟩ | ⟨c, o, x, htop, hx, rfl, -⟩
    · exact ⟨h₁, h₂, h₃⟩
    · obtain ⟨i, hi, -, hy⟩ := Geometry.top_eq_some htop
      obtain rfl : o = g.dataOff (g.chainEnd 0 ls) i := (Prod.mk.inj hy).2
      obtain ⟨-, h₂, h₃⟩ := Geometry.quiet_of_data hi (Nat.le_add_right _ x)
        (Nat.add_lt_add_left hx _)
      refine ⟨?_, h₂, h₃⟩
      exact le_trans (Nat.add_le_add_left (Nat.le_mul_of_pos_right _ g.dataBlock_pos) _)
        (Nat.le_add_right _ _)
  refine ⟨h.layer.congr (hsz ▸ h.layer.size_le) fun a ha => ?_, ?_, hsz ▸ h.size_lt, fun a ha => ?_,
    h.subset, fun c o htop x hx hnot => ?_⟩
  · by_contra hne
    exact (hin a hne).2.2 ha
  · rcases h.noSuper with hle | hno
    · exact Or.inl (hsz ▸ hle)
    · refine Or.inr fun hm => hno ?_
      refine hm.congr fun a h₁ _ => ?_
      by_contra hne
      have := (hin a fun heq => hne heq.symm).2.1
      omega
  · rw [← h.kept a ha]
    by_contra hne
    exact g.not_keptByte hdvd (hin a hne).1 ha
  · have hold := h.data c o htop x hx hnot
    by_cases hne : T'.byte (o + x) = T.byte (o + x)
    · rw [hne, hold]
    · obtain ⟨i, hi, hci, hy⟩ := Geometry.top_eq_some htop
      obtain rfl : o = g.dataOff (g.chainEnd 0 ls) i := (Prod.mk.inj hy).2
      rcases hb _ hne with ⟨-, -, -, hdata⟩ | ⟨c', o', x', htop', hx', heq, hval⟩
      · exact absurd ⟨Nat.le_add_right _ _, Nat.add_lt_add_left hx _⟩ (hdata i)
      · -- the store is to the same block
        obtain ⟨i', hi', hci', hy'⟩ := Geometry.top_eq_some htop'
        obtain rfl : o' = g.dataOff (g.chainEnd 0 ls) i' := (Prod.mk.inj hy').2
        have h₁ : g.dataOff (g.chainEnd 0 ls) i' <
            g.dataOff (g.chainEnd 0 ls) i + g.blockSize := by omega
        have h₂ : g.dataOff (g.chainEnd 0 ls) i <
            g.dataOff (g.chainEnd 0 ls) i' + g.blockSize := by omega
        obtain rfl : i' = i := g.dataOff_apart h₁ h₂
        obtain rfl : x' = x := by omega
        obtain rfl : c' = c := hci'.symm.trans hci
        exact hval.resolve_left hnot

/-- The part of a copy that has been made, and what is flushed after it. -/
theorem Shows.copy (h : Shows g ls es ses target T esT) (hdvd : pageSize ∣ g.blockSize)
    {c o d len : ℕ}
    {src : ℕ → UInt8} {post : List FileOp}
    (htop : g.top ses.s.fd (g.chainEnd 0 ls) esT c = some (ses.s.fd, o))
    (hle : d + len ≤ g.blockSize) (hsrc : ∀ x, src x = ses.view (c * g.blockSize + d + x))
    (hpost : ∀ x ∈ post, x.IsBarrier) :
    FileOp.Always (Shows g ls es ses target · esT) (FileOp.memcpy (o + d) len src ++ post) T := by
  obtain ⟨i, hi, hci, hy⟩ := Geometry.top_eq_some htop
  obtain rfl : o = g.dataOff (g.chainEnd 0 ls) i := (Prod.mk.inj hy).2
  have hfits : g.dataOff (g.chainEnd 0 ls) i + d + len ≤ T.size := by
    have h₁ := g.blockAt_add_le (g.chainEnd 0 ls) (g.dataBlock_lt hi)
    have h₂ := h.layer.size_le
    rw [Geometry.endOff] at h₂
    rw [Geometry.dataOff]
    omega
  have hcopy : FileOp.Always (Shows g ls es ses target · esT)
      (FileOp.memcpy (g.dataOff (g.chainEnd 0 ls) i + d) len src) T := by
    intro j
    have hlen : (FileOp.memcpy (g.dataOff (g.chainEnd 0 ls) i + d) len src).length = len / 8 := by
      rw [FileOp.memcpy, List.length_map, List.length_range]
    rw [List.take_eq_take_min, hlen]
    refine h.of_quiet hdvd ?_ fun a hne => Or.inr ?_
    · exact FileOp.size_run_of_inPlace fun o ho => FileOp.inPlace_memcpy (List.mem_of_mem_take ho)
    -- the bytes that differ have been copied
    rw [FileOp.byte_run_memcpy_take (Nat.min_le_right _ _) hfits] at hne ⊢
    have hin : g.dataOff (g.chainEnd 0 ls) i + d ≤ a ∧
        a < g.dataOff (g.chainEnd 0 ls) i + d + 8 * min j (len / 8) := by
      by_contra hout
      exact hne (if_neg hout)
    have hmin := Nat.min_le_right j (len / 8)
    refine ⟨c, _, a - g.dataOff (g.chainEnd 0 ls) i, htop, by omega, by omega, Or.inr ?_⟩
    rw [if_pos hin, hsrc]
    congr 1
    omega
  exact hcopy.append (FileOp.always_barriers hpost hcopy.last)

/-- A store to the copy bitmap of an entry. -/
theorem Shows.mark (h : Shows g ls es ses target T esT) (hdvd : pageSize ∣ g.blockSize)
    (hcfg : cfg.finegrainedCow = true) {j : ℕ} (hj : j < esT.length) {F : ℕ → ℕ}
    (hF : ∀ x, F x % 2 ^ 32 = x % 2 ^ 32) :
    FileOp.Always (Shows g ls es ses target · esT)
      (Session.entryStore cfg T (g.slot (g.chainEnd 0 ls) j) F) T := by
  have hcfg8 : cfg.entrySize = 8 := by rw [Config.entrySize, hcfg]; rfl
  have hstore : Shows g ls es ses target
      (FileOp.run (Session.entryStore cfg T (g.slot (g.chainEnd 0 ls) j) F) T) esT := by
    refine h.of_quiet hdvd rfl fun a hne => Or.inl ?_
    have hin : ¬(a < g.slot (g.chainEnd 0 ls) j + 4 ∨ g.slot (g.chainEnd 0 ls) j + 8 ≤ a) :=
      fun ha =>
      hne (byte_run_entryStore hcfg8 hF ha)
    exact g.quiet_bitmap hcfg8 hj (by omega) (by omega)
  refine (FileOp.always_singleton h hstore).append (FileOp.always_barriers ?_ hstore)
  intro o ho
  rcases List.mem_cons.mp ho with rfl | ho
  · exact trivial
  · rw [List.mem_singleton.mp ho]
    exact trivial

/-- A store to the field `fg_counter` of the first meta block. -/
theorem Shows.fgCounter (h : Shows g ls es ses target T esT) (hdvd : pageSize ∣ g.blockSize)
    (z : ℤ) :
    FileOp.Always (Shows g ls es ses target · esT)
      [storeInt (g.blockAt (g.chainEnd 0 ls) (g.metaBlock 0) + 4) z] T := by
  refine FileOp.always_singleton h (h.of_quiet hdvd rfl fun a hne => Or.inl ?_)
  have hin : ¬(a < g.blockAt (g.chainEnd 0 ls) (g.metaBlock 0) + 4 ∨
      g.blockAt (g.chainEnd 0 ls) (g.metaBlock 0) + 4 + 4 ≤ a) := fun ha =>
    hne (ByteFile.byte_store_of_notMem ha)
  exact g.quiet_fgCounter (Nat.zero_le _) (by omega) (by omega)

/-! ### Stops in the handlers -/

namespace Session

variable {n n' : ℕ} {write : Bool} {fops : List FileOp}

/-- **The file of a session in order shows what the guest sees**, where the units that are still to
be copied are zero. -/
theorem Consistent.shows (h : ses.Consistent g ls es low)
    (hzero : ∀ c, ∀ x < g.blockSize, ¬Copied (ses.cow.movedOf g.blockSize) c x →
      ¬target (c * g.blockSize + x) → ses.view (c * g.blockSize + x) = 0) :
    Shows g ls es ses target ses.file es := by
  have hno := h.core.image.isChain.noSuper
  rw [g.chainEnd_concat] at hno
  refine ⟨h.core.image.last, hno, h.core.image.size_lt, fun _ _ => rfl, List.Subset.refl es, ?_⟩
  intro c o htop x hx hnot
  by_cases hc : Copied (ses.cow.movedOf g.blockSize) c x
  · have hdiv : (c * g.blockSize + x) / g.blockSize = c := g.mul_add_div hx
    have hmod : (c * g.blockSize + x) % g.blockSize = x := g.mul_add_mod hx
    have hplace : ses.placeOf g ls es low (ses.cow.movedOf g.blockSize) (c * g.blockSize + x) =
        some ⟨ses.s.fd, o + x, true⟩ := by
      rw [placeOf, place, hdiv, htop, hmod]
      exact if_pos hc
    rw [h.core.view_of_place hplace]
    rfl
  · -- the unit is to be copied, and its place in the data block holds zeros
    rw [hzero c x hx hc hnot]
    rcases hmv : ses.cow.movedOf g.blockSize c with _ | mv
    · exact absurd (copied_of_none hmv) hc
    obtain ⟨ce, hce, -, rfl, htop', -⟩ := h.entry_of_moved hmv
    rw [htop] at htop'
    obtain rfl : o = ce.blockOff := (Prod.mk.inj (Option.some.inj htop')).2
    exact (h.entry _ ce hce).zero x hx fun hmem => hc ((copied_of_some hmv).mpr hmem)

/-- **A file with the bytes of the session**, but for those that an append of block `b` stores to.
The new block is full of zeros, and this is what the guest sees of it. -/
theorem Core.shows_append (h : ses.Core g ls es low moved)
    (hshows : Shows g ls es ses target ses.file es)
    (hzero : ∀ x < g.blockSize, ¬target (b * g.blockSize + x) → ses.view (b * g.blockSize + x) = 0)
    (hes : esT = es ∨ esT = es ++ [b]) (himage : IsImage g T ls esT)
    (hbyte : ∀ a, ¬AppendByte g (g.chainEnd 0 ls) es.length a → T.byte a = ses.file.byte a) :
    Shows g ls es ses target T esT := by
  have hno := himage.isChain.noSuper
  rw [g.chainEnd_concat] at hno
  have hdata : ∀ i, ∀ x < g.blockSize, ¬AppendByte g (g.chainEnd 0 ls) es.length
      (g.dataOff (g.chainEnd 0 ls) i + x) := fun i x hx happ =>
    happ.not_data i ⟨by omega, by omega⟩
  refine ⟨himage.last, hno, himage.size_lt,
    fun a ha => hbyte a fun happ => happ.not_keptByte h.page_dvd ha, ?_, ?_⟩
  · rcases hes with rfl | rfl
    · exact List.Subset.refl _
    · exact List.subset_append_left _ _
  · intro c o htop x hx hnt
    obtain ⟨i, hi, -, hy⟩ := Geometry.top_eq_some htop
    obtain rfl : o = g.dataOff (g.chainEnd 0 ls) i := (Prod.mk.inj hy).2
    rw [hbyte _ (hdata i x hx)]
    rcases hes with rfl | rfl
    · exact hshows.data c _ htop x hx hnt
    rw [Geometry.top_concat] at htop
    by_cases hcb : b = c
    · subst hcb
      rw [if_pos rfl] at htop
      rw [hzero x hx hnt, ← (Prod.mk.inj (Option.some.inj htop)).2]
      refine h.image.tail _ (le_trans (g.endOff_le_dataOff _ _) (Nat.le_add_right _ _)) ?_
      exact hdata es.length x hx
    · rw [if_neg hcb] at htop
      exact hshows.data c _ htop x hx hnt

/-- **A stop inside `new_block`.** -/
theorem Core.shows_newBlock (h : ses.Core g ls es low moved)
    (hshows : Shows g ls es ses target ses.file es) {faultOff : ℕ} (hb : g.blockOf faultOff = b)
    (hzero : ∀ x < g.blockSize, ¬target (b * g.blockSize + x) →
      ses.view (b * g.blockSize + x) = 0) (n n' : ℕ) :
    FileOp.Always (fun T => ∃ esT, Shows g ls es ses target T esT)
      (newBlockOps cfg ses.file ses.s ses.ring n n' faultOff) ses.file := by
  intro j
  obtain ⟨esT, hes, himage, hbyte⟩ := h.image.newBlockOps_take h.super h.ring n n' faultOff j
  rw [hb] at hes
  exact ⟨esT, h.shows_append hshows hzero hes himage hbyte⟩

/-- **A stop inside `insert_ht`**, and what the call leaves. -/
theorem Consistent.shows_insertHt (h : ses.Consistent g ls es low)
    (hshows : Shows g ls es ses target ses.file es) (hb : b < 2 ^ 32) (hnot : b ∉ es)
    (hzero : ∀ x < g.blockSize, ¬target (b * g.blockSize + x) → ses.view (b * g.blockSize + x) = 0)
    (hmeta : ses.s.MetaNOk) {ce : CowEntry}
    (hr : ses.insertHt cfg n n' (b * g.blockSize) = .ok (ses', ce, fops)) :
    FileOp.Always (fun T => ∃ esT, Shows g ls es ses target T esT) fops ses.file ∧
      FileOp.run fops ses.file = ses'.file ∧ Shows g ls es ses target ses'.file (es ++ [b]) := by
  have hblock : g.blockOf (b * g.blockSize) = b := by
    have hdiv := Nat.mul_div_cancel b g.blockSize_pos
    rw [g.blockOf_eq (by rw [hdiv]; exact hb), hdiv]
  have hdvd : (2 ^ 32 : ℤ) ∣ (g.lastSeg (es.length + 1) : ℤ) * g.blockSize * g.blockSize := by
    have := hmeta
    rwa [Super.MetaNOk, h.core.super.nextSeg, h.core.super.blockSize] at this
  obtain ⟨s', r', nb, ops₁, ops₂, hnb, hlink, rfl⟩ := insertHt_ok hr
  obtain ⟨himage, -, henv, -, -, htouch⟩ := h.core.image.newBlock h.core.super h.core.ring hnb
  generalize hses₁ : ({ ses.issue ops₁ with s := s', ring := r' } : Session) = ses₁ at hlink
  have hfile : ses₁.file = FileOp.run ops₁ ses.file := by
    rw [← hses₁]
    exact file_issue_of_fd henv.1
  obtain ⟨hcore₁, -⟩ := h.core.append hnb hblock hnot hses₁.symm
  obtain ⟨m, hread, -, hses', hops₂⟩ := linkEntry_ok hlink
  have hfile' : ses'.file = FileOp.run ops₂ (FileOp.run ops₁ ses.file) := by
    rw [hses', ← hfile, ← file_issue]
    rfl
  have hops : newBlockOps cfg ses.file ses.s ses.ring n n' (b * g.blockSize) = ops₁ := by
    rw [newBlockOps, hnb]
  have hfirst := h.core.shows_newBlock hshows hblock hzero n n'
  rw [hblock] at himage
  rw [hops] at hfirst
  -- the whole of `new_block`, and then the counter of the first meta block
  rw [fgCounterOps, hcore₁.readMeta_metaN hdvd hread] at hops₂
  have hsecond : Shows g ls es ses target (FileOp.run ops₁ ses.file) (es ++ [b]) :=
    h.core.shows_append hshows hzero (Or.inr rfl) himage fun a ha =>
      FileOp.byte_run_of_not_touches fun o ho ht => ha (htouch o ho a ht)
  have hthird : FileOp.Always (Shows g ls es ses target · (es ++ [b])) ops₂
      (FileOp.run ops₁ ses.file) := by
    rw [hops₂]
    exact hsecond.fgCounter h.core.page_dvd _
  refine ⟨hfirst.append fun j => ⟨_, hthird j⟩, ?_, ?_⟩
  · rw [FileOp.run_append, hfile']
  · rw [hfile']
    exact hthird.last

/-- **A stop inside a copy**, into the data block of an entry of the table, that reads what the
guest sees: of one unit, or of the whole block. -/
theorem Consistent.shows_copy {ses₀ : Session} {es₀ : List ℕ} (h : ses.Consistent g ls es low)
    (hshows : Shows g ls es₀ ses₀ target ses.file es) (hsame : ses₀.Same ses)
    (hcfg : cfg.finegrainedCow = true) {ce : CowEntry} (hce : ce ∈ ses.cow.buckets (b % bucketNum))
    (hkey : ce.faultVoffAligned = b * g.blockSize) {d len : ℕ} (hle : d + len ≤ g.blockSize)
    {F : ℕ → ℕ} (hF : ∀ x, F x % 2 ^ 32 = x % 2 ^ 32) {ops₁ : List FileOp}
    (hops₁ : ops₁ = FileOp.memcpy (ce.blockOff + d) len (ses.source (b * g.blockSize + d)) ++
      flushLoop (ce.blockOff + d) len ++ [.fence]) :
    FileOp.Always (fun T => ∃ esT, Shows g ls es₀ ses₀ target T esT)
      (ops₁ ++ entryStore cfg (FileOp.run ops₁ ses.file) ce.metaEntry F) ses.file := by
  obtain ⟨-, htop⟩ := h.top_of_mem hce hkey
  obtain ⟨j, hj, hslot⟩ := (h.entry _ ce hce).slot
  rw [hsame.fd] at htop
  have hcopy : FileOp.Always (Shows g ls es₀ ses₀ target · es) ops₁ ses.file := by
    rw [hops₁, List.append_assoc]
    refine hshows.copy h.core.page_dvd htop hle (fun x => ?_) isBarrier_flushLoop
    rw [← hsame.view]
    rfl
  have hmark := hcopy.last.mark h.core.page_dvd hcfg hj hF
  rw [← hslot] at hmark
  exact FileOp.Always.append (fun i => ⟨es, hcopy i⟩) fun i => ⟨es, hmark i⟩

section Copies

theorem file_remap {o : MapOp Path} : (ses.remap o).file = ses.file := rfl

variable {ses₀ : Session} {es₀ : List ℕ} {ce ce' : CowEntry} {c : CowTables}

theorem Consistent.shows_copyUnit (h : ses.Consistent g ls es low)
    (hshows : Shows g ls es₀ ses₀ target ses.file es) (hsame : ses₀.Same ses)
    (hcfg : cfg.finegrainedCow = true) (hce : ce ∈ ses.cow.buckets (b % bucketNum))
    (hkey : ce.faultVoffAligned = b * g.blockSize) {d : ℕ} (hle : d + cowUnit ≤ g.blockSize)
    (hr : ({ ses with cow := c } : Session).copyUnit cfg ⟨b * g.blockSize + d, cowUnit⟩ ce
      (b * g.blockSize) = .ok (ses', fops)) :
    FileOp.Always (fun T => ∃ esT, Shows g ls es₀ ses₀ target T esT) fops ses.file := by
  obtain ⟨ops₁, hops₁⟩ : ∃ ops₁, ops₁ = FileOp.memcpy (ce.blockOff + d) cowUnit
      (ses.source (b * g.blockSize + d)) ++ flushLoop (ce.blockOff + d) cowUnit ++
      [.fence] := ⟨_, rfl⟩
  have hsource : ({ ses with cow := c } : Session).source = ses.source := rfl
  rw [Session.copyUnit] at hr
  simp only [Nat.add_sub_cancel_left, Int.toNat_natCast, hsource, ← hops₁] at hr
  split_ifs at hr
  have hops := congrArg Prod.snd (Except.ok.inj hr)
  simp only [file_remap, file_issue] at hops
  rw [← hops]
  exact h.shows_copy hshows hsame hcfg hce hkey hle (or_cowBit_mod _) hops₁

theorem Consistent.shows_copyBlock (h : ses.Consistent g ls es low)
    (hshows : Shows g ls es₀ ses₀ target ses.file es) (hsame : ses₀.Same ses)
    (hcfg : cfg.finegrainedCow = true) (hce : ce ∈ ses.cow.buckets (b % bucketNum))
    (hkey : ce.faultVoffAligned = b * g.blockSize) (hoff : ce'.blockOff = ce.blockOff)
    (hslot : ce'.metaEntry = ce.metaEntry)
    (hr : ({ ses with cow := c } : Session).copyBlock cfg ce' (b * g.blockSize) = (ses', fops)) :
    FileOp.Always (fun T => ∃ esT, Shows g ls es₀ ses₀ target T esT) fops ses.file := by
  obtain ⟨ops₁, hops₁⟩ : ∃ ops₁, ops₁ = FileOp.memcpy ce.blockOff g.blockSize
      (ses.source (b * g.blockSize)) ++ flushLoop ce.blockOff g.blockSize ++ [.fence] := ⟨_, rfl⟩
  have hsource : ({ ses with cow := c } : Session).source = ses.source := rfl
  rw [Session.copyBlock] at hr
  simp only [h.core.super.u64_blockSize, hoff, hslot, hsource, ← hops₁] at hr
  have hops := congrArg Prod.snd hr
  simp only [file_remap, file_issue] at hops
  rw [← hops]
  exact h.shows_copy hshows hsame hcfg hce hkey (Nat.zero_add _).le and_addrMask_mod hops₁

end Copies

/-- The unit of an offset is the target of the access in progress, if this is a store. -/
def Target (v : ℕ) (write : Bool) (w : ℕ) : Prop := write = true ∧ w / cowUnit = v / cowUnit

/-- **A byte whose copy is still to come**: its page is write protected, and its block has an entry
in the last layer or is about to get one. It is in the table of incomplete blocks, or it is the
block of the copy on write that the access makes. -/
def Unfinished (ses : Session) (v : ℕ) (write : Bool) (w : ℕ) : Prop :=
  (∃ e, ses.pages (w / pageSize) = some e ∧ e.writable = false) ∧
    (¬ses.NeedsBlock w ∨
      ses.IsCow v write ∧ w / u64 ses.s.blockSize = v / u64 ses.s.blockSize)

/-- The operations that the fault of an access issues. A fault that is not served ends inside
`new_block`. -/
def faultOps (cfg : Config) (ses : Session) (n n' v : ℕ) (write : Bool) : List FileOp :=
  match ses.fault cfg n n' v write with
  | .ok (_, ops) => ops
  | .error _ => newBlockOps cfg ses.file ses.s ses.ring n n'
      (v / u64 ses.s.blockSize * u64 ses.s.blockSize)

/-- A byte that is taken from a layer below is on a protected page. -/
theorem Core.protected_of_lower (h : ses.Core g ls es low moved)
    (hlow : low (w / g.blockSize) ≠ none)
    (hplace : ses.placeOf g ls es low moved w = lowerPlace g.blockSize low w) :
    ∃ e, ses.pages (w / pageSize) = some e ∧ e.writable = false := by
  obtain ⟨y, hy⟩ := Option.ne_none_iff_exists'.mp hlow
  rw [h.placeOf_eq, lowerPlace, hy, Option.map_some] at hplace
  obtain ⟨e, hp, he⟩ := Option.map_eq_some_iff.mp hplace
  have hw := congrArg Pte.writable he
  exact ⟨e, hp, hw⟩

section Cow

variable (h : ses.Inv g ls es low)

include h

/-- Units of the table that are still to be copied. -/
theorem Inv.zero_of_moved
    (hzero : ∀ w, ses.Unfinished v write w → ¬target w → ses.view w = 0) {c x : ℕ}
    (hx : x < g.blockSize) (hc : ¬Copied (ses.cow.movedOf g.blockSize) c x)
    (hnot : ¬target (c * g.blockSize + x)) : ses.view (c * g.blockSize + x) = 0 := by
  have hdiv : (c * g.blockSize + x) / g.blockSize = c := g.mul_add_div hx
  have hmod : (c * g.blockSize + x) % g.blockSize = x := g.mul_add_mod hx
  rcases hmv : ses.cow.movedOf g.blockSize c with _ | mv
  · exact absurd (copied_of_none hmv) hc
  obtain ⟨ce, -, -, -, -, hlow⟩ := h.entry_of_moved hmv
  refine hzero _ ⟨h.core.protected_of_lower (by rwa [hdiv]) ?_, Or.inl fun hneeds => ?_⟩ hnot
  · exact place_of_not_copied (by rwa [hdiv, hmod])
  · rw [h.needsBlock_iff, hdiv, hmv] at hneeds
    cases hneeds

/-- The block of a copy on write is in a layer below. If it is not in the table, it has no entry in
the last layer. -/
theorem Inv.of_isCow (hcow : ses.IsCow v write) :
    low (v / g.blockSize) ≠ none ∧ (ses.NeedsBlock v → v / g.blockSize ∉ es) := by
  obtain ⟨-, e, hp, hw⟩ := hcow
  obtain ⟨hlow, hcases⟩ := h.protected hp hw
  refine ⟨hlow, fun hneeds => ?_⟩
  rcases hcases with ⟨-, hes⟩ | ⟨mv, hmv, -⟩
  · exact hes
  · rw [h.needsBlock_iff, hmv] at hneeds
    cases hneeds

/-- What the guest sees of such a block. -/
theorem Inv.zero_of_isCow
    (hzero : ∀ w, ses.Unfinished v write w → ¬target w → ses.view w = 0)
    (hcow : ses.IsCow v write) (hneeds : ses.NeedsBlock v) {x : ℕ} (hx : x < g.blockSize)
    (hnot : ¬target (v / g.blockSize * g.blockSize + x)) :
    ses.view (v / g.blockSize * g.blockSize + x) = 0 := by
  obtain ⟨hlow, hes⟩ := h.of_isCow hcow
  have hdiv : (v / g.blockSize * g.blockSize + x) / g.blockSize = v / g.blockSize :=
    g.mul_add_div hx
  refine hzero _ ⟨h.core.protected_of_lower (by rwa [hdiv]) ?_, Or.inr ⟨hcow, ?_⟩⟩ hnot
  · exact place_of_none (by rw [hdiv]; exact Geometry.top_eq_none.mpr (hes hneeds))
  · rw [h.core.super.u64_blockSize, hdiv]

/-- **A stop inside `cow_handler`.** -/
theorem Inv.shows_cowHandler (hcfg : cfg.finegrainedCow = true) (hbs : cowUnit < g.blockSize)
    (hv : v < ses.s.fmmapLength) (hcow : ses.IsCow v write)
    (hmeta : ses.NeedsBlock v → ses.s.MetaNOk)
    (hzero : ∀ w, ses.Unfinished v write w → ¬target w → ses.view w = 0)
    (hr : ses.cowHandler cfg n n' v = .ok (ses', fops)) :
    FileOp.Always (fun T => ∃ esT, Shows g ls es ses target T esT) fops ses.file := by
  have hu := h.core.super.u64_blockSize
  have hshows := h.shows fun c x hx hc hnot => h.zero_of_moved hzero hx hc hnot
  have hdiv : v / cowUnit * cowUnit / g.blockSize = v / g.blockSize := div_page h.core.page_dvd v
  have hbucket : bucketNumber g.blockSize (v / cowUnit * cowUnit) =
      v / g.blockSize % bucketNum := by
    rw [bucketNumber, hdiv]
  obtain ⟨hunit, hunit_le⟩ := g.unit_eq h.core.page_dvd v
  rcases cowHandler_cases hr
    with ⟨-, rfl, -⟩ | ⟨-, -, -, ses₁, le, ce, ops₁, ops₂, hins, rfl, hcopy⟩ |
    ⟨-, hcfg', -⟩
  · exact FileOp.always_nil ⟨es, hshows⟩
  · rw [hu] at hcopy
    rcases insertList_cases hins with ⟨full, rest, hsearch, hle, rfl, rfl⟩ |
      ⟨hsearch, hle, ses₂, hht, rfl⟩
    · -- the block is in the table
      rw [hu, hdiv, hbucket] at hsearch
      obtain ⟨ce₀, hmem, hkey, hfull⟩ := searchHt_eq_some hsearch
      rcases hfull with ⟨rfl, rfl, -⟩ | ⟨rfl, rfl, rfl⟩
      · rcases hcopy with ⟨hne, -⟩ | ⟨-, hcopy⟩
        · rw [hle] at hne
          exact absurd rfl hne
        · have hmapped := h.core.firstMissing_eq_none (h.of_isCow hcow).1
          rw [copyWhole_of_mapped] at hcopy
          · exact h.shows_copyBlock hshows .refl hcfg hmem hkey rfl rfl (Except.ok.inj hcopy)
          · exact hmapped
      · rcases hcopy with ⟨-, hcopy⟩ | ⟨heq, -⟩
        · simp only [hle, Bool.false_eq_true, if_false, hunit] at hcopy
          exact h.shows_copyUnit hshows .refl hcfg hmem hkey hunit_le hcopy
        · rw [hle, h.core.super.blockSize] at heq
          exact absurd (Int.ofNat.inj heq) hbs.ne
    · -- the block gets an entry first
      rw [hu, hdiv] at hht
      have hneeds : ses.NeedsBlock v := by
        rw [NeedsBlock, hu, bucketNumber]
        rw [hu, hdiv, hbucket] at hsearch
        exact hsearch
      obtain ⟨hlow, hes⟩ := h.of_isCow hcow
      obtain ⟨hfirst, hfile, hshows₂⟩ := h.shows_insertHt hshows (h.block_lt hv) (hes hneeds)
        (fun x hx hnot => h.zero_of_isCow hzero hcow hneeds hx hnot) (hmeta hneeds) hht
      obtain ⟨hcons, hsame, hkey, -, hmem, -⟩ := h.insertHt (h.block_lt hv)
        ((h.needsBlock_iff v).mp hneeds) (hes hneeds) hlow (hmeta hneeds) hht
      refine hfirst.append ?_
      rw [hfile]
      rcases hcopy with ⟨-, hcopy⟩ | ⟨heq, -⟩
      · rw [hle, hunit] at hcopy
        exact hcons.shows_copyUnit hshows₂ hsame hcfg hmem hkey hunit_le hcopy
      · rw [hle, hcons.core.super.blockSize] at heq
        exact absurd (Int.ofNat.inj heq) hbs.ne
  · rw [hcfg] at hcfg'
    cases hcfg'

/-- What the guest sees of a block with a missing page. -/
theorem Inv.zero_of_missing (hp : ses.pages (v / pageSize) = none) {x : ℕ} (hx : x < g.blockSize) :
    ses.view (v / g.blockSize * g.blockSize + x) = 0 := by
  obtain ⟨hnot, hlow, -⟩ := h.missing hp
  have hdiv : (v / g.blockSize * g.blockSize + x) / g.blockSize = v / g.blockSize :=
    g.mul_add_div hx
  rw [h.core.view_eq, placeOf, place_of_none (by rw [hdiv]; exact Geometry.top_eq_none.mpr hnot),
    lowerPlace, hdiv, hlow]
  rfl

/-- **A stop inside the fault of an access.** -/
theorem Inv.shows_fault (hcfg : cfg.finegrainedCow = true) (hv : v < ses.s.fmmapLength)
    (hcow : ses.CowOk cfg v write)
    (hzero : ∀ w, ses.Unfinished v write w → ¬target w → ses.view w = 0) (n n' : ℕ) :
    FileOp.Always (fun T => ∃ esT, Shows g ls es ses target T esT)
      (ses.faultOps cfg n n' v write) ses.file := by
  have hu := h.core.super.u64_blockSize
  have hblock := h.blockOf_block hv
  have hshows := h.shows fun c x hx hc hnot => h.zero_of_moved hzero hx hc hnot
  have hnil : FileOp.Always (fun T => ∃ esT, Shows g ls es ses target T esT) [] ses.file :=
    FileOp.always_nil ⟨es, hshows⟩
  rw [faultOps, Session.fault]
  rcases hp : ses.pages (v / pageSize) with _ | e
  · -- the page is missing
    have hnew := h.core.shows_newBlock hshows hblock (fun x hx _ => h.zero_of_missing hp hx) n n'
    rcases hmon : ses.ufMonitor cfg n n' v with err | ⟨ses', ops⟩
    · simp only [hu]
      exact hnew
    · rcases ufMonitor_cases hmon with ⟨-, rfl⟩ | ⟨s', r', nb, hnb, -⟩
      · exact hnil
      · rw [hu, div_page h.core.page_dvd] at hnb
        rw [newBlockOps, hnb] at hnew
        exact hnew
  by_cases hwrite : (write && !e.writable) = true
  · -- the page is write protected
    obtain ⟨rfl, hw⟩ : write = true ∧ e.writable = false := by
      rw [Bool.and_eq_true, Bool.not_eq_true'] at hwrite
      exact hwrite
    have his : ses.IsCow v true := ⟨rfl, e, hp, hw⟩
    simp only [if_pos hwrite]
    by_cases hle : v > u64 ((ses.globalLength : ℤ) - ses.s.blockSize)
    · rw [Session.cowHandler, if_pos hle]
      exact hnil
    obtain ⟨hbs, hmeta⟩ := hcow hcfg his (not_lt.mp hle)
    rw [h.core.super.blockSize] at hbs hle
    rcases hr : ses.cowHandler cfg n n' v with err | ⟨ses', ops⟩
    · rcases h.cowHandler hcfg (Int.ofNat_lt.mp hbs) hv hp hw (not_lt.mp hle) hmeta with
        ⟨ses', ops, hok, -⟩ | ⟨err', hneeds, -, -⟩
      · rw [hr] at hok
        cases hok
      · simp only [hu]
        exact h.core.shows_newBlock hshows hblock
          (fun x hx hnot => h.zero_of_isCow hzero his hneeds hx hnot) n n'
    · exact h.shows_cowHandler hcfg (Int.ofNat_lt.mp hbs) hv his hmeta hzero hr
  · simp only [if_neg hwrite]
    exact hnil

end Cow

end Session

/-! ### Opening the image after a stop -/

section Open

variable {g : Geometry .shipped} {fs : Fs} {fd : Path} {base : List (ℕ × Path × ℕ)}
  {length offset : ℕ} {ops : List GuestOp} {evs : List Event}

/-- **A stop loses nothing that is not zero**, in the shipped configuration. Let the process stop
after a run whose copies on write found their meta blocks, inside the fault of the next access,
after any number `j` of the operations that the fault issues. If no byte whose copy is still to
come, outside of the unit that the access stores to, is other than zero, then the image can be
mapped again as it was, and however it is mapped, every byte outside of that unit reads as before
the stop. -/
theorem stop_fmmap {ls : List (List ℕ)} {es : List ℕ}
    (himage : IsImage g ((fs fd).getD .empty) ls es)
    (hbase : BaseIs g fs (baseImageName ((fs fd).getD .empty) 0) base)
    (hdvd : pageSize ∣ g.blockSize)
    (hopen : Session.fmmap .shipped fs fd length offset = .ok (some ses))
    (hops : ∀ op ∈ ops, op.Within (· < g.mapLength length))
    (hok : ses.Along .shipped (Session.StepOk .shipped) ops)
    (hrun : ses.run .shipped ops = .ok (ses', evs)) (v n n' : ℕ) (write : Bool)
    (hv : v < g.mapLength length) (hcow : ses'.CowOk .shipped v write)
    (hzero : ∀ w, ses'.Unfinished v write w → ¬Session.Target v write w → ses'.view w = 0) (j : ℕ)
    (fs' : Fs) (hfs' : fs' = (ses'.issue ((ses'.faultOps .shipped n n' v write).take j)).fs) :
    (∃ ses'', Session.fmmap .shipped fs' fd length offset = .ok (some ses'')) ∧
      ∀ length' offset' ses'', Session.fmmap .shipped fs' fd length' offset' = .ok (some ses'') →
        ∀ w, ¬Session.Target v write w → ses''.view w = ses'.view w := by
  have hopened := himage.isChain.fmmap rfl himage.size_lt hbase hopen
  have hin : ∀ op ∈ ops, op.Within (· < ses.s.fmmapLength) := by
    rw [hopened.fmmapLength]
    exact hops
  rcases (hopened.inv hdvd himage).run (fun _ hs => hs) hin hok with
    ⟨ses₁, evs₁, es', hr, hran⟩ | ⟨err, hr, -⟩
  swap
  · rw [hrun] at hr
    cases hr
  rw [hrun] at hr
  cases hr
  have hfd : ses'.s.fd = fd := hran.env.fd.trans hopened.fd_eq
  have hlen : ses'.s.fmmapLength = g.mapLength length :=
    hran.env.fmmapLength.trans hopened.fmmapLength
  have hfile₀ : ses.file = (fs fd).getD .empty := by
    rw [Session.file, hopened.fd_eq, hopened.files]
  -- the file at the stop
  obtain ⟨T, hT⟩ : ∃ T, T = FileOp.run ((ses'.faultOps .shipped n n' v write).take j) ses'.file :=
    ⟨_, rfl⟩
  obtain ⟨esT, hshows⟩ := hran.inv.shows_fault rfl (by rw [hlen]; exact hv) hcow hzero n n' j
  rw [← hT] at hshows
  have hfile : (fs' fd).getD .empty = T := by
    rw [hfs', ← hfd, hT]
    exact Session.file_issue
  have hother : ∀ p, p ≠ fd → (fs' p).getD .empty = (ses'.fs p).getD .empty := by
    intro p hp
    rw [hfs', Session.issue_fs_of_ne (by rw [hfd]; exact hp)]
  have hfiles : ∀ p, p ≠ fd → (fs' p).getD .empty = (fs p).getD .empty := by
    intro p hp
    rw [hother p hp, hran.env.files p (by rw [hopened.fd_eq]; exact hp), hopened.files]
  have hname : baseImageName T 0 = baseImageName ((fs fd).getD .empty) 0 :=
    baseImageName_congr fun a ha => by
      rw [hshows.kept a (Or.inr ha), hran.env.kept a (Or.inr ha), hfile₀]
  have hchain := hshows.isChain hran.inv.core.image
  constructor
  · obtain ⟨ses'', hses'', -⟩ := himage.isChain.reopen rfl himage.size_lt hbase hopen hchain hfile
      hshows.size_lt hfiles hname
    exact ⟨ses'', hses''⟩
  · intro length' offset' ses'' hopen'' w hw
    obtain ⟨-, x, hmaps, -⟩ := himage.isChain.fmmap_ok rfl himage.size_lt hopen
    have hbase' := hbase.congr (himage.isChain.name_ne rfl himage.size_lt hmaps) hfiles
    rw [← hname] at hbase'
    exact hshows.view hran.inv.core hfd hfile hother
      (hchain.fmmap hfile hshows.size_lt hbase' hopen'') hw

end Open

/-- A block with a writable page and a protected one is in the table, and the unit of the protected
page is still to be copied. -/
theorem Session.Inv.moved_of_protected (h : ses.Inv g ls es low) {e e' : Pte Path}
    (hp : ses.pages (v / pageSize) = some e) (hw : e.writable = true)
    (hp' : ses.pages (w / pageSize) = some e') (hw' : e'.writable = false)
    (hsame : w / g.blockSize = v / g.blockSize) :
    ∃ mv, ses.cow.movedOf g.blockSize (w / g.blockSize) = some mv ∧
      w % g.blockSize / cowUnit * cowUnit ∉ mv := by
  have htop : g.top ses.s.fd (g.chainEnd 0 ls) es (v / g.blockSize) ≠ none := by
    have hplace := h.core.placeOf_eq v
    rw [hp, Option.map_some] at hplace
    rcases place_eq_some hplace with ⟨-, -, htop, -⟩ | ⟨hfalse, -⟩
    · rw [htop]
      exact Option.some_ne_none _
    · exact absurd (hw.symm.trans hfalse) (by decide)
  obtain ⟨-, ⟨-, hnot⟩ | hmv⟩ := h.protected hp' hw'
  · rw [hsame] at hnot
    exact absurd (Geometry.top_eq_none.mpr hnot) htop
  · exact hmv

/-- What is seen of a frozen layer of the first block, when it is opened with no base and no other
layer. -/
theorem Session.Opened.view_frozen {f : ByteFile} {length : ℕ}
    (h : ses.Opened g (fun _ => some f) [1] [[0]] [] [] length) (hdvd : pageSize ∣ g.blockSize)
    (w : ℕ) :
    ses.view w = if w < g.blockSize then f.byte (g.dataOff 0 0 + w) else 0 := by
  have hbindings : g.imageBindings [] [1] [[0]] [] = [(0, [1], g.dataOff 0 0)] := rfl
  rw [h.view hdvd, overlayByte, hbindings, PageTable.lastOf, List.foldl_cons, List.foldl_nil]
  by_cases hlt : w < g.blockSize
  · rw [Nat.div_eq_of_lt hlt, if_pos rfl, if_pos hlt, Nat.mod_eq_of_lt hlt]
    rfl
  · rw [if_neg (Nat.ne_of_lt (Nat.div_pos (not_lt.mp hlt) g.blockSize_pos)), if_neg hlt]

/-- **A stop inside a copy of the rest of a block.** The block of the frozen layer has three units,
its first byte is 7 and the others are zero. The guest stores to the first unit, which is copied. In
the fault of a store to the second unit the process stops, after any number of operations: the first
unit reads as before, the byte copied as well as the byte stored. -/
theorem stop_fmmap_copy : ∃ (fs : Fs) (ses ses' : Session) (evs : List Event),
    IsImage (Geometry.threePages .shipped) ((fs [1]).getD .empty) [[0]] [] ∧
      Session.fmmap .shipped fs [1] (12288 * 2) 0 = .ok (some ses) ∧
      ses.run .shipped [.store 1 1 0 0] = .ok (ses', evs) ∧ ses'.IsCow 4096 true ∧
      ses'.Unfinished 4096 true 8192 ∧ ses'.view 0 = 7 ∧ ses'.view 1 = 1 ∧
      ∀ j, ∃ ses'', Session.fmmap .shipped
          (ses'.issue ((ses'.faultOps .shipped 0 0 4096 true).take j)).fs [1] (12288 * 2) 0 =
            .ok (some ses'') ∧
        ses''.view 0 = 7 ∧ ses''.view 1 = 1 := by
  obtain ⟨f, ses, ses', himage, hname, hbytes, hopen, hopened, hrun, henv, hview, -, hpages,
    ⟨e, hp, hw⟩,
    es', -, hinv⟩ := @exists_firstStore (Geometry.threePages .shipped) (by decide) (by decide)
      (by decide)
      (by decide) 7 0 (by decide) 1 (by decide)
  have hbs : (Geometry.threePages .shipped).blockSize = 12288 := rfl
  have hdvd : pageSize ∣ (Geometry.threePages .shipped).blockSize := by decide
  have hbase : BaseIs (Geometry.threePages .shipped) (fun _ => some f) (baseImageName f 0) [] :=
    Or.inl ⟨baseImageName_eq_nil hname, rfl⟩
  have hseen : ∀ w, ses.view w = if w = 0 then 7 else 0 := by
    intro w
    rw [hopened.view_frozen hdvd]
    split_ifs with hlt hw₀ hw₀
    · rw [hbytes w hlt, if_pos hw₀]
    · rw [hbytes w hlt, if_neg hw₀]
    · omega
    · rfl
  -- the pages behind the first one are protected
  have hprot : ∀ w, 4096 ≤ w → w < 12288 → ∃ e', ses'.pages (w / pageSize) = some e' ∧
      e'.writable = false := by
    intro w hge hlt
    have hdiv : w / (Geometry.threePages .shipped).blockSize = 0 := Nat.div_eq_of_lt hlt
    rw [hpages _ (Nat.ne_of_gt (Nat.div_pos hge (by decide)))]
    exact hopened.protected hdvd (List.mem_singleton_self _)
      (by rw [hdiv]; exact List.mem_singleton_self _) List.not_mem_nil
  have hmoved : ∀ w, 4096 ≤ w → w < 12288 → ¬ses'.NeedsBlock w := by
    intro w hge hlt hneeds
    obtain ⟨e', hp', hw'⟩ := hprot w hge hlt
    obtain ⟨mv, hmv, -⟩ := hinv.moved_of_protected hp hw hp' hw' (by rw [hbs]; omega)
    rw [hinv.needsBlock_iff, hmv] at hneeds
    cases hneeds
  have hcow : ses'.CowOk .shipped 4096 true := by
    intro _ _ _
    rw [hinv.core.super.blockSize]
    exact ⟨by decide, fun hneeds => absurd hneeds (hmoved _ le_rfl (by norm_num))⟩
  have hzero : ∀ w, ses'.Unfinished 4096 true w → ¬Session.Target 4096 true w →
      ses'.view w = 0 := by
    rintro w ⟨⟨e', hp', hw'⟩, -⟩ -
    have hne : w / pageSize ≠ 1 / pageSize := by
      intro heq
      rw [heq, hp] at hp'
      cases hp'
      exact absurd (hw.symm.trans hw') (by decide)
    have hge : 4096 ≤ w := by
      by_contra hlt
      exact hne (by simp only [pageSize]; omega)
    rw [hview, Function.update_of_ne (by omega), hseen, if_neg (by omega)]
  have hview₀ : ses'.view 0 = 7 := by
    rw [hview, Function.update_of_ne (by decide), hseen, if_pos rfl]
  have hview₁ : ses'.view 1 = 1 := by rw [hview, Function.update_self]
  have hops : ∀ op ∈ [GuestOp.store 1 1 0 0],
      op.Within (· < (Geometry.threePages .shipped).mapLength (12288 * 2)) := by
    rintro op hop
    rw [List.mem_singleton.mp hop]
    exact (by decide : 1 < 12288 * 2)
  have hok : ses.Along .shipped (Session.StepOk .shipped) [.store 1 1 0 0] := by
    refine ⟨?_, fun _ _ _ => trivial⟩
    intro _ _ _
    rw [hopened.super.blockSize]
    exact ⟨by decide, fun _ => hopened.super.metaNOk⟩
  refine ⟨fun _ => some f, ses, ses', _, himage, hopen, hrun,
    ⟨rfl, hprot 4096 le_rfl (by norm_num)⟩,
    ⟨hprot 8192 (by norm_num) (by norm_num), Or.inl (hmoved _ (by norm_num) (by norm_num))⟩, hview₀,
    hview₁, fun j => ?_⟩
  obtain ⟨⟨ses'', hses''⟩, hsame⟩ := stop_fmmap himage hbase hdvd hopen hops hok hrun 4096 0 0 true
    (by decide) hcow hzero j _ rfl
  refine ⟨ses'', hses'', ?_, ?_⟩
  · rw [hsame _ _ _ hses'' 0 (by rintro ⟨-, h⟩; revert h; decide), hview₀]
  · rw [hsame _ _ _ hses'' 1 (by rintro ⟨-, h⟩; revert h; decide), hview₁]

/-- The data block of an entry, as it is seen when the image is opened. -/
theorem Session.Opened.view_of_top {fs : Fs} {fd : Path} {base : List (ℕ × Path × ℕ)}
    {length c o x : ℕ}
    (h : ses.Opened g fs fd ls es base length) (hdvd : pageSize ∣ g.blockSize)
    (htop : g.top fd (g.chainEnd 0 ls) es c = some (fd, o)) (hx : x < g.blockSize) :
    ses.view (c * g.blockSize + x) = fs.byteOf fd (o + x) := by
  have hdiv : (c * g.blockSize + x) / g.blockSize = c := g.mul_add_div hx
  have hmod : (c * g.blockSize + x) % g.blockSize = x := g.mul_add_mod hx
  rw [h.view hdvd, overlayByte, Geometry.imageBindings_eq, PageTable.lastOf_append, hdiv, hmod]
  rw [Geometry.top] at htop
  rw [htop]
  rfl

/-- **A stop loses the units of a block that are not copied.** The guest stores a byte to the first
unit of a block of the frozen layer, and the process stops. The second unit read 1 before; when the
image is mapped again it reads 0, which is what the new block has there. -/
theorem stop_loses : ∃ (fs : Fs) (ses ses' ses'' : Session) (evs : List Event),
    IsImage (Geometry.twoPages .shipped) ((fs [1]).getD .empty) [[0]] [] ∧
      baseImageName ((fs [1]).getD .empty) 0 = [] ∧
      Session.fmmap .shipped fs [1] (8192 * 2) 0 = .ok (some ses) ∧
      ses.run .shipped [.store 0 1 0 0] = .ok (ses', evs) ∧
      Session.fmmap .shipped ses'.fs [1] (8192 * 2) 0 = .ok (some ses'') ∧
      ses'.view 4096 = 1 ∧ ses''.view 4096 = 0 := by
  obtain ⟨f, ses, ses', himage, hname, hbyte, hopen, hopened, hrun, henv, hview, -, hpages,
    ⟨e', hp', hw'⟩,
    es', -, hinv⟩ := exists_incomplete_at 1 (show 0 < 8192 by norm_num)
  have hbase : BaseIs (Geometry.twoPages .shipped) (fun _ => some f) (baseImageName f 0) [] :=
    Or.inl ⟨baseImageName_eq_nil hname, rfl⟩
  have hdvd : pageSize ∣ (Geometry.twoPages .shipped).blockSize := by decide
  have hfd : ses'.s.fd = [1] := henv.fd.trans hopened.fd_eq
  have hone : ses.view 4096 = 1 := by
    rw [hopened.view hdvd, ← hbyte]
    rfl
  -- the second page is still protected, and the block has an entry
  obtain ⟨e, hp, hw⟩ := hopened.protected hdvd (v := 4096) (List.mem_singleton_self _)
    (List.mem_singleton_self _) List.not_mem_nil
  rw [← hpages _ (by decide)] at hp
  have hdiv : 4096 / (Geometry.twoPages .shipped).blockSize = 0 := by decide
  have hmod : 4096 % (Geometry.twoPages .shipped).blockSize / cowUnit * cowUnit = 4096 := by decide
  obtain ⟨mv, hmv, hnm⟩ := hinv.moved_of_protected hp' hw' hp hw hdiv
  rw [hdiv] at hmv
  rw [hmod] at hnm
  obtain ⟨ce, hce, -, rfl, htop', -⟩ := hinv.entry_of_moved hmv
  have hzero := (hinv.entry _ ce hce).zero 4096 (by decide) hnm
  -- opened again, the block is mapped as a whole
  have hfile : (ses'.fs [1]).getD .empty = ses'.file := by rw [Session.file, hfd]
  have hname' : baseImageName ses'.file 0 = baseImageName f 0 :=
    baseImageName_congr fun a ha => by
      rw [henv.kept a (Or.inr ha), Session.file, hopened.fd_eq, hopened.files]
      rfl
  have hfiles : ∀ p, p ≠ [1] → (ses'.fs p).getD .empty =
      ((fun _ => some f : Fs) p).getD .empty := by
    intro p hne
    rw [henv.files p (by rw [hopened.fd_eq]; exact hne), hopened.files]
  obtain ⟨ses'', hses'', hopened''⟩ := himage.isChain.reopen rfl himage.size_lt hbase hopen
    hinv.core.image.isChain hfile hinv.core.image.size_lt hfiles hname'
  refine ⟨fun _ => some f, ses, ses', ses'', _, himage, baseImageName_eq_nil hname, hopen, hrun,
    hses'', ?_, ?_⟩
  · rw [hview, Function.update_of_ne (by norm_num), hone]
  · rw [hfd] at htop'
    have hlast := hopened''.view_of_top hdvd htop' (x := 4096) (by decide)
    rw [Nat.zero_mul, Nat.zero_add] at hlast
    rw [hlast, Fs.byteOf, hfile, hzero]

end Pcow
