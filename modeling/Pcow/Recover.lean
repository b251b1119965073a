import Pcow.Crash
import Pcow.Freed

/-!
# Opening an image after a crash

Whatever a crash leaves of an image can be opened. `fmmap` looks at nothing but what is read back,
and that is a chain of layers in every state that can be reached (`Medium.Reachable.sound`), also
where a call was under way and has left bytes behind the last layer. So `fmmap` never fails on it,
and maps the blocks of the layers that are read back (`crash_reopens`). Where the structs that
`do_base_fmmap` has freed are still in place, it maps them over the blocks of a base.
-/

namespace Pcow

open MediumOp (CrashOf)

variable {kept : Bool} {cfg : Config} {g gb : Geometry cfg} {fs : Fs} {fd : Path} {f : ByteFile}
  {ls lb : List (List ℕ)} {es : List ℕ} {length offset : ℕ}

/-- On a file without layers `fmmap` fails. -/
theorem Holds.fmmap_nil (h : Holds g f []) (hf : (fs fd).getD .empty = f) :
    fmmapOn kept cfg fs fd length offset = .ok none := by
  rw [fmmapOn, Session.fmmapWith]
  simp only [hf, h.readFirstSuper_nil fd]

/-- **On a file that holds layers `fmmap` maps them**, over a base where freed structs keep their
contents. -/
theorem Holds.exists_fmmap (h : Holds g f (ls ++ [es])) (hf : (fs fd).getD .empty = f)
    (hbase : HasBase fs (baseImageName f 0) gb lb) (hkept : kept = false → lb = [])
    (hbs : gb.blockSize = g.blockSize) (hlen : g.LengthOk length offset) :
    ∃ ses, fmmapOn kept cfg fs fd length offset = .ok (some ses) ∧
      ses.Opened g fs fd ls es (gb.chainBindings (baseImageName f 0) 0 lb) length := by
  have heq : fmmapOn kept cfg fs fd length offset = Session.fmmap cfg fs fd length offset := by
    cases kept with
    | true => rw [fmmapOn_true]
    | false =>
      subst hf
      refine h.isChain.fmmapOn_eq h.size_lt ?_
      rcases hbase with ⟨hname, -⟩ | ⟨-, hread, -⟩ | ⟨-, hne, -⟩
      · exact Or.inl hname
      · exact Or.inr hread
      · exact absurd (hkept rfl) hne
  obtain ⟨fs', hmaps, -⟩ := hbase.baseMaps
  obtain ⟨ses, hses⟩ := h.isChain.exists_fmmap hf h.size_lt hlen hmaps
  exact ⟨ses, heq.trans hses, h.isChain.fmmap hf h.size_lt (hbase.baseIs hbs) hses⟩

/-- **Every state of an image can be opened**, those that crashes have left among them. Where
nothing is read back of the file `fmmap` fails, and does nothing else. Otherwise it opens the image
with every length, if it has no base, and what it maps are the blocks of the layers that are read
back: each page is in the block of the last entry for it, and can be written if this is an entry of
the last layer. Where freed structs keep their contents, it opens the image over a base as well,
whose layers come first. -/
theorem crash_reopens (cfg : Config) (fd : Path) (hfg : cfg.finegrainedCow = true) (st : Medium)
    (hst : st.Reachable cfg fd) :
    (readBack cfg st.file fd = .ok [] ∧ ∀ kept fs length offset, (fs fd).getD .empty = st.file →
      fmmapOn kept cfg fs fd length offset = .ok none) ∨
    ∃ (g : Geometry cfg) (ls : List (List ℕ)) (es : List ℕ),
      readBack cfg st.file fd = .ok ((supersOf g fd 0 (ls ++ [es])).zip (ls ++ [es])) ∧
      ∀ kept fs (gb : Geometry cfg) lb length offset, (fs fd).getD .empty = st.file →
        HasBase fs (baseImageName st.file 0) gb lb → (kept = false → lb = []) →
        gb.blockSize = g.blockSize → g.LengthOk length offset →
        ∃ ses, fmmapOn kept cfg fs fd length offset = .ok (some ses) ∧
          ∀ p, ses.pages p = (PageTable.lastOf
              (gb.chainBindings (baseImageName st.file 0) 0 lb ++ g.chainBindings fd 0 (ls ++ [es]))
              (p * pageSize / g.blockSize)).map fun y =>
            ⟨y.1, y.2 + p * pageSize % g.blockSize, decide (p * pageSize / g.blockSize ∈ es)⟩ := by
  obtain ⟨g, l, hsound⟩ := hst.sound hfg
  have hholds := hsound.holds
  have hread := hholds.readBack fd
  rcases List.eq_nil_or_concat l with rfl | ⟨ls, es, rfl⟩
  · exact Or.inl ⟨hread, fun kept fs length offset hf => hholds.fmmap_nil hf⟩
  · rw [List.concat_eq_append] at hholds hread
    refine Or.inr ⟨g, ls, es, hread, ?_⟩
    intro kept fs gb lb length offset hf hbase hkept hbs hlen
    obtain ⟨ses, hses, hopened⟩ := hholds.exists_fmmap hf hbase hkept hbs hlen
    refine ⟨ses, hses, fun p => ?_⟩
    rw [hopened.pages, place_lastOf]
    rfl

/-- A crash right after an image is created. -/
theorem crash_reopens_created : ∃ (st : Medium) (fs : Fs) (ses : Session),
    st.Reachable .shipped [1] ∧
    st.log = [] ∧ fs [1] = some st.file ∧ fmmapOn false .shipped fs [1] 8192 0 =
      .ok (some ses) := by
  have hr : newSuper Config.shipped .empty [1] 4096 1024 =
      .ok (newSuperOps Config.shipped 0 4096 1024,
        some ⟨[1], 4096, 1024, 0, 504, 0, 4096, ⟨4096, 0⟩, 0, 0⟩) := by decide +kernel
  have hread : readBack Config.shipped
      (FileOp.run (newSuperOps Config.shipped 0 4096 1024) .empty) [1] =
      .ok [(⟨[1], 4096, 1024, 0, 504, 0, 4096, ⟨4096, 0⟩, 0, 0⟩, [])] := by decide +kernel
  have hname : (FileOp.run (newSuperOps Config.shipped 0 4096 1024) .empty).byte 16 = 0 := by
    decide +kernel
  have hissue : Medium.Issues Config.shipped [1] ⟨.empty, [], none⟩ (.newSuper 4096 1024)
      (newSuperOps Config.shipped 0 4096 1024) :=
    @Medium.Issues.create Config.shipped [1] ⟨.empty, [], none⟩ 4096 1024 _ rfl (by decide)
      (by decide) hr
  let f : ByteFile := FileOp.run (newSuperOps Config.shipped 0 4096 1024) .empty
  have hfile : (Medium.issue ⟨.empty, [], none⟩ (newSuperOps Config.shipped 0 4096 1024)
      none).file = f :=
    Medium.file_issue
  have hst : Medium.Reachable .shipped [1] ⟨f, [], none⟩ :=
    (Relation.ReflTransGen.single (.call hissue)).tail (.crash (hfile ▸ MediumOp.crashOf_run))
  rcases crash_reopens .shipped [1] rfl ⟨f, [], none⟩ hst with ⟨hnil, -⟩ | ⟨g, ls, es, -, hopen⟩
  · rw [show Medium.file ⟨f, [], none⟩ = f from rfl, hread] at hnil
    cases hnil
  have hmap : g.mapLength 8192 = 8192 := if_neg (by norm_num)
  have hlen : g.LengthOk 8192 0 := by
    constructor
    · rw [hmap, regLen]
      norm_num
    · exact Nat.zero_le _
    · rw [hmap]
      norm_num
    · rw [hmap]
      exact ⟨2, rfl⟩
  obtain ⟨ses, hses, -⟩ := hopen false (fun _ => some f) g [] 8192 0 rfl
    (Or.inl ⟨baseImageName_eq_nil hname, rfl⟩) (fun _ => rfl) rfl hlen
  exact ⟨⟨f, [], none⟩, fun _ => some f, ses, hst, rfl, rfl, hses⟩

end Pcow
