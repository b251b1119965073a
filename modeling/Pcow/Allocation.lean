import Pcow.Create
import Pcow.Mapping

/-!
# What the allocator hands out is what reopening maps

A sequence of `new_block` calls advances incremental state: the counter and the
number of the active meta block, in memory and on the file. Reopening computes
offsets from these numbers by closed formulas. The two sides meet in `IsLayer`:
after any number of calls the file holds the layer with one entry for each call
(`newBlocks_isLayer`), and the mapping loops run over the entries of a layer.
-/

namespace Pcow

variable {cfg : Config} {g : Geometry cfg} {f f' : ByteFile} {fd : Path} {off : ℕ}
  {es : List ℕ} {s s' : Super}

/-- A sequence of `new_block(s, f₁) … new_block(s, fₖ)` calls: the file and the
super block after them, and the offsets they returned. -/
def newBlocks (cfg : Config) : ByteFile → Super → List ℕ →
    Except Fault (ByteFile × Super × List ℕ)
  | f, s, [] => .ok (f, s, [])
  | f, s, a :: as =>
    match newBlockPlain cfg f s a with
    | .error e => .error e
    | .ok (s', nb, ops) =>
      (newBlocks cfg (FileOp.run ops f) s' as).map fun r => (r.1, r.2.1, nb.blockOff :: r.2.2)

/-- **What a sequence of calls leaves**: the layer is longer by the entries of the
calls, and the offsets returned are those of its new data blocks. -/
theorem newBlocks_isLayer {as os : List ℕ} (h : IsLayer g f off es) (hf : f.size < 2 ^ 63)
    (hs : s.Is g off es.length) (hcap : es.length + as.length ≤ g.cap)
    (hv : ∀ a ∈ as, a / g.blockSize < 2 ^ 32) (hr : newBlocks cfg f s as = .ok (f', s', os)) :
    IsLayer g f' off (es ++ as.map (· / g.blockSize)) ∧ f'.size < 2 ^ 63 ∧
      os = (List.range as.length).map fun i => g.dataOff off (es.length + i) := by
  induction as generalizing f s es os with
  | nil =>
    simp only [newBlocks, Except.ok.injEq, Prod.mk.injEq] at hr
    obtain ⟨rfl, -, rfl⟩ := hr
    simpa using ⟨h, hf⟩
  | cons a as ih =>
    rw [List.length_cons] at hcap
    have hk : g.endOff off es.length < 2 ^ 63 := lt_of_le_of_lt h.size_le hf
    rw [newBlocks] at hr
    rcases hnb : newBlockPlain cfg f s a with e | ⟨s₁, nb, ops⟩
    · rw [hnb] at hr
      cases hr
    · have hend := (hs.room_of_newBlockPlain hk hnb).2
      obtain ⟨s₂, ops₂, heq, hs₂, -, happ, hsz⟩ :=
        h.newBlockPlain hf hs (by omega) hend a
      rw [g.blockOf_eq (hv a List.mem_cons_self)] at happ
      rw [hnb, Except.ok.injEq, Prod.mk.injEq, Prod.mk.injEq] at heq
      obtain ⟨rfl, rfl, rfl⟩ := heq
      rw [hnb] at hr
      simp only at hr
      rcases hrest : newBlocks cfg (FileOp.run ops f) s₁ as with e | ⟨f₁, s₃, os₁⟩
      · rw [hrest] at hr
        cases hr
      · rw [hrest, Except.map, Except.ok.injEq, Prod.mk.injEq, Prod.mk.injEq] at hr
        obtain ⟨rfl, rfl, rfl⟩ := hr
        obtain ⟨h₁, h₂, h₃⟩ := ih happ.layer (by rw [hsz]; exact max_lt hf hend)
          (by simpa using hs₂) (by simp; omega)
          (fun b hb => hv b (List.mem_cons_of_mem a hb)) hrest
        refine ⟨by simpa using h₁, h₂, ?_⟩
        rw [h₃, List.length_cons, List.range_succ_eq_map, List.map_cons, List.map_map]
        simp only [List.length_append, List.length_singleton, Function.comp_def, Nat.add_zero,
          Nat.succ_eq_add_one, Nat.add_assoc, Nat.add_comm 1]

/-- While the capacity is not reached and the file may grow, all calls return. -/
theorem exists_newBlocks {as : List ℕ} (h : IsLayer g f off es) (hf : f.size < 2 ^ 63)
    (hs : s.Is g off es.length) (hcap : es.length + as.length ≤ g.cap)
    (hv : ∀ a ∈ as, a / g.blockSize < 2 ^ 32)
    (hend : g.endOff off (es.length + as.length) < 2 ^ 63) :
    ∃ r, newBlocks cfg f s as = .ok r := by
  induction as generalizing f s es with
  | nil => exact ⟨_, rfl⟩
  | cons a as ih =>
    rw [List.length_cons] at hcap hend
    have hle : g.endOff off (es.length + 1) ≤ g.endOff off (es.length + (as.length + 1)) :=
      Geometry.blockAt_mono _ (Geometry.blocks_mono (by omega))
    obtain ⟨s₁, ops, heq, hs₁, -, happ, hsz⟩ :=
      h.newBlockPlain hf hs (by omega) (by omega) a
    rw [g.blockOf_eq (hv a List.mem_cons_self)] at happ
    obtain ⟨r, hr⟩ := ih happ.layer (by rw [hsz]; exact max_lt hf (by omega)) (by simpa using hs₁)
      (by simp; omega) (fun b hb => hv b (List.mem_cons_of_mem a hb))
      (by rw [List.length_append, List.length_singleton, Nat.add_assoc, Nat.add_comm 1]; exact hend)
    rw [newBlocks, heq]
    simp only [hr]
    exact ⟨_, rfl⟩

/-- The pairs a sequence of calls leaves in the layer, as the mapping loops
visit them. -/
theorem flatMap_entries {α : Type} {as os : List ℕ} (F : ℕ → ℕ → List α)
    (hal : ∀ a ∈ as, g.blockSize ∣ a)
    (hos : os = (List.range as.length).map fun i => g.dataOff off i) :
    ((List.range as.length).flatMap fun i =>
      F ((as.map (· / g.blockSize))[i]?.getD 0 * g.blockSize) (g.dataOff off i)) =
      (as.zip os).flatMap fun p => F p.1 p.2 := by
  have hzip : as.zip os = (List.range as.length).map fun i =>
      ((as.map (· / g.blockSize))[i]?.getD 0 * g.blockSize, g.dataOff off i) := by
    refine List.ext_getElem (by simp [hos]) fun i h₁ h₂ => ?_
    have hi : i < as.length := by simpa using h₂
    have hdiv : as[i] / g.blockSize * g.blockSize = as[i] :=
      Nat.div_mul_cancel (hal _ (List.getElem_mem hi))
    simp [hos, hi, hdiv]
  rw [hzip, List.flatMap_map]

/-- **What the allocator hands out is what reopening maps.** Starting from an
empty layer at any offset, a sequence of `new_block` calls that returned the
offsets `os` leaves a file on which the super block reads back and both mapping
functions map exactly the pairs of a fault offset and the offset returned for it,
in the order of the calls. The calls do return as long as the file may grow. -/
theorem newBlocks_reopen (g : Geometry cfg) (f : ByteFile) (fd : Path) (off : ℕ) (s : Super)
    (as : List ℕ) (hlayer : IsLayer g f off []) (hf : f.size < 2 ^ 63)
    (hs : readFirstSuper cfg f fd off = .ok (some s)) (hcap : as.length ≤ g.cap)
    (hal : ∀ a ∈ as, g.blockSize ∣ a ∧ a / g.blockSize < 2 ^ 32) :
    (g.endOff off as.length < 2 ^ 63 → ∃ r, newBlocks cfg f s as = .ok r) ∧
      ∀ f' s' os, newBlocks cfg f s as = .ok (f', s', os) →
        os.length = as.length ∧ ∃ t, readFirstSuper cfg f' fd off = .ok (some t) ∧
          doWritableFmmap cfg f' t =
            .ok ((as.zip os).flatMap fun p => [.mmap p.1 g.blockSize fd p.2 true]) ∧
          doReadonlyFmmap cfg f' t =
            .ok ((as.zip os).flatMap fun p =>
              [.mmap p.1 g.blockSize fd p.2 true, .mprotect p.1 g.blockSize false]) := by
  rw [hlayer.readFirstSuper hf fd, Except.ok.injEq, Option.some.injEq] at hs
  subst hs
  refine ⟨fun hend => exists_newBlocks hlayer hf superOf_is (by simpa using hcap)
    (fun a ha => (hal a ha).2) (by simpa using hend), fun f' s' os hr => ?_⟩
  obtain ⟨h₁, h₂, h₃⟩ := newBlocks_isLayer hlayer hf superOf_is (by simpa using hcap)
    (fun a ha => (hal a ha).2) hr
  simp only [List.nil_append, List.length_nil, Nat.zero_add] at h₁ h₃
  have hlen : (as.map (· / g.blockSize)).length = as.length := List.length_map _
  refine ⟨by simp [h₃], _, h₁.readFirstSuper h₂ fd, ?_, ?_⟩
  · rw [h₁.doWritableFmmap h₂ superOf_is, hlen]
    congr 1
    exact flatMap_entries
      (fun voff o => [MapOp.mmap voff g.blockSize fd o true]) (fun a ha => (hal a ha).1) h₃
  · rw [h₁.doReadonlyFmmap h₂ superOf_is, hlen]
    congr 1
    exact flatMap_entries
      (fun voff o => [MapOp.mmap voff g.blockSize fd o true, MapOp.mprotect voff g.blockSize false])
      (fun a ha => (hal a ha).1) h₃

/-- One call more in a layer than a segment of it has entries, so that the last one opens a
segment. -/
theorem newBlocks_reopen_segments :
    let g : Geometry Config.shipped := ⟨4096, 600, by decide, by decide, by decide, by decide⟩
    let f := FileOp.run (newSuperOps Config.shipped 0 4096 600) ByteFile.empty
    let as := (List.range 505).map fun i => (504 - i) * 4096
    g.perSeg = 504 ∧ ∃ f' s' os t,
      newBlocks Config.shipped f (superOf g [] 0 0) as = .ok (f', s', os) ∧
      os.length = 505 ∧ readFirstSuper Config.shipped f' [] 0 = .ok (some t) ∧
      doWritableFmmap Config.shipped f' t =
        .ok ((as.zip os).flatMap fun p => [.mmap p.1 4096 [] p.2 true]) := by
  intro g f as
  have hlayer : IsLayer g f 0 [] := isLayer_newSuperOps (g := g) (by decide) (by decide)
  have hf : f.size < 2 ^ 63 := by
    have hsz : f.size = max 0 (0 + 2 * 4096) :=
      size_run_newSuperOps (g := g) (f := ByteFile.empty) (by decide)
    rw [hsz]
    decide
  have hs : readFirstSuper Config.shipped f [] 0 = .ok (some (superOf g [] 0 0)) :=
    hlayer.readFirstSuper hf []
  have hlength : as.length = 505 := by rw [List.length_map, List.length_range]
  have hal : ∀ a ∈ as, g.blockSize ∣ a ∧ a / g.blockSize < 2 ^ 32 := by
    intro a ha
    obtain ⟨i, -, rfl⟩ := List.mem_map.mp ha
    refine ⟨Dvd.intro_left _ rfl, ?_⟩
    rw [Nat.mul_div_cancel _ g.blockSize_pos]
    omega
  obtain ⟨hret, hmap⟩ := newBlocks_reopen g f [] 0 (superOf g [] 0 0) as hlayer hf hs
    (by rw [hlength]; decide) hal
  obtain ⟨⟨f', s', os⟩, hr⟩ := hret (by rw [hlength]; decide)
  obtain ⟨hlen, t, ht, hw, -⟩ := hmap f' s' os hr
  exact ⟨by decide, f', s', os, t, hr, hlen.trans hlength, ht, hw⟩

end Pcow
