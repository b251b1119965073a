import Pcow.Pages

/-!
# The range checks of the handlers

Both handlers look at the address of a fault first, and do nothing where they find it outside of the
range. `uf_monitor` takes the block of the address and compares it with the length of the range;
`cow_handler` takes the address as it is, but subtracts a block from the length all the same, and
the length is the one `fmmap` was called with, which may be zero.

So `cow_handler` refuses the last block of a range but for its first byte, and where it was called
with less than a block it refuses nothing; everywhere else the two agree with the range
(`rangeChecks_iff`). Addresses are numbers of 64 bits here, and `addr` is where the range begins.
-/

namespace Pcow

variable {cfg : Config} {g : Geometry cfg} {fs : Fs} {fd : Path} {ls : List (List ℕ)} {es : List ℕ}
  {length offset addr a v n n' : ℕ}

namespace Session

variable {ses ses' : Session}

/-- `cow_handler` finds the address in the range. -/
def CowChecks (ses : Session) (addr a : ℕ) : Prop :=
  ¬(a < addr ∨ u64 ((a : ℤ) - addr) > u64 (ses.globalLength - ses.s.blockSize))

/-- `uf_monitor` finds the block of the address in the range. -/
def UfChecks (ses : Session) (addr a : ℕ) : Prop :=
  u64 ((a : ℤ) - addr) / u64 ses.s.blockSize * u64 ses.s.blockSize ≤
    u64 (ses.s.fmmapLength - ses.s.blockSize)

theorem u64_offset (hv : addr + v < 2 ^ 64) : u64 (((addr + v : ℕ) : ℤ) - addr) = v := by
  have hsub : ((addr + v : ℕ) : ℤ) - addr = v := by
    push_cast
    ring
  rw [hsub, u64_natCast (by omega)]

/-- A fault that is refused changes nothing, and occurs again. -/
theorem cowHandler_of_not_cowChecks (hv : addr + v < 2 ^ 64) (h : ¬ses.CowChecks addr (addr + v)) :
    ses.cowHandler cfg n n' v = .ok (ses, []) := by
  rw [CowChecks, not_not, u64_offset hv] at h
  rw [cowHandler, if_pos (h.resolve_left (by omega))]

/-- The check of `uf_monitor` is made on the page of the fault. -/
theorem ufMonitor_of_not_ufChecks (hv : addr + v < 2 ^ 64)
    (h : ¬ses.UfChecks addr (addr + v / pageSize * pageSize)) :
    ses.ufMonitor cfg n n' v = .ok (ses, []) := by
  have hle := Nat.div_mul_le_self v pageSize
  rw [UfChecks, u64_offset (by omega)] at h
  rw [ufMonitor]
  exact if_neg h

/-! ### What the checks compare with stays -/

/-- `uf_monitor` keeps the values of the super block that are fixed. -/
theorem ufMonitor_sameFixed {ops : List FileOp} (hr : ses.ufMonitor cfg n n' v = .ok (ses', ops)) :
    ses.s.SameFixed ses'.s ∧ ses'.globalLength = ses.globalLength := by
  rcases ufMonitor_cases hr with ⟨rfl, -⟩ | ⟨s', r', nb, hnb, rfl⟩
  · exact ⟨.refl, rfl⟩
  · exact ⟨(newBlock_sameFixed hnb).1, rfl⟩

theorem copyMissing_sameFixed {dst aligned i : ℕ} {ops : List FileOp}
    (hr : ses.copyMissing cfg n n' dst aligned i = .ok (ses', ops)) :
    ses.s.SameFixed ses'.s ∧ ses'.globalLength = ses.globalLength := by
  obtain ⟨ses₂, ops₂, hmon, -, hses', -⟩ := copyMissing_ok hr
  generalize FileOp.memcpy dst (i * pageSize) (ses.source aligned) = ops₁ at hmon
  obtain ⟨hs, hglob⟩ := ufMonitor_sameFixed hmon
  rw [hses']
  exact ⟨hs, hglob⟩

/-- So does `cow_handler`. -/
theorem cowHandler_sameFixed {ops : List FileOp}
    (hr : ses.cowHandler cfg n n' v = .ok (ses', ops)) :
    ses.s.SameFixed ses'.s ∧ ses'.globalLength = ses.globalLength := by
  rcases cowHandler_cases hr with
    ⟨rfl, -⟩ | ⟨-, -, -, ses₁, le, ce, ops₁, ops₂, hins, -, hcopy⟩ | ⟨-, -, hplain⟩
  · exact ⟨.refl, rfl⟩
  · obtain ⟨hs, hglob, -⟩ := insertList_range hins
    rcases hcopy with ⟨-, hcopy⟩ | ⟨-, hcopy⟩
    · rw [copyUnit] at hcopy
      split_ifs at hcopy
      cases hcopy
      exact ⟨hs, hglob⟩
    · rcases copyWhole_cases hcopy with ⟨-, hblock⟩ | ⟨i, ses₂, ops₃, -, hmiss, rfl, -⟩
      · cases hblock
        exact ⟨hs, hglob⟩
      · obtain ⟨hs₂, hglob₂⟩ := copyMissing_sameFixed hmiss
        exact ⟨hs.trans hs₂, hglob₂.trans hglob⟩
  · obtain ⟨s', r', nb, ops₁, ses₁, hnb, rfl, hcases⟩ := copyPlain_cases hplain
    have hs := (newBlock_sameFixed hnb).1
    rcases hcases with ⟨-, rfl, -⟩ | ⟨i, ses₂, ops₂, -, hmiss, rfl, -⟩
    · exact ⟨hs, rfl⟩
    · obtain ⟨hs₂, hglob₂⟩ := copyMissing_sameFixed hmiss
      exact ⟨hs.trans hs₂, hglob₂⟩

/-- So does every step. -/
theorem Advances.sameFixed (h : ses.Advances cfg ses') :
    ses.s.SameFixed ses'.s ∧ ses'.globalLength = ses.globalLength := by
  cases h with
  | missing _ hr => exact ufMonitor_sameFixed hr
  | copy _ hr => exact cowHandler_sameFixed hr
  | write => exact ⟨.refl, rfl⟩
  | tick hr => exact ⟨(tick_ok hr).1, (tick_ok hr).2.1⟩

/-- So does every run. -/
theorem sameFixed_of_run (h : Relation.ReflTransGen (Advances cfg) ses ses') :
    ses.s.SameFixed ses'.s ∧ ses'.globalLength = ses.globalLength := by
  induction h with
  | refl => exact ⟨.refl, rfl⟩
  | tail _ hstep ih =>
    obtain ⟨hs, hglob⟩ := hstep.sameFixed
    exact ⟨ih.1.trans hs, hglob.trans ih.2⟩

end Session

/-! ### The checks and the range -/

/-- A difference of addresses: where it is negative, it is taken modulo `2 ^ 64`. -/
theorem u64_sub {x y : ℕ} (hx : x < 2 ^ 64) (hy : y < 2 ^ 64) :
    u64 ((x : ℤ) - y) = if y ≤ x then x - y else 2 ^ 64 + x - y := by
  rw [u64]
  split_ifs with h
  · rw [Int.emod_eq_of_lt (by omega) (by omega)]
    omega
  · rw [← Int.add_emod_right, Int.emod_eq_of_lt (by omega) (by omega)]
    omega

/-- **The address is none of those on which the check of `cow_handler` is wrong**: the last block of
the range but for its first byte, where a block or more was asked for, and otherwise all that is
outside of the range, but for the last addresses there are. -/
def Geometry.RightlyChecked (g : Geometry cfg) (length addr a : ℕ) : Prop :=
  a < addr ∨ (g.blockSize ≤ length ∧ ¬(length < a - addr + g.blockSize ∧ a - addr < length)) ∨
    (length < g.blockSize ∧
      (a - addr < g.mapLength length ∨ 2 ^ 64 + length < a - addr + g.blockSize))

section Checks

variable {ses : Session}

/-- What `cow_handler` checks, where a block or more was asked for. -/
theorem Session.cowChecks_of_le (hglob : ses.globalLength = length)
    (hbs : ses.s.blockSize = g.blockSize) (hlen : length ≤ regLen) (ha : a < 2 ^ 64)
    (hle : g.blockSize ≤ length) :
    ses.CowChecks addr a ↔ addr ≤ a ∧ a - addr + g.blockSize ≤ length := by
  have hreg : regLen = 549755813888 := rfl
  have hbound : u64 ((length : ℤ) - g.blockSize) = length - g.blockSize := by
    rw [u64_sub (by omega) (by omega), if_pos hle]
  rw [CowChecks, hglob, hbs, hbound, not_or, not_lt]
  refine and_congr_right fun hadd => ?_
  rw [u64_sub ha (by omega), if_pos hadd]
  omega

/-- What it checks otherwise: the bound is not below zero, but huge. -/
theorem Session.cowChecks_of_lt (hglob : ses.globalLength = length)
    (hbs : ses.s.blockSize = g.blockSize) (ha : a < 2 ^ 64) (hlt : length < g.blockSize) :
    ses.CowChecks addr a ↔ addr ≤ a ∧ a - addr + g.blockSize ≤ 2 ^ 64 + length := by
  have hbs' := g.blockSize_lt
  have hbound : u64 ((length : ℤ) - g.blockSize) = 2 ^ 64 + length - g.blockSize := by
    rw [u64_sub (by omega) (by omega), if_neg (by omega)]
  rw [CowChecks, hglob, hbs, hbound, not_or, not_lt]
  refine and_congr_right fun hadd => ?_
  rw [u64_sub ha (by omega), if_pos hadd]
  omega

/-- **`uf_monitor` finds the range**, if it is one of whole blocks. -/
theorem Session.ufChecks_iff {n : ℕ} (hn : ses.s.fmmapLength = n)
    (hbs : ses.s.blockSize = g.blockSize)
    (hlen : n ≤ regLen) (hpos : 0 < n) (hdvd : g.blockSize ∣ n) (haddr : addr + n ≤ 2 ^ 64)
    (ha : a < 2 ^ 64) : ses.UfChecks addr a ↔ addr ≤ a ∧ a < addr + n := by
  have hreg : regLen = 549755813888 := rfl
  have hbpos := g.blockSize_pos
  have hle := Nat.le_of_dvd hpos hdvd
  obtain ⟨m, rfl⟩ := hdvd
  have hblock : ∀ x : ℕ, x / g.blockSize * g.blockSize ≤ g.blockSize * m - g.blockSize ↔
      x < g.blockSize * m := by
    intro x
    have hmul : g.blockSize * m - g.blockSize = (m - 1) * g.blockSize := by
      rw [Nat.sub_mul, one_mul, Nat.mul_comm]
    rw [hmul, Nat.mul_le_mul_right_iff hbpos, Nat.mul_comm g.blockSize m,
      ← Nat.div_lt_iff_lt_mul hbpos]
    have hm : 0 < m := Nat.pos_of_mul_pos_left hpos
    omega
  have hbound : u64 (((g.blockSize * m : ℕ) : ℤ) - g.blockSize) =
      g.blockSize * m - g.blockSize := by
    rw [u64_sub (by omega) (by omega), if_pos hle]
  rw [UfChecks, hn, hbs, u64_natCast (by omega), hbound, u64_sub ha (by omega), hblock]
  split_ifs with h
  · omega
  · omega

end Checks

/-- **Which write faults `cow_handler` serves.** For every image, every length and offset `fmmap`
accepts, every state of the session, every place of the range and every address: `cow_handler` finds
the address in the range exactly if it lies there, and, for a range of whole blocks, exactly if
`uf_monitor` finds the block of the address there, if and only if the address is none of the last
block but its first, or, where `fmmap` was called with less than a block, lies in the range. -/
theorem rangeChecks_iff (g : Geometry cfg) (fs : Fs) (fd : Path) (ls : List (List ℕ)) (es : List ℕ)
    (length offset addr a : ℕ) (ses₀ ses : Session)
    (h : IsChain g ((fs fd).getD .empty) 0 (ls ++ [es]))
    (hf : ((fs fd).getD .empty).size < 2 ^ 63)
    (hopen : Session.fmmap cfg fs fd length offset = .ok (some ses₀))
    (hrun : Relation.ReflTransGen (Session.Advances cfg) ses₀ ses)
    (haddr : addr + g.mapLength length ≤ 2 ^ 64) (ha : a < 2 ^ 64) :
    ((ses.CowChecks addr a ↔ addr ≤ a ∧ a < addr + g.mapLength length) ∧
      (g.blockSize ∣ g.mapLength length → (ses.CowChecks addr a ↔ ses.UfChecks addr a))) ↔
      g.RightlyChecked length addr a := by
  obtain ⟨hlen, x, -, rfl⟩ := h.fmmap_ok rfl hf hopen
  obtain ⟨hfixed, hglob⟩ := Session.sameFixed_of_run hrun
  have hbs : ses.s.blockSize = g.blockSize := hfixed.blockSize
  have hn : ses.s.fmmapLength = g.mapLength length := hfixed.fmmapLength
  replace hglob : ses.globalLength = length := hglob
  -- the second check says the same as the range, so that one of the two equivalences is left
  have huf : g.blockSize ∣ g.mapLength length →
      (ses.UfChecks addr a ↔ addr ≤ a ∧ a < addr + g.mapLength length) := fun hdvd =>
    Session.ufChecks_iff hn hbs hlen.le hlen.pos hdvd haddr ha
  have hboth : ((ses.CowChecks addr a ↔ addr ≤ a ∧ a < addr + g.mapLength length) ∧
      (g.blockSize ∣ g.mapLength length → (ses.CowChecks addr a ↔ ses.UfChecks addr a))) ↔
      (ses.CowChecks addr a ↔ addr ≤ a ∧ a < addr + g.mapLength length) :=
    ⟨And.left, fun h => ⟨h, fun hdvd => h.trans (huf hdvd).symm⟩⟩
  rw [hboth]
  have hpos := g.blockSize_pos
  rcases Nat.lt_or_ge length g.blockSize with hlt | hge
  · have hle : g.mapLength length ≤ 549755813888 := hlen.le
    have hbs' := g.blockSize_lt
    rw [Session.cowChecks_of_lt hglob hbs ha hlt, Geometry.RightlyChecked]
    omega
  · have hmap : g.mapLength length = length := by
      rw [Geometry.mapLength, if_neg (by omega)]
    have hreg := hlen.le
    rw [hmap] at hreg
    rw [Session.cowChecks_of_le hglob hbs hreg ha hge, Geometry.RightlyChecked, hmap]
    omega

/-- The first page of a range of two blocks. -/
theorem rangeChecks_first : ∃ (fs : Fs) (ses : Session),
    IsChain (Geometry.twoPages .shipped) ((fs [1]).getD .empty) 0 ([[0]] ++ [[]]) ∧
      Session.fmmap .shipped fs [1] (8192 * 2) 0 = .ok (some ses) ∧
      ses.CowChecks 4096 4196 ∧ ses.UfChecks 4096 4196 := by
  obtain ⟨f, ses, himage, -, -, hopen, -⟩ := exists_session .shipped 0
  have hright : (Geometry.twoPages .shipped).RightlyChecked (8192 * 2) 4096 4196 :=
    Or.inr (Or.inl (by decide))
  obtain ⟨hcow, huf⟩ := (rangeChecks_iff _ (fun _ => some f) [1] [[0]] [] (8192 * 2) 0 4096 4196 ses
    ses himage.isChain himage.size_lt hopen .refl (by decide) (by decide)).mpr hright
  have hin : ses.CowChecks 4096 4196 := hcow.mpr (by decide)
  exact ⟨fun _ => some f, ses, himage.isChain, hopen, hin, (huf (by decide)).mp hin⟩

/-- **The second byte of the last block**: `cow_handler` does nothing, although `uf_monitor` would
serve a fault there, and the guest faults for ever. -/
theorem rangeChecks_last : ∃ (fs : Fs) (ses : Session),
    IsChain (Geometry.twoPages .shipped) ((fs [1]).getD .empty) 0 ([[0]] ++ [[]]) ∧
      Session.fmmap .shipped fs [1] (8192 * 2) 0 = .ok (some ses) ∧ ses.s.fmmapLength = 8192 * 2 ∧
      ¬ses.CowChecks 4096 (4096 + 8193) ∧ ses.UfChecks 4096 (4096 + 8193) ∧
      ses.cowHandler .shipped 0 0 8193 = .ok (ses, []) := by
  obtain ⟨f, ses, himage, -, -, hopen, hopened, -⟩ := exists_session .shipped 0
  have hbs : ses.s.blockSize = (Geometry.twoPages .shipped).blockSize := hopened.super.blockSize
  have hlen : ses.s.fmmapLength = 8192 * 2 := hopened.fmmapLength
  have hnot : ¬ses.CowChecks 4096 (4096 + 8193) := by
    rw [Session.cowChecks_of_le hopened.globalLength hbs (by decide) (by decide) (by decide)]
    decide
  have huf : ses.UfChecks 4096 (4096 + 8193) :=
    (Session.ufChecks_iff hlen hbs (by decide) (by decide) (by decide) (by decide) (by decide)).mpr
      (by decide)
  exact ⟨fun _ => some f, ses, himage.isChain, hopen, hlen, hnot, huf,
    Session.cowHandler_of_not_cowChecks (by decide) hnot⟩

end Pcow
