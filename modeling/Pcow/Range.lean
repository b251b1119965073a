import Pcow.Bases
import Pcow.Flat
import Pcow.Frame

/-!
# The range of a session

`fmmap` reserves a range of the address space, and every mapping of a session is made with a fixed
address. The loops that map the layers take the addresses from the entries they read, and look at no
bound; `cow_handler` computes its bound from the length that `fmmap` was called with, which may be
0; and `fmunmap` computes the length of what it releases from the capacity of the image and not from
the length that was reserved, and compares the address it is called with to the start of the range,
which is not what `fmmap` returned if that was called with an offset. `Session.Inside` says that
nothing is mapped outside of the range: no call takes a mapping away, so that a call which maps
outside of it shows in the page table from then on.

`fmmap_inside_iff` says when all of this stays in the range: the entries of the image and of its
base name blocks of the range, the range has exactly the length of the capacity, and that is the
length `fmmap` was called with, without an offset.
-/

namespace Pcow

variable {cfg : Config} {g gb : Geometry cfg} {fs : Fs} {fd name : Path} {es : List ℕ}
  {ls lb : List (List ℕ)} {length offset n p : ℕ}

/-! ### Blocks of a range -/

/-- The pages of block `b` lie in the first `n` bytes if the block does. -/
theorem page_le_of_block {b : ℕ} (hdvd : pageSize ∣ n) (hp : p * pageSize / n = b) (hpos : 0 < n) :
    p * pageSize + pageSize ≤ b * n + n := by
  obtain ⟨k, rfl⟩ := hdvd
  have hlt : p * pageSize < b * (pageSize * k) + pageSize * k := by
    rw [← hp]
    exact Nat.lt_div_mul_add hpos
  have hlt' : p < b * k + k := by
    refine lt_of_mul_lt_mul_right (lt_of_lt_of_eq hlt ?_) (Nat.zero_le pageSize)
    ring
  calc p * pageSize + pageSize = (p + 1) * pageSize := by ring
    _ ≤ (b * k + k) * pageSize := Nat.mul_le_mul_right _ hlt'
    _ = b * (pageSize * k) + pageSize * k := by ring

/-- A page of a block lies in it. -/
theorem page_mod_le {k : ℕ} (hdvd : pageSize ∣ k) (hpos : 0 < k) (p : ℕ) :
    p * pageSize % k + pageSize ≤ k := by
  have h := page_le_of_block hdvd (p := p) rfl hpos
  have hmod := Nat.div_add_mod' (p * pageSize) k
  omega

/-- The last page of block `b`. -/
theorem exists_last_page (hdvd : pageSize ∣ n) (hpos : 0 < n) (b : ℕ) :
    ∃ p, p * pageSize / n = b ∧ p * pageSize + pageSize = b * n + n := by
  obtain ⟨k, rfl⟩ := hdvd
  obtain ⟨j, rfl⟩ : ∃ j, k = j + 1 := ⟨k - 1, by
    have : k ≠ 0 := by
      rintro rfl
      omega
    omega⟩
  refine ⟨b * (j + 1) + j, Nat.div_eq_of_lt_le ?_ ?_, by ring⟩
  · rw [show b * (pageSize * (j + 1)) = b * (j + 1) * pageSize by ring, Nat.add_mul]
    exact Nat.le_add_right _ _
  · rw [show (b + 1) * (pageSize * (j + 1)) = (b * (j + 1) + j) * pageSize + pageSize by ring]
    exact Nat.lt_add_of_pos_right (by decide)

/-! ### What is mapped after `fmmap` -/

theorem maps_readonlyCalls {l : List (ℕ × Path × ℕ)} (hpos : 0 < n) :
    (∃ o ∈ l.flatMap (readonlyCalls n), PageTable.Maps p o) ↔ ∃ x ∈ l, p * pageSize / n = x.1 := by
  constructor
  · rintro ⟨o, ho, hmaps⟩
    obtain ⟨x, hx, ho⟩ := List.mem_flatMap.mp ho
    rw [readonlyCalls, List.mem_cons, List.mem_singleton] at ho
    rcases ho with rfl | rfl
    · exact ⟨x, hx, (PageTable.inRange_block hpos).mp hmaps⟩
    · cases hmaps
  · rintro ⟨x, hx, hp⟩
    refine ⟨_, List.mem_flatMap.mpr ⟨x, hx, List.mem_cons_self⟩, ?_⟩
    exact (PageTable.inRange_block hpos).mpr hp

theorem maps_writableCalls {l : List (ℕ × Path × ℕ)} (hpos : 0 < n) :
    (∃ o ∈ l.flatMap fun x => [MapOp.mmap (x.1 * n) n x.2.1 x.2.2 true], PageTable.Maps p o) ↔
      ∃ x ∈ l, p * pageSize / n = x.1 := by
  constructor
  · rintro ⟨o, ho, hmaps⟩
    obtain ⟨x, hx, ho⟩ := List.mem_flatMap.mp ho
    rw [List.mem_singleton] at ho
    subst ho
    exact ⟨x, hx, (PageTable.inRange_block hpos).mp hmaps⟩
  · rintro ⟨x, hx, hp⟩
    refine ⟨_, List.mem_flatMap.mpr ⟨x, hx, List.mem_singleton_self _⟩, ?_⟩
    exact (PageTable.inRange_block hpos).mpr hp

/-- The blocks that a chain of layers binds are those with an entry. -/
theorem Geometry.exists_chainBindings {off b : ℕ} :
    (∃ x ∈ g.chainBindings fd off ls, b = x.1) ↔ b ∈ ls.flatten := by
  constructor
  · rintro ⟨x, hx, rfl⟩
    induction ls generalizing off with
    | nil => cases hx
    | cons e ls ih =>
      rw [Geometry.chainBindings, List.mem_append] at hx
      rw [List.flatten_cons, List.mem_append]
      rcases hx with hx | hx
      · obtain ⟨i, hi, rfl⟩ := Geometry.mem_bindings hx
        exact Or.inl (List.getElem_mem hi)
      · exact Or.inr (ih hx)
  · intro hb
    obtain ⟨e, he, hbe⟩ := List.mem_flatten.mp hb
    obtain ⟨x, hx, rfl⟩ := Geometry.exists_mem_chainBindings (g := g) he hbe
    exact ⟨x, hx, rfl⟩

/-- The pages that a session just opened has mapped: those of the blocks with an entry in a layer
of the image or of its base. -/
theorem chainSession_mapped {fs' : Fs} :
    (chainSession g fd ls es length
        (fs', (gb.walkBindings name lb).flatMap (readonlyCalls gb.blockSize))).pages p ≠ none ↔
      p * pageSize / gb.blockSize ∈ lb.flatten ∨
        p * pageSize / g.blockSize ∈ (ls ++ [es]).flatten := by
  have hown : p * pageSize / g.blockSize ∈ (ls ++ [es]).flatten ↔
      p * pageSize / g.blockSize ∈ ls.flatten ∨ ∃ x ∈ g.bindings fd (g.chainEnd 0 ls) es,
        p * pageSize / g.blockSize = x.1 := by
    rw [← @Geometry.exists_chainBindings cfg g fd ls 0, ← @Geometry.exists_chainBindings cfg g fd
      (ls ++ [es]) 0, g.chainBindings_concat]
    simp only [List.mem_append, or_and_right, exists_or]
  change PageTable.run _ _ p ≠ none ↔ _
  rw [PageTable.run_append, PageTable.run_ne_none, maps_writableCalls g.blockSize_pos,
    PageTable.run_append, PageTable.run_ne_none, maps_readonlyCalls g.blockSize_pos,
    g.exists_chainBindings, Geometry.run_walkBindings, PageTable.run_ne_none,
    maps_readonlyCalls gb.blockSize_pos, gb.exists_chainBindings, hown]
  simp only [ne_eq, not_true_eq_false, false_or, or_assoc]

/-! ### Staying inside -/

namespace Session

variable {ses ses' : Session} {v : ℕ}

/-- **Nothing is mapped outside of the range** that `fmmap` reserved. -/
def Inside (ses : Session) : Prop :=
  ∀ p, ses.pages p ≠ none → p * pageSize + pageSize ≤ ses.s.fmmapLength

/-- The length of what `fmunmap` releases. -/
def releasedLength (ses : Session) : ℕ := u64 (u64 ses.s.blockSize * ses.s.maxBlockNum)

/-- What `fmunmap` releases when it is called with the address at `ptr` of the range: where that
starts, and its length. It returns at once unless the address is `cur_s->addr`. -/
def released (ses : Session) (ptr : ℕ) : Option (ℕ × ℕ) :=
  if ptr ≠ 0 then none else some (ptr, ses.releasedLength)

/-- **What `cow_handler` maps lies in the range**, for every address that its check lets through:
it maps the block of the address, or a unit of it. -/
def ServesInside (ses : Session) : Prop :=
  ∀ v, v ≤ u64 (ses.globalLength - ses.s.blockSize) →
    v / u64 ses.s.blockSize * u64 ses.s.blockSize + u64 ses.s.blockSize ≤ ses.s.fmmapLength

/-- A fault in a range of whole blocks stays in it. -/
theorem Confined.inside (h : ses.Confined ses' v) (hin : ses.Inside)
    (hv : v < ses.s.fmmapLength) (hdvd : pageSize ∣ u64 ses.s.blockSize)
    (hpos : 0 < u64 ses.s.blockSize) (hwhole : u64 ses.s.blockSize ∣ ses.s.fmmapLength) :
    ses'.Inside := by
  intro p hp
  rw [h.super.fmmapLength]
  by_cases hblock : p * pageSize / u64 ses.s.blockSize = v / u64 ses.s.blockSize
  · refine le_trans (page_le_of_block hdvd hblock hpos) ?_
    obtain ⟨k, hk⟩ := hwhole
    rw [hk] at hv ⊢
    have hlt : v / u64 ses.s.blockSize < k := Nat.div_lt_of_lt_mul hv
    calc v / u64 ses.s.blockSize * u64 ses.s.blockSize + u64 ses.s.blockSize
        = u64 ses.s.blockSize * (v / u64 ses.s.blockSize + 1) := by ring
      _ ≤ u64 ses.s.blockSize * k := Nat.mul_le_mul_left _ hlt
  · exact hin p (by rwa [← h.pages p hblock])

/-- A step of a run, whatever is in the files. -/
theorem step_confined {op : GuestOp} {ev : Event} (hdvd : pageSize ∣ u64 ses.s.blockSize)
    (hpos : 0 < u64 ses.s.blockSize) (hop : op.Within (· < ses.s.fmmapLength))
    (hlen : 0 < ses.s.fmmapLength) (hr : ses.step cfg op = .ok (ses', ev)) :
    ∃ v < ses.s.fmmapLength, ses.Confined ses' v := by
  cases op with
  | load v n n' =>
    obtain ⟨r, -, hl⟩ := step_load hr
    exact ⟨v, hop, load_confined hdvd hpos hl⟩
  | store v x n n' =>
    obtain ⟨r, -, hs⟩ := step_store hr
    exact ⟨v, hop, store_confined hdvd hpos hs⟩
  | tick =>
    obtain ⟨-, ht⟩ := step_tick hr
    exact ⟨0, hlen, tick_confined ht⟩

/-- **A run in a range of whole blocks stays in it.** -/
theorem Inside.run (h : ses.Inside) {ops : List GuestOp} {evs : List Event}
    (hdvd : pageSize ∣ u64 ses.s.blockSize) (hpos : 0 < u64 ses.s.blockSize)
    (hwhole : u64 ses.s.blockSize ∣ ses.s.fmmapLength) (hlen : 0 < ses.s.fmmapLength)
    (hops : ∀ op ∈ ops, op.Within (· < ses.s.fmmapLength))
    (hr : ses.run cfg ops = .ok (ses', evs)) :
    ses'.Inside ∧ ses.s.SameFixed ses'.s ∧ ses'.globalLength = ses.globalLength := by
  induction ops generalizing ses evs with
  | nil =>
    cases hr
    exact ⟨h, .refl, rfl⟩
  | cons op ops ih =>
    obtain ⟨ses₁, ev, evs', hstep, hrun, -⟩ := run_cons hr
    obtain ⟨v, hv, hconf⟩ :=
      step_confined hdvd hpos (hops op List.mem_cons_self) hlen hstep
    have hs := hconf.super
    obtain ⟨h₁, h₂, h₃⟩ := ih (hconf.inside h hv hdvd hpos hwhole) (by rwa [hs.blockSize])
      (by rwa [hs.blockSize]) (by rwa [hs.blockSize, hs.fmmapLength])
      (by rwa [hs.fmmapLength]) (fun o ho => by
        rw [hs.fmmapLength]
        exact hops o (List.mem_cons_of_mem _ ho)) hrun
    exact ⟨h₁, hs.trans h₂, h₃.trans hconf.globalLength⟩

/-- **The session stays inside the range**: in every state that a run of the guest reaches, after
every fault there and after every call of `cow_handler`, for whatever address, nothing is mapped
outside of the range, and `fmunmap` of the pointer that `fmmap` has returned releases all of the
range and nothing else. -/
def StaysInside (cfg : Config) (ses : Session) (offset : ℕ) : Prop :=
  ∀ ops ses' evs, (∀ op ∈ ops, op.Within (· < ses.s.fmmapLength)) →
    ses.run cfg ops = .ok (ses', evs) →
    ses'.Inside ∧ ses'.released offset = some (0, ses.s.fmmapLength) ∧ ses'.ServesInside ∧
      (∀ v < ses.s.fmmapLength, ∀ n n' write ses'' fops,
        ses'.fault cfg n n' v write = .ok (ses'', fops) → ses''.Inside) ∧
      ∀ v n n' ses'' fops, ses'.cowHandler cfg n n' v = .ok (ses'', fops) → ses''.Inside

end Session

/-- **The entries and the length fit**: every entry names a block of the range, and the range has
the length of the capacity of the image, which is given to `fmmap` as such and with no offset. -/
structure Geometry.Fits (g gb : Geometry cfg) (ls lb : List (List ℕ)) (es : List ℕ)
    (length offset : ℕ) : Prop where
  length_ne : length ≠ 0
  offset_eq : offset = 0
  exact : (g.blockSize : ℤ) * g.maxBlockNum = length
  own : ∀ e ∈ (ls ++ [es]).flatten, e * g.blockSize + g.blockSize ≤ length
  base : ∀ e ∈ lb.flatten, e * gb.blockSize + gb.blockSize ≤ length

theorem Geometry.u64_mul_eq_iff (hlen : g.mapLength length ≤ regLen) :
    u64 ((g.blockSize : ℤ) * g.maxBlockNum) = g.mapLength length ↔
      (g.blockSize : ℤ) * g.maxBlockNum = g.mapLength length := by
  have hbs := g.blockSize_lt
  have hpos := g.blockSize_pos
  have hge := g.maxBlockNum_ge
  have hlt := g.maxBlockNum_lt
  have h₁ : (g.blockSize : ℤ) * g.maxBlockNum < 2 ^ 62 := by nlinarith
  have h₂ : -2 ^ 62 < (g.blockSize : ℤ) * g.maxBlockNum := by nlinarith
  generalize (g.blockSize : ℤ) * g.maxBlockNum = z at h₁ h₂
  generalize g.mapLength length = l at hlen
  have hlen' : l ≤ 549755813888 := hlen
  rw [u64]
  constructor
  · intro h
    omega
  · intro h
    omega

/-- The check of `cow_handler` bounds the block by the length that `fmmap` was called with, which
is that of the range unless it is 0: then the bound is negative, and stands for the end of the
address space. -/
theorem Session.servesInside_iff {ses : Session} (hbs : ses.s.blockSize = g.blockSize)
    (hglob : ses.globalLength = length) (hlen : ses.s.fmmapLength = g.mapLength length)
    (hle : g.mapLength length ≤ regLen)
    (hexact : (g.blockSize : ℤ) * g.maxBlockNum = g.mapLength length)
    (hpos : 0 < g.mapLength length) : ses.ServesInside ↔ length ≠ 0 := by
  have hlt := g.blockSize_lt
  have hgpos := g.blockSize_pos
  have hle' : g.mapLength length ≤ 549755813888 := hle
  have hu : u64 (g.blockSize : ℤ) = g.blockSize := u64_natCast (by omega)
  rw [ServesInside, hbs, hglob, hlen, hu]
  constructor
  · rintro hserves rfl
    -- the first address behind the range
    have hpass : g.mapLength 0 ≤ u64 ((0 : ℕ) - (g.blockSize : ℤ)) := by
      rw [u64]
      omega
    have hmod := Nat.div_add_mod' (g.mapLength 0) g.blockSize
    have hrem := Nat.mod_lt (g.mapLength 0) hgpos
    have hblock := hserves _ hpass
    omega
  · intro hne v hv
    rw [Geometry.mapLength, if_neg hne] at hexact hle' hpos ⊢
    have hcap : 0 < g.maxBlockNum := by
      by_contra hneg
      have hprod := mul_nonpos_of_nonneg_of_nonpos (Int.natCast_nonneg g.blockSize)
        (not_lt.mp hneg)
      omega
    have hblock : (g.blockSize : ℤ) ≤ length := by
      rw [← hexact]
      exact le_mul_of_one_le_right (Int.natCast_nonneg _) hcap
    have hdiv := Nat.div_mul_le_self v g.blockSize
    rw [u64] at hv
    omega

/-- **When a session stays inside its range.** For every image and every base it can name, of any
block size, and every length and offset `fmmap` accepts: all mappings of the session lie in the
range that was reserved and `fmunmap` releases this range exactly if the entries of both images
name blocks of the range, the length that `fmmap` is called with is the block size times the
capacity, and the offset is 0. -/
theorem fmmap_inside_iff (g gb : Geometry cfg) (fs : Fs) (fd : Path) (ls lb : List (List ℕ))
    (es : List ℕ) (length offset : ℕ) (ses : Session)
    (h : IsChain g ((fs fd).getD .empty) 0 (ls ++ [es]))
    (hf : ((fs fd).getD .empty).size < 2 ^ 63)
    (hbase : HasBase fs (baseImageName ((fs fd).getD .empty) 0) gb lb)
    (hdvd : pageSize ∣ g.blockSize) (hdvdb : pageSize ∣ gb.blockSize)
    (hopen : Session.fmmap cfg fs fd length offset = .ok (some ses)) :
    ses.StaysInside cfg offset ↔ g.Fits gb ls lb es length offset := by
  obtain ⟨fs', hmaps, -⟩ := hbase.baseMaps
  obtain ⟨hlen, x, hmaps', rfl⟩ := h.fmmap_ok rfl hf hopen
  rw [hmaps] at hmaps'
  cases hmaps'
  have hbs : u64 (g.blockSize : ℤ) = g.blockSize :=
    u64_natCast (by have := g.blockSize_lt; omega)
  constructor
  · intro hstay
    obtain ⟨hin, hrel, hserves, -⟩ := hstay [] _ [] (fun op hop => by cases hop) rfl
    rw [Session.released] at hrel
    split_ifs at hrel with hoff
    obtain ⟨-, hrel⟩ := Prod.mk.inj (Option.some.inj hrel)
    have hexact : (g.blockSize : ℤ) * g.maxBlockNum = g.mapLength length := by
      refine (Geometry.u64_mul_eq_iff hlen.le).mp ?_
      rw [← hbs]
      exact hrel
    have hne : length ≠ 0 :=
      (Session.servesInside_iff rfl rfl rfl hlen.le hexact hlen.pos).mp hserves
    have hmap : g.mapLength length = length := if_neg hne
    rw [hmap] at hexact
    refine ⟨hne, not_not.mp hoff, hexact, fun e he => ?_, fun e he => ?_⟩
    · obtain ⟨p, hp, hpe⟩ := exists_last_page hdvd g.blockSize_pos e
      rw [← hpe, ← hmap]
      exact hin p (chainSession_mapped.mpr (Or.inr (by rwa [hp])))
    · obtain ⟨p, hp, hpe⟩ := exists_last_page hdvdb gb.blockSize_pos e
      rw [← hpe, ← hmap]
      exact hin p (chainSession_mapped.mpr (Or.inl (by rwa [hp])))
  · rintro ⟨hne, rfl, hexact, hown, hbasein⟩
    have hmap : g.mapLength length = length := if_neg hne
    rw [← hmap] at hexact hown hbasein
    have hin : (chainSession g fd ls es length (fs', (gb.walkBindings
        (baseImageName ((fs fd).getD .empty) 0) lb).flatMap
          (readonlyCalls gb.blockSize))).Inside := by
      intro p hp
      rcases chainSession_mapped.mp hp with hb | hb
      · exact le_trans (page_le_of_block hdvdb rfl gb.blockSize_pos) (hbasein _ hb)
      · exact le_trans (page_le_of_block hdvd rfl g.blockSize_pos) (hown _ hb)
    have hdvd' : pageSize ∣ u64 (g.blockSize : ℤ) := by rwa [hbs]
    have hpos' : 0 < u64 (g.blockSize : ℤ) := by
      rw [hbs]
      exact g.blockSize_pos
    have hwhole : u64 (g.blockSize : ℤ) ∣ g.mapLength length := by
      rw [hbs]
      exact Int.natCast_dvd_natCast.mp ⟨g.maxBlockNum, hexact.symm⟩
    intro ops ses' evs hops hrun
    obtain ⟨hin', hsame, hglob⟩ := hin.run hdvd' hpos' hwhole hlen.pos hops hrun
    have hserves : ses'.ServesInside := (Session.servesInside_iff hsame.blockSize hglob
      hsame.fmmapLength hlen.le hexact hlen.pos).mpr hne
    refine ⟨hin', ?_, hserves, fun v hv n n' write ses'' fops hfault => ?_,
      fun v n n' ses'' fops hr => ?_⟩
    · rw [Session.released, if_neg (not_not.mpr rfl), Session.releasedLength, hsame.blockSize,
        hsame.maxBlockNum]
      change some (0, u64 ((u64 (g.blockSize : ℤ) : ℤ) * g.maxBlockNum)) =
        some (0, g.mapLength length)
      rw [hbs, (Geometry.u64_mul_eq_iff hlen.le).mpr hexact]
    · have hconf := Session.fault_confined (by rwa [hsame.blockSize]) (by rwa [hsame.blockSize])
        hfault
      exact hconf.inside hin' (by rwa [hsame.fmmapLength]) (by rwa [hsame.blockSize])
        (by rwa [hsame.blockSize]) (by rwa [hsame.blockSize, hsame.fmmapLength])
    · by_cases hpass : v > u64 (ses'.globalLength - ses'.s.blockSize)
      · rw [Session.cowHandler, if_pos hpass] at hr
        cases hr
        exact hin'
      · have hconf := Session.cowHandler_confined (by rwa [hsame.blockSize])
          (by rwa [hsame.blockSize]) hr
        have hblock := hserves v (not_lt.mp hpass)
        have hv : v < ses'.s.fmmapLength := by
          refine lt_of_lt_of_le (Nat.lt_div_mul_add ?_) hblock
          rwa [hsame.blockSize]
        exact hconf.inside hin' hv (by rwa [hsame.blockSize]) (by rwa [hsame.blockSize])
          (by rwa [hsame.blockSize, hsame.fmmapLength])

/-- A session on a frozen block, with the length of the capacity. -/
theorem fmmap_inside_full : ∃ (fs : Fs) (ses : Session),
    Session.fmmap .shipped fs [1] (8192 * 4096) 0 = .ok (some ses) ∧ ses.pages 0 ≠ none ∧
      ses.StaysInside .shipped 0 := by
  obtain ⟨f, -, himage, hname, -⟩ := exists_session .shipped 1
  obtain ⟨ses, hopen, hopened⟩ := IsImage.exists_fmmap (fun _ => some f) [1] himage hname
    (Geometry.lengthOk_of_pages (n := 4096) (by decide) (by decide))
  have hbase : HasBase (fun _ => some f) (baseImageName f 0) (Geometry.twoPages .shipped) [] :=
    Or.inl ⟨baseImageName_eq_nil hname, rfl⟩
  have hown : ∀ e ∈ ([[0]] ++ [[]] : List (List ℕ)).flatten, e * 8192 + 8192 ≤ 8192 * 4096 := by
    decide
  refine ⟨_, ses, hopen, ?_, (fmmap_inside_iff _ _ (fun _ => some f) [1] [[0]] [] [] _ 0 ses
    himage.isChain himage.size_lt hbase (by decide) (by decide) hopen).mpr
    ⟨by decide, rfl, by decide, hown, fun e he => by cases he⟩⟩
  obtain ⟨p, hp, -⟩ := hopened.protected (by decide) (v := 0) (List.mem_singleton_self _)
    (List.mem_singleton_self _) List.not_mem_nil
  rw [show (0 : ℕ) = 0 / pageSize from rfl, hp]
  exact Option.some_ne_none p

/-- **A range shorter than the capacity**: of the two blocks that were reserved, `fmunmap` releases
4096. -/
theorem fmmap_inside_short : ∃ (fs : Fs) (ses : Session),
    Session.fmmap .shipped fs [1] (8192 * 2) 0 = .ok (some ses) ∧
      ses.s.fmmapLength = 8192 * 2 ∧ ses.releasedLength = 8192 * 4096 ∧
      ¬ses.StaysInside .shipped 0 := by
  obtain ⟨f, ses, -, -, -, hopen, hopened, -⟩ := exists_session .shipped 1
  have hrel : ses.releasedLength = 8192 * 4096 := by
    rw [Session.releasedLength, hopened.super.blockSize, hopened.super.maxBlockNum]
    rfl
  have hlen : ses.s.fmmapLength = 8192 * 2 := hopened.fmmapLength
  refine ⟨_, ses, hopen, hlen, hrel, fun hstay => ?_⟩
  obtain ⟨-, h, -⟩ := hstay [] ses [] (fun op hop => by cases hop) rfl
  rw [Session.released, if_neg (not_not.mpr rfl), hrel, hlen] at h
  cases h

end Pcow
