import Pcow.Lib.LayerStack
import Pcow.World

/-!
# What images are for

Images without their files. A volume is a stack of layers over a base, of which only the one on top
changes; a shelf is a set of volumes, of which some are open. This is what the tool and the machines
mean to work on, and `Shelf.Step` is what each operation is to do with it. A volume shows the stack
of its own layers over those of its base: `read` of `LayerStack`, with zeros where there is nothing.

A block is taken over by the layer on top when the guest stores to it, and when it loads from it and
there is nothing yet. Accesses are refused at the end of the range, where a whole block does not
fit.
-/

namespace Pcow

open LayerStack

/-! ### Volumes -/

/-- **An image as it is used**: its frozen layers, the first of them at the bottom, and the layer on
top. -/
structure Volume where
  /-- The size of the blocks the layer on top takes over. -/
  blockSize : ℕ
  /-- The number of blocks a layer can have. -/
  maxBlockNum : ℤ
  /-- The name of the base, or the empty name. -/
  base : Path
  /-- The frozen layers. -/
  frozen : List (Layer ℕ UInt8)
  /-- The layer on top. -/
  top : Layer ℕ UInt8

namespace Volume

/-- All layers. -/
def layers (w : Volume) : List (Layer ℕ UInt8) := w.frozen ++ [w.top]

/-- The length of the range a session has; for length 0 that of all blocks. -/
def rangeLength (w : Volume) (length : ℕ) : ℕ :=
  if length = 0 then u64 ((w.blockSize : ℤ) * w.maxBlockNum) else length

/-- A new volume. -/
def new (blockSize : ℕ) (maxBlockNum : ℤ) (base : Option CString) : Volume where
  blockSize
  maxBlockNum
  base := (base.map CString.chars).getD []
  frozen := []
  top := empty

/-- The layer on top is frozen. -/
def freeze (w : Volume) : Volume := { w with frozen := w.layers, top := empty }

/-- Layer `no`, counted from 1, is on top again; without such a layer nothing changes. -/
def cut (w : Volume) (no : ℤ) : Volume :=
  if 1 ≤ no then
    match w.frozen[(no - 1).toNat]? with
    | some l => { w with frozen := w.frozen.take (no - 1).toNat, top := l }
    | none => w
  else w

/-- The layer on top takes over the block of `v`, with the bytes `m`. -/
def fill (w : Volume) (m : ℕ → UInt8) (v : ℕ) : Volume :=
  { w with top := own (fun a => a / w.blockSize = v / w.blockSize) m w.top }

/-- A byte is put into the layer on top. -/
def put (w : Volume) (v : ℕ) (x : UInt8) : Volume :=
  { w with top := Function.update w.top v (some x) }

/-- What the volume shows over the layers of a base. -/
def shows (w : Volume) (under : List (Layer ℕ UInt8)) : ℕ → UInt8 := read 0 (under ++ w.layers)

variable {w : Volume} {under : List (Layer ℕ UInt8)} {v : ℕ}

theorem shows_eq : w.shows under = read 0 ((under ++ w.frozen) ++ [w.top]) := by
  rw [shows, layers, List.append_assoc]

/-- **Taking over a block is not seen.** -/
@[simp] theorem shows_fill : (w.fill (w.shows under) v).shows under = w.shows under := by
  rw [shows_eq, shows_eq]
  exact read_own _

/-- **A byte that is put is seen**, and nothing else changes. -/
@[simp] theorem shows_put {x : UInt8} :
    (w.put v x).shows under = Function.update (w.shows under) v x := by
  rw [shows_eq, shows_eq]
  exact read_put v x

/-- **Freezing is not seen.** -/
@[simp] theorem shows_freeze : w.freeze.shows under = w.shows under := by
  rw [shows, layers, freeze, ← List.append_assoc]
  exact read_concat_empty

@[simp] theorem layers_freeze : w.freeze.layers = w.layers ++ [empty] := rfl

/-- A layer below the top is on top again. -/
theorem cut_getElem {k : ℕ} (h : k < w.frozen.length) :
    w.cut (k + 1 : ℕ) = { w with frozen := w.frozen.take k, top := w.frozen[k] } := by
  rw [cut, if_pos (by omega), show (((k + 1 : ℕ) : ℤ) - 1).toNat = k by omega,
    List.getElem?_eq_getElem h]

theorem cut_of_not {no : ℤ} (h : ¬(1 ≤ no ∧ no ≤ w.frozen.length)) : w.cut no = w := by
  rw [cut]
  split
  · rw [List.getElem?_eq_none (by omega)]
  · rfl

/-- Cutting takes layers off. -/
theorem layers_cut {k : ℕ} (h : k < w.layers.length) :
    (w.cut (k + 1 : ℕ)).layers = w.layers.take (k + 1) := by
  rw [layers, List.length_append, List.length_singleton] at h
  rcases Nat.lt_or_ge k w.frozen.length with hlt | hge
  · rw [cut_getElem hlt, layers, layers, List.take_append_of_le_length hlt,
      ← List.take_append_getElem hlt]
  · rw [cut_of_not (by omega), List.take_of_length_le]
    rw [layers, List.length_append, List.length_singleton]
    omega

/-- **An access of the guest**, or an iteration of the allocator thread, in a range of `len`
bytes. -/
inductive Access (under : List (Layer ℕ UInt8)) (len : ℕ) (w : Volume) :
    GuestOp → Event → Volume → Prop
  /-- A load returns what the volume shows; the block is taken over if there is nothing yet. -/
  | load (v n n' : ℕ) : Access under len w (.load v n n') (.loaded v (some (w.shows under v)))
      (if look (under ++ w.layers) v = none then w.fill (w.shows under) v else w)
  /-- A load at the end of the range does not come to an end. -/
  | noLoad (v n n' : ℕ) (h : len < v + w.blockSize) :
      Access under len w (.load v n n') (.loaded v none) w
  /-- A store takes over the block, and puts the byte. -/
  | store (v : ℕ) (x : UInt8) (n n' : ℕ) :
      Access under len w (.store v x n n') (.stored v x true) ((w.fill (w.shows under) v).put v x)
  /-- A store at the end of the range does not come to an end. -/
  | noStore (v : ℕ) (x : UInt8) (n n' : ℕ) (h : len < v + w.blockSize) :
      Access under len w (.store v x n n') (.stored v x false) w
  /-- An iteration of the allocator thread does nothing. -/
  | tick : Access under len w .tick .ticked w

/-- **An access is an event of the byte array the volume shows.** -/
theorem Access.shows {len : ℕ} {op : GuestOp} {ev : Event} {w' : Volume}
    (h : Access under len w op ev w') :
    Flat.Ok (w.shows under) ev ∧ w'.shows under = Flat.apply (w.shows under) ev := by
  cases h with
  | load v n n' =>
    refine ⟨rfl, ?_⟩
    split_ifs
    · exact shows_fill
    · rfl
  | noLoad v n n' h => exact ⟨trivial, rfl⟩
  | store v x n n' => exact ⟨trivial, by rw [shows_put, shows_fill]; rfl⟩
  | noStore v x n n' h => exact ⟨trivial, rfl⟩
  | tick => exact ⟨trivial, rfl⟩

end Volume

/-! ### Shelves -/

/-- The volumes, and the lengths of the ranges of those that are open. -/
structure Shelf where
  volumes : Path → Option Volume
  opened : Path → Option ℕ

namespace Shelf

/-- Nothing is there yet. -/
def init : Shelf := ⟨fun _ => none, fun _ => none⟩

/-- The layers of a base. -/
def under (sh : Shelf) (base : Path) : List (Layer ℕ UInt8) :=
  if base = [] then [] else ((sh.volumes base).map Volume.layers).getD []

/-- **What a volume shows**: its own layers over those of its base. -/
def shows (sh : Shelf) (w : Volume) : ℕ → UInt8 := w.shows (sh.under w.base)

/-- The shelf with this volume under the name. -/
def put (sh : Shelf) (name : Path) (w : Volume) : Shelf :=
  { sh with volumes := Function.update sh.volumes name (some w) }

/-- The calls of the tool on an image that has to be there. -/
def NeedsVolume (name : Path) : WorldOp → Prop
  | .updateBaseImage q _ => q = name
  | .snapshot q => q = name
  | .rollbackSnapshot q _ => q = name
  | _ => False

/-- **One operation.** -/
inductive Step (sh : Shelf) : WorldOp → Answer → Shelf → Prop
  /-- `new_image` makes a volume with an empty layer. -/
  | create {name : Path} {blockSize m : ℤ} {maxSize n : ℕ} {base : Option CString}
      (hnone : sh.volumes name = none) (hn : (n : ℤ) = i32 (blockSize * 1024))
      (hm : m = i32 (u64 (maxSize * 1024 * 1024) / u64 blockSize : ℕ)) :
      Step sh (.newImage name blockSize maxSize base) (.returned 0) (sh.put name (.new n m base))
  /-- `new_image` fails where there is a volume. -/
  | taken {name : Path} {blockSize : ℤ} {maxSize : ℕ} {base : Option CString} {w : Volume}
      (hw : sh.volumes name = some w) :
      Step sh (.newImage name blockSize maxSize base) (.returned (-1)) sh
  /-- The other calls of the tool fail where there is none. -/
  | missing {name : Path} {op : WorldOp} (hop : NeedsVolume name op)
      (hnone : sh.volumes name = none) : Step sh op (.returned (-1)) sh
  /-- `update_base_image` gives the volume another base. -/
  | rebase {name : Path} {base : CString} {w : Volume} (hw : sh.volumes name = some w) :
      Step sh (.updateBaseImage name base) (.returned 0) (sh.put name { w with base := base.chars })
  /-- `snapshot` freezes the layer on top. -/
  | freeze {name : Path} {w : Volume} (hw : sh.volumes name = some w) :
      Step sh (.snapshot name) (.returned 0) (sh.put name w.freeze)
  /-- `rollback_snapshot` cuts the volume. -/
  | cut {name : Path} {no : ℤ} {w : Volume} (hw : sh.volumes name = some w) :
      Step sh (.rollbackSnapshot name no) (.returned 0) (sh.put name (w.cut no))
  /-- `fmmap` opens the volume, if its base has no base. -/
  | opens {name : Path} {length offset : ℕ} {w : Volume} (hw : sh.volumes name = some w)
      (hlen : w.rangeLength length ≤ regLen) (hoff : offset ≤ w.rangeLength length)
      (hbase : ∀ w₀, w.base ≠ [] → sh.volumes w.base = some w₀ → w₀.base = []) :
      Step sh (.fmmap name length offset) .mapped
        { sh with opened := Function.update sh.opened name (some (w.rangeLength length)) }
  /-- `fmmap` fails where there is no volume, the range is too long or the offset lies
  outside. -/
  | refused {name : Path} {length offset : ℕ}
      (h : ∀ w, sh.volumes name = some w →
        regLen < w.rangeLength length ∨ w.rangeLength length < offset) :
      Step sh (.fmmap name length offset) .failed sh
  /-- A machine makes a step. -/
  | guest {name : Path} {op : GuestOp} {ev : Event} {len : ℕ} {w w' : Volume}
      (hopen : sh.opened name = some len) (hw : sh.volumes name = some w)
      (h : w.Access (sh.under w.base) len op ev w') :
      Step sh (.guest name op) (.event ev) (sh.put name w')
  /-- A machine closes its volume. -/
  | closes {name : Path} {len : ℕ} (hopen : sh.opened name = some len) :
      Step sh (.fmunmap name) (.returned 0)
        { sh with opened := Function.update sh.opened name none }

/-- A run. -/
inductive Run : Shelf → List WorldOp → List Answer → Shelf → Prop
  /-- No operation. -/
  | nil (sh : Shelf) : Run sh [] [] sh
  /-- One more at the start. -/
  | cons {sh sh' sh'' : Shelf} {op : WorldOp} {ops : List WorldOp} {r : Answer} {rs : List Answer}
      (hstep : Step sh op r sh') (hrun : Run sh' ops rs sh'') : Run sh (op :: ops) (r :: rs) sh''

end Shelf

end Pcow
