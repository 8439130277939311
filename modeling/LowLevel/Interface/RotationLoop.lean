import LowLevel.Interface.ImagePicture
import LowLevel.Library.Unsigned
import Mathlib.Data.List.Nodup
import Mathlib.Data.List.Perm.Subperm
import Mathlib.Data.List.ProdSigma

/-!
# The accesses of the rotations

The loop of a transformation as the list of its accesses: for each row and column of the
result the index expression it stores to and the one it loads from. A transformation
that loads from different cells of the picture at different places of the result uses
every pixel once.
-/

set_option autoImplicit false

namespace LowLevel.Interface

open LowLevel.Library LowLevel.Program.ImageRotation

/-- What the transformations differ in: whether the result has the dimensions swapped, and
the source index for its row `i` and column `j`. -/
structure RotationLoop where
  swaps : Bool
  index (w h i j : ℕ) : Unsigned

namespace RotationLoop

variable (loop : RotationLoop) (source : Image)

/-- The image that the loop starts from. -/
def start : Image := initImage source.width source.height loop.swaps

/-- The rows and columns of the result in the order of the loop. -/
def places : List (ℕ × ℕ) :=
  List.range (loop.start source).height ×ˢ List.range (loop.start source).width

/-- The index stored to and the index loaded from at each place. -/
def accesses : List (Unsigned × Unsigned) :=
  (loop.places source).map fun ij =>
    (.add (.mul (.val ij.1) (.val (loop.start source).width)) (.val ij.2),
      loop.index source.width source.height ij.1 ij.2)

/-- Storing to the first index of each access what `source` holds at the second. -/
def perform : Image :=
  (loop.accesses source).foldl
    (fun img a => img.store (a.1.wrap (2 ^ 64)) (source.load (a.2.wrap (2 ^ 64))))
    (loop.start source)

end RotationLoop

def rotate90Loop : RotationLoop where
  swaps := true
  index w _ i j := .sub (.sub (.mul (.val w) (.add (.val j) (.val 1))) (.val 1)) (.val i)

def rotate90ReverseLoop : RotationLoop where
  swaps := true
  index w h i j := .add (.mul (.val w) (.sub (.sub (.val h) (.val 1)) (.val j))) (.val i)

def rotate180Loop : RotationLoop where
  swaps := false
  index w h i j := .add (.mul (.val w) (.sub (.sub (.val h) (.val 1)) (.val i)))
    (.sub (.sub (.val w) (.val 1)) (.val j))

def copyImageLoop : RotationLoop where
  swaps := false
  index w _ i j := .add (.mul (.val i) (.val w)) (.val j)

/-! ## The loops perform their accesses -/

/-- A loop in a loop runs over the pairs. -/
theorem foldl_product {α β γ : Type} (f : γ → α × β → γ) (l : List α) (l' : List β) (c : γ) :
    (l ×ˢ l').foldl f c = l.foldl (fun c a => l'.foldl (fun c b => f c (a, b)) c) c := by
  induction l generalizing c with
  | nil => rfl
  | cons a l ih => rw [List.product_cons, List.foldl_append, List.foldl_map, ih, List.foldl_cons]

/-- The stores leave the width of the image, so the row stride is the one at the start. -/
theorem foldl_store (f : ℕ → ℕ → Option Pixel) {img : Image} {w : ℕ} (hw : img.width = w)
    (l : List (ℕ × ℕ)) :
    l.foldl (fun img' ij => img'.store (add64 (mul64 ij.1 img'.width) ij.2) (f ij.1 ij.2)) img =
      l.foldl (fun img' ij => img'.store (add64 (mul64 ij.1 w) ij.2) (f ij.1 ij.2)) img := by
  induction l generalizing img with
  | nil => rfl
  | cons ij l ih =>
      rw [List.foldl_cons, List.foldl_cons, hw]
      exact ih hw

/-- The macro `ROATATE` as one loop over the pairs. -/
theorem roatate_eq (f : ℕ → ℕ → Option Pixel) (img : Image) :
    roatate f img = (List.range img.height ×ˢ List.range img.width).foldl
      (fun img' ij => img'.store (add64 (mul64 ij.1 img.width) ij.2) (f ij.1 ij.2)) img := by
  rw [← foldl_store f rfl, foldl_product]
  rfl

variable {source : Image}

/-- The loop, as the macro `ROATATE` has it. -/
theorem perform_eq (loop : RotationLoop) (source : Image) :
    loop.perform source =
      roatate (fun i j => source.load ((loop.index source.width source.height i j).wrap (2 ^ 64)))
        (loop.start source) := by
  rw [roatate_eq, RotationLoop.perform, RotationLoop.accesses, List.foldl_map]
  rfl

theorem rotate90_eq (source : Image) : rotate90 source = rotate90Loop.perform source :=
  (perform_eq rotate90Loop source).symm

theorem rotate90Reverse_eq (source : Image) :
    rotate90Reverse source = rotate90ReverseLoop.perform source :=
  (perform_eq rotate90ReverseLoop source).symm

theorem rotate180_eq (source : Image) : rotate180 source = rotate180Loop.perform source :=
  (perform_eq rotate180Loop source).symm

theorem copyImage_eq (source : Image) : copyImage source = copyImageLoop.perform source :=
  (perform_eq copyImageLoop source).symm

/-! ## Every index once -/

/-- The index of a pixel in its row does not wrap. -/
theorem exact_index {w h i j : ℕ} (hsize : w * h < 2 ^ 64) (hi : i < h) (hj : j < w) :
    (Unsigned.add (.mul (.val i) (.val w)) (.val j)).Exact (2 ^ 64) := by
  have hlt := index_lt hi hj
  obtain ⟨hw, hh⟩ := dims_lt hsize hi hj
  simp only [Unsigned.Exact, Unsigned.eval, ← Int.natCast_mul]
  exact ⟨⟨by omega, by omega, by omega⟩, by omega, by omega⟩

/-- Different cells have different indices. -/
theorem index_injective {w i j i' j' : ℕ} (hj : j < w) (hj' : j' < w)
    (h : i * w + j = i' * w + j') : i = i' ∧ j = j' := by
  have hdiv : ∀ {i j : ℕ}, j < w → (i * w + j) / w = i := by
    intro i j hj
    rw [Nat.mul_comm, Nat.mul_add_div (by omega), Nat.div_eq_of_lt hj, Nat.add_zero]
  have hi : i = i' := (hdiv hj).symm.trans ((congrArg (· / w) h).trans (hdiv hj'))
  subst hi
  exact ⟨rfl, Nat.add_left_cancel h⟩

/-- A list of as many numbers as there are below `n`, all different and below `n`. -/
theorem perm_range {l : List ℕ} {n : ℕ} (hnodup : l.Nodup) (hlength : l.length = n)
    (hlt : ∀ k ∈ l, k < n) : l.Perm (List.range n) := by
  have hsub : l.Subperm (List.range n) :=
    hnodup.subperm fun k hk => List.mem_range.mpr (hlt k hk)
  exact hsub.perm_of_length_le (by rw [List.length_range, hlength])

/-- The rows of a picture after each other are its indices in order. -/
theorem map_index (w h : ℕ) :
    (List.range h ×ˢ List.range w).map (fun ij => ij.1 * w + ij.2) = List.range (w * h) := by
  induction h with
  | zero => rfl
  | succ h ih =>
      have hrow : ([h] ×ˢ List.range w).map (fun ij => ij.1 * w + ij.2) =
          (List.range w).map (w * h + ·) := by
        rw [List.product_cons, List.nil_product, List.append_nil, List.map_map, Nat.mul_comm w h]
        rfl
      have hsplit : List.range (h + 1) ×ˢ List.range w =
          List.range h ×ˢ List.range w ++ [h] ×ˢ List.range w := by
        rw [List.range_succ]
        exact List.flatMap_append
      rw [hsplit, List.map_append, ih, hrow, Nat.mul_succ, List.range_add]

namespace RotationLoop

variable {loop : RotationLoop} {cell : ℕ × ℕ → ℕ × ℕ}

theorem mem_places {ij : ℕ × ℕ} : ij ∈ loop.places source ↔
    ij.1 < (loop.start source).height ∧ ij.2 < (loop.start source).width := by
  rw [places, ← Prod.mk.eta (p := ij), List.mem_product, List.mem_range, List.mem_range]

/-- The result has as many pixels as the source. -/
theorem start_size (loop : RotationLoop) (source : Image) :
    (loop.start source).width * (loop.start source).height = source.width * source.height := by
  unfold start initImage
  cases loop.swaps with
  | false => rfl
  | true => exact Nat.mul_comm _ _

/-- The stores of the loop do not wrap. -/
theorem exact_store (hsize : source.width * source.height < 2 ^ 64) {ij : ℕ × ℕ}
    (hij : ij ∈ loop.places source) :
    (Unsigned.add (.mul (.val ij.1) (.val (loop.start source).width)) (.val ij.2)).Exact
      (2 ^ 64) := by
  obtain ⟨hi, hj⟩ := mem_places.mp hij
  rw [← start_size loop source] at hsize
  exact exact_index hsize hi hj

/-- **Every index of the result** is stored to once. -/
theorem map_store (hsize : source.width * source.height < 2 ^ 64) :
    (loop.accesses source).map (fun a => a.1.wrap (2 ^ 64)) =
      List.range (source.width * source.height) := by
  rw [accesses, List.map_map, ← start_size loop source, ← map_index]
  refine List.map_congr_left fun ij hij => ?_
  obtain ⟨hwrap, -⟩ := Unsigned.wrap_eq (exact_store hsize hij)
  simp only [Unsigned.eval] at hwrap
  exact_mod_cast hwrap

/-- The loop loads the cell `cell ij` of the source for the place `ij` of the result: no
operation wraps around, and different places get different cells. -/
structure Loads (loop : RotationLoop) (source : Image) (cell : ℕ × ℕ → ℕ × ℕ) : Prop where
  exact : ∀ ij ∈ loop.places source,
    (loop.index source.width source.height ij.1 ij.2).Exact (2 ^ 64)
  eval_eq : ∀ ij ∈ loop.places source, (loop.index source.width source.height ij.1 ij.2).eval =
    (cell ij).1 * source.width + (cell ij).2
  row_lt : ∀ ij ∈ loop.places source, (cell ij).1 < source.height
  col_lt : ∀ ij ∈ loop.places source, (cell ij).2 < source.width
  injective : ∀ ij ∈ loop.places source, ∀ ij' ∈ loop.places source,
    cell ij = cell ij' → ij = ij'

/-- Where a place is loaded from. -/
theorem Loads.wrap_eq (h : Loads loop source cell) {ij : ℕ × ℕ} (hij : ij ∈ loop.places source) :
    (loop.index source.width source.height ij.1 ij.2).wrap (2 ^ 64) =
      (cell ij).1 * source.width + (cell ij).2 := by
  have hwrap := (Unsigned.wrap_eq (h.exact ij hij)).1
  rw [h.eval_eq ij hij] at hwrap
  exact_mod_cast hwrap

/-- **Every pixel of the source** is loaded once. -/
theorem Loads.map_load (h : Loads loop source cell) :
    ((loop.accesses source).map fun a => a.2.wrap (2 ^ 64)).Perm
      (List.range (source.width * source.height)) := by
  rw [accesses, List.map_map]
  refine perm_range (List.Nodup.map_on ?_ ?_) ?_ ?_
  · intro ij hij ij' hij' heq
    simp only [Function.comp_apply, h.wrap_eq hij, h.wrap_eq hij'] at heq
    obtain ⟨hrow, hcol⟩ := index_injective (h.col_lt ij hij) (h.col_lt ij' hij') heq
    exact h.injective ij hij ij' hij' (Prod.ext hrow hcol)
  · exact List.nodup_range.product List.nodup_range
  · rw [List.length_map, places, List.length_product, List.length_range, List.length_range,
      Nat.mul_comm, start_size]
  · intro k hk
    obtain ⟨ij, hij, rfl⟩ := List.mem_map.mp hk
    rw [Function.comp_apply, h.wrap_eq hij]
    exact index_lt (h.row_lt ij hij) (h.col_lt ij hij)

end RotationLoop

/-! ## The four transformations -/

/-- Every pixel comes from its own place. -/
theorem loads_copyImage (hsize : source.width * source.height < 2 ^ 64) :
    copyImageLoop.Loads source id where
  exact _ hij := by
    obtain ⟨hi, hj⟩ := RotationLoop.mem_places.mp hij
    exact exact_index hsize hi hj
  eval_eq _ _ := rfl
  row_lt _ hij := (RotationLoop.mem_places.mp hij).1
  col_lt _ hij := (RotationLoop.mem_places.mp hij).2
  injective _ _ _ _ := id

/-- Row `i` of the result is the column `i` of the source, counted from the right. -/
theorem loads_rotate90 (hsize : source.width * source.height < 2 ^ 64) :
    rotate90Loop.Loads source fun ij => (ij.2, source.width - (ij.1 + 1)) := by
  have hplace : ∀ ij ∈ rotate90Loop.places source, ij.1 < source.width ∧ ij.2 < source.height :=
    fun ij => RotationLoop.mem_places.mp
  have hrow : ∀ j, (source.width : ℤ) * (j + (1 : ℕ)) = j * source.width + source.width := by
    intro j
    push_cast
    ring
  constructor
  case exact =>
    intro ij hij
    obtain ⟨hi, hj⟩ := hplace ij hij
    obtain ⟨hw, hh⟩ := dims_lt hsize hj hi
    have hlt : ij.2 * source.width + (source.width - 1) < source.width * source.height :=
      index_lt hj (by omega)
    simp only [rotate90Loop, Unsigned.Exact, Unsigned.eval, hrow, ← Int.natCast_mul]
    omega
  case eval_eq =>
    intro ij hij
    obtain ⟨hi, hj⟩ := hplace ij hij
    simp only [rotate90Loop, Unsigned.eval, hrow]
    omega
  case row_lt => exact fun ij hij => (hplace ij hij).2
  case col_lt =>
    intro ij hij
    have := (hplace ij hij).1
    dsimp only
    omega
  case injective =>
    intro ij hij ij' hij' heq
    have hi := (hplace ij hij).1
    have hi' := (hplace ij' hij').1
    obtain ⟨hrow, hcol⟩ := Prod.mk.inj heq
    exact Prod.ext (by omega) hrow

/-- The row index that the other two rotations compute. -/
theorem exact_row_from_end {w h i : ℕ} (hsize : w * h < 2 ^ 64) (hw : 0 < w) (hi : i < h) :
    (Unsigned.mul (.val w) (.sub (.sub (.val h) (.val 1)) (.val i))).Exact (2 ^ 64) ∧
      (Unsigned.mul (.val w) (.sub (.sub (.val h) (.val 1)) (.val i))).eval =
        ((h - (i + 1) : ℕ) : ℤ) * w := by
  obtain ⟨hw, hh⟩ := dims_lt hsize hi hw
  have hlt : w * (h - (i + 1)) ≤ w * h := Nat.mul_le_mul_left w (Nat.sub_le h (i + 1))
  have heval : (h : ℤ) - (1 : ℕ) - i = ((h - (i + 1) : ℕ) : ℤ) := by omega
  simp only [Unsigned.Exact, Unsigned.eval, heval, ← Int.natCast_mul]
  rw [Nat.mul_comm w] at hlt ⊢
  refine ⟨⟨by omega, ⟨⟨by omega, by omega, by omega⟩, by omega, by omega⟩, by omega⟩, rfl⟩

/-- Row `i` of the result is the column `i` of the source, from its last row on. -/
theorem loads_rotate90Reverse (hsize : source.width * source.height < 2 ^ 64) :
    rotate90ReverseLoop.Loads source fun ij => (source.height - (ij.2 + 1), ij.1) := by
  have hplace : ∀ ij ∈ rotate90ReverseLoop.places source,
      ij.1 < source.width ∧ ij.2 < source.height := fun ij => RotationLoop.mem_places.mp
  constructor
  case exact =>
    intro ij hij
    obtain ⟨hi, hj⟩ := hplace ij hij
    obtain ⟨hw, hh⟩ := dims_lt hsize hj hi
    obtain ⟨hexact, heval⟩ := exact_row_from_end hsize (by omega) hj
    have hlt : (source.height - (ij.2 + 1)) * source.width + ij.1 < source.width * source.height :=
      index_lt (by omega) hi
    refine ⟨hexact, by simp only [Unsigned.Exact]; omega, ?_⟩
    rw [heval]
    simp only [Unsigned.eval, ← Int.natCast_mul]
    omega
  case eval_eq =>
    intro ij hij
    obtain ⟨hi, hj⟩ := hplace ij hij
    obtain ⟨-, heval⟩ := exact_row_from_end hsize (by omega) hj
    simp only [rotate90ReverseLoop, Unsigned.eval] at heval ⊢
    rw [heval]
  case row_lt =>
    intro ij hij
    have := (hplace ij hij).2
    dsimp only
    omega
  case col_lt => exact fun ij hij => (hplace ij hij).1
  case injective =>
    intro ij hij ij' hij' heq
    have hj := (hplace ij hij).2
    have hj' := (hplace ij' hij').2
    obtain ⟨hrow, hcol⟩ := Prod.mk.inj heq
    exact Prod.ext hcol (by omega)

/-- Rows and columns are counted from the end. -/
theorem loads_rotate180 (hsize : source.width * source.height < 2 ^ 64) :
    rotate180Loop.Loads source
      fun ij => (source.height - (ij.1 + 1), source.width - (ij.2 + 1)) := by
  have hplace : ∀ ij ∈ rotate180Loop.places source,
      ij.1 < source.height ∧ ij.2 < source.width := fun ij => RotationLoop.mem_places.mp
  constructor
  case exact =>
    intro ij hij
    obtain ⟨hi, hj⟩ := hplace ij hij
    obtain ⟨hw, hh⟩ := dims_lt hsize hi hj
    obtain ⟨hexact, heval⟩ := exact_row_from_end hsize (by omega) hi
    have hlt : (source.height - (ij.1 + 1)) * source.width + (source.width - (ij.2 + 1)) <
        source.width * source.height := index_lt (by omega) (by omega)
    refine ⟨hexact, by simp only [Unsigned.Exact, Unsigned.eval]; omega, ?_⟩
    rw [heval]
    simp only [Unsigned.eval, ← Int.natCast_mul]
    omega
  case eval_eq =>
    intro ij hij
    obtain ⟨hi, hj⟩ := hplace ij hij
    obtain ⟨-, heval⟩ := exact_row_from_end hsize (by omega) hi
    simp only [rotate180Loop, Unsigned.eval] at heval ⊢
    rw [heval]
    omega
  case row_lt =>
    intro ij hij
    have := (hplace ij hij).1
    dsimp only
    omega
  case col_lt =>
    intro ij hij
    have := (hplace ij hij).2
    dsimp only
    omega
  case injective =>
    intro ij hij ij' hij' heq
    obtain ⟨hi, hj⟩ := hplace ij hij
    obtain ⟨hi', hj'⟩ := hplace ij' hij'
    obtain ⟨hrow, hcol⟩ := Prod.mk.inj heq
    exact Prod.ext (by omega) (by omega)

end LowLevel.Interface
