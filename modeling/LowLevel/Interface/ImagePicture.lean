import LowLevel.Library.Picture
import LowLevel.Program.ImageRotation
import Mathlib.Tactic.Ring
import Mathlib.Tactic.NormNum

/-!
# The rotations on pictures

An image is a picture: row `i`, column `j` is the pixel at index `i * width + j`. The loop
of the rotations fills the picture from the source index it is given, and the source
indices of the three rotations are those of one, two and three quarter turns, with no
wrap-around when `width * height` is below `2 ^ 64`.
-/

set_option autoImplicit false

namespace LowLevel.Interface

open LowLevel.Library LowLevel.Program.ImageRotation

/-- The picture of an image. -/
def picture (img : Image) : Picture (Option Pixel) :=
  ⟨img.height, img.width, fun i j => img.load (i * img.width + j)⟩

/-- Same dimensions and the same pixels. -/
structure SameImage (img img' : Image) : Prop where
  width_eq : img.width = img'.width
  height_eq : img.height = img'.height
  load_eq : ∀ k < img.width * img.height, img.load k = img'.load k

/-- The pixels of an image are those of its picture. -/
theorem sameImage_of_picture_eq {img img' : Image} (h : picture img = picture img') :
    SameImage img img' := by
  obtain ⟨w, ht, data⟩ := img
  obtain ⟨w', ht', data'⟩ := img'
  simp only [picture, Picture.mk.injEq] at h
  obtain ⟨rfl, rfl, hcell⟩ := h
  refine ⟨rfl, rfl, fun k hk => ?_⟩
  dsimp only at hk
  have hw : 0 < w := Nat.pos_of_mul_pos_right (Nat.zero_lt_of_lt hk)
  have hrow : k / w < ht := Nat.div_lt_of_lt_mul hk
  have hcol : k % w < w := Nat.mod_lt k hw
  have := congrFun (congrFun (eq_of_heq hcell) ⟨k / w, hrow⟩) ⟨k % w, hcol⟩
  dsimp only at this
  rwa [Nat.div_add_mod'] at this

/-! ## The loop -/

/-- The index of a pixel of a row does not wrap. -/
theorem index_lt {w h i j : ℕ} (hi : i < h) (hj : j < w) :
    i * w + j < w * h := by
  calc i * w + j < i * w + w := by omega
    _ = (i + 1) * w := by ring
    _ ≤ h * w := Nat.mul_le_mul_right w hi
    _ = w * h := Nat.mul_comm h w

theorem add64_mul64 {w h i j : ℕ} (hsize : w * h < 2 ^ 64) (hi : i < h) (hj : j < w) :
    add64 (mul64 i w) j = i * w + j := by
  have hlt := index_lt hi hj
  unfold add64 mul64
  rw [Nat.mod_eq_of_lt (a := i * w) (by omega), Nat.mod_eq_of_lt (by omega)]

/-- An image that differs from `img` in its pixels only, which are `cells`. -/
structure Filled (img img' : Image) (cells : ℕ → Option Pixel) : Prop where
  width_eq : img'.width = img.width
  height_eq : img'.height = img.height
  bytes_eq : img'.data.bytes = img.data.bytes
  load_eq : ∀ k, img'.load k = cells k

/-- **One row** of the loop: the first `n` columns of row `i` are stored to. -/
theorem filled_row {f : ℕ → ℕ → Option Pixel} {img : Image} {i n : ℕ}
    (hsize : img.width * img.height < 2 ^ 64) (hi : i < img.height) (hn : n ≤ img.width) :
    Filled img ((List.range n).foldl
      (fun img' j => img'.store (add64 (mul64 i img'.width) j) (f i j)) img)
      fun k => if i * img.width ≤ k ∧ k < i * img.width + n then f i (k - i * img.width)
        else img.load k := by
  induction n with
  | zero => exact ⟨rfl, rfl, rfl, fun k => by rw [if_neg (by omega)]; rfl⟩
  | succ n ih =>
      have ih := ih (by omega)
      rw [List.range_succ, List.foldl_append, List.foldl_cons, List.foldl_nil]
      set img' := (List.range n).foldl
        (fun img' j => img'.store (add64 (mul64 i img'.width) j) (f i j)) img
      have hindex : add64 (mul64 i img'.width) n = i * img.width + n := by
        rw [ih.width_eq]
        exact add64_mul64 hsize hi (by omega)
      refine ⟨ih.width_eq, ih.height_eq, ih.bytes_eq, fun k => ?_⟩
      rw [hindex]
      show Function.update img'.data.cells (i * img.width + n) (f i n) k = _
      by_cases hk : k = i * img.width + n
      · rw [hk, Function.update_self, if_pos (by omega), Nat.add_sub_cancel_left]
      · rw [Function.update_of_ne hk]
        have hload := ih.load_eq k
        unfold Image.load at hload
        rw [hload]
        by_cases hin : i * img.width ≤ k ∧ k < i * img.width + n
        · rw [if_pos hin, if_pos (by omega)]
        · rw [if_neg hin, if_neg (by omega)]
          rfl

/-- **The loop**: every index below `width * height` is stored to, the others are not. -/
theorem filled_roatate (f : ℕ → ℕ → Option Pixel) {img : Image}
    (hsize : img.width * img.height < 2 ^ 64) :
    Filled img (roatate f img) fun k =>
      if k < img.width * img.height then f (k / img.width) (k % img.width) else img.load k := by
  suffices hrows : ∀ m ≤ img.height, Filled img ((List.range m).foldl (fun img' i =>
      (List.range img.width).foldl (fun img' j =>
        img'.store (add64 (mul64 i img'.width) j) (f i j)) img') img)
      fun k => if k < img.width * m then f (k / img.width) (k % img.width) else img.load k from
    hrows img.height le_rfl
  intro m hm
  induction m with
  | zero => exact ⟨rfl, rfl, rfl, fun k => by rw [Nat.mul_zero, if_neg (Nat.not_lt_zero k)]; rfl⟩
  | succ m ih =>
      have ih := ih (by omega)
      rw [List.range_succ, List.foldl_append, List.foldl_cons, List.foldl_nil]
      set img' := (List.range m).foldl (fun img' i =>
        (List.range img.width).foldl (fun img' j =>
          img'.store (add64 (mul64 i img'.width) j) (f i j)) img') img
      have hsize' : img'.width * img'.height < 2 ^ 64 := by
        rw [ih.width_eq, ih.height_eq]
        exact hsize
      have hrow := filled_row (f := f) (i := m) (n := img.width) hsize'
        (by rw [ih.height_eq]; omega) (by rw [ih.width_eq])
      refine ⟨hrow.width_eq.trans ih.width_eq, hrow.height_eq.trans ih.height_eq,
        hrow.bytes_eq.trans ih.bytes_eq, fun k => ?_⟩
      rw [hrow.load_eq, ih.width_eq, ih.load_eq, Nat.mul_succ, Nat.mul_comm m]
      by_cases hin : img.width * m ≤ k ∧ k < img.width * m + img.width
      · -- the pixels of row `m`
        have hdiv : k / img.width = m :=
          Nat.div_eq_of_lt_le (by rw [Nat.mul_comm]; exact hin.1)
            (by rw [Nat.mul_comm, Nat.mul_succ]; exact hin.2)
        have hmod : k % img.width = k - img.width * m := by
          have := Nat.div_add_mod k img.width
          rw [hdiv] at this
          omega
        rw [if_pos hin, if_pos hin.2, hdiv, hmod]
      · rw [if_neg hin]
        by_cases hlt : k < img.width * m
        · rw [if_pos hlt, if_pos (by omega)]
        · rw [if_neg hlt, if_neg (by omega)]

/-- The picture that the loop leaves. -/
theorem picture_roatate (f : ℕ → ℕ → Option Pixel) (img : Image)
    (hsize : img.width * img.height < 2 ^ 64) :
    picture (roatate f img) = ⟨img.height, img.width, fun i j => f i j⟩ := by
  have hfilled := filled_roatate f hsize
  generalize roatate f img = img' at hfilled ⊢
  obtain ⟨width', height', data'⟩ := img'
  obtain ⟨hwidth, hheight, -, hload⟩ := hfilled
  dsimp only at hwidth hheight
  subst hwidth hheight
  simp only [picture, Picture.mk.injEq, heq_eq_eq, true_and]
  funext i j
  have hlt := index_lt i.isLt j.isLt
  have hpos : 0 < img.width := j.pos
  rw [hload, if_pos hlt, Nat.mul_comm i.val, Nat.mul_add_div hpos, Nat.div_eq_of_lt j.isLt,
    Nat.mul_add_mod, Nat.mod_eq_of_lt j.isLt, Nat.add_zero]

/-! ## The four transformations -/

variable {img : Image}

/-- Subtracting without going below zero does not wrap. -/
theorem sub64_of_le {a b : ℕ} (h : b ≤ a) (ha : a < 2 ^ 64) : sub64 a b = a - b := by
  unfold sub64
  omega

/-- A dimension of an image that has a pixel is below `2 ^ 64`. -/
theorem dims_lt {w h i j : ℕ} (hsize : w * h < 2 ^ 64) (hi : i < h) (hj : j < w) :
    w < 2 ^ 64 ∧ h < 2 ^ 64 := by
  have hw : w ≤ w * h := Nat.le_mul_of_pos_right w (by omega)
  have hh : h ≤ w * h := Nat.le_mul_of_pos_left h (by omega)
  omega

/-- **`copy_image`** leaves the picture as it is. -/
theorem picture_copyImage (hsize : img.width * img.height < 2 ^ 64) :
    picture (copyImage img) = picture img := by
  refine (picture_roatate _ (initImage img.width img.height false) hsize).trans ?_
  simp only [picture, initImage, Bool.false_eq_true, if_false, Picture.mk.injEq, heq_eq_eq,
    true_and]
  funext i j
  rw [add64_mul64 hsize i.isLt j.isLt]

/-- The source index of `rotate_90`: row `j`, column `i` from the right. -/
theorem rotate90_index {w h i j : ℕ} (hsize : w * h < 2 ^ 64) (hi : i < w) (hj : j < h) :
    sub64 (sub64 (mul64 w (add64 j 1)) 1) i = j * w + (w - (i + 1)) := by
  obtain ⟨hw, hh⟩ := dims_lt hsize hj hi
  have hrow : w * (j + 1) = j * w + w := by ring
  have hlt : w * (j + 1) ≤ w * h := Nat.mul_le_mul_left w hj
  have hmul : mul64 w (add64 j 1) = j * w + w := by
    unfold mul64 add64
    rw [Nat.mod_eq_of_lt (a := j + 1) (by omega), Nat.mod_eq_of_lt (by omega), hrow]
  have hone : sub64 (j * w + w) 1 = j * w + w - 1 := sub64_of_le (by omega) (by omega)
  rw [hmul, hone, sub64_of_le (by omega) (by omega)]
  omega

/-- **`rotate_90`** is a quarter turn. -/
theorem picture_rotate90 (hsize : img.width * img.height < 2 ^ 64) :
    picture (rotate90 img) = (picture img).turn := by
  unfold rotate90
  rw [picture_roatate _ _ (by rw [Nat.mul_comm] at hsize; exact hsize)]
  simp only [picture, initImage, if_true, Picture.turn, Picture.mk.injEq, heq_eq_eq, true_and]
  funext i j
  rw [rotate90_index hsize i.isLt j.isLt, Fin.val_rev]

/-- The source index of `rotate_90_reverse`: row `j` from the end, column `i`. -/
theorem rotate90Reverse_index {w h i j : ℕ} (hsize : w * h < 2 ^ 64) (hi : i < w) (hj : j < h) :
    add64 (mul64 w (sub64 (sub64 h 1) j)) i = (h - (j + 1)) * w + i := by
  obtain ⟨hw, hh⟩ := dims_lt hsize hj hi
  rw [sub64_of_le (a := h) (by omega) hh, sub64_of_le (by omega) (by omega),
    show h - 1 - j = h - (j + 1) by omega]
  have hmul : mul64 w (h - (j + 1)) = mul64 (h - (j + 1)) w := by
    unfold mul64
    rw [Nat.mul_comm]
  rw [hmul, add64_mul64 hsize (by omega) hi]

/-- **`rotate_90_reverse`** is three quarter turns. -/
theorem picture_rotate90Reverse (hsize : img.width * img.height < 2 ^ 64) :
    picture (rotate90Reverse img) = (picture img).turn.turn.turn := by
  unfold rotate90Reverse
  rw [picture_roatate _ _ (by rw [Nat.mul_comm] at hsize; exact hsize), Picture.turn_turn_turn]
  simp only [picture, initImage, if_true, Picture.mk.injEq, heq_eq_eq, true_and]
  funext i j
  rw [rotate90Reverse_index hsize i.isLt j.isLt, Fin.val_rev]

/-- The source index of `rotate_180`: row `i` from the end, column `j` from the right. -/
theorem rotate180_index {w h i j : ℕ} (hsize : w * h < 2 ^ 64) (hi : i < h) (hj : j < w) :
    add64 (mul64 w (sub64 (sub64 h 1) i)) (sub64 (sub64 w 1) j) =
      (h - (i + 1)) * w + (w - (j + 1)) := by
  obtain ⟨hw, -⟩ := dims_lt hsize hi hj
  rw [sub64_of_le (a := w) (by omega) hw, sub64_of_le (a := w - 1) (by omega) (by omega),
    show w - 1 - j = w - (j + 1) by omega]
  exact rotate90Reverse_index hsize (by omega) hi

/-- **`rotate_180`** is two quarter turns. -/
theorem picture_rotate180 (hsize : img.width * img.height < 2 ^ 64) :
    picture (rotate180 img) = (picture img).turn.turn := by
  unfold rotate180
  rw [picture_roatate _ (initImage img.width img.height false) hsize, Picture.turn_turn]
  simp only [picture, initImage, Bool.false_eq_true, if_false, Picture.mk.injEq, heq_eq_eq,
    true_and]
  funext i j
  rw [rotate180_index hsize i.isLt j.isLt, Fin.val_rev, Fin.val_rev]

end LowLevel.Interface
