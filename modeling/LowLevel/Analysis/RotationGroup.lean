import LowLevel.Interface.ImagePicture

/-!
# The rotations form the cyclic group of the angles

Each accepted angle is the number of quarter turns it describes, and quarter turns
compose modulo four.
-/

set_option autoImplicit false

namespace LowLevel.Analysis

open LowLevel.Library LowLevel.Interface LowLevel.Program.ImageRotation

variable {img : Image} {a b c : ℤ}

/-- The quarter turns that an angle describes. -/
def quarterTurns (angle : ℤ) : ℕ := (angle / 90 % 4).toNat

/-- **The angle switch** turns the picture as often as the angle says. -/
theorem picture_rotated (ha : a ∈ rotationAllowedAngles)
    (hsize : img.width * img.height < 2 ^ 64) :
    picture (rotated a img) = Picture.turn^[quarterTurns a] (picture img) := by
  simp only [rotationAllowedAngles, List.mem_cons, List.not_mem_nil, or_false] at ha
  rcases ha with rfl | rfl | rfl | rfl | rfl | rfl | rfl
  · exact picture_copyImage hsize
  · exact picture_rotate90 hsize
  · exact picture_rotate90Reverse hsize
  · exact picture_rotate180 hsize
  · exact picture_rotate180 hsize
  · exact picture_rotate90Reverse hsize
  · exact picture_rotate90 hsize

/-- A transformed image is as big as the image it was made of. -/
theorem size_rotated (ha : a ∈ rotationAllowedAngles)
    (hsize : img.width * img.height < 2 ^ 64) :
    (rotated a img).width * (rotated a img).height = img.width * img.height := by
  have hpicture := picture_rotated ha hsize
  calc (rotated a img).width * (rotated a img).height
      = (picture (rotated a img)).cols * (picture (rotated a img)).rows := rfl
    _ = img.width * img.height := by rw [hpicture, Picture.size_iterate_turn]; rfl

/-- Two transformations turn the picture by the sum of the angles. -/
theorem picture_rotated_rotated (ha : a ∈ rotationAllowedAngles)
    (hb : b ∈ rotationAllowedAngles) (hsize : img.width * img.height < 2 ^ 64) :
    picture (rotated b (rotated a img)) =
      Picture.turn^[quarterTurns b + quarterTurns a] (picture img) := by
  rw [picture_rotated hb (by rw [size_rotated ha hsize]; exact hsize), picture_rotated ha hsize,
    Function.iterate_add_apply]

/-- Angles that agree modulo a full turn are the same quarter turns modulo four. -/
theorem quarterTurns_add (ha : a ∈ rotationAllowedAngles) (hb : b ∈ rotationAllowedAngles)
    (hc : c ∈ rotationAllowedAngles) (hsum : (a + b) % 360 = c % 360) :
    (quarterTurns b + quarterTurns a) % 4 = quarterTurns c % 4 := by
  have hninety : ∀ a ∈ rotationAllowedAngles, a % 90 = 0 := by decide
  have ha := hninety a ha
  have hb := hninety b hb
  have hc := hninety c hc
  unfold quarterTurns
  omega

/-- The sum of two accepted angles composes them. -/
theorem picture_rotated_add (ha : a ∈ rotationAllowedAngles) (hb : b ∈ rotationAllowedAngles)
    (hc : c ∈ rotationAllowedAngles) (hsum : (a + b) % 360 = c % 360)
    (hsize : img.width * img.height < 2 ^ 64) :
    picture (rotated b (rotated a img)) = picture (rotated c img) := by
  rw [picture_rotated_rotated ha hb hsize, picture_rotated hc hsize,
    ← Picture.turn_iterate_mod, quarterTurns_add ha hb hc hsum, Picture.turn_iterate_mod]

/-- **The rotations form the cyclic group of the angles**: for accepted angles, turning by
`a` and then by `b` is turning by any accepted `c` that is `a + b` modulo a full turn. So
`-a` undoes `a`, 270 degrees are -90 degrees, and four quarter turns are the identity. -/
theorem rotations_compose (ha : a ∈ rotationAllowedAngles) (hb : b ∈ rotationAllowedAngles)
    (hc : c ∈ rotationAllowedAngles) (hsum : (a + b) % 360 = c % 360)
    (hsize : img.width * img.height < 2 ^ 64) :
    SameImage (rotated b (rotated a img)) (rotated c img) ∧
      SameImage (rotated (-a) (rotated a img)) img ∧
      SameImage (rotated 270 img) (rotated (-90) img) ∧
      SameImage (rotated 90 (rotated 90 (rotated 90 (rotated 90 img)))) img := by
  have hneg : ∀ a ∈ rotationAllowedAngles, -a ∈ rotationAllowedAngles := by decide
  have hzero : (0 : ℤ) ∈ rotationAllowedAngles := by decide
  have hquarter : (90 : ℤ) ∈ rotationAllowedAngles := by decide
  have hhalf : (180 : ℤ) ∈ rotationAllowedAngles := by decide
  have hcopy : picture (rotated 0 img) = picture img := picture_copyImage hsize
  refine ⟨sameImage_of_picture_eq (picture_rotated_add ha hb hc hsum hsize),
    sameImage_of_picture_eq ?_, sameImage_of_picture_eq ?_, sameImage_of_picture_eq ?_⟩
  · rw [picture_rotated_add ha (hneg a ha) hzero (by omega) hsize, hcopy]
  · rw [picture_rotated (by decide) hsize, picture_rotated (by decide) hsize]
    rfl
  · have hsize₁ : (rotated 90 img).width * (rotated 90 img).height < 2 ^ 64 := by
      rw [size_rotated hquarter hsize]
      exact hsize
    have hsize₂ : (rotated 90 (rotated 90 img)).width * (rotated 90 (rotated 90 img)).height <
        2 ^ 64 := by
      rw [size_rotated hquarter hsize₁]
      exact hsize₁
    rw [picture_rotated_rotated hquarter hquarter hsize₂,
      picture_rotated_rotated hquarter hquarter hsize]
    exact (picture img).turn_four

/-- A picture of two rows and three columns. -/
def twoByThree : Image := ⟨3, 2, ⟨18, fun k => some ⟨BitVec.ofNat 8 k, 0, 0⟩⟩⟩

/-- A quarter turn and a half turn of a picture that is not square. -/
theorem rotations_compose_two_by_three :
    SameImage (rotated 180 (rotated 90 twoByThree)) (rotated 270 twoByThree) :=
  (rotations_compose (a := 90) (b := 180) (c := 270) (by decide) (by decide) (by decide)
    (by decide) (by decide)).1

end LowLevel.Analysis
