import LowLevel.Analysis.RotationGroup
import LowLevel.Interface.RotationLoop

/-!
# The transformations are the turns they are named for

Each of the four transformations performs a list of accesses in which no index wraps
around, every index of the result is stored to once and every pixel of the source is
loaded once. Displayed with data row 0 at the bottom, the result is the turned picture.
-/

set_option autoImplicit false

namespace LowLevel.Analysis

open LowLevel.Library LowLevel.Interface LowLevel.Program.ImageRotation

/-- The picture as it is displayed: data row 0 at the bottom. -/
def displayed (img : Image) : Picture (Option Pixel) := (picture img).flip

/-- The transformation `f` of `source` performs the accesses of `loop`, each index of the
result and each index of the source once, and moves the displayed picture. -/
structure IsTurn (f : Image → Image) (loop : RotationLoop) (move : ℤ × ℤ → ℤ × ℤ)
    (source : Image) : Prop where
  performs : f source = loop.perform source
  exact : ∀ a ∈ loop.accesses source, a.1.Exact (2 ^ 64) ∧ a.2.Exact (2 ^ 64)
  loads_lt : ∀ a ∈ loop.accesses source, a.2.wrap (2 ^ 64) < source.width * source.height
  stores : (loop.accesses source).map (fun a => a.1.wrap (2 ^ 64)) =
    List.range ((f source).width * (f source).height)
  loads : ((loop.accesses source).map fun a => a.2.wrap (2 ^ 64)).Perm
    (List.range (source.width * source.height))
  width_eq : (f source).width = if loop.swaps then source.height else source.width
  height_eq : (f source).height = if loop.swaps then source.width else source.height
  moves : Picture.Moves move (displayed source) (displayed (f source))

variable {source : Image} {f : Image → Image} {loop : RotationLoop} {cell : ℕ × ℕ → ℕ × ℕ}
  {move : ℤ × ℤ → ℤ × ℤ}

/-- A loop that loads different cells, with the motion of the picture. -/
theorem isTurn_of_loads (hsize : source.width * source.height < 2 ^ 64)
    (hperforms : f source = loop.perform source) (hloads : loop.Loads source cell)
    (hmoves : Picture.Moves move (displayed source) (displayed (f source))) :
    IsTurn f loop move source := by
  have hfilled : (f source).width = (loop.start source).width ∧
      (f source).height = (loop.start source).height := by
    have hstart : (loop.start source).width * (loop.start source).height < 2 ^ 64 := by
      rw [RotationLoop.start_size]
      exact hsize
    rw [hperforms, perform_eq]
    exact ⟨(filled_roatate _ hstart).width_eq, (filled_roatate _ hstart).height_eq⟩
  have hload := hloads.map_load
  refine ⟨hperforms, ?_, ?_, ?_, hload, hfilled.1, hfilled.2, hmoves⟩
  · intro a ha
    obtain ⟨ij, hij, rfl⟩ := List.mem_map.mp ha
    exact ⟨RotationLoop.exact_store hsize hij, hloads.exact ij hij⟩
  · intro a ha
    exact List.mem_range.mp (hload.subset (List.mem_map_of_mem ha))
  · rw [RotationLoop.map_store hsize, hfilled.1, hfilled.2, RotationLoop.start_size]

/-- **Each transformation** is the geometric turn it is named for: `rotate_90` turns the
displayed picture clockwise, `rotate_90_reverse` counter-clockwise, `rotate_180` by half a
turn, and `copy_image` leaves it. -/
theorem transformations_turn (source : Image) (hsize : source.width * source.height < 2 ^ 64) :
    IsTurn rotate90 rotate90Loop Picture.clockwise source ∧
      IsTurn rotate90Reverse rotate90ReverseLoop Picture.counterClockwise source ∧
      IsTurn rotate180 rotate180Loop Picture.halfTurn source ∧
      IsTurn copyImage copyImageLoop id source := by
  refine ⟨isTurn_of_loads hsize (rotate90_eq source) (loads_rotate90 hsize) ?_,
    isTurn_of_loads hsize (rotate90Reverse_eq source) (loads_rotate90Reverse hsize) ?_,
    isTurn_of_loads hsize (rotate180_eq source) (loads_rotate180 hsize) ?_,
    isTurn_of_loads hsize (copyImage_eq source) (loads_copyImage hsize) ?_⟩
  · rw [displayed, displayed, picture_rotate90 hsize, Picture.flip_turn]
    exact Picture.moves_turn_turn_turn _
  · rw [displayed, displayed, picture_rotate90Reverse hsize, Picture.flip_turn_turn_turn]
    exact Picture.moves_turn _
  · rw [displayed, displayed, picture_rotate180 hsize, Picture.flip_turn_turn]
    exact Picture.moves_turn_turn _
  · rw [displayed, displayed, picture_copyImage hsize]
    exact fun z a => Iff.rfl

/-- A quarter turn of a picture that is not square. -/
theorem transformations_turn_two_by_three :
    IsTurn rotate90 rotate90Loop Picture.clockwise twoByThree :=
  (transformations_turn twoByThree (by decide)).1

end LowLevel.Analysis
