import LowLevel.Library.LittleEndian

/-!
# Images and their rotations

`image.h`, `rotation.c` and the angle switch of `main` in `Image Rotation C/solution`.
Widths, heights and indices are `uint64_t`, naturals below `2 ^ 64` that wrap there. A
pixel buffer records the size `malloc` was asked for and, for each index, the pixel
stored there last, if any; the allocations of `init_image` are taken to succeed, as the
code takes them to.
-/

set_option autoImplicit false

namespace LowLevel.Program.ImageRotation

open LowLevel.Library

/-! ## `uint64_t` arithmetic -/

/-- A sum of two `size_t`, which wraps. -/
def add64 (a b : ℕ) : ℕ := (a + b) % 2 ^ 64

/-- A difference of two `size_t`, which wraps below zero. -/
def sub64 (a b : ℕ) : ℕ := (a + (2 ^ 64 - b % 2 ^ 64)) % 2 ^ 64

/-- A product of two `size_t`, which wraps. -/
def mul64 (a b : ℕ) : ℕ := a * b % 2 ^ 64

/-! ## image.h -/

/-- `PIXEL_SIZE`, the bytes of a pixel in the file. -/
def pixelSize : ℕ := 3

/-- A `struct pixel`. -/
structure Pixel where
  b : Byte
  g : Byte
  r : Byte
  deriving DecidableEq, Repr

/-- The memory behind `data`. -/
structure Buffer where
  bytes : ℕ
  cells : ℕ → Option Pixel

/-- A `struct image`, with the array that its `data` points to. -/
structure Image where
  width : ℕ
  height : ℕ
  data : Buffer

/-- `image->data[k] = p`, for a pixel that may itself be unset. -/
def Image.store (img : Image) (k : ℕ) (p : Option Pixel) : Image :=
  { img with data := { img.data with cells := Function.update img.data.cells k p } }

/-- `source->data[k]`. -/
def Image.load (img : Image) (k : ℕ) : Option Pixel := img.data.cells k

/-! ## rotation.c -/

/-- The macro `ROATATE`: row by row, column by column. -/
def roatate (sourcePix : ℕ → ℕ → Option Pixel) (resultImg : Image) : Image :=
  (List.range resultImg.height).foldl (fun img i =>
    (List.range resultImg.width).foldl (fun img j =>
      img.store (add64 (mul64 i img.width) j) (sourcePix i j)) img) resultImg

/-- `init_image`: the two sides are swapped for a quarter turn. -/
def initImage (width height : ℕ) (reverseRotation : Bool) : Image where
  width := if reverseRotation then height else width
  height := if reverseRotation then width else height
  data := ⟨mul64 (mul64 pixelSize width) height, fun _ => none⟩

/-- `rotate_90`. -/
def rotate90 (source : Image) : Image :=
  roatate (fun i j => source.load (sub64 (sub64 (mul64 source.width (add64 j 1)) 1) i))
    (initImage source.width source.height true)

/-- `rotate_90_reverse`. -/
def rotate90Reverse (source : Image) : Image :=
  roatate (fun i j => source.load
      (add64 (mul64 source.width (sub64 (sub64 source.height 1) j)) i))
    (initImage source.width source.height true)

/-- `rotate_180`. -/
def rotate180 (source : Image) : Image :=
  roatate (fun i j => source.load
      (add64 (mul64 source.width (sub64 (sub64 source.height 1) i))
        (sub64 (sub64 source.width 1) j)))
    (initImage source.width source.height false)

/-- `copy_image`, for an angle of zero. -/
def copyImage (source : Image) : Image :=
  let result := initImage source.width source.height false
  roatate (fun i j => source.load (add64 (mul64 i result.width) j)) result

/-! ## The angle switch of `main` -/

/-- `rotation_allowed_angles`. -/
def rotationAllowedAngles : List ℤ := [0, 90, -90, 180, -180, 270, -270]

/-- The image that `main` makes of `img` for an angle; `/` and `%` truncate. -/
def rotated (angle : ℤ) (img : Image) : Image :=
  match ((angle.tdiv 90).tmod 2).natAbs with
  | 0 => if angle = 0 then copyImage img else rotate180 img
  | _ =>
      match (angle.tdiv 90).natAbs with
      | 1 => if angle < 0 then rotate90Reverse img else rotate90 img
      | _ => if angle < 0 then rotate90 img else rotate90Reverse img

end LowLevel.Program.ImageRotation
