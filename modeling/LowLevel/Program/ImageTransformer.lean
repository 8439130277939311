import LowLevel.Program.Bmp

/-!
# The image transformer

`main` of `Image Rotation C/solution` from the point where the source file is open, and
`clear_images_memory` of `util.c`. The images that the transformations make live in two
blocks of the process, as `init_image` allocates them.
-/

set_option autoImplicit false

namespace LowLevel.Program.ImageTransformer

open LowLevel.Library LowLevel.Program.ImageRotation LowLevel.Program.Bmp

/-- How `main` ends: with an exit code, or where it follows a pointer that no image is
behind. -/
inductive Outcome where
  | exit (code : ℕ)
  | follows (ptr : Ptr)
  deriving DecidableEq, Repr

/-- `clear_images_memory`; the pointer that it could not follow, if there is one. -/
def clearImagesMemory : List Ptr → StateM Process (Option Ptr)
  | [] => return none
  | .heap id :: images => do
      let p ← get
      free (p.images id).data
      free (.heap id)
      clearImagesMemory images
  | ptr :: _ => return some ptr

/-- The image in block `id`, as the transformations read it. -/
def Process.image (p : Process) (id : ℕ) : Image :=
  let cell := p.images id
  ⟨cell.width.getD 0, cell.height.getD 0,
    match cell.data with
    | .heap data => ⟨p.sizes.getD data 0, p.pixels data⟩
    | _ => ⟨0, fun _ => none⟩⟩

/-- `init_image` and the loop, which leave `result` in two blocks. Neither pointer is
checked: without a block for the image the dimensions are assigned through a null
pointer, without one for the pixels the first pixel is. -/
def placeImage (result : Image) : StateM Process (Option Ptr) := do
  match ← malloc sizeofImage with
  | none => return none
  | some res =>
      modifyImage res fun c => { c with width := some result.width, height := some result.height }
      match ← malloc result.data.bytes with
      | none =>
          modifyImage res fun c => { c with data := .null }
          return if result.width * result.height = 0 then some (.heap res) else none
      | some data =>
          modifyImage res fun c => { c with data := .heap data }
          modify fun p => { p with
            pixels := Function.update p.pixels data result.data.cells }
          return some (.heap res)

/-- Releasing the images and leaving `main` with the code. -/
def leave (images : List Ptr) (code : ℕ) : StateM Process Outcome := do
  match ← clearImagesMemory images with
  | none => return .exit code
  | some ptr => return .follows ptr

/-- `main` for an accepted angle, from `from_bmp` on. The output file is the one that
`write_file` opens, if it does. -/
def transform (angle : ℤ) (g : Garbage) (out : Option OutFile) : StateM Process Outcome := do
  match ← fromBmp with
  | .ok =>
      let p ← get
      match p.img with
      | .heap img =>
          let result := rotated angle (Process.image p img)
          match ← placeImage result with
          | none => return .follows .null
          | some rotatedImg =>
              match out with
              | none => leave [p.img, rotatedImg] 1
              | some out =>
                  match (toBmp g result out).1 with
                  | .error => leave [p.img, rotatedImg] 1
                  | .ok => leave [p.img, rotatedImg] 0
      | ptr => return .follows ptr
  | _ => do
      let p ← get
      leave [p.img] 1

end LowLevel.Program.ImageTransformer
