import LowLevel.Interface.BmpWriting

/-!
# Decoding undoes encoding

The writer puts the rows as far apart as the reader looks for them, whatever that distance
is: both take it from `calc_padding`. What `to_bmp` leaves behind the pixels of a row is
skipped by `from_bmp`, so it does not matter what is read past the end of `zero_padding`.
-/

set_option autoImplicit false

namespace LowLevel.Analysis

open LowLevel.Library LowLevel.Interface LowLevel.Program.ImageRotation LowLevel.Program.Bmp

variable {img : Image} {g : Garbage} {out : OutFile} {p : Process}

/-- `*img` has the dimensions of `img` and every pixel of it. -/
def HoldsImage (p : Process) (img : Image) : Prop :=
  ∃ id data, p.img = .heap id ∧
    p.images id = ⟨some img.width, some img.height, .heap data⟩ ∧
    ∀ k < img.width * img.height, ∀ pixel, img.load k = some pixel →
      p.pixels data k = some pixel

/-- A pixel of the image is the pixel in memory at its row and column. -/
theorem holdsImage_of_loaded (h : Loaded p img.width img.height (pixelAt g img)) :
    HoldsImage p img := by
  obtain ⟨id, data, himg, himage, hpixels⟩ := h
  refine ⟨id, data, himg, himage, fun k hk pixel hpixel => ?_⟩
  have hwidth : 0 < img.width := Nat.pos_of_mul_pos_right (Nat.zero_lt_of_lt hk)
  have hrow : k / img.width < img.height := Nat.div_lt_of_lt_mul hk
  have hcol : k % img.width < img.width := Nat.mod_lt k hwidth
  have hindex : k / img.width * img.width + k % img.width = k := Nat.div_add_mod' k img.width
  have hload := hpixels _ hrow _ hcol
  unfold pixelAt at hload
  rw [hindex, hpixel, Option.getD_some] at hload
  exact hload

/-- The header says how big the image is. -/
theorem createBmpHeader_dims (hw : img.width < 2 ^ 32) (hh : img.height < 2 ^ 32) :
    (createBmpHeader img).biWidth.toNat = img.width ∧
      (createBmpHeader img).biHeight.toNat = img.height := by
  constructor
  · exact (BitVec.toNat_ofNat img.width 32).trans (Nat.mod_eq_of_lt hw)
  · exact (BitVec.toNat_ofNat img.height 32).trans (Nat.mod_eq_of_lt hh)

/-- **Decoding undoes encoding**: what `to_bmp` wrote to an empty file without an error is
read back by `from_bmp` as an image of the same dimensions and pixels, whatever was in
memory behind `zero_padding`. -/
theorem decoding_undoes_encoding (hw : 0 < img.width) (hw' : img.width < 2 ^ 32)
    (hh : img.height < 2 ^ 32) (hsize : 3 * img.width * img.height < 2 ^ 64)
    (hempty : out.bytes = []) (hok : (toBmp g img out).1 = .ok)
    (hfile : p.content = (toBmp g img out).2.bytes) (hpos : p.pos = 0)
    (hgrants : ∀ granted ∈ p.grants, granted = true) :
    ∃ p', fromBmp p = (.ok, p') ∧ HoldsImage p' img := by
  obtain ⟨hwidth, hheight⟩ := createBmpHeader_dims hw' hh
  have hrow := row_lt hw'
  have hsize' : img.width * img.height < 2 ^ 64 := by
    rw [Nat.mul_assoc] at hsize
    omega
  have hstart : p.content.take sizeofBmpHeader = (createBmpHeader img).bytes := by
    rw [hfile]
    exact toBmp_starts hw hrow hempty hok
  have hrows : HoldsRows p.content sizeofBmpHeader
      (pixelSize * img.width + calcPadding img.width) img.width img.height (pixelAt g img) := by
    rw [hfile]
    exact holdsRows_toBmp hrow hsize' hempty hok
  obtain ⟨p', hrun, hloaded⟩ := fromBmp_of_holdsRows
    ⟨hgrants, hpos, _, hstart, rfl, rfl, hwidth, hheight⟩ (by rw [Nat.mul_comm]; exact hsize')
    hrows
  exact ⟨p', hrun, holdsImage_of_loaded hloaded⟩

/-- Two rows of two pixels: rows of six bytes, with two bytes behind each. -/
def square : Image := ⟨2, 2, ⟨12, fun k => some ⟨BitVec.ofNat 8 k, 1, 2⟩⟩⟩

/-- Memory that is all ones. -/
def allOnes : Garbage := ⟨fun _ => ⟨0xFF, 0xFF, 0xFF⟩, fun _ _ => 0xFF⟩

/-- The square is read back. -/
theorem decoding_undoes_encoding_square :
    ∃ p', fromBmp (.opened (toBmp allOnes square .opened).2.bytes) = (.ok, p') ∧
      HoldsImage p' square :=
  decoding_undoes_encoding (by decide) (by decide) (by decide) (by decide) rfl
    (toBmp_of_no_failure (by decide) rfl).1 rfl rfl (fun _ h => absurd h List.not_mem_nil)

end LowLevel.Analysis
