import LowLevel.Analysis.BmpRoundTrip
import LowLevel.Analysis.FileClasses
import LowLevel.Interface.BmpBlocks

/-!
# The picture in a file

What a file means to this codec: a picture, when every pixel is in the file with `calc_padding`
bytes behind each row, which are four when the width is a multiple of four. `from_bmp` puts this
picture in memory, and `to_bmp` writes a file that means the picture in memory.
-/

set_option autoImplicit false

namespace LowLevel.Analysis

open LowLevel.Library LowLevel.Interface LowLevel.Program.ImageRotation LowLevel.Program.Bmp
open LowLevel.Program.ImageTransformer

variable {content : List Byte} {grants : List Bool} {pic : Picture Pixel} {img : Image}
  {g : Garbage} {f : OutFile} {p : Process}

/-- The picture that a file holds in the row layout of `to_bmp`, if no pixel is cut off. -/
def decoded (content : List Byte) : Option (Picture Pixel) :=
  if classOf content = .ok then
    some ⟨(headerIn content).biHeight.toNat, (headerIn content).biWidth.toNat, fun i j =>
      pixelOf content (byteIndex (headerIn content) i j 0)⟩
  else none

theorem dims_of_decoded (h : decoded content = some pic) :
    pic.cols < 2 ^ 32 ∧ pic.rows < 2 ^ 32 := by
  rw [decoded, Option.ite_none_right_eq_some, Option.some.injEq] at h
  obtain ⟨-, rfl⟩ := h
  exact ⟨(headerIn content).biWidth.isLt, (headerIn content).biHeight.isLt⟩

/-- The pixels of an image that is in memory. -/
theorem image_of_loaded {width height : ℕ} {pix : ℕ → ℕ → Pixel} (h : Loaded p width height pix) :
    ∃ id, p.img = .heap id ∧ (Process.image p id).width = width ∧
      (Process.image p id).height = height ∧
      picture (Process.image p id) = ⟨height, width, fun i j => some (pix i j)⟩ := by
  obtain ⟨id, data, himg, himage, hpixels⟩ := h
  have hcell : Process.image p id = ⟨width, height, ⟨p.sizes.getD data 0, p.pixels data⟩⟩ := by
    simp [Process.image, himage]
  refine ⟨id, himg, by rw [hcell], by rw [hcell], ?_⟩
  rw [hcell]
  exact Picture.mk_congr fun i j => hpixels i i.isLt j j.isLt

/-- **Reading**: `from_bmp` puts the picture of the file in memory, when the blocks are
granted. -/
theorem fromBmp_of_decoded (hdecoded : decoded content = some pic)
    (hsize : pic.cols * pic.rows < 2 ^ 64) (hgrants : ∀ granted ∈ grants, granted = true) :
    ∃ q, fromBmp (started content grants) = (.ok, q) ∧ q.img = .heap 0 ∧
      (∀ granted ∈ q.grants, granted = true) ∧
      (Process.image q 0).width = pic.cols ∧ (Process.image q 0).height = pic.rows ∧
      picture (Process.image q 0) = pic.map some := by
  rw [decoded, Option.ite_none_right_eq_some, Option.some.injEq] at hdecoded
  obtain ⟨hclass, rfl⟩ := hdecoded
  obtain ⟨hlen, htype, hwhole⟩ := (classOf_iff content).2.2.2.mp hclass
  rw [cutShort_iff, not_not] at hwhole
  have hstarts : StartsWith (started content grants) (headerIn content) :=
    ⟨hgrants, rfl, hlen, rfl, htype⟩
  rw [Nat.mul_comm] at hsize
  obtain ⟨q, hrun, hloaded⟩ := hstarts.fromBmp_of_holdsRows hsize hwhole.holdsRows
  have hhead : ∀ l : List Bool, (∀ granted ∈ l, granted = true) → l.head? ≠ some false := by
    intro l hl hfalse
    exact absurd (hl false (List.mem_of_mem_head? hfalse)) (by decide)
  obtain ⟨himg, -, -, -, hrest⟩ := fromBmp_of_granted (hhead _ hgrants) ⟨hlen, htype⟩
    (hhead _ fun b hb => hgrants b (List.mem_of_mem_tail hb))
  rw [hrun] at himg hrest
  obtain ⟨id, himg', hwidth, hheight, hpicture⟩ := image_of_loaded hloaded
  obtain rfl : id = 0 := Ptr.heap.inj (himg'.symm.trans himg)
  refine ⟨q, hrun, himg, ?_, hwidth, hheight, hpicture⟩
  intro granted hgranted
  rw [hrest] at hgranted
  exact hgrants granted (List.mem_of_mem_drop hgranted)

/-- **Writing**: the file means the picture in memory, whatever was behind the padding. -/
theorem decoded_toBmp (hpos : 0 < img.width) (hwidth : img.width < 2 ^ 32)
    (hheight : img.height < 2 ^ 32) (hsize : img.width * img.height < 2 ^ 64)
    (hempty : f.bytes = []) (hok : (toBmp g img f).1 = .ok) (hpic : picture img = pic.map some) :
    decoded (toBmp g img f).2.bytes = some pic := by
  have hrow := row_lt hwidth
  have hholds := holdsRows_toBmp (g := g) hrow hsize hempty hok
  have hlength := length_toBmp hpos hrow hempty hok
  have hheader : headerIn (toBmp g img f).2.bytes = createBmpHeader img := by
    rw [headerIn, toBmp_starts hpos hrow hempty hok, ofBytes_bytes]
  obtain ⟨hw, hh⟩ := createBmpHeader_dims hwidth hheight
  have hoffset : (createBmpHeader img).bOffBits.toNat = sizeofBmpHeader := rfl
  have hwhole : ¬ CutShort (toBmp g img f).2.bytes := by
    rw [cutShort_iff, not_not, hheader, hw, hh, hoffset]
    exact hholds.inFile
  have hclass : classOf (toBmp g img f).2.bytes = .ok :=
    (classOf_iff _).2.2.2.mpr ⟨by omega, by rw [hheader]; rfl, hwhole⟩
  rw [decoded, if_pos hclass, hheader, Option.some.injEq]
  obtain ⟨rows, cols, cell⟩ := pic
  simp only [picture, Picture.map, Picture.mk.injEq] at hpic
  obtain ⟨rfl, rfl, hcell⟩ := hpic
  rw [hw, hh]
  refine Picture.mk_congr fun i j => ?_
  have hcell' := congrFun (congrFun (eq_of_heq hcell) i) j
  have hpixel := hholds.pixelOf_eq i.isLt j.isLt
  rw [byteIndex, hoffset, hw, Nat.add_zero, hpixel, pixelAt, hcell', Option.getD_some]

end LowLevel.Analysis
