import LowLevel.Analysis.BmpRoundTrip

/-!
# The sizes in the header

`create_bmp_header` puts 64-bit sizes into the 32-bit fields of the header without a look at
them. The header that `to_bmp` writes describes the file exactly when the file is shorter than
`2 ^ 32` bytes.
-/

set_option autoImplicit false

namespace LowLevel.Analysis

open LowLevel.Library LowLevel.Interface LowLevel.Program.ImageRotation LowLevel.Program.Bmp

variable {g : Garbage} {img : Image} {out : OutFile}

/-- The header is right about a file that was `written` for the image. -/
structure Describes (header : BmpHeader) (img : Image) (written : List Byte) : Prop where
  fileSize : header.bfileSize.toNat = written.length
  sizeImage : header.biSizeImage.toNat = written.length - sizeofBmpHeader
  width : header.biWidth.toNat = img.width
  height : header.biHeight.toNat = img.height

/-- Whenever `to_bmp` returns `WRITE_BMP_OK`, what it wrote starts with a header that is right
about it. -/
def HeaderDescribes (img : Image) : Prop :=
  ∀ (g : Garbage) (out : OutFile), (toBmp g img out).1 = .ok → ∃ written,
    (toBmp g img out).2.bytes = out.bytes ++ written ∧
      Describes (BmpHeader.ofBytes (written.take sizeofBmpHeader)) img written

/-- The bytes of the rows, with their padding. -/
def rowsSize (img : Image) : ℕ :=
  (pixelSize * img.width + calcPadding img.width) * img.height

/-! ## What is written -/

/-- The header and the rows are written. -/
theorem exists_written (hpos : 1 ≤ img.width) (hwidth : img.width < 2 ^ 32)
    (hok : (toBmp g img out).1 = .ok) : ∃ written,
      (toBmp g img out).2.bytes = out.bytes ++ written ∧
      BmpHeader.ofBytes (written.take sizeofBmpHeader) = createBmpHeader img ∧
      written.length = sizeofBmpHeader + rowsSize img := by
  have hmul := mul64_pixelSize (row_lt hwidth)
  have hrow : 0 < mul64 img.width pixelSize := by
    rw [hmul]
    exact Nat.mul_pos (by decide) hpos
  refine ⟨_, (toBmp_bytes hrow hok).trans (List.append_assoc _ _ _), ?_, ?_⟩
  · rw [← length_header (createBmpHeader img), List.take_left, ofBytes_bytes]
  · rw [List.length_append, length_header, length_rows fun _ _ => length_rowBytes, hmul, rowsSize,
      Nat.mul_comm img.height]

/-! ## What the header says -/

/-- The sizes are those of the file modulo `2 ^ 32`. -/
theorem createBmpHeader_sizes (hwidth : img.width < 2 ^ 32) :
    (createBmpHeader img).bfileSize.toNat = (sizeofBmpHeader + rowsSize img) % 2 ^ 32 ∧
      (createBmpHeader img).biSizeImage.toNat = rowsSize img % 2 ^ 32 := by
  have hbounds := calcPadding_bounds img.width
  have hstride : add64 (mul64 img.width pixelSize) (calcPadding img.width) =
      pixelSize * img.width + calcPadding img.width := by
    rw [mul64_pixelSize (row_lt hwidth)]
    unfold add64 pixelSize
    omega
  simp only [createBmpHeader, hstride, BitVec.toNat_ofNat]
  unfold add64 mul64 biHeaderSize sizeofBmpHeader
  rw [← rowsSize]
  omega

/-- A file of `2 ^ 32` bytes or more has another size in its header. -/
theorem rowsSize_lt_of_headerDescribes (hpos : 1 ≤ img.width) (hwidth : img.width < 2 ^ 32)
    (hdescribes : HeaderDescribes img) : sizeofBmpHeader + rowsSize img < 2 ^ 32 := by
  have hrow : 0 < mul64 img.width pixelSize := by
    rw [mul64_pixelSize (row_lt hwidth)]
    exact Nat.mul_pos (by decide) hpos
  have hok : (toBmp ⟨fun _ => ⟨0, 0, 0⟩, fun _ _ => 0⟩ img .opened).1 = .ok :=
    (toBmp_of_no_failure hrow rfl).1
  obtain ⟨written, hbytes, hfile, -⟩ := hdescribes _ _ hok
  obtain ⟨written', hbytes', hheader, hlen⟩ := exists_written hpos hwidth hok
  obtain rfl := List.append_cancel_left (hbytes.symm.trans hbytes')
  rw [hheader, (createBmpHeader_sizes hwidth).1, hlen] at hfile
  rw [← hfile]
  exact Nat.mod_lt _ (by norm_num)

/-- **When the header describes the file**: when the size of the file fits in the header. -/
theorem headerDescribes_iff (img : Image) (hwidth : 1 ≤ img.width ∧ img.width < 2 ^ 32)
    (hheight : 1 ≤ img.height ∧ img.height < 2 ^ 32) :
    HeaderDescribes img ↔
      sizeofBmpHeader + (3 * img.width + calcPadding img.width) * img.height < 2 ^ 32 := by
  constructor
  · exact rowsSize_lt_of_headerDescribes hwidth.1 hwidth.2
  · intro hfits g out hok
    have hfits' : sizeofBmpHeader + rowsSize img < 2 ^ 32 := hfits
    obtain ⟨written, hbytes, hheader, hlen⟩ := exists_written hwidth.1 hwidth.2 hok
    obtain ⟨hfile, himage⟩ := createBmpHeader_sizes hwidth.2
    obtain ⟨hw, hh⟩ := createBmpHeader_dims hwidth.2 hheight.2
    refine ⟨written, hbytes, ?_⟩
    rw [hheader]
    refine ⟨?_, ?_, hw, hh⟩
    · rw [hfile, hlen, Nat.mod_eq_of_lt hfits']
    · rw [himage, hlen, Nat.mod_eq_of_lt (by omega), Nat.add_sub_cancel_left]

/-- A black square. -/
def blackSquare (n : ℕ) : Image := ⟨n, n, ⟨3 * n * n, fun _ => some ⟨0, 0, 0⟩⟩⟩

/-- The header of a file of 4.1 gigabytes. -/
theorem headerDescribes_blackSquare_large : HeaderDescribes (blackSquare 37000) :=
  (headerDescribes_iff (blackSquare 37000) ⟨by decide, by decide⟩ ⟨by decide, by decide⟩).mpr
    (by decide)

/-- The header of a file of 4.8 gigabytes. -/
theorem not_headerDescribes_blackSquare : ¬ HeaderDescribes (blackSquare 40000) := by
  intro hdescribes
  have hfits : sizeofBmpHeader + rowsSize (blackSquare 40000) < 2 ^ 32 :=
    rowsSize_lt_of_headerDescribes (by decide) (by decide) hdescribes
  exact absurd hfits (by decide)

end LowLevel.Analysis
