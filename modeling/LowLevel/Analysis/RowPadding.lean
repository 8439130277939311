import LowLevel.Interface.BmpWriting
import Mathlib.Order.Bounds.Defs

/-!
# The padding of a row

By the README a row takes the least multiple of four bytes that holds its pixels, and none
are added when the pixels already do. `calc_padding` takes the remainder of the row from
four and so adds four bytes there: rows whose width is a multiple of four are written four
bytes apart too far and looked for four bytes too far, and `zero_padding`, which has three
elements, is asked for four.
-/

set_option autoImplicit false

namespace LowLevel.Analysis

open LowLevel.Library LowLevel.Interface LowLevel.Program.ImageRotation LowLevel.Program.Bmp

variable {img : Image} {width height : ℕ}

/-! ## The layout -/

/-- The bytes that a row takes in the file. -/
def rowStride (width : ℕ) : ℕ := (pixelSize * width + 3) / 4 * 4

/-- It is the least multiple of four that holds the pixels. -/
theorem isLeast_rowStride (width : ℕ) :
    IsLeast {n | 4 ∣ n ∧ pixelSize * width ≤ n} (rowStride width) := by
  constructor
  · refine ⟨Nat.dvd_mul_left 4 _, ?_⟩
    unfold rowStride
    omega
  · rintro n ⟨⟨m, rfl⟩, hle⟩
    unfold rowStride
    omega

/-- `content` is a 24-bit file of `height` rows of `width` pixels, which are `pix`. -/
structure LaidOut (content : List Byte) (header : BmpHeader) (width height : ℕ)
    (pix : ℕ → ℕ → Pixel) : Prop where
  starts : content.take sizeofBmpHeader = header.bytes
  type_eq : header.bfType = bmpType
  bits_eq : header.biBitCount.toNat = biBitsPerPixel
  compression_eq : header.biCompression = 0
  width_eq : header.biWidth.toNat = width
  height_eq : header.biHeight.toNat = height
  behind : sizeofBmpHeader ≤ header.bOffBits.toNat
  whole : header.bOffBits.toNat + height * rowStride width ≤ content.length
  holds : HoldsRows content header.bOffBits.toNat (rowStride width) width height pix

/-- `from_bmp` reads the pixels of every such file. -/
def ReadsLayout (width height : ℕ) : Prop :=
  ∀ (p : Process) (header : BmpHeader) (pix : ℕ → ℕ → Pixel),
    (∀ granted ∈ p.grants, granted = true) → p.pos = 0 →
    LaidOut p.content header width height pix →
    ∃ p', fromBmp p = (.ok, p') ∧ Loaded p' width height pix

/-- What `to_bmp` writes to an empty file is the header and then the rows in this layout. -/
def WritesLayout (img : Image) : Prop :=
  ∀ (g : Garbage) (out : OutFile), out.bytes = [] → (toBmp g img out).1 = .ok →
    (toBmp g img out).2.bytes.take sizeofBmpHeader = (createBmpHeader img).bytes ∧
    (toBmp g img out).2.bytes.length = sizeofBmpHeader + img.height * rowStride img.width ∧
    HoldsRows (toBmp g img out).2.bytes sizeofBmpHeader (rowStride img.width) img.width
      img.height (pixelAt g img)

/-- `to_bmp` never asks for more bytes than `zero_padding` has. -/
def StaysInPadding (img : Image) : Prop :=
  ∀ (g : Garbage) (out : OutFile), out.calls = [] →
    ∀ c ∈ (toBmp g img out).2.calls, c.source = .zeroPadding → c.size * c.nmemb ≤ 3

/-- The codec follows the layout for images of these dimensions. -/
structure FollowsLayout (width height : ℕ) : Prop where
  reads : ReadsLayout width height
  writes : ∀ img : Image, img.width = width → img.height = height → WritesLayout img
  stays : ∀ img : Image, img.width = width → img.height = height → StaysInPadding img

/-! ## The padding of the code -/

theorem calcPadding_eq (hwidth : width < 2 ^ 32) :
    calcPadding width = 4 - pixelSize * width % 4 := by
  unfold calcPadding mul64
  rw [Nat.mod_eq_of_lt (row_lt hwidth), Nat.mul_comm]

/-- **The distance of the rows** is right when the width is not a multiple of four. -/
theorem rowStride_eq (hwidth : width < 2 ^ 32) (hmod : width % 4 ≠ 0) :
    rowStride width = pixelSize * width + calcPadding width := by
  have hcases : width % 4 = 1 ∨ width % 4 = 2 ∨ width % 4 = 3 := by omega
  rw [calcPadding_eq hwidth]
  unfold rowStride pixelSize
  rcases hcases with h | h | h
  · omega
  · omega
  · omega

/-- Otherwise the code adds four bytes where the layout has none. -/
theorem rowStride_of_mod_eq_zero (hwidth : width < 2 ^ 32) (hmod : width % 4 = 0) :
    rowStride width = pixelSize * width ∧ calcPadding width = 4 := by
  rw [calcPadding_eq hwidth]
  unfold rowStride pixelSize
  omega

/-! ## Reading -/

/-- The header of a file of these dimensions. -/
def headerOf (width height : ℕ) : BmpHeader := createBmpHeader ⟨width, height, ⟨0, fun _ => none⟩⟩

/-- A file all of whose pixels are black. -/
def blackFile (width height : ℕ) : List Byte :=
  (headerOf width height).bytes ++ List.replicate (height * rowStride width) 0

theorem laidOut_blackFile (hwidth : width < 2 ^ 32) (hheight : height < 2 ^ 32) :
    LaidOut (blackFile width height) (headerOf width height) width height
      fun _ _ => ⟨0, 0, 0⟩ where
  starts := by rw [blackFile, ← length_header (headerOf width height), List.take_left]
  type_eq := rfl
  bits_eq := rfl
  compression_eq := rfl
  width_eq := (BitVec.toNat_ofNat width 32).trans (Nat.mod_eq_of_lt hwidth)
  height_eq := (BitVec.toNat_ofNat height 32).trans (Nat.mod_eq_of_lt hheight)
  behind := le_rfl
  whole := by
    rw [blackFile, List.length_append, length_header, List.length_replicate]
    exact le_rfl
  holds := by
    intro i hi j hj k hk
    have hrow : (i + 1) * rowStride width ≤ height * rowStride width :=
      Nat.mul_le_mul_right _ hi
    have hpixels := (isLeast_rowStride width).1.2
    have hbyte : Pixel.byte ⟨0, 0, 0⟩ k = 0 := by
      unfold Pixel.byte
      split_ifs <;> rfl
    rw [Nat.succ_mul] at hrow
    show (blackFile width height)[sizeofBmpHeader + _ + _ + k]? = _
    rw [hbyte, blackFile, List.getElem?_append_right (by rw [length_header]; omega),
      length_header, List.getElem?_replicate, if_pos]
    unfold pixelSize at hk hpixels ⊢
    omega

/-- With rows to come, the last pixel of a file whose rows are not padded is looked for
behind its end. -/
theorem not_inFile_blackFile (hwidth : 0 < width) (hwidth' : width < 2 ^ 32)
    (hmod : width % 4 = 0) (hheight : 1 < height) :
    ¬ InFile (blackFile width height) sizeofBmpHeader
      (pixelSize * width + calcPadding width) width height := by
  obtain ⟨hstride, hpadding⟩ := rowStride_of_mod_eq_zero hwidth' hmod
  intro hin
  obtain ⟨m, rfl⟩ : ∃ m, height = m + 1 := ⟨height - 1, by omega⟩
  have hlast := hin m (by omega) (width - 1) (by omega)
  rw [blackFile, List.length_append, length_header, List.length_replicate, hstride, hpadding,
    Nat.succ_mul, Nat.mul_add] at hlast
  unfold pixelSize at hlast
  omega

/-- **Reading** follows the layout unless there are rows to come that it looks for in the
wrong place. -/
theorem readsLayout_iff (hwidth : 0 < width) (hwidth' : width < 2 ^ 32) (hheight : 0 < height)
    (hheight' : height < 2 ^ 32) :
    ReadsLayout width height ↔ width % 4 ≠ 0 ∨ height = 1 := by
  have hsize : height * width < 2 ^ 64 := by
    calc height * width < 2 ^ 32 * 2 ^ 32 := Nat.mul_lt_mul'' hheight' hwidth'
      _ = 2 ^ 64 := by norm_num
  constructor
  · intro hreads
    by_contra hnot
    push Not at hnot
    obtain ⟨hmod, hone⟩ := hnot
    have hlaid := laidOut_blackFile hwidth' hheight'
    have hgrants : ∀ granted ∈ (Process.opened (blackFile width height)).grants,
        granted = true := fun _ h => absurd h List.not_mem_nil
    obtain ⟨p', hok, -⟩ := hreads (.opened (blackFile width height)) _ _ hgrants rfl hlaid
    have hbits := fromBmp_of_cut
      ⟨hgrants, rfl, _, hlaid.starts, hlaid.type_eq, rfl, hlaid.width_eq, hlaid.height_eq⟩ hsize
      (not_inFile_blackFile hwidth hwidth' hmod (by omega))
    rw [hok] at hbits
    cases hbits
  · intro hwhen p header pix hgrants hpos hlaid
    refine fromBmp_of_holdsRows
      ⟨hgrants, hpos, header, hlaid.starts, hlaid.type_eq, rfl, hlaid.width_eq,
        hlaid.height_eq⟩ hsize ?_
    intro i hi j hj k hk
    have hbyte := hlaid.holds i hi j hj k hk
    rcases hwhen with hmod | rfl
    · rwa [rowStride_eq hwidth' hmod] at hbyte
    · -- a single row starts where the pixels start
      obtain rfl : i = 0 := by omega
      rwa [Nat.zero_mul] at hbyte ⊢

/-! ## Writing -/

theorem mul64_pixelSize_pos (hwidth : 0 < width) (hwidth' : width < 2 ^ 32) :
    0 < mul64 width pixelSize := by
  rw [mul64_pixelSize (row_lt hwidth')]
  exact Nat.mul_pos (by decide) hwidth

/-- Memory that is all zeros. -/
def allZeros : Garbage := ⟨fun _ => ⟨0, 0, 0⟩, fun _ _ => 0⟩

/-- **Writing** follows the layout when the width is not a multiple of four. -/
theorem writesLayout_iff (hwidth : 0 < img.width) (hwidth' : img.width < 2 ^ 32)
    (hheight : 0 < img.height) (hsize : 3 * img.width * img.height < 2 ^ 64) :
    WritesLayout img ↔ img.width % 4 ≠ 0 := by
  have hrow := row_lt hwidth'
  have hsize' : img.width * img.height < 2 ^ 64 := by
    rw [Nat.mul_assoc] at hsize
    omega
  constructor
  · intro hwrites hmod
    obtain ⟨hstride, hpadding⟩ := rowStride_of_mod_eq_zero hwidth' hmod
    have hok : (toBmp allZeros img .opened).1 = .ok :=
      (toBmp_of_no_failure (mul64_pixelSize_pos hwidth hwidth') rfl).1
    have hlen := (hwrites allZeros .opened rfl hok).2.1
    rw [length_toBmp hwidth hrow rfl hok, hstride, hpadding, Nat.mul_add] at hlen
    omega
  · intro hmod g out hempty hok
    rw [rowStride_eq hwidth' hmod]
    exact ⟨toBmp_starts hwidth hrow hempty hok, length_toBmp hwidth hrow hempty hok,
      holdsRows_toBmp hrow hsize' hempty hok⟩

/-- `zero_padding` is long enough when the width is not a multiple of four. -/
theorem staysInPadding_iff (hwidth : 0 < img.width) (hwidth' : img.width < 2 ^ 32)
    (hheight : 0 < img.height) : StaysInPadding img ↔ img.width % 4 ≠ 0 := by
  constructor
  · intro hstays hmod
    have hcall : ⟨.zeroPadding, 1, calcPadding img.width⟩ ∈ (toBmp allZeros img .opened).2.calls :=
      (toBmp_of_no_failure (mul64_pixelSize_pos hwidth hwidth') rfl).2 hheight
    have hle : 1 * calcPadding img.width ≤ 3 := hstays allZeros .opened rfl _ hcall rfl
    rw [(rowStride_of_mod_eq_zero hwidth' hmod).2] at hle
    omega
  · intro hmod g out hempty c hc hsource
    rw [toBmp_zeroPadding_calls hempty hc hsource]
    show 1 * calcPadding img.width ≤ 3
    rw [calcPadding_eq hwidth']
    unfold pixelSize
    omega

/-- **The codec follows the layout** of the README exactly for the widths that are not
multiples of four; its reading also does for single rows. -/
theorem row_layout_followed (hwidth : 0 < width) (hwidth' : width < 2 ^ 32)
    (hheight : 0 < height) (hheight' : height < 2 ^ 32)
    (hsize : 3 * width * height < 2 ^ 64) :
    (FollowsLayout width height ↔ width % 4 ≠ 0) ∧
      (ReadsLayout width height ↔ width % 4 ≠ 0 ∨ height = 1) := by
  have hreads := readsLayout_iff hwidth hwidth' hheight hheight'
  refine ⟨⟨fun hfollows => ?_, fun hmod => ⟨hreads.mpr (.inl hmod), ?_, ?_⟩⟩, hreads⟩
  · let img : Image := ⟨width, height, ⟨0, fun _ => none⟩⟩
    have hstays : StaysInPadding img := hfollows.stays img rfl rfl
    exact (staysInPadding_iff hwidth hwidth' hheight).mp hstays
  · rintro img rfl rfl
    exact (writesLayout_iff hwidth hwidth' hheight hsize).mpr hmod
  · rintro img rfl rfl
    exact (staysInPadding_iff hwidth hwidth' hheight).mpr hmod

/-- Three columns and two rows are read and written as the README says. -/
theorem row_layout_followed_three_by_two : FollowsLayout 3 2 :=
  (row_layout_followed (by decide) (by decide) (by decide) (by decide)
    (by decide)).1.mpr (by decide)

/-- Four columns and two rows: the file is refused. -/
theorem four_columns_refused :
    LaidOut (blackFile 4 2) (headerOf 4 2) 4 2 (fun _ _ => ⟨0, 0, 0⟩) ∧
      (fromBmp (.opened (blackFile 4 2))).1 = .invalidBits ∧ ¬ FollowsLayout 4 2 := by
  have hlaid : LaidOut (blackFile 4 2) (headerOf 4 2) 4 2 _ :=
    laidOut_blackFile (by decide) (by decide)
  have hgrants : ∀ granted ∈ (Process.opened (blackFile 4 2)).grants, granted = true :=
    fun _ h => absurd h List.not_mem_nil
  have hbits : (fromBmp (.opened (blackFile 4 2))).1 = .invalidBits :=
    fromBmp_of_cut ⟨hgrants, rfl, _, hlaid.starts, rfl, rfl, hlaid.width_eq, hlaid.height_eq⟩
      (by decide) (not_inFile_blackFile (by decide) (by decide) (by decide) (by decide))
  refine ⟨hlaid, hbits, fun hfollows => ?_⟩
  obtain ⟨p', hok, -⟩ := hfollows.reads (.opened (blackFile 4 2)) _ _ hgrants rfl hlaid
  rw [hok] at hbits
  cases hbits

end LowLevel.Analysis
