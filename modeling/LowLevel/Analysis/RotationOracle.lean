import LowLevel.Analysis.BmpRoundTrip
import LowLevel.Analysis.RowPadding
import LowLevel.Interface.BmpComparing
import LowLevel.Interface.RotationLoop

/-!
# The oracle of the rotation tests

`to_bmp` puts the rows `calc_padding` bytes apart, the comparer skips `width % 4` bytes
between them, and takes `3 * width` modulo `2 ^ 32` for the length of a row. The two go
through a file in step when the width is not a multiple of four, or there is one row, and
the product does not wrap. Elsewhere the comparer does not come to the last bytes of the
file, and may look at a byte that `to_bmp` read past the end of `zero_padding`.
-/

set_option autoImplicit false

namespace LowLevel.Analysis

open LowLevel.Library LowLevel.Interface LowLevel.Program.ImageRotation LowLevel.Program.Bmp
open LowLevel.Program.BmpComparison

/-- Every pixel of the image is set. -/
def Whole (img : Image) : Prop := ∀ k < img.width * img.height, ∃ pixel, img.load k = some pixel

/-- The program writes images of these dimensions. -/
structure Writable (img : Image) : Prop where
  width_pos : 0 < img.width
  width_lt : img.width < 2 ^ 32
  height_pos : 0 < img.height
  height_lt : img.height < 2 ^ 32

/-- **The oracle is sound** for two images: however they are written without an error, the
comparer returns `BMP_CMP_EQUALS` on the files exactly when the images are the same. -/
def OracleSound (img img' : Image) : Prop :=
  ∀ (g g' : Garbage) (out out' : OutFile), out.bytes = [] → out'.bytes = [] →
    (toBmp g img out).1 = .ok → (toBmp g' img' out').1 = .ok →
    (bmpCmp ⟨(toBmp g img out).2.bytes, 0⟩ ⟨(toBmp g' img' out').2.bytes, 0⟩ = .equals ↔
      SameImage img img')

/-- The bytes from the start of a row to the start of the next in a written file. -/
def writtenStride (width : ℕ) : ℕ := pixelSize * width + calcPadding width

/-- The bytes from the start of a row to the start of the next in the comparer. -/
def comparedStride (width : ℕ) : ℕ := comparedBytes width + getPadding width

/-- In files of these dimensions the comparer looks at byte `b` of row `i`. -/
def LooksAt (width height i b : ℕ) : Prop :=
  ∃ r < height, r * comparedStride width ≤ i * writtenStride width + b ∧
    i * writtenStride width + b < r * comparedStride width + comparedBytes width

/-- Byte `b` of the pixels of row `i`. -/
def imageByte (img : Image) (i b : ℕ) : Option Byte :=
  (img.load (i * img.width + b / pixelSize)).map (Pixel.byte · (b % pixelSize))

/-- The images differ in a byte that the comparer looks at. -/
def DifferWhereLookedAt (img img' : Image) : Prop :=
  ∃ i < img.height, ∃ b < pixelSize * img.width,
    LooksAt img.width img.height i b ∧ imageByte img i b ≠ imageByte img' i b

/-- The comparer looks at a byte behind `zero_padding`. -/
def LooksBeyond (width height : ℕ) : Prop :=
  ∃ i < height, ∃ b < writtenStride width, pixelSize * width + 3 ≤ b ∧ LooksAt width height i b

variable {img img' : Image} {g g' : Garbage} {out out' : OutFile} {width height : ℕ}

/-! ## The two strides -/

/-- The padding of a written row, by the remainder of the width. -/
theorem calcPadding_cases (hwidth : width < 2 ^ 32) :
    (width % 4 = 0 ∧ calcPadding width = 4) ∨ (width % 4 ≠ 0 ∧ calcPadding width = width % 4) := by
  have hmod : pixelSize * width % 4 = (4 - width % 4) % 4 := by
    unfold pixelSize
    omega
  rw [calcPadding_eq hwidth, hmod]
  omega

theorem comparedBytes_le (width : ℕ) : comparedBytes width ≤ pixelSize * width := by
  rw [comparedBytes, Nat.mul_comm]
  exact Nat.mod_le _ _

/-- The comparer never takes a row to be longer. -/
theorem comparedStride_le (hwidth : width < 2 ^ 32) :
    comparedStride width ≤ writtenStride width := by
  have hbytes := comparedBytes_le width
  unfold comparedStride writtenStride getPadding
  rcases calcPadding_cases hwidth with ⟨_, hpadding⟩ | ⟨_, hpadding⟩ <;> omega

/-- **In step**: the strides agree when the product does not wrap and the width is not a
multiple of four. -/
theorem comparedBytes_of_lt (hwidth : 3 * width < 2 ^ 32) :
    comparedBytes width = pixelSize * width := by
  unfold comparedBytes pixelSize
  omega

theorem comparedStride_eq (hwidth : 3 * width < 2 ^ 32) (hmod : width % 4 ≠ 0) :
    comparedStride width = writtenStride width := by
  unfold comparedStride writtenStride getPadding
  rw [comparedBytes_of_lt hwidth]
  rcases calcPadding_cases (show width < 2 ^ 32 by omega) with ⟨hzero, _⟩ | ⟨_, hpadding⟩ <;> omega

/-- Out of step, the comparer ends before the last byte of the last row. -/
theorem not_looksAt_last (hwidth : 0 < width) (hwidth' : width < 2 ^ 32) (hheight : 0 < height)
    (h : 2 ^ 32 ≤ 3 * width ∨ (width % 4 = 0 ∧ height ≠ 1)) :
    ¬ LooksAt width height (height - 1) (pixelSize * width - 1) := by
  rintro ⟨r, hr, -, hlt⟩
  have hrows : r * comparedStride width ≤ (height - 1) * comparedStride width :=
    Nat.mul_le_mul_right _ (by omega)
  have hbytes := comparedBytes_le width
  unfold pixelSize at hlt hbytes
  rcases h with hwrap | ⟨hmod, hone⟩
  · -- the length of the row wraps
    have hstride : (height - 1) * comparedStride width ≤ (height - 1) * writtenStride width :=
      Nat.mul_le_mul_left _ (comparedStride_le hwidth')
    have hshort : comparedBytes width ≤ 3 * width - 1 := by
      unfold comparedBytes
      omega
    omega
  · -- each row ends four bytes too early
    have hstride : comparedStride width + 4 ≤ writtenStride width := by
      unfold comparedStride writtenStride getPadding pixelSize
      rcases calcPadding_cases hwidth' with ⟨_, hpadding⟩ | ⟨hne, _⟩ <;> omega
    have hrest : (height - 1) * comparedStride width + (height - 1) * 4 ≤
        (height - 1) * writtenStride width := by
      rw [← Nat.mul_add]
      exact Nat.mul_le_mul_left _ hstride
    omega

/-- In step, the comparer looks at every byte of a pixel. -/
theorem looksAt_pixel (hwidth : 3 * width < 2 ^ 32) (h : width % 4 ≠ 0 ∨ height = 1) {i b : ℕ}
    (hi : i < height) (hb : b < pixelSize * width) : LooksAt width height i b := by
  have hbytes := comparedBytes_of_lt hwidth
  refine ⟨i, hi, ?_⟩
  rw [hbytes]
  rcases h with hmod | rfl
  · rw [comparedStride_eq hwidth hmod]
    omega
  · obtain rfl : i = 0 := by omega
    omega

/-- In step, the comparer looks at no byte of the padding. -/
theorem not_looksAt_padding (hwidth : 3 * width < 2 ^ 32) (h : width % 4 ≠ 0 ∨ height = 1)
    {i b : ℕ} (hi : i < height) (hb : pixelSize * width ≤ b) (hb' : b < writtenStride width) :
    ¬ LooksAt width height i b := by
  rintro ⟨r, hr, hge, hlt⟩
  rw [comparedBytes_of_lt hwidth] at hlt
  rcases h with hmod | rfl
  · rw [comparedStride_eq hwidth hmod] at hge hlt
    rcases Nat.lt_or_ge i r with hlater | hearlier
    · have hnext : (i + 1) * writtenStride width ≤ r * writtenStride width :=
        Nat.mul_le_mul_right _ hlater
      rw [Nat.succ_mul] at hnext
      omega
    · have hsame : r * writtenStride width ≤ i * writtenStride width :=
        Nat.mul_le_mul_right _ hearlier
      omega
  · obtain rfl : i = 0 := by omega
    obtain rfl : r = 0 := by omega
    omega

/-! ## The comparer on written files -/

theorem Writable.row_lt (h : Writable img) : img.width * pixelSize < 2 ^ 64 :=
  LowLevel.Interface.row_lt h.width_lt

theorem Writable.size_lt (h : Writable img) : img.width * img.height < 2 ^ 64 :=
  calc img.width * img.height < 2 ^ 32 * 2 ^ 32 := Nat.mul_lt_mul'' h.width_lt h.height_lt
    _ = 2 ^ 64 := by norm_num

/-- The image can be written. -/
theorem Writable.written (h : Writable img) (g : Garbage) : (toBmp g img .opened).1 = .ok :=
  (toBmp_of_no_failure (mul64_pixelSize_pos h.width_pos h.width_lt) rfl).1

/-- So can the other images of its dimensions. -/
theorem Writable.of_dims (h : Writable img) (hwidth : img'.width = img.width)
    (hheight : img'.height = img.height) : Writable img' := by
  obtain ⟨h₁, h₂, h₃, h₄⟩ := h
  constructor
  all_goals simpa only [hwidth, hheight]

/-- The slice of a row is in the written file. -/
theorem slice_le (hwidth : width < 2 ^ 32) {r : ℕ} (hr : r < height) :
    r * comparedStride width + comparedBytes width ≤ height * writtenStride width := by
  have hbytes : comparedBytes width ≤ writtenStride width :=
    (comparedBytes_le width).trans (Nat.le_add_right _ _)
  calc r * comparedStride width + comparedBytes width
      ≤ r * writtenStride width + writtenStride width :=
        Nat.add_le_add (Nat.mul_le_mul_left r (comparedStride_le hwidth)) hbytes
    _ = (r + 1) * writtenStride width := (Nat.succ_mul r _).symm
    _ ≤ height * writtenStride width := Nat.mul_le_mul_right _ hr

/-- The bytes of the slices are the bytes looked at, by row and column. -/
theorem slices_iff (hwidth : width < 2 ^ 32) (height : ℕ) (f f' : ℕ → Option Byte) :
    (∀ r < height, ∀ k < comparedBytes width,
      f (r * comparedStride width + k) = f' (r * comparedStride width + k)) ↔
    ∀ i < height, ∀ b < writtenStride width, LooksAt width height i b →
      f (i * writtenStride width + b) = f' (i * writtenStride width + b) := by
  constructor
  · rintro h i - b - ⟨r, hr, hge, hlt⟩
    have hbyte := h r hr (i * writtenStride width + b - r * comparedStride width) (by omega)
    rwa [Nat.add_sub_cancel' hge] at hbyte
  · intro h r hr k hk
    set q := r * comparedStride width + k with hq
    have hin : q < height * writtenStride width := by
      have := slice_le hwidth hr
      omega
    have hstride : 0 < writtenStride width := Nat.pos_of_mul_pos_left (Nat.zero_lt_of_lt hin)
    have hplace : q / writtenStride width * writtenStride width + q % writtenStride width = q :=
      Nat.div_add_mod' q _
    have hrow : q / writtenStride width < height :=
      Nat.div_lt_of_lt_mul (by rwa [Nat.mul_comm])
    have hbyte := h _ hrow _ (Nat.mod_lt q hstride)
      ⟨r, hr, by rw [hplace]; omega, by rw [hplace]; omega⟩
    rwa [hplace] at hbyte

/-- On two written files of the same dimensions the comparer compares the bytes it looks
at. -/
theorem bmpCmp_written_iff (hdims : Writable img) (hwidth : img'.width = img.width)
    (hheight : img'.height = img.height) (hempty : out.bytes = []) (hempty' : out'.bytes = [])
    (hok : (toBmp g img out).1 = .ok) (hok' : (toBmp g' img' out').1 = .ok) :
    bmpCmp ⟨(toBmp g img out).2.bytes, 0⟩ ⟨(toBmp g' img' out').2.bytes, 0⟩ = .equals ↔
      ∀ i < img.height, ∀ b < writtenStride img.width, LooksAt img.width img.height i b →
        (rowBytes g img (pixelSize * img.width) (calcPadding img.width) i)[b]? =
          (rowBytes g' img' (pixelSize * img.width) (calcPadding img.width) i)[b]? := by
  have hpos := hdims.width_pos
  have hrow := hdims.row_lt
  have hpos' : 0 < img'.width := by rwa [hwidth]
  have hrow' : img'.width * pixelSize < 2 ^ 64 := by rwa [hwidth]
  obtain ⟨hw, hh⟩ := createBmpHeader_dims hdims.width_lt hdims.height_lt
  have hsame : ¬ ((createBmpHeader img).biWidth ≠ (createBmpHeader img').biWidth ∨
      (createBmpHeader img).biHeight ≠ (createBmpHeader img').biHeight) := by
    simp only [createBmpHeader, hwidth, hheight, ne_eq, not_true_eq_false, or_self,
      not_false_eq_true]
  have hlen := length_toBmp hpos hrow hempty hok
  have hlen' := length_toBmp hpos' hrow' hempty' hok'
  rw [hwidth, hheight] at hlen'
  have hbyte : ∀ i < img.height, ∀ b < writtenStride img.width, _ := fun i hi b hb =>
    getElem?_toBmp hpos hrow hempty hok hi hb
  have hbyte' : ∀ i < img'.height, ∀ b < writtenStride img'.width, _ := fun i hi b hb =>
    getElem?_toBmp hpos' hrow' hempty' hok' hi hb
  rw [hwidth, hheight] at hbyte'
  rw [bmpCmp_eq (toBmp_starts hpos hrow hempty hok) (toBmp_starts hpos' hrow' hempty' hok')
    ⟨rfl, rfl⟩ ⟨rfl, rfl⟩, if_neg hsame, hw, hh, cmpRows_eq_iff]
  · have hslices := slices_iff hdims.width_lt img.height
      (fun q => (toBmp g img out).2.bytes[sizeofBmpHeader + q]?)
      (fun q => (toBmp g' img' out').2.bytes[sizeofBmpHeader + q]?)
    simp only [slice_eq_iff, Stream.fseekCur, Nat.add_assoc]
    refine hslices.trans (forall₂_congr fun i hi => forall₂_congr fun b hb => ?_)
    rw [writtenStride, hbyte i hi b hb, hbyte' i hi b hb]
  · intro r hr
    show 54 + r * comparedStride img.width + comparedBytes img.width ≤ _
    have hle := slice_le hdims.width_lt hr
    unfold writtenStride at hle
    rw [hlen]
    unfold sizeofBmpHeader
    omega
  · intro r hr
    show 54 + r * comparedStride img.width + comparedBytes img.width ≤ _
    have hle := slice_le hdims.width_lt hr
    unfold writtenStride at hle
    rw [hlen']
    unfold sizeofBmpHeader
    omega

/-- What is written for a byte of a pixel that is set. -/
theorem getElem?_rowBytes_image (hdims : Writable img) (hwhole : Whole img) {padding i b : ℕ}
    (hi : i < img.height) (hb : b < pixelSize * img.width) :
    (rowBytes g img (pixelSize * img.width) padding i)[b]? = imageByte img i b := by
  have hcol : b / pixelSize < img.width := Nat.div_lt_of_lt_mul hb
  obtain ⟨pixel, hpixel⟩ := hwhole _ (index_lt hi hcol)
  rw [getElem?_rowBytes_pixel hdims.size_lt hi hb, pixelAt, imageByte, hpixel, Option.getD_some,
    Option.map_some]

/-- **What the comparer sees** of two whole images of the same dimensions: the bytes of
their pixels that it looks at, and what was behind `zero_padding`. -/
theorem bmpCmp_images_iff (hdims : Writable img) (hwhole : Whole img) (hwhole' : Whole img')
    (hwidth : img'.width = img.width) (hheight : img'.height = img.height)
    (hempty : out.bytes = []) (hempty' : out'.bytes = [])
    (hok : (toBmp g img out).1 = .ok) (hok' : (toBmp g' img' out').1 = .ok) :
    bmpCmp ⟨(toBmp g img out).2.bytes, 0⟩ ⟨(toBmp g' img' out').2.bytes, 0⟩ = .equals ↔
      ¬ DifferWhereLookedAt img img' ∧
        ∀ i < img.height, ∀ b < writtenStride img.width, pixelSize * img.width + 3 ≤ b →
          LooksAt img.width img.height i b →
          g.beyond i (b - pixelSize * img.width) = g'.beyond i (b - pixelSize * img.width) := by
  have hdims' : Writable img' := hdims.of_dims hwidth hheight
  have himage : ∀ i < img.height, ∀ b < pixelSize * img.width,
      (rowBytes g' img' (pixelSize * img.width) (calcPadding img.width) i)[b]? =
        imageByte img' i b := by
    intro i hi b hb
    rw [← hwidth] at hb ⊢
    exact getElem?_rowBytes_image hdims' hwhole' (by rwa [hheight]) hb
  have hpadding : ∀ {g : Garbage} {img₁ : Image} {i b : ℕ}, pixelSize * img.width ≤ b →
      b < writtenStride img.width →
      (rowBytes g img₁ (pixelSize * img.width) (calcPadding img.width) i)[b]? =
        some (if b - pixelSize * img.width < 3 then 0
          else g.beyond i (b - pixelSize * img.width)) :=
    fun hb hb' => getElem?_rowBytes_padding hb hb'
  rw [bmpCmp_written_iff hdims hwidth hheight hempty hempty' hok hok']
  constructor
  · intro h
    refine ⟨?_, fun i hi b hb hbeyond hlooks => ?_⟩
    · rintro ⟨i, hi, b, hb, hlooks, hne⟩
      have heq := h i hi b (by unfold writtenStride; omega) hlooks
      rw [getElem?_rowBytes_image hdims hwhole hi hb, himage i hi b hb] at heq
      exact hne heq
    · have heq := h i hi b hb hlooks
      rw [hpadding (by omega) hb, hpadding (by omega) hb, if_neg (by omega), if_neg (by omega)]
        at heq
      exact Option.some.inj heq
  · rintro ⟨hpixels, hbeyond⟩ i hi b hb hlooks
    by_cases hpixel : b < pixelSize * img.width
    · rw [getElem?_rowBytes_image hdims hwhole hi hpixel, himage i hi b hpixel]
      by_contra hne
      exact hpixels ⟨i, hi, b, hpixel, hlooks, hne⟩
    · rw [hpadding (by omega) hb, hpadding (by omega) hb]
      by_cases hzero : b - pixelSize * img.width < 3
      · rw [if_pos hzero, if_pos hzero]
      · rw [if_neg hzero, if_neg hzero, hbeyond i hi b hb (by omega) hlooks]

theorem imageByte_eq (img : Image) {i j k : ℕ} (hk : k < pixelSize) :
    imageByte img i (pixelSize * j + k) = (img.load (i * img.width + j)).map (Pixel.byte · k) := by
  rw [imageByte, Nat.mul_add_div (by decide), Nat.div_eq_of_lt hk, Nat.add_zero, Nat.mul_add_mod,
    Nat.mod_eq_of_lt hk]

/-- Three bytes are a pixel. -/
theorem pixel_ext {pixel pixel' : Pixel}
    (h : ∀ k < pixelSize, Pixel.byte pixel k = Pixel.byte pixel' k) : pixel = pixel' := by
  obtain ⟨b, g, r⟩ := pixel
  obtain ⟨b', g', r'⟩ := pixel'
  have hb : b = b' := h 0 (by decide)
  have hg : g = g' := h 1 (by decide)
  have hr : r = r' := h 2 (by decide)
  rw [hb, hg, hr]

/-- Two whole images of the same dimensions are the same when their bytes are. -/
theorem sameImage_of_bytes (hwhole : Whole img) (hwhole' : Whole img')
    (hwidth : img'.width = img.width) (hheight : img'.height = img.height)
    (h : ∀ i < img.height, ∀ b < pixelSize * img.width, imageByte img i b = imageByte img' i b) :
    SameImage img img' := by
  refine ⟨hwidth.symm, hheight.symm, fun k hk => ?_⟩
  have hpos : 0 < img.width := Nat.pos_of_mul_pos_right (Nat.zero_lt_of_lt hk)
  have hrow : k / img.width < img.height := Nat.div_lt_of_lt_mul hk
  have hcol : k % img.width < img.width := Nat.mod_lt k hpos
  obtain ⟨pixel, hpixel⟩ := hwhole k hk
  obtain ⟨pixel', hpixel'⟩ := hwhole' k (by rwa [hwidth, hheight])
  rw [hpixel, hpixel']
  refine congrArg some (pixel_ext fun c hc => ?_)
  have hbyte := h _ hrow (pixelSize * (k % img.width) + c) (by unfold pixelSize at hc ⊢; omega)
  rw [imageByte_eq img hc, imageByte_eq img' hc, hwidth, Nat.div_add_mod' k, hpixel, hpixel']
    at hbyte
  exact Option.some.inj hbyte

/-- The same images do not differ anywhere. -/
theorem imageByte_eq_of_same (h : SameImage img img') {i b : ℕ} (hi : i < img.height)
    (hb : b < pixelSize * img.width) : imageByte img i b = imageByte img' i b := by
  have hcol : b / pixelSize < img.width := Nat.div_lt_of_lt_mul hb
  rw [imageByte, imageByte, ← h.width_eq, h.load_eq _ (index_lt hi hcol)]

/-! ## Soundness -/

/-- Files of images of other dimensions are told apart. -/
theorem oracleSound_of_dims (hdims : Writable img) (hdims' : Writable img')
    (h : img.width ≠ img'.width ∨ img.height ≠ img'.height) : OracleSound img img' := by
  intro g g' out out' hempty hempty' hok hok'
  obtain ⟨hw, hh⟩ := createBmpHeader_dims hdims.width_lt hdims.height_lt
  obtain ⟨hw', hh'⟩ := createBmpHeader_dims hdims'.width_lt hdims'.height_lt
  have hdiffer : (createBmpHeader img).biWidth ≠ (createBmpHeader img').biWidth ∨
      (createBmpHeader img).biHeight ≠ (createBmpHeader img').biHeight := by
    refine h.imp (fun h heq => h ?_) (fun h heq => h ?_)
    · rw [← hw, ← hw', heq]
    · rw [← hh, ← hh', heq]
  rw [bmpCmp_eq (toBmp_starts hdims.width_pos hdims.row_lt hempty hok)
    (toBmp_starts hdims'.width_pos hdims'.row_lt hempty' hok') ⟨rfl, rfl⟩ ⟨rfl, rfl⟩,
    if_pos hdiffer]
  refine ⟨fun heq => absurd heq (by decide), fun hsame => ?_⟩
  exact absurd ⟨hsame.width_eq, hsame.height_eq⟩ (not_and_or.mpr h)

/-- **For two images of the same dimensions** the oracle is sound when it sees a difference
of theirs, or when they are the same and it sees nothing else. -/
theorem oracleSound_iff_of_dims (hdims : Writable img) (hwhole : Whole img)
    (hwhole' : Whole img') (hwidth : img'.width = img.width) (hheight : img'.height = img.height) :
    OracleSound img img' ↔ DifferWhereLookedAt img img' ∨
      (SameImage img img' ∧ ¬ LooksBeyond img.width img.height) := by
  have hseen : ∀ {g g' : Garbage} {out out' : OutFile}, out.bytes = [] → out'.bytes = [] →
      (toBmp g img out).1 = .ok → (toBmp g' img' out').1 = .ok → _ :=
    fun hempty hempty' hok hok' =>
      bmpCmp_images_iff hdims hwhole hwhole' hwidth hheight hempty hempty' hok hok'
  have hwritten := hdims.written
  have hwritten' := (hdims.of_dims hwidth hheight).written
  constructor
  · intro hsound
    by_cases hdiffer : DifferWhereLookedAt img img'
    · exact .inl hdiffer
    have hzeros := hsound allZeros allZeros .opened .opened rfl rfl (hwritten _) (hwritten' _)
    have hsame : SameImage img img' := by
      rw [← hzeros, hseen rfl rfl (hwritten _) (hwritten' _)]
      exact ⟨hdiffer, fun _ _ _ _ _ _ => rfl⟩
    refine .inr ⟨hsame, ?_⟩
    rintro ⟨i, hi, b, hb, hbeyond, hlooks⟩
    -- the bytes behind `zero_padding` differ
    have hones := (hsound allZeros allOnes .opened .opened rfl rfl (hwritten _)
      (hwritten' _)).mpr hsame
    rw [hseen rfl rfl (hwritten _) (hwritten' _)] at hones
    have hbyte : (0 : Byte) = 0xFF := hones.2 i hi b hb hbeyond hlooks
    exact absurd hbyte (by decide)
  · rintro (⟨i, hi, b, hb, hlooks, hne⟩ | ⟨hsame, hbeyond⟩) g g' out out' hempty hempty' hok hok'
    · rw [hseen hempty hempty' hok hok']
      refine ⟨fun h => absurd ⟨i, hi, b, hb, hlooks, hne⟩ h.1, fun hsame => ?_⟩
      exact absurd (imageByte_eq_of_same hsame hi hb) hne
    · rw [hseen hempty hempty' hok hok']
      refine ⟨fun _ => hsame, fun _ => ⟨?_, fun i hi b hb hge hlooks => ?_⟩⟩
      · rintro ⟨i, hi, b, hb, -, hne⟩
        exact hne (imageByte_eq_of_same hsame hi hb)
      · exact absurd ⟨i, hi, b, hb, hge, hlooks⟩ hbeyond

/-- The oracle is sound for all images of these dimensions. -/
def OracleSoundFor (width height : ℕ) : Prop :=
  ∀ img img' : Image, Whole img → Whole img' → img.width = width → img.height = height →
    img'.width = width → img'.height = height → OracleSound img img'

/-- In step, the comparer sees every difference and nothing else. -/
theorem oracleSound_of_step (hdims : Writable img) (hwhole : Whole img) (hwhole' : Whole img')
    (hwidth : img'.width = img.width) (hheight : img'.height = img.height)
    (hrow : 3 * img.width < 2 ^ 32) (hstep : img.width % 4 ≠ 0 ∨ img.height = 1) :
    OracleSound img img' := by
  rw [oracleSound_iff_of_dims hdims hwhole hwhole' hwidth hheight]
  by_cases hdiffer : DifferWhereLookedAt img img'
  · exact .inl hdiffer
  · refine .inr ⟨sameImage_of_bytes hwhole hwhole' hwidth hheight fun i hi b hb => ?_, ?_⟩
    · by_contra hne
      exact hdiffer ⟨i, hi, b, hb, looksAt_pixel hrow hstep hi hb, hne⟩
    · rintro ⟨i, hi, b, hb, hbeyond, hlooks⟩
      exact not_looksAt_padding hrow hstep hi (by omega) hb hlooks

/-- The image of these dimensions with `last` for its last pixel and black elsewhere. -/
def blackBut (width height : ℕ) (last : Pixel) : Image :=
  ⟨width, height, ⟨0, fun k => some (if k + 1 = width * height then last else ⟨0, 0, 0⟩)⟩⟩

theorem whole_blackBut (width height : ℕ) (last : Pixel) : Whole (blackBut width height last) :=
  fun _ _ => ⟨_, rfl⟩

/-- The last pixel is in the last column of the last row. -/
theorem last_place {i j : ℕ} (hi : i < height) (hj : j < width)
    (hlast : i * width + j + 1 = width * height) : i = height - 1 ∧ j = width - 1 := by
  have hsize : (height - 1) * width + width = width * height := by
    rw [← Nat.succ_mul, Nat.succ_eq_add_one, Nat.sub_add_cancel (by omega), Nat.mul_comm]
  exact index_injective hj (by omega) (by omega)

/-- Out of step, the comparer misses the last byte. -/
theorem not_differ_blackBut (hwidth : 0 < width) (hwidth' : width < 2 ^ 32)
    (hheight : 0 < height) (h : 2 ^ 32 ≤ 3 * width ∨ (width % 4 = 0 ∧ height ≠ 1)) :
    ¬ DifferWhereLookedAt (blackBut width height ⟨0, 0, 0⟩) (blackBut width height ⟨0, 0, 1⟩) := by
  rintro ⟨i, hi, b, hb, hlooks, hne⟩
  have hcol : b / pixelSize < width := Nat.div_lt_of_lt_mul hb
  have hlast : i * width + b / pixelSize + 1 = width * height := by
    by_contra hother
    apply hne
    simp only [imageByte, Image.load, blackBut, if_neg hother]
  have hred : b % pixelSize = 2 := by
    by_contra hother
    apply hne
    have hsmall : b % pixelSize = 0 ∨ b % pixelSize = 1 := by
      have : b % pixelSize < 3 := Nat.mod_lt b (by decide)
      omega
    simp only [imageByte, Image.load, blackBut, if_pos hlast, Option.map_some]
    rcases hsmall with hzero | hone
    · rw [hzero]
      rfl
    · rw [hone]
      rfl
  obtain ⟨rfl, hend⟩ := last_place hi hcol hlast
  have hbyte : b = pixelSize * width - 1 := by
    unfold pixelSize at hred hend ⊢
    omega
  rw [hbyte] at hlooks
  exact not_looksAt_last hwidth hwidth' hheight h hlooks

theorem not_sameImage_blackBut (hwidth : 0 < width) (hheight : 0 < height) :
    ¬ SameImage (blackBut width height ⟨0, 0, 0⟩) (blackBut width height ⟨0, 0, 1⟩) := by
  intro hsame
  have hpos : 0 < width * height := Nat.mul_pos hwidth hheight
  have hlast : width * height - 1 + 1 = width * height := Nat.sub_add_cancel hpos
  have hload := hsame.load_eq (width * height - 1) (Nat.sub_lt hpos one_pos)
  simp only [Image.load, blackBut] at hload
  rw [if_pos hlast, if_pos hlast] at hload
  exact absurd hload (by decide)

theorem not_oracleSound_blackBut (hwidth : 0 < width) (hwidth' : width < 2 ^ 32)
    (hheight : 0 < height) (hheight' : height < 2 ^ 32)
    (h : 2 ^ 32 ≤ 3 * width ∨ (width % 4 = 0 ∧ height ≠ 1)) :
    ¬ OracleSound (blackBut width height ⟨0, 0, 0⟩) (blackBut width height ⟨0, 0, 1⟩) := by
  have hiff : OracleSound (blackBut width height ⟨0, 0, 0⟩) (blackBut width height ⟨0, 0, 1⟩) ↔ _ :=
    oracleSound_iff_of_dims ⟨hwidth, hwidth', hheight, hheight'⟩ (whole_blackBut _ _ _)
      (whole_blackBut _ _ _) rfl rfl
  rw [hiff, not_or]
  exact ⟨not_differ_blackBut hwidth hwidth' hheight h,
    fun hsame => not_sameImage_blackBut hwidth hheight hsame.1⟩

/-- **The oracle is sound** for two images when they differ in their dimensions or in a byte
that the comparer looks at, or are the same and it looks at no byte behind `zero_padding`.
For all images of given dimensions that is so exactly when the length of a row does not
wrap, and the width is not a multiple of four or there is one row. -/
theorem oracle_sound_iff (hdims : Writable img) (hdims' : Writable img') (hwhole : Whole img)
    (hwhole' : Whole img') :
    (OracleSound img img' ↔ (img.width ≠ img'.width ∨ img.height ≠ img'.height) ∨
      DifferWhereLookedAt img img' ∨
      (SameImage img img' ∧ ¬ LooksBeyond img.width img.height)) ∧
    (OracleSoundFor img.width img.height ↔
      3 * img.width < 2 ^ 32 ∧ (img.width % 4 ≠ 0 ∨ img.height = 1)) := by
  constructor
  · by_cases hsizes : img.width ≠ img'.width ∨ img.height ≠ img'.height
    · exact iff_of_true (oracleSound_of_dims hdims hdims' hsizes) (.inl hsizes)
    · rw [or_iff_right hsizes]
      obtain ⟨hwidth, hheight⟩ := not_or.mp hsizes
      exact oracleSound_iff_of_dims hdims hwhole hwhole' (not_not.mp hwidth).symm
        (not_not.mp hheight).symm
  · constructor
    · intro hsound
      by_contra hout
      refine not_oracleSound_blackBut hdims.width_pos hdims.width_lt hdims.height_pos
        hdims.height_lt ?_
        (hsound _ _ (whole_blackBut _ _ _) (whole_blackBut _ _ _) rfl rfl rfl rfl)
      omega
    · rintro ⟨hrow, hstep⟩ a b ha hb hwa hha hwb hhb
      refine oracleSound_of_step (hdims.of_dims hwa hha) ha hb (by rw [hwb, hwa])
        (by rw [hhb, hha]) ?_ ?_
      · rwa [hwa]
      · rwa [hwa, hha]

/-- A black image of five columns and two rows is told from one with another last pixel. -/
theorem oracle_sound_iff_five_by_two :
    OracleSound (blackBut 5 2 ⟨0, 0, 0⟩) (blackBut 5 2 ⟨0, 0, 1⟩) :=
  (oracle_sound_iff
    (show Writable (blackBut 5 2 ⟨0, 0, 0⟩) from ⟨by decide, by decide, by decide, by decide⟩)
    (show Writable (blackBut 5 2 ⟨0, 0, 1⟩) from ⟨by decide, by decide, by decide, by decide⟩)
    (whole_blackBut _ _ _) (whole_blackBut _ _ _)).2.mpr (by decide) _ _ (whole_blackBut _ _ _)
    (whole_blackBut _ _ _) rfl rfl rfl rfl

/-- With four columns and two rows the two files are taken for equal. -/
theorem different_images_pass :
    (toBmp allZeros (blackBut 4 2 ⟨0, 0, 0⟩) .opened).1 = .ok ∧
      (toBmp allZeros (blackBut 4 2 ⟨0, 0, 1⟩) .opened).1 = .ok ∧
      bmpCmp ⟨(toBmp allZeros (blackBut 4 2 ⟨0, 0, 0⟩) .opened).2.bytes, 0⟩
        ⟨(toBmp allZeros (blackBut 4 2 ⟨0, 0, 1⟩) .opened).2.bytes, 0⟩ = .equals ∧
      ¬ SameImage (blackBut 4 2 ⟨0, 0, 0⟩) (blackBut 4 2 ⟨0, 0, 1⟩) := by
  have hdims : Writable (blackBut 4 2 ⟨0, 0, 0⟩) := ⟨by decide, by decide, by decide, by decide⟩
  have hdims' : Writable (blackBut 4 2 ⟨0, 0, 1⟩) := hdims.of_dims rfl rfl
  have hempty : OutFile.opened.bytes = [] := rfl
  have hseen := bmpCmp_images_iff hdims (whole_blackBut 4 2 ⟨0, 0, 0⟩)
    (whole_blackBut 4 2 ⟨0, 0, 1⟩) rfl rfl hempty hempty (hdims.written allZeros)
    (hdims'.written allZeros)
  refine ⟨hdims.written _, hdims'.written _, hseen.mpr ⟨?_, fun _ _ _ _ _ _ => rfl⟩,
    not_sameImage_blackBut (by decide) (by decide)⟩
  exact not_differ_blackBut (by decide) (by decide) (by decide) (by decide)

end LowLevel.Analysis
