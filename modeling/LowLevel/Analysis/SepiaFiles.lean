import LowLevel.Analysis.DecodedFiles
import LowLevel.Analysis.SepiaFilters

/-!
# The two files of the sepia program

The sepia program reads an image, filters it with both filters and writes two files. With sums that
are exact, the first holds the picture of the source file with every pixel filtered, and the second
holds one that is brighter by one at most, anywhere. `simd_filter` is looked at by itself: not what
it does to the three bytes behind the copy, nor to the registers of its caller.
-/

set_option autoImplicit false

namespace LowLevel.Analysis

open LowLevel.Library LowLevel.Library.X86 LowLevel.Interface LowLevel.Interface.Sepia
open LowLevel.Program.ImageRotation LowLevel.Program.SepiaFilter LowLevel.Program.Bmp
open LowLevel.Program.ImageTransformer

variable {content : List Byte} {grants : List Bool} {pic : Picture Pixel} {img : Image}

/-- The image that `filter_asm` returns: the copy, with the pixels that are in memory behind
`data`. -/
def filteredImage (out : Image) (m : Memory) (data : Word) : Image :=
  { out with
    data := ⟨out.data.bytes, fun k => some (loadPixel m (data + BitVec.ofNat 64 (3 * k)))⟩ }

/-! ## One pixel -/

/-- A colour is the same or one more. -/
def UpToOne (c c' : Byte) : Prop := c'.toNat = c.toNat ∨ c'.toNat = c.toNat + 1

/-- Every colour of the pixel is the same or one more. -/
def UpToOneBrighter (p p' : Pixel) : Prop := UpToOne p.b p'.b ∧ UpToOne p.g p'.g ∧ UpToOne p.r p'.r

theorem upToOne_asmByte (v : ℕ) : UpToOne (sat (v / 1000)) (asmByte v) := by
  have hle := rounded_le v
  have hge : v / 1000 ≤ rounded v := by
    unfold rounded
    split_ifs <;> omega
  unfold UpToOne
  rw [sat_eq, asmByte, BitVec.toNat_ofNat, BitVec.toNat_ofNat, Nat.mod_eq_of_lt (by omega),
    Nat.mod_eq_of_lt (by omega)]
  omega

theorem upToOneBrighter_asmPixel (p : Pixel) : UpToOneBrighter (filterPixel p) (asmPixel p) :=
  ⟨upToOne_asmByte _, upToOne_asmByte _, upToOne_asmByte _⟩

/-! ## The filters on pictures -/

/-- An image with `f` of every pixel has the picture with `f` of every cell. -/
theorem picture_eq_map {out : Image} {f : Pixel → Pixel} (hpic : picture img = pic.map some)
    (hwidth : out.width = img.width) (hheight : out.height = img.height)
    (hload : ∀ k < img.width * img.height, ∀ p, img.load k = some p → out.load k = some (f p)) :
    picture out = (pic.map f).map some := by
  obtain ⟨rows, cols, cell⟩ := pic
  obtain ⟨width, height, data⟩ := out
  obtain rfl : width = img.width := hwidth
  obtain rfl : height = img.height := hheight
  simp only [picture, Picture.map, Picture.mk.injEq] at hpic
  obtain ⟨rfl, rfl, hcell⟩ := hpic
  refine Picture.mk_congr fun i j => ?_
  exact hload _ (index_lt i.isLt j.isLt) _ (congrFun (congrFun (eq_of_heq hcell) i) j)

theorem dims_copyImage (hsize : img.width * img.height < 2 ^ 64) :
    (copyImage img).width = img.width ∧ (copyImage img).height = img.height := by
  have hsame := sameImage_of_picture_eq (picture_copyImage hsize)
  exact ⟨hsame.width_eq, hsame.height_eq⟩

/-- The loop of `filter_c` stores to pixels only. -/
theorem dims_filterPixels (out : Image) (n : ℕ) :
    ((List.range n).foldl (fun out i => out.store i ((out.load i).map filterPixel)) out).width =
      out.width ∧
    ((List.range n).foldl (fun out i => out.store i ((out.load i).map filterPixel)) out).height =
      out.height := by
  induction n with
  | zero => exact ⟨rfl, rfl⟩
  | succ n ih =>
      rw [List.range_succ, List.foldl_append]
      exact ih

theorem dims_filterC (hsize : img.width * img.height < 2 ^ 64) :
    (filterC img).width = img.width ∧ (filterC img).height = img.height := by
  obtain ⟨hwidth, hheight⟩ := dims_copyImage hsize
  obtain ⟨hwidth', hheight'⟩ := dims_filterPixels (copyImage img)
    (mul64 (copyImage img).height (copyImage img).width)
  exact ⟨hwidth'.trans hwidth, hheight'.trans hheight⟩

/-- **`filter_c`** filters the picture. -/
theorem picture_filterC (hsize : img.width * img.height < 2 ^ 64)
    (hpic : picture img = pic.map some) :
    picture (filterC img) = (pic.map filterPixel).map some := by
  obtain ⟨hwidth, hheight⟩ := dims_filterC hsize
  refine picture_eq_map hpic hwidth hheight fun k hk p hp => ?_
  rw [load_filterC hsize hk, hp, Option.map_some]

/-- **`filter_asm`** returns the picture of what `simd_filter` leaves. -/
theorem picture_filteredImage (hsize : img.width * img.height < 2 ^ 64)
    (hpic : picture img = pic.map some) {m : Memory} {data : Word}
    (hpixels : ∀ k < img.width * img.height, ∀ p, img.load k = some p →
      loadPixel m (data + BitVec.ofNat 64 (3 * k)) = asmPixel p) :
    picture (filteredImage (copyImage img) m data) = (pic.map asmPixel).map some := by
  obtain ⟨hwidth, hheight⟩ := dims_copyImage hsize
  refine picture_eq_map hpic hwidth hheight fun k hk p hp => ?_
  exact congrArg some (hpixels k hk p hp)

/-! ## From the file to the files -/

/-- `to_bmp` succeeds, and the file holds the picture. -/
def Writes (g : Garbage) (img : Image) (pic : Picture Pixel) : Prop :=
  (toBmp g img .opened).1 = .ok ∧ decoded (toBmp g img .opened).2.bytes = some pic

theorem writes_of_picture (g : Garbage) (hpic : picture img = pic.map some)
    (hpos : 0 < pic.cols * pic.rows) (hcols : pic.cols < 2 ^ 32) (hrows : pic.rows < 2 ^ 32) :
    Writes g img pic := by
  have hwidth : img.width = pic.cols := congrArg Picture.cols hpic
  have hheight : img.height = pic.rows := congrArg Picture.rows hpic
  have hpos' : 0 < img.width := hwidth ▸ Nat.pos_of_mul_pos_right hpos
  have hmul : 0 < mul64 img.width pixelSize := by
    rw [mul64_pixelSize (row_lt (hwidth ▸ hcols))]
    exact Nat.mul_pos (by decide) hpos'
  have hok : (toBmp g img .opened).1 = .ok := (toBmp_of_no_failure hmul rfl).1
  refine ⟨hok, decoded_toBmp hpos' (hwidth ▸ hcols) (hheight ▸ hrows) ?_ rfl hok hpic⟩
  rw [hwidth, hheight]
  exact (Nat.mul_lt_mul'' hcols hrows).trans_le (by norm_num)

/-- Two filters make the same picture when they agree on its cells. -/
theorem map_eq_map_iff {f f' : Pixel → Pixel} :
    pic.map f = pic.map f' ↔ ∀ i j, f (pic.cell i j) = f' (pic.cell i j) := by
  simp only [Picture.map, Picture.mk.injEq, heq_eq_eq, true_and]
  exact ⟨fun h i j => congrFun (congrFun h i) j, fun h => funext fun i => funext fun j => h i j⟩

/-- The picture of one dark pixel. -/
def darkPicture : Picture Pixel := ⟨1, 1, fun _ _ => ⟨1, 1, 1⟩⟩

/-- A file with this picture. -/
def darkFile : List Byte := (toBmp allOnes (onePixelImage ⟨1, 1, 1⟩) .opened).2.bytes

theorem decoded_darkFile : decoded darkFile = some darkPicture := by
  have hpic : picture (onePixelImage ⟨1, 1, 1⟩) = darkPicture.map some := by
    refine Picture.mk_congr fun i j => ?_
    obtain rfl := Fin.fin_one_eq_zero i
    obtain rfl := Fin.fin_one_eq_zero j
    rfl
  exact (writes_of_picture allOnes hpic (by decide) (by decide) (by decide)).2

end LowLevel.Analysis
