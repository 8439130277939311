import LowLevel.Interface.BmpWriting
import LowLevel.Program.BmpComparison

/-!
# What the comparer compares

While both files are long enough, `file_cmp` compares the next `sz` bytes of them chunk by
chunk and `bmp_cmp` one such slice a row, `getPadding` bytes apart. The bytes of a file
that `to_bmp` wrote are known by their place in the row.
-/

set_option autoImplicit false

namespace LowLevel.Interface

open LowLevel.Library LowLevel.Program.ImageRotation LowLevel.Program.Bmp
open LowLevel.Program.BmpComparison

/-! ## `file_cmp` -/

/-- The `n` bytes from the position of the stream on. -/
def slice (n : ℕ) (f : Stream) : List Byte := (f.content.drop f.pos).take n

variable {f1 f2 : Stream} {m n : ℕ}

theorem fread_eq (n : ℕ) (f : Stream) :
    f.fread n = (slice n f, f.fseekCur (slice n f).length) := rfl

theorem fseekCur_fseekCur (f : Stream) (m n : ℕ) :
    (f.fseekCur m).fseekCur n = f.fseekCur (m + n) := by
  rw [Stream.fseekCur, Stream.fseekCur, Stream.fseekCur, Nat.add_assoc]

theorem length_slice {f : Stream} (h : f.pos + n ≤ f.content.length) :
    (slice n f).length = n := by
  rw [slice, List.length_take, List.length_drop]
  omega

/-- A slice in two parts. -/
theorem slice_add (m n : ℕ) (f : Stream) :
    slice (m + n) f = slice m f ++ slice n (f.fseekCur m) := by
  rw [slice, slice, slice, List.take_add, List.drop_drop]
  rfl

theorem slice_eq_iff : slice n f1 = slice n f2 ↔
    ∀ k < n, f1.content[f1.pos + k]? = f2.content[f2.pos + k]? := by
  have hget : ∀ (f : Stream) k, k < n → (slice n f)[k]? = f.content[f.pos + k]? := by
    intro f k hk
    rw [slice, List.getElem?_take_of_lt hk, List.getElem?_drop]
  constructor
  · intro h k hk
    rw [← hget f1 k hk, ← hget f2 k hk, h]
  · intro h
    refine List.ext_getElem? fun k => ?_
    by_cases hk : k < n
    · rw [hget f1 k hk, hget f2 k hk, h k hk]
    · rw [slice, slice, List.getElem?_take, List.getElem?_take, if_neg hk, if_neg hk]

/-- One chunk of `file_cmp`, when both files have it. -/
theorem fileCmp_chunk (hn : n ≠ 0) (h1 : f1.pos + n ≤ f1.content.length)
    (h2 : f2.pos + n ≤ f2.content.length) :
    fileCmp n f1 f2 =
      if slice (min cmpBufferSize n) f1 ≠ slice (min cmpBufferSize n) f2 then
        (.diff, f1.fseekCur (min cmpBufferSize n), f2.fseekCur (min cmpBufferSize n))
      else if n < cmpBufferSize then (.eq, f1.fseekCur n, f2.fseekCur n)
      else fileCmp (n - cmpBufferSize) (f1.fseekCur cmpBufferSize) (f2.fseekCur cmpBufferSize) := by
  have hlen1 : (slice (min cmpBufferSize n) f1).length = min cmpBufferSize n :=
    length_slice (by omega)
  have hlen2 : (slice (min cmpBufferSize n) f2).length = min cmpBufferSize n :=
    length_slice (by omega)
  rw [fileCmp, if_neg hn]
  dsimp only
  rw [fread_eq, fread_eq, hlen1, hlen2]
  dsimp only
  rw [cmpChunk, hlen1, hlen2, if_pos rfl]
  by_cases hdiff : slice (min cmpBufferSize n) f1 ≠ slice (min cmpBufferSize n) f2
  · rw [if_pos hdiff, if_pos hdiff]
  · rw [if_neg hdiff, if_neg hdiff]
    by_cases hlast : n < cmpBufferSize
    · rw [if_neg (by omega), if_pos hlast, Nat.min_eq_right (by omega)]
    · rw [if_pos (by omega), if_neg hlast, Nat.min_eq_left (by omega)]

/-- **`file_cmp`** on files that are long enough compares the slices, and stands behind
them when they agree. -/
theorem fileCmp_of_le (h1 : f1.pos + n ≤ f1.content.length) (h2 : f2.pos + n ≤ f2.content.length) :
    (slice n f1 = slice n f2 → fileCmp n f1 f2 = (.eq, f1.fseekCur n, f2.fseekCur n)) ∧
      (slice n f1 ≠ slice n f2 → (fileCmp n f1 f2).1 = .diff) := by
  induction n using Nat.strong_induction_on generalizing f1 f2 with
  | _ n ih =>
      by_cases hn : n = 0
      · subst hn
        refine ⟨fun _ => ?_, fun h => absurd rfl h⟩
        rw [fileCmp, if_pos rfl]
        rfl
      rw [fileCmp_chunk hn h1 h2]
      by_cases hlast : n < cmpBufferSize
      · rw [Nat.min_eq_right (by omega)]
        constructor
        · intro heq
          rw [if_neg (not_not.mpr heq), if_pos hlast]
        · intro hne
          rw [if_pos hne]
      · -- a whole buffer, and the rest
        have hbuffer : 0 < cmpBufferSize := by decide
        rw [Nat.min_eq_left (by omega), if_neg hlast]
        have hsplit : ∀ f, slice n f = slice cmpBufferSize f ++
            slice (n - cmpBufferSize) (f.fseekCur cmpBufferSize) := by
          intro f
          rw [← slice_add, Nat.add_sub_cancel' (by omega)]
        have hin : ∀ f : Stream, f.pos + n ≤ f.content.length →
            (f.fseekCur cmpBufferSize).pos + (n - cmpBufferSize) ≤
              (f.fseekCur cmpBufferSize).content.length := by
          intro f hf
          show f.pos + cmpBufferSize + (n - cmpBufferSize) ≤ f.content.length
          omega
        have hrest := ih (n - cmpBufferSize) (by omega) (hin f1 h1) (hin f2 h2)
        have hseek : ∀ f : Stream,
            (f.fseekCur cmpBufferSize).fseekCur (n - cmpBufferSize) = f.fseekCur n := by
          intro f
          rw [fseekCur_fseekCur, Nat.add_sub_cancel' (by omega)]
        rw [hseek, hseek] at hrest
        rw [hsplit f1, hsplit f2]
        by_cases hfirst : slice cmpBufferSize f1 = slice cmpBufferSize f2
        · rw [if_neg (not_not.mpr hfirst), hfirst]
          refine ⟨fun h => hrest.1 (List.append_cancel_left h), fun h => hrest.2 fun hsame => ?_⟩
          exact h (by rw [hsame])
        · rw [if_pos hfirst]
          refine ⟨fun h => absurd (List.append_inj_left h ?_) hfirst, fun _ => rfl⟩
          rw [length_slice (by omega), length_slice (by omega)]

/-! ## `bmp_cmp` -/

/-- A row that both files have decides, or the next one does. -/
theorem cmpRows_succ {width : ℕ} (padding : ℕ)
    (h1 : f1.pos + comparedBytes width ≤ f1.content.length)
    (h2 : f2.pos + comparedBytes width ≤ f2.content.length) :
    cmpRows width padding (n + 1) f1 f2 =
      if slice (comparedBytes width) f1 = slice (comparedBytes width) f2 then
        cmpRows width padding n (f1.fseekCur (comparedBytes width + padding))
          (f2.fseekCur (comparedBytes width + padding))
      else .diff := by
  obtain ⟨hsame, hdiff⟩ := fileCmp_of_le h1 h2
  rw [cmpRows]
  by_cases heq : slice (comparedBytes width) f1 = slice (comparedBytes width) f2
  · rw [hsame heq, if_pos heq]
    dsimp only
    rw [fseekCur_fseekCur, fseekCur_fseekCur]
  · rw [if_neg heq]
    have hdiff := hdiff heq
    rcases hcmp : fileCmp (comparedBytes width) f1 f2 with ⟨result, f1', f2'⟩
    rw [hcmp] at hdiff
    dsimp only at hdiff
    rw [hdiff]

/-- **The rows**: the comparer ends with `BMP_CMP_EQUALS` when the slices of all rows
agree. -/
theorem cmpRows_eq_iff {width padding : ℕ}
    (h1 : ∀ r < n, f1.pos + r * (comparedBytes width + padding) + comparedBytes width ≤
      f1.content.length)
    (h2 : ∀ r < n, f2.pos + r * (comparedBytes width + padding) + comparedBytes width ≤
      f2.content.length) :
    cmpRows width padding n f1 f2 = .equals ↔ ∀ r < n,
      slice (comparedBytes width) (f1.fseekCur (r * (comparedBytes width + padding))) =
        slice (comparedBytes width) (f2.fseekCur (r * (comparedBytes width + padding))) := by
  induction n generalizing f1 f2 with
  | zero => exact ⟨fun _ r hr => absurd hr (Nat.not_lt_zero r), fun _ => rfl⟩
  | succ n ih =>
      set row := comparedBytes width
      have hfirst1 : f1.pos + row ≤ f1.content.length := by simpa using h1 0 (by omega)
      have hfirst2 : f2.pos + row ≤ f2.content.length := by simpa using h2 0 (by omega)
      have hseek : ∀ (f : Stream) r, (f.fseekCur (row + padding)).fseekCur
          (r * (row + padding)) = f.fseekCur ((r + 1) * (row + padding)) := by
        intro f r
        rw [fseekCur_fseekCur, Nat.succ_mul, Nat.add_comm]
      have hin : ∀ f : Stream, (∀ r < n + 1,
          f.pos + r * (row + padding) + row ≤ f.content.length) →
          ∀ r < n, (f.fseekCur (row + padding)).pos + r * (row + padding) + row ≤
            (f.fseekCur (row + padding)).content.length := by
        intro f hf r hr
        have := hf (r + 1) (by omega)
        show f.pos + (row + padding) + r * (row + padding) + row ≤ f.content.length
        rw [Nat.succ_mul] at this
        omega
      rw [cmpRows_succ padding hfirst1 hfirst2]
      by_cases heq : slice row f1 = slice row f2
      · rw [if_pos heq, ih (hin f1 h1) (hin f2 h2)]
        constructor
        · intro h r hr
          cases r with
          | zero =>
              rw [Nat.zero_mul]
              exact heq
          | succ r => simpa only [hseek] using h r (by omega)
        · intro h r hr
          rw [hseek, hseek]
          exact h (r + 1) (by omega)
      · rw [if_neg heq]
        refine ⟨fun h => absurd h (by decide), fun h => absurd ?_ heq⟩
        have hzero := h 0 (by omega)
        rw [Nat.zero_mul] at hzero
        exact hzero

/-- The comparer's header is a part of the one that `from_bmp` reads. -/
theorem header_eq (bs : List Byte) : Header.ofBytes bs =
    ⟨(BmpHeader.field bs 0 1, BmpHeader.field bs 1 1), (BmpHeader.ofBytes bs).biWidth,
      (BmpHeader.ofBytes bs).biHeight, (BmpHeader.ofBytes bs).biBitCount⟩ := rfl

/-- The comparer's header of the bytes of a header. -/
theorem header_ofBytes (h : BmpHeader) (htype : h.bfType = bmpType) :
    Header.ofBytes h.bytes = ⟨(0x42, 0x4D), h.biWidth, h.biHeight, h.biBitCount⟩ := by
  have hletters : leBytes 2 bmpType.toNat = [0x42, 0x4D] := by decide
  have hfirst : BmpHeader.field h.bytes 0 1 = 0x42 ∧ BmpHeader.field h.bytes 1 1 = 0x4D := by
    simp only [BmpHeader.bytes, List.append_assoc, htype, hletters]
    exact ⟨rfl, rfl⟩
  rw [header_eq, ofBytes_bytes, hfirst.1, hfirst.2]

/-- **`bmp_cmp`** on two files that start with headers of the right form compares the
dimensions and then the rows. -/
theorem bmpCmp_eq {h h' : BmpHeader} {content content' : List Byte}
    (hstart : content.take sizeofHeader = h.bytes) (hstart' : content'.take sizeofHeader = h'.bytes)
    (hform : h.bfType = bmpType ∧ h.biBitCount = 24)
    (hform' : h'.bfType = bmpType ∧ h'.biBitCount = 24) :
    bmpCmp ⟨content, 0⟩ ⟨content', 0⟩ =
      if h.biWidth ≠ h'.biWidth ∨ h.biHeight ≠ h'.biHeight then .dimensionsDiffer
      else cmpRows h.biWidth.toNat (getPadding h.biWidth.toNat) h.biHeight.toNat
        ⟨content, sizeofHeader⟩ ⟨content', sizeofHeader⟩ := by
  have hread : ∀ {h : BmpHeader} {content : List Byte}, content.take sizeofHeader = h.bytes →
      (⟨content, 0⟩ : Stream).fread sizeofHeader = (h.bytes, ⟨content, sizeofHeader⟩) := by
    intro h content hstart
    have hslice : slice sizeofHeader ⟨content, 0⟩ = h.bytes := hstart
    rw [fread_eq, hslice, length_header]
    rfl
  have hcorrect : ∀ {h : BmpHeader}, h.bfType = bmpType ∧ h.biBitCount = 24 →
      ¬ (h.bytes.length < sizeofHeader ∨ ¬ headerIsCorrect (Header.ofBytes h.bytes)) := by
    intro h hform
    rw [length_header, header_ofBytes h hform.1, hform.2, not_or, not_not]
    exact ⟨by decide, rfl⟩
  unfold bmpCmp
  rw [hread hstart]
  dsimp only
  rw [if_neg (hcorrect hform), hread hstart']
  dsimp only
  rw [if_neg (hcorrect hform'), header_ofBytes h hform.1, header_ofBytes h' hform'.1]

/-! ## Written files -/

variable {g : Garbage} {img : Image} {out : OutFile}

/-- Byte `b` of row `i` of a written file: a byte of a pixel, or one of the padding. -/
theorem getElem?_toBmp (hpos : 0 < img.width) (hrow : img.width * pixelSize < 2 ^ 64)
    (hempty : out.bytes = []) (hok : (toBmp g img out).1 = .ok) {i b : ℕ} (hi : i < img.height)
    (hb : b < pixelSize * img.width + calcPadding img.width) :
    (toBmp g img out).2.bytes[sizeofBmpHeader +
        (i * (pixelSize * img.width + calcPadding img.width) + b)]? =
      (rowBytes g img (pixelSize * img.width) (calcPadding img.width) i)[b]? := by
  have hmul := mul64_pixelSize hrow
  have hwidth : 0 < pixelSize * img.width := Nat.mul_pos (by decide) hpos
  rw [toBmp_bytes (by rw [hmul]; exact hwidth) hok, hempty, List.nil_append, hmul,
    List.getElem?_append_right (by rw [length_header]; omega), length_header,
    Nat.add_sub_cancel_left, getElem?_rows (fun _ _ => length_rowBytes) hi hb, Nat.zero_add]

/-- A byte of a pixel in its row. -/
theorem getElem?_rowBytes_pixel (hsize : img.width * img.height < 2 ^ 64) {padding i b : ℕ}
    (hi : i < img.height) (hb : b < pixelSize * img.width) :
    (rowBytes g img (pixelSize * img.width) padding i)[b]? =
      some (Pixel.byte (pixelAt g img i (b / pixelSize)) (b % pixelSize)) := by
  have hcol : b / pixelSize < img.width := Nat.div_lt_of_lt_mul hb
  have hfirst : mul64 i img.width = i * img.width := by
    have hlt : i * img.width + b / pixelSize < img.width * img.height := index_lt hi hcol
    exact Nat.mod_eq_of_lt (((Nat.le_add_right _ _).trans_lt hlt).trans hsize)
  have hsplit : pixelSize * (b / pixelSize) + b % pixelSize = b := Nat.div_add_mod b pixelSize
  rw [rowBytes, List.getElem?_append_left (by simpa [dataBytes] using hb), hfirst]
  conv_lhs => rw [← hsplit]
  rw [getElem?_dataBytes (Nat.mod_lt b (by decide)) (by rw [hsplit]; exact hb)]
  rfl

/-- A byte of the padding of its row. -/
theorem getElem?_rowBytes_padding {rowSize padding i b : ℕ} (hb : rowSize ≤ b)
    (hb' : b < rowSize + padding) :
    (rowBytes g img rowSize padding i)[b]? =
      some (if b - rowSize < 3 then 0 else g.beyond i (b - rowSize)) := by
  have hlen : (dataBytes g img (mul64 i img.width) rowSize).length = rowSize := by
    simp [dataBytes]
  rw [rowBytes, List.getElem?_append_right (by omega), hlen, zeroPaddingBytes, List.getElem?_map,
    List.getElem?_range (by omega), Option.map_some]

end LowLevel.Interface
