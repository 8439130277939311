import LowLevel.Analysis.ChunkedComparison

/-!
# The comparer looks at each file by itself

`bmp_cmp` sees of a file its dimensions and, row after row, the bytes that stand where the row is,
as far as the file goes. Its verdict on two files is a comparison of what it sees of the one and
of the other, so `BMP_CMP_EQUALS` is an equivalence of the files with a header of the right form,
those that are cut short among them, and equal files have the same verdicts against any third.
-/

set_option autoImplicit false

namespace LowLevel.Analysis

open LowLevel.Library LowLevel.Interface LowLevel.Program.BmpComparison

/-! ## `file_cmp` to its end -/

/-- Behind the bytes that were read. -/
def behindSlice (sz : ℕ) (f : Stream) : Stream := f.fseekCur (slice sz f).length

/-- **Slices that agree** are read to their ends, which may be the ends of the files. -/
theorem fileCmp_ends (sz : ℕ) (f1 f2 : Stream) :
    (slice sz f1 = slice sz f2 → fileCmp sz f1 f2 = (.eq, behindSlice sz f1, behindSlice sz f2)) ∧
      (slice sz f1 ≠ slice sz f2 → (fileCmp sz f1 f2).1 = .diff) := by
  induction sz using Nat.strong_induction_on generalizing f1 f2 with
  | _ sz ih =>
      by_cases hzero : sz = 0
      · subst hzero
        rw [fileCmp, if_pos rfl]
        exact ⟨fun _ => rfl, fun hne => absurd rfl hne⟩
      have hmin : min cmpBufferSize sz ≤ sz := Nat.min_le_right _ _
      rw [fileCmp, if_neg hzero]
      dsimp only
      rw [fread_eq, fread_eq, cmpChunk_eq]
      dsimp only
      by_cases hchunk : slice (min cmpBufferSize sz) f1 = slice (min cmpBufferSize sz) f2
      case neg =>
        rw [if_pos hchunk]
        exact ⟨fun heq => absurd heq (slice_ne_of_ne hmin hchunk), fun _ => rfl⟩
      rw [if_neg (not_not.mpr hchunk)]
      by_cases hfull : (slice (min cmpBufferSize sz) f1).length = cmpBufferSize
      · -- the buffer is full: the rest decides
        rw [if_pos hfull, ← hchunk, hfull]
        dsimp only
        have hle : cmpBufferSize ≤ sz := by
          have := length_nextChunk_le sz f1
          unfold nextChunk at this
          omega
        have hbuffer : 0 < cmpBufferSize := by decide
        rw [Nat.min_eq_left hle] at hchunk hfull
        have hbehind : ∀ f, (slice cmpBufferSize f).length = cmpBufferSize →
            behindSlice sz f = behindSlice (sz - cmpBufferSize) (f.fseekCur cmpBufferSize) := by
          intro f hlength
          rw [behindSlice, behindSlice, fseekCur_fseekCur, slice_split hle, List.length_append,
            hlength]
        rw [hbehind f1 hfull, hbehind f2 (hchunk ▸ hfull), slice_split hle f1, slice_split hle f2,
          ← hchunk, ne_eq, List.append_cancel_left_eq]
        exact ih (sz - cmpBufferSize) (by omega) _ _
      · -- the last chunk, of the slice or of the file
        rw [if_neg hfull]
        have hall : ∀ f, (slice (min cmpBufferSize sz) f).length ≠ cmpBufferSize →
            slice sz f = slice (min cmpBufferSize sz) f := by
          intro f hlength
          by_cases hlast : sz ≤ cmpBufferSize
          · rw [Nat.min_eq_right hlast]
          · rw [Nat.min_eq_left (by omega)] at hlength ⊢
            have hle : (slice cmpBufferSize f).length ≤ cmpBufferSize := List.length_take_le _ _
            exact slice_of_short (by omega) (by omega)
        rw [behindSlice, behindSlice, hall f1 hfull, hall f2 (hchunk ▸ hfull)]
        exact ⟨fun _ => rfl, fun hne => absurd hchunk hne⟩

/-! ## What is seen of a file -/

/-- The rows that the comparer sees: each is cut short at the end of the file, and the next one
is looked for behind its padding. -/
def viewRows (row padding : ℕ) : ℕ → Stream → List (List Byte)
  | 0, _ => []
  | n + 1, f => slice row f :: viewRows row padding n ((behindSlice row f).fseekCur padding)

/-- What the comparer sees of a file. -/
structure FileView where
  width : BitVec 32
  height : BitVec 32
  rows : List (List Byte)
  deriving DecidableEq

/-- Of a file without a whole header, or whose header is not correct, nothing is seen. -/
def fileView (content : List Byte) : Option FileView :=
  let bs := content.take sizeofHeader
  let h := Header.ofBytes bs
  if bs.length < sizeofHeader ∨ ¬ headerIsCorrect h then none
  else
    some ⟨h.biWidth, h.biHeight, viewRows (comparedBytes h.biWidth.toNat)
      (getPadding h.biWidth.toNat) h.biHeight.toNat ⟨content, sizeofHeader⟩⟩

/-- The comparison of two views. -/
def verdict : Option FileView → Option FileView → BmpCompareStatus
  | none, _ => .fileError
  | some _, none => .invalidFormat
  | some v, some w =>
      if v.width ≠ w.width ∨ v.height ≠ w.height then .dimensionsDiffer
      else if v.rows = w.rows then .equals
      else .diff

/-- **The rows** are the same or they differ, also behind the end of a file. -/
theorem cmpRows_eq_of_views (width padding n : ℕ) (f1 f2 : Stream) :
    cmpRows width padding n f1 f2 =
      if viewRows (comparedBytes width) padding n f1 = viewRows (comparedBytes width) padding n f2
      then .equals else .diff := by
  induction n generalizing f1 f2 with
  | zero => rfl
  | succ n ih =>
      obtain ⟨hsame, hdiff⟩ := fileCmp_ends (comparedBytes width) f1 f2
      rw [cmpRows]
      by_cases heq : slice (comparedBytes width) f1 = slice (comparedBytes width) f2
      · rw [hsame heq]
        dsimp only
        rw [ih]
        simp only [viewRows, heq, List.cons_eq_cons, true_and]
      · have hdiff := hdiff heq
        rcases hcmp : fileCmp (comparedBytes width) f1 f2 with ⟨result, f1', f2'⟩
        rw [hcmp] at hdiff
        dsimp only at hdiff
        rw [hdiff, if_neg]
        exact fun h => heq (List.cons_eq_cons.mp h).1

/-- The header of a file that is read from its start. -/
theorem fread_header (content : List Byte) : (⟨content, 0⟩ : Stream).fread sizeofHeader =
    (content.take sizeofHeader, ⟨content, 0 + (content.take sizeofHeader).length⟩) := rfl

/-- **`bmp_cmp`** compares what it sees of each file. -/
theorem bmpCmp_eq_verdict (content1 content2 : List Byte) :
    bmpCmp ⟨content1, 0⟩ ⟨content2, 0⟩ = verdict (fileView content1) (fileView content2) := by
  have hbehind : ∀ content : List Byte, ¬ (content.take sizeofHeader).length < sizeofHeader →
      0 + (content.take sizeofHeader).length = sizeofHeader := by
    intro content hlength
    have := content.length_take_le sizeofHeader
    omega
  unfold bmpCmp fileView
  rw [fread_header, fread_header]
  dsimp only
  by_cases hfirst : (content1.take sizeofHeader).length < sizeofHeader ∨
      ¬ headerIsCorrect (Header.ofBytes (content1.take sizeofHeader))
  · rw [if_pos hfirst, if_pos hfirst, verdict]
  rw [if_neg hfirst, if_neg hfirst]
  by_cases hsecond : (content2.take sizeofHeader).length < sizeofHeader ∨
      ¬ headerIsCorrect (Header.ofBytes (content2.take sizeofHeader))
  · rw [if_pos hsecond, if_pos hsecond, verdict]
  rw [if_neg hsecond, if_neg hsecond, verdict]
  split_ifs with hdim hrows
  · rfl
  all_goals
    rw [not_or, not_not, not_not] at hdim
    dsimp only at hrows
    rw [hbehind content1 (not_or.mp hfirst).1, hbehind content2 (not_or.mp hsecond).1,
      cmpRows_eq_of_views]
  · rw [if_pos]
    rw [hrows, hdim.1, hdim.2]
  · rw [if_neg]
    rw [hdim.1, hdim.2] at hrows ⊢
    exact hrows

/-! ## Equality of files -/

theorem verdict_eq_equals_iff {v w : Option FileView} :
    verdict v w = .equals ↔ v = w ∧ v ≠ none := by
  cases v with
  | none => simp [verdict]
  | some v =>
      cases w with
      | none => simp [verdict]
      | some w =>
          obtain ⟨width, height, rows⟩ := v
          obtain ⟨width', height', rows'⟩ := w
          rw [verdict]
          split_ifs with hdim hrows
          · constructor
            · intro h
              cases h
            · rintro ⟨hsame, -⟩
              cases hsame
              simp at hdim
          · rw [not_or, not_not, not_not] at hdim
            dsimp only at hdim hrows
            rw [hdim.1, hdim.2, hrows]
            simp
          · constructor
            · intro h
              cases h
            · rintro ⟨hsame, -⟩
              cases hsame
              exact absurd rfl hrows

/-- **`BMP_CMP_EQUALS`** is an equivalence of the files that the comparer can look at, since it
looks at each by itself: a file with a correct header is equal to itself, equal files may be
swapped, and they have the same verdict against every third file, on either side. -/
theorem equals_is_an_equivalence (content1 content2 content3 : List Byte) :
    bmpCmp ⟨content1, 0⟩ ⟨content2, 0⟩ = verdict (fileView content1) (fileView content2) ∧
    (bmpCmp ⟨content1, 0⟩ ⟨content1, 0⟩ =
      if fileView content1 = none then .fileError else .equals) ∧
    (bmpCmp ⟨content1, 0⟩ ⟨content2, 0⟩ = .equals →
      bmpCmp ⟨content2, 0⟩ ⟨content1, 0⟩ = .equals ∧
      bmpCmp ⟨content1, 0⟩ ⟨content3, 0⟩ = bmpCmp ⟨content2, 0⟩ ⟨content3, 0⟩ ∧
      bmpCmp ⟨content3, 0⟩ ⟨content1, 0⟩ = bmpCmp ⟨content3, 0⟩ ⟨content2, 0⟩) := by
  simp only [bmpCmp_eq_verdict]
  refine ⟨trivial, ?_, ?_⟩
  · by_cases hnone : fileView content1 = none
    · rw [if_pos hnone, hnone]
      rfl
    · rw [if_neg hnone, verdict_eq_equals_iff]
      exact ⟨rfl, hnone⟩
  · intro hequals
    obtain ⟨hsame, hnone⟩ := verdict_eq_equals_iff.mp hequals
    rw [← hsame, verdict_eq_equals_iff]
    exact ⟨⟨rfl, hnone⟩, rfl, rfl⟩

end LowLevel.Analysis
