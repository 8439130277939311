import LowLevel.Program.Bmp

/-!
# The comparer of the rotation tests

`bmp.c` and `file_cmp.c` of `Image Rotation C/tester`. Both files are streams of their own,
a content and a position; `fread` stops at the end of the content and `fseek` forward
succeeds. Of the header only the fields that are checked are kept.
-/

set_option autoImplicit false

namespace LowLevel.Program.BmpComparison

open LowLevel.Library LowLevel.Program.Bmp

/-- A `FILE` that is being read. -/
structure Stream where
  content : List Byte
  pos : ℕ

/-- Up to `n` bytes from the position on. -/
def Stream.fread (f : Stream) (n : ℕ) : List Byte × Stream :=
  let bs := (f.content.drop f.pos).take n
  (bs, { f with pos := f.pos + bs.length })

/-- `fseek(f, offset, SEEK_CUR)`. -/
def Stream.fseekCur (f : Stream) (offset : ℕ) : Stream := { f with pos := f.pos + offset }

/-! ## file_cmp.c -/

/-- `CMP_BUFFER_SIZE`. -/
def cmpBufferSize : ℕ := 4096 * 2

/-- `enum cmp_result`. -/
inductive CmpResult where
  | eq
  | diff
  | error
  deriving DecidableEq, Repr

/-- `enum cmp_interm_result`, the result for one chunk. -/
inductive CmpIntermResult where
  | eq
  | diff
  | error
  | undef
  deriving DecidableEq, Repr

/-- `cmp_chunk`, of the bytes read into the two buffers. -/
def cmpChunk (buf1 buf2 : List Byte) (bufSize : ℕ) : CmpIntermResult :=
  if buf1.length = buf2.length then
    if buf1 ≠ buf2 then .diff
    else if buf1.length = bufSize then .undef
    else .eq
  else .diff

/-- `file_cmp`. The loop goes on after a chunk as long as the buffer only, so `sz` is not
smaller than what is subtracted from it. -/
def fileCmp (sz : ℕ) (f1 f2 : Stream) : CmpResult × Stream × Stream :=
  if sz = 0 then (.eq, f1, f2)
  else
    let chunkSize := min cmpBufferSize sz
    let read1 := f1.fread chunkSize
    let read2 := f2.fread chunkSize
    match cmpChunk read1.1 read2.1 cmpBufferSize with
    | .eq => (.eq, read1.2, read2.2)
    | .diff => (.diff, read1.2, read2.2)
    | .error => (.error, read1.2, read2.2)
    | .undef => fileCmp (sz - cmpBufferSize) read1.2 read2.2
termination_by sz
decreasing_by
  unfold cmpBufferSize
  omega

/-- The variables of the loop: what is left to compare, a `size_t`, and the files. -/
structure CmpLoop where
  sz : ℕ
  f1 : Stream
  f2 : Stream

/-- One turn of the loop, which returns or goes on; the subtraction wraps. -/
def CmpLoop.turn (loop : CmpLoop) : CmpResult ⊕ CmpLoop :=
  if loop.sz = 0 then .inl .eq
  else
    let chunkSize := min cmpBufferSize loop.sz
    let read1 := loop.f1.fread chunkSize
    let read2 := loop.f2.fread chunkSize
    match cmpChunk read1.1 read2.1 cmpBufferSize with
    | .eq => .inl .eq
    | .diff => .inl .diff
    | .error => .inl .error
    | .undef => .inr ⟨(loop.sz + (2 ^ 64 - cmpBufferSize)) % 2 ^ 64, read1.2, read2.2⟩

/-! ## bmp.c -/

/-- The fields of `struct header` that are looked at. -/
structure Header where
  bfType : BitVec 8 × BitVec 8
  biWidth : BitVec 32
  biHeight : BitVec 32
  biBitCount : BitVec 16
  deriving DecidableEq, Repr

/-- `sizeof(struct header)`. -/
def sizeofHeader : ℕ := 54

/-- The fields, where `fread` puts them. -/
def Header.ofBytes (bs : List Byte) : Header where
  bfType := (BmpHeader.field bs 0 1, BmpHeader.field bs 1 1)
  biWidth := BmpHeader.field bs 18 4
  biHeight := BmpHeader.field bs 22 4
  biBitCount := BmpHeader.field bs 28 2

/-- `get_padding`. -/
def getPadding (width : ℕ) : ℕ := width % 4

/-- `header_is_correct`: the letters `BM` and 24 bits a pixel. -/
def headerIsCorrect (h : Header) : Bool :=
  if h.bfType.1 ≠ 0x42 ∨ h.bfType.2 ≠ 0x4D then false
  else if h.biBitCount ≠ 24 then false
  else true

/-- `enum bmp_compare_status`. -/
inductive BmpCompareStatus where
  | equals
  | diff
  | fileError
  | dimensionsDiffer
  | invalidFormat
  | outOfMemory
  | invalidArgument
  deriving DecidableEq, Repr

/-- `h1.biWidth * 3`, a product of 32-bit words. -/
def comparedBytes (width : ℕ) : ℕ := width * 3 % 2 ^ 32

/-- The loop over the rows, for `n` more rows. -/
def cmpRows (width padding : ℕ) : ℕ → Stream → Stream → BmpCompareStatus
  | 0, _, _ => .equals
  | n + 1, f1, f2 =>
      match fileCmp (comparedBytes width) f1 f2 with
      | (.diff, _) => .diff
      | (.error, _) => .fileError
      | (.eq, f1, f2) => cmpRows width padding n (f1.fseekCur padding) (f2.fseekCur padding)

/-- `bmp_cmp`. -/
def bmpCmp (f1 f2 : Stream) : BmpCompareStatus :=
  let (bs1, f1) := f1.fread sizeofHeader
  let h1 := Header.ofBytes bs1
  if bs1.length < sizeofHeader ∨ ¬ headerIsCorrect h1 then .fileError
  else
    let (bs2, f2) := f2.fread sizeofHeader
    let h2 := Header.ofBytes bs2
    if bs2.length < sizeofHeader ∨ ¬ headerIsCorrect h2 then .invalidFormat
    else if h1.biWidth ≠ h2.biWidth ∨ h1.biHeight ≠ h2.biHeight then .dimensionsDiffer
    else
      cmpRows h1.biWidth.toNat (getPadding h1.biWidth.toNat) h1.biHeight.toNat f1 f2

end LowLevel.Program.BmpComparison
