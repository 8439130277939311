import LowLevel.Library.X86.Machine
import LowLevel.Program.ImageRotation

/-!
# The sepia filters

`filter.c` and `filter.asm` of `Sepia Filter C, ASM`. The coefficients are taken as thousandths
and the sums exactly, so the two filters differ in how a sum becomes a byte: the C filter
cuts it off, the assembly filter converts it with `cvtps2dq`. `copy_image` of `image.c` is the
loop of the one in `Image Rotation C`.
-/

set_option autoImplicit false

namespace LowLevel.Program.SepiaFilter

open LowLevel.Library LowLevel.Library.X86 LowLevel.Program.ImageRotation

/-! ## filter.c -/

/-- `sat`. -/
def sat (pixelValue : ℕ) : Byte := if pixelValue > 255 then 255 else BitVec.ofNat 8 pixelValue

/-- `(r * 0.393f) + (g * 0.769f) + (b * 0.189f)`, in thousandths. -/
def redSum (p : Pixel) : ℕ := p.r.toNat * 393 + p.g.toNat * 769 + p.b.toNat * 189

/-- `(r * 0.349f) + (g * 0.686f) + (b * 0.168f)`, in thousandths. -/
def greenSum (p : Pixel) : ℕ := p.r.toNat * 349 + p.g.toNat * 686 + p.b.toNat * 168

/-- `(r * 0.272f) + (g * 0.534f) + (b * 0.131f)`, in thousandths. -/
def blueSum (p : Pixel) : ℕ := p.r.toNat * 272 + p.g.toNat * 534 + p.b.toNat * 131

/-- The body of the loop; the conversion to `uint64_t` cuts off the fraction. -/
def filterPixel (p : Pixel) : Pixel where
  b := sat (blueSum p / 1000)
  g := sat (greenSum p / 1000)
  r := sat (redSum p / 1000)

/-- `filter_c`: a copy of the image, filtered pixel by pixel. -/
def filterC (img : Image) : Image :=
  let out := copyImage img
  (List.range (mul64 out.height out.width)).foldl
    (fun out i => out.store i ((out.load i).map filterPixel)) out

/-! ## filter.asm -/

/-- The labels of `filter.asm`. -/
inductive Label where
  | simdFilter | simdFilterLoop | simdFilterEnd
  deriving DecidableEq, Repr

/-- `max_values_vec`. -/
def maxValuesVec : Lanes := ⟨.dword 255, .dword 255, .dword 255, .dword 0⟩

/-- `b_vec`: what the blue of the source gives to the three channels. -/
def bVec : Lanes :=
  ⟨.number (131 / 1000), .number (168 / 1000), .number (189 / 1000), .number 0⟩

/-- `g_vec`. -/
def gVec : Lanes :=
  ⟨.number (534 / 1000), .number (686 / 1000), .number (769 / 1000), .number 0⟩

/-- `r_vec`. -/
def rVec : Lanes :=
  ⟨.number (272 / 1000), .number (349 / 1000), .number (393 / 1000), .number 0⟩

/-- `PIXEL_SIZE`. -/
def pixelSizeWord : Word := 3

/-- `pack_one_to_xmm`. -/
def packOneToXmm (x : Xmm) (disp : Word) : List (Instr Label) := [
  .zero x,
  .pinsrb x ⟨.rbx, none, disp⟩ 0,
  .pinsrb x ⟨.rbx, none, disp⟩ 4,
  .pinsrb x ⟨.rbx, none, disp⟩ 8,
  .cvtdq2ps x]

/-- `pack_set_to_xmm rbx`. -/
def packSetToXmm : List (Instr Label) :=
  [.zero .xmm0, .zero .xmm1, .zero .xmm2] ++
    (packOneToXmm .xmm0 0 ++ (packOneToXmm .xmm1 1 ++ packOneToXmm .xmm2 2))

/-- `process_matrix`. -/
def processMatrix : List (Instr Label) := [
  .mulps .xmm0 .xmm3,
  .mulps .xmm1 .xmm4,
  .mulps .xmm2 .xmm5,
  .addps .xmm0 .xmm1,
  .addps .xmm0 .xmm2]

/-- `save_filtered xmm0, rbx`. -/
def saveFiltered : List (Instr Label) := [
  .cvtps2dq .xmm0,
  .pminud .xmm0 .xmm6,
  .pextrb ⟨.rbx, none, 0⟩ .xmm0 0,
  .pextrb ⟨.rbx, none, 1⟩ .xmm0 4,
  .pextrb ⟨.rbx, none, 2⟩ .xmm0 8]

/-- The text of the program. -/
def blocks : Label → Block Label
  | .simdFilter => ⟨[
      .mov (.reg .r12) (.reg .rdi),
      .mov (.reg .r13) (.reg .rsi),
      .mov (.reg .r14) (.reg .rdx),
      .mov (.reg .rax) (.reg .r12),
      .mul .r13,
      .mov (.reg .rbx) (.imm pixelSizeWord),
      .mul .rbx,
      .mov (.reg .r15) (.reg .rax),
      .movaps .xmm3 bVec,
      .movaps .xmm4 gVec,
      .movaps .xmm5 rVec,
      .movaps .xmm6 maxValuesVec,
      .alu .xor (.reg .rbx) (.reg .rbx),
      .mov (.reg .rbx) (.reg .r14)], some .simdFilterLoop⟩
  | .simdFilterLoop => ⟨packSetToXmm ++ (processMatrix ++ (saveFiltered ++ [
      .alu .add (.reg .rbx) (.imm pixelSizeWord),
      .alu .sub (.reg .r15) (.imm pixelSizeWord),
      .alu .cmp (.reg .r15) (.imm 0),
      .jcc .l .simdFilterEnd,
      .jmp .simdFilterLoop])), none⟩
  | .simdFilterEnd => ⟨[.ret], none⟩

/-- The program, laid out in the order of the labels. -/
def inOrder : Program Label :=
  .inOrder blocks Label.ctorIdx Label.ofNat (fun l => by cases l <;> rfl)
    (fun l => by cases l <;> decide) (fun l => by cases l <;> decide)

end LowLevel.Program.SepiaFilter
