import LowLevel.Library.Decimal
import LowLevel.Library.X86.Machine

/-!
# The test program of the first assembly library

`seminar2/parse_uint.asm`, as `test_uint.py` generates it for any input, with `parse_uint` of the
`lib.inc` next to it. It fills the registers that a routine may change, calls `parse_uint`, compares
the registers that a routine has to keep, prints the number and exits with its length.
-/

set_option autoImplicit false

namespace LowLevel.Program.ParseUintTest

open LowLevel.Library LowLevel.Library.X86

inductive Label where
  | parseUint | parseUintLoop | parseUintEnd
  | printUintTest | printUintTestA | printUintTestB | printUintTestC
  | start | startConventionError | continue
  deriving DecidableEq, Repr

/-- The addresses that the linker gave to the data. -/
structure Symbols where
  input : Word
  errCallingConvention : Word

/-- `err_calling_convention.end - err_calling_convention`. -/
def errCallingConventionSize : Word := 117

/-- `cmp r, [rsp]`, `jne .convention_error` and `pop r`. -/
def checkKept (r : Reg) : List (Instr Label) := [
  .alu .cmp (.reg r) (.mem ⟨.rsp, none, 0⟩),
  .jcc .ne .startConventionError,
  .pop r]

/-- The registers that are compared, in the order they are popped in. -/
def keptRegisters : List Reg := [.r15, .r14, .r13, .r12, .rbp, .rbx]

/-- The text of the program. -/
def blocks (sym : Symbols) : Label → Block Label
  -- parse_uint
  | .parseUint => ⟨[
      .alu .xor (.reg .rax) (.reg .rax),
      .alu .xor (.reg .rdx) (.reg .rdx),
      .alu .xor (.reg .r9) (.reg .r9),
      .mov (.reg .r8) (.imm 10)], some .parseUintLoop⟩
  | .parseUintLoop => ⟨[
      .alu8 .cmp (.mem ⟨.rdi, some .rdx, 0⟩) (.imm 0),
      .jcc .e .parseUintEnd,
      .alu8 .cmp (.mem ⟨.rdi, some .rdx, 0⟩) (.imm 0x30),
      .jcc .l .parseUintEnd,
      .alu8 .cmp (.mem ⟨.rdi, some .rdx, 0⟩) (.imm 0x39),
      .jcc .g .parseUintEnd,
      .push .rdx,
      .mul .r8,
      .pop .rdx,
      .mov8 (.reg .r9) (.mem ⟨.rdi, some .rdx, 0⟩),
      .alu8 .sub (.reg .r9) (.imm 0x30),
      .alu .add (.reg .rax) (.reg .r9),
      .inc .rdx,
      .jmp .parseUintLoop], none⟩
  | .parseUintEnd => ⟨[.ret], none⟩
  -- print_uint_test
  | .printUintTest => ⟨[
      .mov (.reg .rax) (.reg .rdi),
      .push .r12,
      .push .r13,
      .push .r15,
      .alu .xor (.reg .r12) (.reg .r12),
      .mov (.reg .r13) (.imm 32),
      .mov (.reg .r15) (.imm 10),
      .push .r12,
      .push .r12,
      .push .r12,
      .push .r12], some .printUintTestA⟩
  | .printUintTestA => ⟨[
      .alu .test (.reg .rax) (.reg .rax),
      .jcc .e .printUintTestB,
      .alu .xor (.reg .rdx) (.reg .rdx),
      .div .r15,
      .alu8 .add (.reg .rdx) (.imm 0x30),
      .dec .r13,
      .mov8 (.mem ⟨.rsp, some .r13, 0⟩) (.reg .rdx),
      .inc .r12,
      .jmp .printUintTestA], none⟩
  | .printUintTestB => ⟨[
      .alu .test (.reg .r12) (.reg .r12),
      .jcc .ne .printUintTestC,
      .dec .r13,
      .mov8 (.mem ⟨.rsp, some .r13, 0⟩) (.imm 0x30),
      .inc .r12], some .printUintTestC⟩
  | .printUintTestC => ⟨[
      .mov (.reg .rax) (.imm 1),
      .mov (.reg .rdi) (.imm 1),
      .lea .rsi ⟨.rsp, some .r13, 0⟩,
      .mov (.reg .rdx) (.reg .r12),
      .syscall,
      .alu .add (.reg .rsp) (.imm 32),
      .pop .r15,
      .pop .r13,
      .pop .r12,
      .ret], none⟩
  -- _start
  | .start => ⟨[
      .mov (.reg .rdi) (.imm (-1)),
      .mov (.reg .rsi) (.imm (-1)),
      .mov (.reg .rax) (.imm (-1)),
      .mov (.reg .rcx) (.imm (-1)),
      .mov (.reg .rdx) (.imm (-1)),
      .mov (.reg .r8) (.imm (-1)),
      .mov (.reg .r9) (.imm (-1)),
      .mov (.reg .r10) (.imm (-1)),
      .mov (.reg .r11) (.imm (-1)),
      .push .rbx,
      .push .rbp,
      .push .r12,
      .push .r13,
      .push .r14,
      .push .r15,
      .mov (.reg .rdi) (.imm sym.input),
      .call .parseUint] ++
      (keptRegisters.flatMap checkKept ++ [.jmp .continue]), none⟩
  | .startConventionError => ⟨[
      .mov (.reg .rax) (.imm 1),
      .mov (.reg .rdi) (.imm 2),
      .mov (.reg .rsi) (.imm sym.errCallingConvention),
      .mov (.reg .rdx) (.imm errCallingConventionSize),
      .syscall,
      .mov (.reg .rax) (.imm 60),
      .mov (.reg .rdi) (.imm (-41)),
      .syscall], some .continue⟩
  | .continue => ⟨[
      .push .rdx,
      .mov (.reg .rdi) (.reg .rax),
      .call .printUintTest,
      .mov (.reg .rax) (.imm 60),
      .pop .rdi,
      .syscall], none⟩

/-- The program, laid out in the order of the labels. -/
def inOrder (sym : Symbols) : Program Label :=
  .inOrder (blocks sym) Label.ctorIdx Label.ofNat (fun l => by cases l <;> rfl)
    (fun l => by cases l <;> decide) (fun l => by cases l <;> simp [blocks, checkKept,
      keptRegisters])

/-! ## test_uint.py -/

/-- The characters at which the assembler ends the text of `db` before its closing quote: NUL, the
ends of a line and of a file, and the quote. -/
def endsText : List Byte := [0x00, 0x0A, 0x0D, 0x1A, 0x27]

/-- `db '<v>', 0`, as the generator pastes the input between the quotes: the bytes that are laid
out. With one of these characters in it the text is another program, or none. -/
def inputData (v : List Byte) : Option (List Byte) :=
  if v.all fun b => !endsText.contains b then some (v ++ [0]) else none

/-- `starts_uint`: the number that the text starts with and the length of it, zeros if there is
none. -/
def startsUint (s : List Byte) : ℕ × ℕ :=
  match leadingDigits s with
  | [] => (0, 0)
  | digits => (decimalValue digits, digits.length)

/-- `int` on a string of digits; it raises an error on an empty one. -/
def int (s : List Byte) : Option ℕ :=
  if !s.isEmpty && s.all fun b => IsDigit b then some (decimalValue s) else none

/-- The checker of the test `parse_uint`. -/
def checker (i o : List Byte) (r : ℕ) : Prop :=
  some (startsUint i).1 = int o ∧ r = (startsUint i).2

end LowLevel.Program.ParseUintTest
