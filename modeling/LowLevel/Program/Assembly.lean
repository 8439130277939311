import LowLevel.Library.X86.Machine

/-!
# The assembly library and the dictionary program

`lib.inc` of `IO Library ASM`, and `lib.asm`, `dict.asm` and `main.asm` of `Dictionary ASM`. A
label is named by the label before it and its own name, and the block under it holds the
instructions up to the next label. The routines that `lib.inc` and `lib.asm` both have are
the same text in both, but for `print_newline`, which is that of `lib.asm` here; `read_word`
is in `lib.inc` only, `clear_stdin` and `read_line` in `lib.asm` only.
-/

set_option autoImplicit false

namespace LowLevel.Program.Assembly

open LowLevel.Library LowLevel.Library.X86

/-- The labels of the library and of the program, one for each block of code. -/
inductive Label where
  | exit
  | stringLength | stringLengthLoop | stringLengthEnd
  | printString
  | printChar
  | printNewline
  | printUint | printUintCountLoop | printUintEnd
  | printInt | printIntNegative | printIntEnd
  | stringEquals | stringEqualsLoop | stringEqualsContinue | stringEqualsEquals | stringEqualsEnd
  | readChar | readCharErr | readCharEnd
  | readWord | readWordSkippingLoop | readWordMainLoop | readWordSuccess | readWordErr | readWordEnd
  | clearStdin | clearStdinEnd
  | readLine | readLineMainLoop | readLineCheck | readLineSuccess | readLineErr | readLineEnd
  | parseUint | parseUintLoop | parseUintEnd
  | parseInt | parseIntNeg | parseIntSigned | parseIntWithoutSign | parseIntDoNeg | parseIntEnd
  | stringCopy | stringCopyLoop | stringCopySuccess | stringCopyErr | stringCopyEnd
  | findWord | findWordLoop | findWordContinue | findWordNotFound | findWordEnd
  | error
  | start | startOverflow | startNotFound | startEnd
  deriving DecidableEq, Repr

/-- The addresses that the linker gave to the data of `main.asm` and `words.inc`. -/
structure Symbols where
  buffer : Word
  head : Word
  overflowMsg : Word
  notFoundMsg : Word

/-- `EXIT_SYSCALL`. -/
def exitSyscall : Word := 60

/-- `WRITE_SYSCALL`. -/
def writeSyscall : Word := 1

/-- `BUFFER_SIZE`. -/
def bufferSize : Word := 256

/-- `OVERFLOW_MSG_SIZE`. -/
def overflowMsgSize : Word := 50

/-- `NOT_FOUND_MSG_SIZE`. -/
def notFoundMsgSize : Word := 43

/-- `STDERR`. -/
def stderr : Word := 2

/-- The size of a quadword. -/
def qw : Word := 8

/-- The characters of a string. -/
def ascii (text : String) : List Byte := text.toList.map fun c => BitVec.ofNat 8 c.toNat

/-- The text at `overflow_msg`. -/
def overflowMsg : List Byte :=
  ascii "The input key is too large! (max size - 255 symb)" ++ [10]

/-- The text at `not_found_msg`. -/
def notFoundMsg : List Byte := ascii "The key you are looking for was not found!" ++ [10]

/-- The text of the program. -/
def blocks (sym : Symbols) : Label → Block Label
  | .exit => ⟨[.mov (.reg .rax) (.imm exitSyscall), .syscall], some .stringLength⟩
  -- string_length
  | .stringLength => ⟨[.alu .xor (.reg .rax) (.reg .rax)], some .stringLengthLoop⟩
  | .stringLengthLoop => ⟨[
      .alu8 .cmp (.mem ⟨.rdi, some .rax, 0⟩) (.imm 0),
      .jcc .e .stringLengthEnd,
      .inc .rax,
      .jmp .stringLengthLoop], none⟩
  | .stringLengthEnd => ⟨[.ret], none⟩
  -- print_string
  | .printString => ⟨[
      .push .rdi,
      .call .stringLength,
      .pop .rsi,
      .mov (.reg .rdx) (.reg .rax),
      .mov (.reg .rax) (.imm 1),
      .mov (.reg .rdi) (.imm 1),
      .syscall,
      .ret], none⟩
  -- print_char
  | .printChar => ⟨[
      .push .rdi,
      .mov (.reg .rsi) (.reg .rsp),
      .mov (.reg .rax) (.imm 1),
      .mov (.reg .rdi) (.imm 1),
      .mov (.reg .rdx) (.imm 1),
      .syscall,
      .alu .add (.reg .rsp) (.imm 8),
      .ret], none⟩
  -- print_newline
  | .printNewline => ⟨[.mov (.reg .rdi) (.imm 0xA), .jmp .printChar], none⟩
  -- print_uint
  | .printUint => ⟨[
      .alu .xor (.reg .rax) (.reg .rax),
      .alu .xor (.reg .r8) (.reg .r8),
      .mov (.reg .r8) (.reg .rdi),
      .mov (.reg .r9) (.imm 10),
      .mov (.reg .r10) (.reg .rsp),
      .alu .sub (.reg .rsp) (.imm 32),
      .dec .r10,
      .mov8 (.mem ⟨.r10, none, 0⟩) (.imm 0)], some .printUintCountLoop⟩
  | .printUintCountLoop => ⟨[
      .mov (.reg .rax) (.reg .rdi),
      .alu .xor (.reg .rdx) (.reg .rdx),
      .div .r9,
      .mov (.reg .r8) (.reg .rax),
      .alu .add (.reg .rdx) (.imm 0x30),
      .dec .r10,
      .mov8 (.mem ⟨.r10, none, 0⟩) (.reg .rdx),
      .mov (.reg .rdi) (.reg .r8),
      .alu .test (.reg .rdi) (.reg .rdi),
      .jcc .ne .printUintCountLoop], some .printUintEnd⟩
  | .printUintEnd => ⟨[
      .mov (.reg .rdi) (.reg .r10),
      .call .printString,
      .alu .add (.reg .rsp) (.imm 32),
      .ret], none⟩
  -- print_int
  | .printInt => ⟨[.alu .cmp (.reg .rdi) (.imm 0), .jcc .ge .printIntEnd], some .printIntNegative⟩
  | .printIntNegative => ⟨[
      .push .rdi,
      .mov (.reg .rdi) (.imm 0x2d),
      .call .printChar,
      .pop .rdi,
      .neg .rdi], some .printIntEnd⟩
  | .printIntEnd => ⟨[.jmp .printUint], none⟩
  -- string_equals
  | .stringEquals => ⟨[
      .alu .xor (.reg .rax) (.reg .rax),
      .alu .xor (.reg .r8) (.reg .r8)], some .stringEqualsLoop⟩
  | .stringEqualsLoop => ⟨[
      .mov8 (.reg .rdx) (.mem ⟨.rdi, none, 0⟩),
      .alu8 .cmp (.reg .rdx) (.mem ⟨.rsi, none, 0⟩),
      .jcc .ne .stringEqualsEnd,
      .alu8 .test (.reg .rdx) (.reg .rdx),
      .jcc .e .stringEqualsEquals], some .stringEqualsContinue⟩
  | .stringEqualsContinue => ⟨[.inc .rdi, .inc .rsi, .jmp .stringEqualsLoop], none⟩
  | .stringEqualsEquals => ⟨[.inc .rax], some .stringEqualsEnd⟩
  | .stringEqualsEnd => ⟨[.ret], none⟩
  -- read_char
  | .readChar => ⟨[
      .alu .xor (.reg .rax) (.reg .rax),
      .push .rax,
      .mov (.reg .rdi) (.imm 0),
      .mov (.reg .rsi) (.reg .rsp),
      .mov (.reg .rdx) (.imm 1),
      .syscall,
      .alu .cmp (.reg .rax) (.imm (-1)),
      .jcc .e .readCharErr,
      .pop .rax,
      .ret], none⟩
  | .readCharErr => ⟨[.pop .rax, .alu .xor (.reg .rax) (.reg .rax)], some .readCharEnd⟩
  | .readCharEnd => ⟨[.ret], none⟩
  -- read_word
  | .readWord => ⟨[
      .push .r14,
      .push .r13,
      .push .r12,
      .alu .xor (.reg .rax) (.reg .rax),
      .alu .xor (.reg .r14) (.reg .r14),
      .mov (.reg .r12) (.reg .rdi),
      .mov (.reg .r13) (.reg .rsi),
      .dec .r13], some .readWordSkippingLoop⟩
  | .readWordSkippingLoop => ⟨[
      .call .readChar,
      .alu .cmp (.reg .rax) (.imm 0x20),
      .jcc .e .readWordSkippingLoop,
      .alu .cmp (.reg .rax) (.imm 0x9),
      .jcc .e .readWordSkippingLoop,
      .alu .cmp (.reg .rax) (.imm 0xA),
      .jcc .e .readWordSkippingLoop], some .readWordMainLoop⟩
  | .readWordMainLoop => ⟨[
      .alu .cmp (.reg .rax) (.imm 0x20),
      .jcc .e .readWordSuccess,
      .alu .cmp (.reg .rax) (.imm 0x9),
      .jcc .e .readWordSuccess,
      .alu .cmp (.reg .rax) (.imm 0xA),
      .jcc .e .readWordSuccess,
      .alu .test (.reg .rax) (.reg .rax),
      .jcc .e .readWordSuccess,
      .alu .cmp (.reg .r14) (.reg .r13),
      .jcc .g .readWordErr,
      .mov (.mem ⟨.r12, some .r14, 0⟩) (.reg .rax),
      .inc .r14,
      .call .readChar,
      .jmp .readWordMainLoop], none⟩
  | .readWordSuccess => ⟨[
      .alu .cmp (.reg .r14) (.imm 0),
      .jcc .e .readWordErr,
      .mov (.reg .rdx) (.reg .r14),
      .inc .r14,
      .mov8 (.mem ⟨.r12, some .r14, 0⟩) (.imm 0),
      .mov (.reg .rax) (.reg .r12),
      .jmp .readWordEnd], none⟩
  | .readWordErr => ⟨[
      .alu .xor (.reg .rdx) (.reg .rdx),
      .alu .xor (.reg .rax) (.reg .rax)], some .readWordEnd⟩
  | .readWordEnd => ⟨[.pop .r12, .pop .r13, .pop .r14, .ret], none⟩
  -- clear_stdin
  | .clearStdin => ⟨[
      .call .readChar,
      .alu .cmp (.reg .rax) (.imm 0xA),
      .jcc .e .clearStdinEnd,
      .jmp .clearStdin], none⟩
  | .clearStdinEnd => ⟨[.ret], none⟩
  -- read_line
  | .readLine => ⟨[
      .push .r14,
      .push .r13,
      .push .r12,
      .alu .xor (.reg .rax) (.reg .rax),
      .alu .xor (.reg .r14) (.reg .r14),
      .mov (.reg .r12) (.reg .rdi),
      .mov (.reg .r13) (.reg .rsi),
      .dec .r13], some .readLineMainLoop⟩
  | .readLineMainLoop => ⟨[
      .call .readChar,
      .alu .cmp (.reg .rax) (.imm 0xA),
      .jcc .e .readLineSuccess,
      .alu .test (.reg .rax) (.reg .rax),
      .jcc .e .readLineSuccess], some .readLineCheck⟩
  | .readLineCheck => ⟨[
      .mov (.mem ⟨.r12, some .r14, 0⟩) (.reg .rax),
      .inc .r14,
      .alu .cmp (.reg .r14) (.reg .r13),
      .jcc .g .readLineErr,
      .jmp .readLineMainLoop], none⟩
  | .readLineSuccess => ⟨[
      .alu .cmp (.reg .r14) (.reg .r13),
      .jcc .g .readLineErr,
      .alu .cmp (.reg .r14) (.imm 0),
      .jcc .e .readLineErr,
      .mov (.reg .rdx) (.reg .r14),
      .inc .r14,
      .mov8 (.mem ⟨.r12, some .r14, 0⟩) (.imm 0),
      .mov (.reg .rax) (.reg .r12),
      .jmp .readLineEnd], none⟩
  | .readLineErr => ⟨[
      .call .clearStdin,
      .alu .xor (.reg .rdx) (.reg .rdx),
      .alu .xor (.reg .rax) (.reg .rax)], some .readLineEnd⟩
  | .readLineEnd => ⟨[.pop .r12, .pop .r13, .pop .r14, .ret], none⟩
  -- parse_uint
  | .parseUint => ⟨[
      .alu .xor (.reg .rax) (.reg .rax),
      .alu .xor (.reg .rdx) (.reg .rdx),
      .alu .xor (.reg .r9) (.reg .r9),
      .alu .xor (.reg .r8) (.reg .r8),
      .mov (.reg .r8) (.imm 10)], some .parseUintLoop⟩
  | .parseUintLoop => ⟨[
      .alu8 .cmp (.mem ⟨.rdi, some .rdx, 0⟩) (.imm 0x30),
      .jcc .l .parseUintEnd,
      .alu8 .cmp (.mem ⟨.rdi, some .rdx, 0⟩) (.imm 0x39),
      .jcc .g .parseUintEnd,
      .push .rdx,
      .mul .r8,
      .pop .rdx,
      .mov8 (.reg .r9) (.mem ⟨.rdi, some .rdx, 0⟩),
      .alu8 .sub (.reg .r9) (.imm 0x30),
      .alu .add (.reg .rax) (.reg .r9),
      .inc .rdx,
      .jmp .parseUintLoop], none⟩
  | .parseUintEnd => ⟨[.ret], none⟩
  -- parse_int
  | .parseInt => ⟨[
      .alu .xor (.reg .rax) (.reg .rax),
      .alu8 .cmp (.mem ⟨.rdi, none, 0⟩) (.imm 0x2d),
      .jcc .e .parseIntNeg,
      .alu8 .cmp (.mem ⟨.rdi, none, 0⟩) (.imm 0x2b),
      .jcc .ne .parseIntWithoutSign,
      .jmp .parseIntSigned], none⟩
  | .parseIntNeg => ⟨[.alu .xor (.reg .r9) (.reg .r9), .inc .r9], some .parseIntSigned⟩
  | .parseIntSigned => ⟨[
      .inc .rdi,
      .push .r8,
      .push .r9,
      .push .rdi,
      .call .parseUint,
      .pop .rdi,
      .pop .r9,
      .pop .r8,
      .alu .cmp (.reg .rdx) (.imm 0),
      .jcc .e .parseIntEnd,
      .inc .rdx,
      .alu .cmp (.reg .r9) (.imm 1),
      .jcc .e .parseIntDoNeg,
      .ret], none⟩
  | .parseIntWithoutSign => ⟨[
      .push .rdi,
      .call .parseUint,
      .pop .rdi,
      .alu .xor (.reg .r8) (.reg .r8),
      .mov (.reg .r8) (.reg .rdi),
      .ret], none⟩
  | .parseIntDoNeg => ⟨[.neg .rax], some .parseIntEnd⟩
  | .parseIntEnd => ⟨[.ret], none⟩
  -- string_copy
  | .stringCopy => ⟨[
      .alu .xor (.reg .rax) (.reg .rax),
      .push .rdx,
      .push .rdi,
      .push .rsi,
      .call .stringLength,
      .pop .rsi,
      .pop .rdi,
      .pop .rdx,
      .alu .xor (.reg .r8) (.reg .r8),
      .alu .xor (.reg .r9) (.reg .r9),
      .dec .rdx,
      .alu .cmp (.reg .rax) (.reg .rdx),
      .jcc .g .stringCopyErr], some .stringCopyLoop⟩
  | .stringCopyLoop => ⟨[
      .mov8 (.reg .r9) (.mem ⟨.rdi, some .r8, 0⟩),
      .alu8 .cmp (.reg .r9) (.imm 0),
      .jcc .e .stringCopySuccess,
      .mov8 (.mem ⟨.rsi, some .r8, 0⟩) (.reg .r9),
      .inc .r8,
      .jmp .stringCopyLoop], none⟩
  | .stringCopySuccess => ⟨[
      .mov8 (.reg .r9) (.imm 0),
      .mov8 (.mem ⟨.rsi, some .r8, 0⟩) (.reg .r9),
      .mov (.reg .rax) (.reg .r8),
      .jmp .stringCopyEnd], none⟩
  | .stringCopyErr => ⟨[.mov (.reg .rax) (.imm 0)], some .stringCopyEnd⟩
  | .stringCopyEnd => ⟨[.ret], none⟩
  -- find_word, in dict.asm
  | .findWord => ⟨[
      .mov (.reg .r12) (.reg .rdi),
      .mov (.reg .r13) (.reg .rsi)], some .findWordLoop⟩
  | .findWordLoop => ⟨[
      .alu .test (.reg .r13) (.reg .r13),
      .jcc .e .findWordNotFound,
      .mov (.reg .rdi) (.reg .r12),
      .lea .rsi ⟨.r13, none, qw⟩,
      .call .stringEquals,
      .alu .test (.reg .rax) (.reg .rax),
      .jcc .e .findWordContinue,
      .mov (.reg .rax) (.reg .r13),
      .jmp .findWordEnd], none⟩
  | .findWordContinue => ⟨[
      .mov (.reg .r13) (.mem ⟨.r13, none, 0⟩),
      .jmp .findWordLoop], none⟩
  | .findWordNotFound => ⟨[.alu .xor (.reg .rax) (.reg .rax)], some .findWordEnd⟩
  | .findWordEnd => ⟨[.ret], none⟩
  -- error and _start, in main.asm
  | .error => ⟨[
      .mov (.reg .rax) (.imm writeSyscall),
      .mov (.reg .rdi) (.imm stderr),
      .syscall,
      .mov (.reg .rdi) (.imm 1),
      .call .exit], some .start⟩
  | .start => ⟨[
      .mov (.reg .rdi) (.imm sym.buffer),
      .mov (.reg .rsi) (.imm bufferSize),
      .call .readLine,
      .alu .test (.reg .rax) (.reg .rax),
      .jcc .e .startOverflow,
      .mov (.reg .rdi) (.reg .rax),
      .mov (.reg .rsi) (.imm sym.head),
      .call .findWord,
      .alu .test (.reg .rax) (.reg .rax),
      .jcc .e .startNotFound,
      .mov (.reg .r12) (.reg .rax),
      .lea .rdi ⟨.rax, none, qw⟩,
      .call .stringLength,
      .alu .xor (.reg .rdi) (.reg .rdi),
      .lea .rdi ⟨.r12, none, qw⟩,
      .lea .rdi ⟨.rdi, some .rax, 0⟩,
      .inc .rdi,
      .call .printString,
      .call .printNewline,
      .jmp .startEnd], none⟩
  | .startOverflow => ⟨[
      .mov (.reg .rsi) (.imm sym.overflowMsg),
      .mov (.reg .rdx) (.imm overflowMsgSize),
      .call .error], some .startNotFound⟩
  | .startNotFound => ⟨[
      .mov (.reg .rsi) (.imm sym.notFoundMsg),
      .mov (.reg .rdx) (.imm notFoundMsgSize),
      .call .error], some .startEnd⟩
  | .startEnd => ⟨[.mov (.reg .rdi) (.imm 0), .call .exit], none⟩

/-! ## The dictionary -/

/-- What the macro `colon` puts before a value, and the value; `next` is the entry before. -/
def colon (next : Word) (key value : List Byte) : List Byte :=
  leBytes 8 next.toNat ++ (key ++ [0]) ++ (value ++ [0])

/-- The bytes of the entries that are defined from the address `a` on, behind the entry `next`. -/
def entryBytes (a next : Word) : List (List Byte × List Byte) → List Byte
  | [] => []
  | (key, value) :: pairs =>
      let entry := colon next key value
      entry ++ entryBytes (a + BitVec.ofNat 64 entry.length) a pairs

/-- The address of the last of these entries. -/
def lastEntry (a next : Word) : List (List Byte × List Byte) → Word
  | [] => next
  | (key, value) :: pairs =>
      lastEntry (a + BitVec.ofNat 64 (colon next key value).length) a pairs

/-- The entries of `words.inc`. -/
def words : List (List Byte × List Byte) := [
  (ascii "one two three four", ascii "5th data"),
  (ascii "fourth", ascii "4th data"),
  (ascii "third", ascii "3rd data"),
  (ascii "second", ascii "2nd data"),
  (ascii "first", ascii "1st data")]

/-- The program, laid out in the order of the labels. -/
def inOrder (sym : Symbols) : Program Label :=
  .inOrder (blocks sym) Label.ctorIdx Label.ofNat (fun l => by cases l <;> rfl)
    (fun l => by cases l <;> decide) (fun l => by cases l <;> simp [blocks])

end LowLevel.Program.Assembly
