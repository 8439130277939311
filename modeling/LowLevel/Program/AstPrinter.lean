import LowLevel.Library.Decimal

/-!
# The printer of expression trees

`struct AST` and `print` of `seminar5/task4.c`. A tree is what a `struct AST *` points to, or the
null pointer; a text is the bytes that the calls of `fprintf` write.
-/

set_option autoImplicit false

namespace LowLevel.Program.AstPrinter

open LowLevel.Library

/-- `enum binop_type`. -/
inductive BinopType where
  | plus
  | minus
  | mul
  | div
  deriving DecidableEq, Repr

/-- `enum unop_type`. -/
inductive UnopType where
  | neg
  deriving DecidableEq, Repr

/-- A `struct AST` with the trees that it points to; `null` is the null pointer. -/
inductive AST where
  | null
  | binop (type : BinopType) (left right : AST)
  | unop (type : UnopType) (operand : AST)
  | lit (value : BitVec 64)
  deriving DecidableEq, Repr

/-- `BINOPS`: `"+"`, `"-"`, `"*"`, `"/"`. -/
def binops : BinopType → List Byte
  | .plus => [0x2b]
  | .minus => [0x2d]
  | .mul => [0x2a]
  | .div => [0x2f]

/-- `UNOPS`: `"-"`. -/
def unops : UnopType → List Byte
  | .neg => [0x2d]

/-- `print_binop`, for the texts of `left` and `right`: `"("`, `")"`, the operator, `"("`,
`")"`. -/
def printBinop (type : BinopType) (left right : List Byte) : List Byte :=
  [0x28] ++ left ++ [0x29] ++ binops type ++ [0x28] ++ right ++ [0x29]

/-- `print_unop`, for the text of `operand`: `"("` and the operator, `")"`. -/
def printUnop (type : UnopType) (operand : List Byte) : List Byte :=
  [0x28] ++ unops type ++ operand ++ [0x29]

/-- `print_lit`: `PRId64`. -/
def printLit (value : BitVec 64) : List Byte := signedNumeral value.toInt

/-- `print`; the null pointer is printed as `"<NULL>"`. -/
def print : AST → List Byte
  | .null => [0x3c, 0x4e, 0x55, 0x4c, 0x4c, 0x3e]
  | .binop type left right => printBinop type (print left) (print right)
  | .unop type operand => printUnop type (print operand)
  | .lit value => printLit value

end LowLevel.Program.AstPrinter
