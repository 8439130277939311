import LowLevel.Library.ObjectHeap
import LowLevel.Program.AstPrinter

/-!
# Expression trees in memory

The constructors of `seminar5/task4.c` and its `print` on the pointers that they return: what
`AstPrinter` has as values is here made of nodes that point to each other. A node that was never
assigned to is indeterminate.
-/

set_option autoImplicit false

namespace LowLevel.Program.AstHeap

open LowLevel.Library LowLevel.Library.ObjectHeap
open LowLevel.Program.AstPrinter (BinopType UnopType binops unops printLit)

/-- A `struct AST`; the pointers are addresses. -/
inductive Node where
  | binop (type : BinopType) (left right : ℕ)
  | unop (type : UnopType) (operand : ℕ)
  | lit (value : BitVec 64)
  deriving DecidableEq, Repr

/-- A heap of trees. -/
abbrev Heap := ObjectHeap (Option Node)

/-- A function of the program. -/
abbrev Building (γ : Type) := HeapRun (Option Node) γ

/-! ## DSL -/

/-- `newnode`: a fresh object, whose address is returned without a check for NULL. -/
def newnode (ast : Node) : Building ℕ := do
  let node ← malloc none
  assign node (some ast)
  return node

/-- `lit`: a literal is its own subtree. -/
def lit (value : BitVec 64) : Building ℕ := newnode (.lit value)

/-- `unop`: the operand is kept by its address. -/
def unop (type : UnopType) (operand : ℕ) : Building ℕ := newnode (.unop type operand)

/-- `binop`: both operands are kept by their addresses. -/
def binop (type : BinopType) (left right : ℕ) : Building ℕ := newnode (.binop type left right)

/-- `add`, as `DECLARE_BINOP` expands it; so are the next three. -/
def add (left right : ℕ) : Building ℕ := binop .plus left right

def mul (left right : ℕ) : Building ℕ := binop .mul left right

def sub (left right : ℕ) : Building ℕ := binop .minus left right

def divide (left right : ℕ) : Building ℕ := binop .div left right

/-- `neg`, as `DECLARE_UNOP` expands it. -/
def neg (operand : ℕ) : Building ℕ := unop .neg operand

/-! ## printer -/

/-- `print`, with the three printers that it calls through `ast_printers`. -/
def print : ℕ → ℕ → Building Unit
  | 0, _ => throw .outOfFuel
  | n + 1, ast => do
      if ast = 0 then printf [0x3c, 0x4e, 0x55, 0x4c, 0x4c, 0x3e]
      else
        match ← determinate (← deref ast) with
        | .binop type left right =>
            printf [0x28]
            print n left
            printf [0x29]
            printf (binops type)
            printf [0x28]
            print n right
            printf [0x29]
        | .unop type operand =>
            printf ([0x28] ++ unops type)
            print n operand
            printf [0x29]
        | .lit value => printf (printLit value)

end LowLevel.Program.AstHeap
