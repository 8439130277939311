import LowLevel.Library.Decimal
import LowLevel.Library.ObjectHeap

/-!
# Linked lists

The generic list of `seminar5/task3.c` and the list of `seminar7/tail-rec.c`. The nodes are the
objects of a heap; a field that was never stored to is indeterminate.
-/

set_option autoImplicit false

namespace LowLevel.Program.LinkedLists

open LowLevel.Library LowLevel.Library.ObjectHeap

variable {α : Type}

structure Node (α : Type) where
  value : Option α
  next : Option ℕ

/-- A node as `malloc` returns it. -/
def Node.created : Node α := ⟨none, none⟩

/-- A heap of nodes. -/
abbrev Heap (α : Type) := ObjectHeap (Node α)

/-- A function of the programs. -/
abbrev Listing (α β : Type) := HeapRun (Node α) β

/-- `ptr->value`, and `ptr->elem`. -/
def loadValue (ptr : ℕ) : Listing α α := do determinate (← deref ptr).value

/-- `ptr->next`. -/
def loadNext (ptr : ℕ) : Listing α ℕ := do determinate (← deref ptr).next

/-- `ptr->value = value`. -/
def storeValue (ptr : ℕ) (value : α) : Listing α Unit := do
  assign ptr { (← deref ptr) with value := some value }

/-- `ptr->next = next`. -/
def storeNext (ptr next : ℕ) : Listing α Unit := do
  assign ptr { (← deref ptr) with next := some next }

/-! ## DEFINE_LIST (seminar5/task3.c) -/

/-- `create_T_node`. -/
def createNode : Listing α ℕ := malloc .created

/-- `while (ptr -> next != NULL) ptr = ptr -> next;` -/
def toLast : ℕ → ℕ → Listing α ℕ
  | 0, _ => throw .outOfFuel
  | n + 1, ptr => do
      let next ← loadNext ptr
      if next ≠ 0 then toLast n next else return ptr

/-- `list_T_push`. -/
def listPush (fuel list : ℕ) (val : α) : Listing α Unit := do
  let ptr ← toLast fuel list
  storeNext ptr (← createNode)
  storeValue (← loadNext ptr) val
  storeNext (← loadNext ptr) 0

/-- `list_T_print`, with the printer of the elements. -/
def listPrint (print : α → List Byte) : ℕ → ℕ → Listing α Unit
  | 0, _ => throw .outOfFuel
  | n + 1, ptr => do
      if ptr = 0 then return ()
      printf (print (← loadValue ptr))
      listPrint print n (← loadNext ptr)

/-- `int64_t_print`: `"%" PRId64 " "`. -/
def int64Print (i : BitVec 64) : List Byte := signedNumeral i.toInt ++ [0x20]

/-! ## seminar7/tail-rec.c -/

def c (head : α) (tail : ℕ) : Listing α ℕ := do
  let h ← malloc .created
  storeValue h head
  storeNext h tail
  return h

/-- `list_length`, on a stack with room for so many calls: the code as it is written, each call in a
frame of its own. An optimising compiler may turn the calls into a loop, as the source says of
`-O3`; that build is not meant. -/
def listLength : ℕ → ℕ → Listing α ℕ
  | 0, _ => throw .stackOverflow
  | frames + 1, l => do
      if l = 0 then return 0
      return (1 + (← listLength frames (← loadNext l))) % 2 ^ 64

/-- `print_size`: `"%zu"`. -/
def printSize (i : ℕ) : Listing α Unit := printf (numeral i)

/-- `main`, for any `len`. -/
def main (frames len : ℕ) : Listing (BitVec 64) Unit := do
  let lst ← (List.range len).foldlM (fun lst i => c (BitVec.ofNat 64 i) lst) 0
  printSize (← listLength frames lst)

end LowLevel.Program.LinkedLists
