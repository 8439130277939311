import LowLevel.Program.FixedHeap

/-!
# The heap of single blocks

`seminar6/heap-0.c`, from which `heap-1.c` was written: a block is occupied or it is not. The heap
is its array `is_occupied`; its length stands for `heap_blocks`. An access outside the array is a
fault, and so is the use of the result when `block_allocate` comes to its end without a `return`.
-/

set_option autoImplicit false

namespace LowLevel.Program.OccupiedHeap

open LowLevel.Library LowLevel.Program.FixedHeap

/-- The loop of `block_allocate`, where `i` is the number of the first block of `rest`. -/
def allocateLoop (occupied : List Bool) (rest : List Bool) (i : ℕ) : Option (BlockId × List Bool) :=
  match rest with
  | [] => none
  | isOccupied :: rest =>
      if !isOccupied then some (blockIdNew i, occupied.set i true)
      else allocateLoop occupied rest (i + 1)

/-- `block_allocate`; none when it comes to its end without a `return`. -/
def blockAllocate (occupied : List Bool) : Option (BlockId × List Bool) :=
  allocateLoop occupied occupied 0

/-- `block_free`; its `b.valid = true` is to its own copy of the handle. -/
def blockFree (occupied : List Bool) (b : BlockId) : Option (List Bool) :=
  if b.value < occupied.length then some (occupied.set b.value false) else none

/-! ## Printer -/

/-- `repr`: `" ."`, `" ="`. -/
def repr : Bool → List Byte
  | false => [0x20, 0x2e]
  | true => [0x20, 0x3d]

/-- `block_repr`; an invalid handle is `"x"`. -/
def blockRepr (occupied : List Bool) (b : BlockId) : Option (List Byte) :=
  if b.valid then occupied[b.value]?.map repr else some [0x78]

/-- `block_debug_info`. -/
def blockDebugInfo (occupied : List Bool) (b : BlockId) : Option (List Byte) :=
  blockRepr occupied b

/-- `block_foreach_printer` is the same in both programs. -/
def heapDebugInfo (occupied : List Bool) : Option (List Byte) := do
  some ((← blockForeachPrinter occupied.length (blockDebugInfo occupied)) ++ [0x0a])

end LowLevel.Program.OccupiedHeap
