import LowLevel.Library.LittleEndian
import Mathlib.Data.List.Basic

/-!
# The heap of fixed blocks

`block_allocate`, `block_free` and the printer of `seminar6/heap-1.c`. The heap is its array of
statuses; its length stands for `HEAP_BLOCKS`, and no counter gets past it. An access outside the
array is a fault. There is one heap, so a handle does not say which.
-/

set_option autoImplicit false

namespace LowLevel.Program.FixedHeap

open LowLevel.Library

/-- `enum block_status`. -/
inductive BlockStatus where
  | free
  | one
  | first
  | cont
  | last
  deriving DecidableEq, Repr

/-- `struct block_id`, without its pointer to the heap. -/
structure BlockId where
  value : ℕ
  valid : Bool
  deriving DecidableEq, Repr

/-- `block_id_new`. -/
def blockIdNew (value : ℕ) : BlockId := ⟨value, true⟩

/-- `block_id_invalid`. -/
def blockIdInvalid : BlockId := ⟨0, false⟩

/-- `heap->status[i] = s`. -/
def setStatus (status : List BlockStatus) (i : ℕ) (s : BlockStatus) : Option (List BlockStatus) :=
  if i < status.length then some (status.set i s) else none

/-- The variables of the search loop of `block_allocate`. -/
structure AllocateLoop where
  maxFree : ℕ
  startId : ℕ
  counter : ℕ
  started : Bool
  deriving DecidableEq, Repr

/-- The search loop, where `i` is the number of the first block of `rest`. -/
def allocateLoop (size : ℕ) (rest : List BlockStatus) (i : ℕ) (s : AllocateLoop) : AllocateLoop :=
  match rest with
  | [] => s
  | status :: rest =>
      if status = .free then
        let startId := if s.started = false then i else s.startId
        let counter := s.counter + 1
        let maxFree := if counter ≥ s.maxFree then counter else s.maxFree
        if maxFree ≥ size then ⟨maxFree, startId, counter, true⟩
        else allocateLoop size rest (i + 1) ⟨maxFree, startId, counter, true⟩
      else if s.started then
        allocateLoop size rest (i + 1) { s with started := false, counter := 0 }
      else allocateLoop size rest (i + 1) s

/-- What is stored in block `i` of the `size` blocks from `startId` on. -/
def blockMark (startId size i : ℕ) : BlockStatus :=
  if i = startId then .first
  else if i = startId + size - 1 then .last
  else .cont

/-- `block_allocate`; none when a store leaves the array. -/
def blockAllocate (status : List BlockStatus) (size : ℕ) :
    Option (BlockId × List BlockStatus) := do
  let s := allocateLoop size status 0 ⟨0, 0, 0, false⟩
  if s.maxFree < size then
    some (blockIdInvalid, status)
  else if size = 1 then
    some (⟨s.startId, true⟩, ← setStatus status s.startId .one)
  else
    let marked ← (List.range' s.startId size).foldlM
      (fun status i => setStatus status i (blockMark s.startId size i)) status
    some (⟨s.startId, true⟩, marked)

/-- The loop of `block_free`. -/
def freeUpToLast (status : List BlockStatus) (currId : ℕ) : Option (List BlockStatus) :=
  if _h : currId < status.length then
    if status[currId] = .last then some (status.set currId .free)
    else freeUpToLast (status.set currId .free) (currId + 1)
  else none
  termination_by status.length - currId
  decreasing_by
    rw [List.length_set]
    omega

/-- `block_free`; none when the loop leaves the array. -/
def blockFree (status : List BlockStatus) (b : BlockId) : Option (List BlockStatus) :=
  if status[b.value]? = some .one then some (status.set b.value .free)
  else freeUpToLast status b.value

/-! ## Printer -/

/-- `repr`: `" ."`, `" *"`, `"[="`, `" ="`, `"=]"`. -/
def repr : BlockStatus → List Byte
  | .free => [0x20, 0x2e]
  | .one => [0x20, 0x2a]
  | .first => [0x5b, 0x3d]
  | .cont => [0x20, 0x3d]
  | .last => [0x3d, 0x5d]

/-- `block_repr`; an invalid handle is `"INVALID"`. -/
def blockRepr (status : List BlockStatus) (b : BlockId) : Option (List Byte) :=
  if b.valid then status[b.value]?.map repr
  else some [0x49, 0x4e, 0x56, 0x41, 0x4c, 0x49, 0x44]

/-- `block_debug_info`: the text is printed with `%s`. -/
def blockDebugInfo (status : List BlockStatus) (b : BlockId) : Option (List Byte) :=
  blockRepr status b

/-- `block_foreach_printer`, the text that it prints. -/
def blockForeachPrinter (count : ℕ) (printer : BlockId → Option (List Byte)) :
    Option (List Byte) :=
  (List.range count).foldlM (fun text c => do some (text ++ (← printer (blockIdNew c)))) []

/-- `heap_debug_info`: all blocks on one line. -/
def heapDebugInfo (status : List BlockStatus) : Option (List Byte) := do
  some ((← blockForeachPrinter status.length (blockDebugInfo status)) ++ [0x0a])

end LowLevel.Program.FixedHeap
