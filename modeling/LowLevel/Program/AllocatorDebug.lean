import LowLevel.Program.AllocatorRuns

/-!
# Printing the heap

`Memory Allocator C/src/mem_debug.c` with the standard output as the stream. What `%p` writes is
the implementation's matter and a parameter. `debug` and `debug_block` write to the standard error
and the allocator calls neither.
-/

set_option autoImplicit false

namespace LowLevel.Program.Allocator

open LowLevel.Library

/-- `DEBUG_FIRST_BYTES`. -/
def debugFirstBytes : ℕ := 4

/-- The text goes to the stream, which is the standard output here. -/
def fprintf (text : List Char) : Heap Unit :=
  modify fun s => { s with stdout := s.stdout ++ text }

/-- `%hhX`. -/
def hexText (byte : ℕ) : List Char := (Nat.toDigits 16 byte).map Char.toUpper

/-- What comes before the contents: `%10p %10zu %8s` and three blanks. -/
def columnsText (addr capacity : List Char) (isFree : Bool) : List Char :=
  addr.leftpad 10 ' ' ++ " ".toList ++ capacity.leftpad 10 ' ' ++ " ".toList ++
    (if isFree then "free" else "taken").toList.leftpad 8 ' ' ++ "   ".toList

/-- The title and the names of the columns. -/
def headingText : List Char :=
  " --- Heap ---\n".toList ++ ("start".toList.leftpad 10 ' ' ++ " ".toList ++
    "capacity".toList.leftpad 10 ' ' ++ " ".toList ++ "status".toList.leftpad 8 ' ' ++
    " ".toList ++ "contents".toList.leftpad 10 ' ' ++ "\n".toList)

/-- The `for` loop of `debug_struct_info` at the byte `i`, with `n` bytes to go up to
`DEBUG_FIRST_BYTES`. -/
def contentsLoop (header : ℕ) : ℕ → ℕ → Heap Unit
  | 0, _ => return ()
  | n + 1, i => do
      if i < (← loadCapacity header).bytes then
        fprintf (hexText (← load (header + offsetofContents + i) 1))
        contentsLoop header n (i + 1)
      else return ()

/-- `debug_struct_info`: the line of one block, its first contents last. -/
def debugStructInfo (pointer : ℕ → List Char) (addr : ℕ) : Heap Unit := do
  let capacity ← loadCapacity addr
  let isFree ← loadIsFree addr
  fprintf (columnsText (pointer addr) (Nat.toDigits 10 capacity.bytes) isFree)
  contentsLoop addr debugFirstBytes 0
  fprintf "\n".toList

/-- The `for` loop of `debug_heap` at the block `header`. -/
def debugLoop (pointer : ℕ → List Char) : ℕ → ℕ → Heap Unit
  | 0, _ => throw .outOfFuel
  | n + 1, header => do
      if header = 0 then return ()
      debugStructInfo pointer header
      debugLoop pointer n (← loadNext header)

/-- `debug_heap`: the head line, then a line for each block of the chain. -/
def debugHeap (pointer : ℕ → List Char) (fuel ptr : ℕ) : Heap Unit := do
  fprintf headingText
  debugLoop pointer fuel ptr

/-- A sequence of calls, as in a `Run`, with the heap printed between some of them. -/
inductive DebugRun (pointer : ℕ → List Char) (ok : State → Call → Prop) :
    State → List Allocation → State → List Allocation → Prop where
  | done (s : State) (live : List Allocation) : DebugRun pointer ok s live s live
  | call {s s₁ s' : State} {live live' : List Allocation} {e : Event}
      (admissible : e.call.Admissible live) (allowed : ok s e.call) (takes : e.Takes s s₁)
      (rest : DebugRun pointer ok s₁ (e.call.after live e.result) s' live') :
      DebugRun pointer ok s live s' live'
  | debug {s s₁ s' : State} {live live' : List Allocation}
      (prints : Settles (fun n => debugHeap pointer n heapStart) s () s₁)
      (rest : DebugRun pointer ok s₁ live s' live') : DebugRun pointer ok s live s' live'

end LowLevel.Program.Allocator
