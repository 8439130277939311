import LowLevel.Library.Pipe
import Mathlib.Data.List.Basic
import Mathlib.Data.Int.Notation

/-!
# `pipes.c`: a child that sends its array after every change

The child doubles an element for every number it reads and sends the array through a pipe, the
parent prints what it receives. A negative number ends the exchange. The second pipe is opened and
closed, and never used.
-/

set_option autoImplicit false

namespace LowLevel.Program.Pipes

open Library

/-- A C `int`. -/
abbrev CInt := BitVec 32

/-- The message, `exchange_data`. -/
structure ExchangeData where
  finished : Bool
  arr : List CInt
  deriving DecidableEq

/-- The `struct` in memory: the flag, three bytes of padding, ten numbers. -/
def ExchangeData.encode (padding : Byte × Byte × Byte) (d : ExchangeData) : List Byte :=
  (if d.finished then 1 else 0) :: padding.1 :: padding.2.1 :: padding.2.2 ::
    d.arr.flatMap fun v => leBytes 4 v.toNat

/-- The message that the parent takes from the bytes it has read. -/
def ExchangeData.decode (bytes : List Byte) : ExchangeData where
  finished := bytes.getD 0 0 ≠ 0
  arr := (List.range 10).map fun i => BitVec.ofNat 32 (leNat ((bytes.drop (4 + 4 * i)).take 4))

/-- `sizeof(exchange_data)`: three bytes of padding stand before the array. -/
def sizeofExchangeData : ℕ := 44

/-- What the parent prints for an array. -/
def line (arr : List CInt) : String :=
  String.join (arr.map fun v => toString v.toInt ++ " ") ++ "\n"

/-- The statement that comes next in the child. It is `undefined` what an index out of the array,
an overflow or a missing number leads to. -/
inductive ChildAt where
  | start | scan | send | sendBreak | close | exited | undefined | killed
  deriving DecidableEq, Repr

/-- The call that the parent is in front of. -/
inductive ParentAt where
  | start | read | print | close | exited
  deriving DecidableEq, Repr

/-- The two processes, the pipe between them and the output. -/
structure State where
  child : ChildAt
  /-- The numbers that `scanf` is to find. -/
  stdin : List ℤ
  arr : List CInt
  pipe : Pipe
  parent : ParentAt
  /-- The bytes of `child_message`. -/
  message : List Byte
  stdout : String

/-- After the `fork`: both processes have both ends of the pipe. -/
def initial (stdin : List ℤ) (garbage : List Byte) : State where
  child := .start
  stdin := stdin
  arr := [0, 1, 2, 3, 4, 5, 6, 7, 8, 9]
  pipe := ⟨[], 2, 2⟩
  parent := .start
  message := garbage
  stdout := ""

/-- `arr[input] *= 2`, where it is defined. -/
def doubled (arr : List CInt) (input : ℤ) : Option (List CInt) := do
  let v ← arr[input.toNat]?
  if v.toInt * 2 < 2 ^ 31 ∧ -2 ^ 31 ≤ v.toInt * 2 then some (arr.set input.toNat (v * 2)) else none

/-- `write` to the pipe: without a reader the process is killed. -/
def State.send (s : State) (capacity : ℕ) (data : List Byte) (next : ChildAt) : Option State :=
  if s.pipe.readers = 0 then some { s with
    child := .killed, pipe := { s.pipe with writers := s.pipe.writers - 1 } }
  else (s.pipe.write capacity data).map fun pipe => { s with child := next, pipe := pipe }

/-- The next statement of the child. -/
def childStep (capacity : ℕ) (padding : Byte × Byte × Byte) (s : State) : Option State :=
  match s.child with
  | .start => some { s with
      child := .scan, pipe := { s.pipe with readers := s.pipe.readers - 1 } }
  | .scan =>
      match s.stdin with
      | [] => some { s with child := .undefined }
      | input :: stdin =>
          if input < 0 then some { s with child := .sendBreak, stdin := stdin }
          else
            match doubled s.arr input with
            | some arr => some { s with child := .send, stdin := stdin, arr := arr }
            | none => some { s with child := .undefined }
  | .send => s.send capacity (ExchangeData.encode padding ⟨false, s.arr⟩) .scan
  | .sendBreak =>
      s.send capacity (ExchangeData.encode padding ⟨true, List.replicate 10 0⟩) .close
  | .close => some { s with
      child := .exited, pipe := { s.pipe with writers := s.pipe.writers - 1 } }
  | .exited | .undefined | .killed => none

/-- The next statement of the parent. -/
def parentStep (s : State) : Option State :=
  match s.parent with
  | .start => some { s with
      parent := .read, pipe := { s.pipe with writers := s.pipe.writers - 1 } }
  | .read => do
      let (received, pipe) ← s.pipe.read sizeofExchangeData
      let message := received ++ s.message.drop received.length
      let finished := received = [] ∨ (ExchangeData.decode message).finished
      some { s with
        parent := if finished then .close else .print, pipe := pipe, message := message }
  | .print => some { s with
      parent := .read, stdout := s.stdout ++ line (ExchangeData.decode s.message).arr }
  | .close => some { s with
      parent := .exited, pipe := { s.pipe with readers := s.pipe.readers - 1 } }
  | .exited => none

/-- A step of one of the processes. The padding of a message is whatever the child leaves there. -/
inductive Step (capacity : ℕ) (s s' : State) : Prop where
  | child (padding : Byte × Byte × Byte) (h : childStep capacity padding s = some s')
  | parent (h : parentStep s = some s')

end LowLevel.Program.Pipes
