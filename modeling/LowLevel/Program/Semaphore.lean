import Mathlib.Data.List.Basic
import Mathlib.Data.Int.Notation

/-!
# `semaphore.c`: a shared array and two semaphores

The child reads an index and a value, changes the array that it shares with its parent, and waits
until the parent has printed the array. What `printf` has written before the `fork` is left out.
-/

set_option autoImplicit false

namespace LowLevel.Program.Semaphore

/-- The statement that comes next in the child. It is `undefined` what an index out of the array,
or a number that was never read, leads to. -/
inductive ChildAt where
  | scanIdx | scanVal | change | post | wait | undefined
  deriving DecidableEq, Repr

/-- The statement that the parent is in front of; `print i` is the loop over the array. -/
inductive ParentAt where
  | wait | print (i : ℕ) | post | newline
  deriving DecidableEq, Repr

/-- The two processes with what they share: the array, the semaphores and the output. -/
structure State where
  child : ChildAt
  /-- The numbers that `scanf` is to find. -/
  stdin : List ℤ
  idx : Option ℤ
  val : Option ℤ
  arr : List ℤ
  /-- The semaphore `child`, on which the parent waits. -/
  semChild : ℕ
  semParent : ℕ
  parent : ParentAt
  stdout : String

/-- The array is set and the child forked. `sem_open` with `O_CREAT` leaves a semaphore that is
there already as it is, so the counts are those of the runs before: zero for semaphores that are
new. -/
def initial (semParent semChild : ℕ) (stdin : List ℤ) : State where
  child := .scanIdx
  stdin := stdin
  idx := none
  val := none
  arr := [1, 2, 3, 4, 5, 6, 7, 8, 9, 10]
  semChild := semChild
  semParent := semParent
  parent := .wait
  stdout := ""

/-- `scanf("%d", &v)`: at the end of the input the variable is left as it is. -/
def scanf (stdin : List ℤ) (v : Option ℤ) : Option ℤ × List ℤ :=
  match stdin with
  | [] => (v, [])
  | n :: rest => (some n, rest)

/-- `change_arr`; a store outside of the ten elements is undefined, and the model stops. -/
def changeArr (arr : List ℤ) (idx value : ℤ) : Option (List ℤ) :=
  if 0 ≤ idx ∧ idx < arr.length then some (arr.set idx.toNat value) else none

/-- The next statement of the child. -/
def childStep (s : State) : Option State :=
  match s.child with
  | .scanIdx =>
      let (idx, stdin) := scanf s.stdin s.idx
      some { s with child := .scanVal, idx := idx, stdin := stdin }
  | .scanVal =>
      let (val, stdin) := scanf s.stdin s.val
      some { s with child := .change, val := val, stdin := stdin }
  | .change =>
      match s.idx.bind fun idx => s.val.bind fun val => changeArr s.arr idx val with
      | some arr => some { s with child := .post, arr := arr }
      | none => some { s with child := .undefined }
  | .post => some { s with child := .wait, semChild := s.semChild + 1 }
  | .wait =>
      if 0 < s.semParent then some { s with child := .scanIdx, semParent := s.semParent - 1 }
      else none
  | .undefined => none

/-- The next statement of the parent. -/
def parentStep (s : State) : Option State :=
  match s.parent with
  | .wait =>
      if 0 < s.semChild then some { s with parent := .print 0, semChild := s.semChild - 1 }
      else none
  | .print i =>
      if i < 10 then
        some { s with
          parent := .print (i + 1), stdout := s.stdout ++ (toString (s.arr.getD i 0) ++ " ") }
      else some { s with parent := .post }
  | .post => some { s with parent := .newline, semParent := s.semParent + 1 }
  | .newline => some { s with parent := .wait, stdout := s.stdout ++ "\n" }

/-- Either process may take the next step. -/
inductive Step (s s' : State) : Prop where
  | child (h : childStep s = some s')
  | parent (h : parentStep s = some s')

end LowLevel.Program.Semaphore
