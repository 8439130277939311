import Mathlib.Data.List.Basic
import Mathlib.Logic.Function.Basic

/-!
# `task05.c`: two threads that print under a mutex

Each thread prints its word ten times, character by character, and holds the mutex while it does.
The pauses (`usleep`, `sleep`) only say that the other thread may go on, so they are steps that do
nothing else.
-/

set_option autoImplicit false

namespace LowLevel.Program.PrintingThreads

open Function

/-- The two threads, each with the word that it prints. -/
inductive Worker where
  | t1 | t2
  deriving DecidableEq, Repr

/-- `args1.word` and `args2.word`. -/
def word : Worker → String
  | .t1 => "Hello\n"
  | .t2 => "World!\n"

/-- What comes next in `my_thread`: the lock, the next character of `bad_print` with those
behind it, the pause after a character, the unlock, the pause after a word. -/
inductive WorkerAt where
  | lock | print (rest : List Char) | pause (rest : List Char) | unlock | sleep | done
  deriving DecidableEq, Repr

/-- The call that `main` is in front of. -/
inductive MainAt where
  | join1 | join2 | destroy | exited
  deriving DecidableEq, Repr

/-- The three threads, the mutex and the output. -/
structure State where
  main : MainAt
  worker : Worker → WorkerAt
  /-- The loop counter of each thread. -/
  i : Worker → ℕ
  /-- Who holds the mutex. -/
  mutex : Option Worker
  stdout : List Char

/-- After both threads have been created. -/
def initial : State where
  main := .join1
  worker := fun _ => .lock
  i := fun _ => 0
  mutex := none
  stdout := []

/-- The thread is in front of another statement. -/
def State.goto (s : State) (k : Worker) (l : WorkerAt) : State :=
  { s with worker := update s.worker k l }

/-- The head of the loop of `my_thread`. -/
def loop (i : ℕ) : WorkerAt := if i < 10 then .lock else .done

/-- `my_thread` with the word of the thread; `bad_print` is its inner loop. -/
def myThread (k : Worker) (s : State) : Option State :=
  match s.worker k with
  | .lock =>
      if s.mutex = none then some { s.goto k (.print (word k).toList) with mutex := some k }
      else none
  | .print [] => some (s.goto k .unlock)
  | .print (c :: rest) => some { s.goto k (.pause rest) with stdout := s.stdout ++ [c] }
  | .pause rest => some (s.goto k (.print rest))
  | .unlock => some { s.goto k .sleep with mutex := none }
  | .sleep => some { s.goto k (loop (s.i k + 1)) with i := update s.i k (s.i k + 1) }
  | .done => none

/-- The next call of `main`. -/
def mainStep (s : State) : Option State :=
  match s.main with
  | .join1 => if s.worker .t1 = .done then some { s with main := .join2 } else none
  | .join2 => if s.worker .t2 = .done then some { s with main := .destroy } else none
  | .destroy => some { s with main := .exited }
  | .exited => none

/-- Any of the three threads may take the next step. -/
inductive Step (s s' : State) : Prop where
  | main (h : mainStep s = some s')
  | worker (k : Worker) (h : myThread k s = some s')

end LowLevel.Program.PrintingThreads
