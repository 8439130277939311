import LowLevel.Library.StoreBuffer
import Mathlib.Data.Int.Notation

/-!
# `cpu-reordering.c`: two threads that store and then load

The main thread clears `x` and `y`, lets both threads run once and looks at what they have read.
The threads and the main thread run on processors with store buffers (x86). A post or a wait on
a semaphore is a locked instruction, so the stores before it have left the buffer.
-/

set_option autoImplicit false

namespace LowLevel.Program.CpuReordering

open Library Function

/-- The two threads that `main` starts. -/
inductive Worker where
  | thread0 | thread1
  deriving DecidableEq, Repr

/-- The threads that may hold stores back. -/
inductive Thread where
  | main | worker (k : Worker)
  deriving DecidableEq, Repr

/-- The global variables that the threads share. -/
inductive Var where
  | x | y | read0 | read1
  deriving DecidableEq, Repr

/-- The statement of `main` that comes next. -/
inductive MainAt where
  | loop | clearX | clearY | begin0 | begin1 | end1 | end2 | test0 | test1 | report | puts | exited
  deriving DecidableEq, Repr

/-- The statement of `thread0_impl` or `thread1_impl` that comes next. The assignment to `read0`
(or `read1`) is a load and a store. -/
inductive WorkerAt where
  | wait | store | fence | load | record | post
  deriving DecidableEq, Repr

/-- The statement of each thread, the semaphores and the buffered memory. -/
structure State where
  main : MainAt
  i : ℕ
  worker : Worker → WorkerAt
  /-- What a thread has loaded and not stored yet. -/
  reg : Worker → ℤ
  semBegin : Worker → ℕ
  semEnd : ℕ
  memory : BufferedMemory Thread Var ℤ
  stdout : String

/-- All semaphores, and the variables of the program, start at zero. -/
def initial : State where
  main := .loop
  i := 0
  worker := fun _ => .wait
  reg := fun _ => 0
  semBegin := fun _ => 0
  semEnd := 0
  memory := ⟨fun _ => 0, fun _ => []⟩
  stdout := ""

/-- The stores of the thread have all reached the shared memory. -/
def State.drained (s : State) (t : Thread) : Bool := (s.memory.buffer t).isEmpty

/-- The thread is in front of another statement. -/
def State.goto (s : State) (k : Worker) (l : WorkerAt) : State :=
  { s with worker := update s.worker k l }

/-- The body of the loop of both threads: `flag = 1; mfence; result = other`. -/
def threadImpl (k : Worker) (flag other result : Var) (s : State) : Option State :=
  let t := Thread.worker k
  match s.worker k with
  | .wait =>
      if s.drained t ∧ 0 < s.semBegin k then
        some { s.goto k .store with semBegin := update s.semBegin k (s.semBegin k - 1) }
      else none
  | .store => some { s.goto k .fence with memory := s.memory.store t flag 1 }
  | .fence => if s.drained t then some (s.goto k .load) else none
  | .load => some { s.goto k .record with reg := update s.reg k (s.memory.load t other) }
  | .record => some { s.goto k .post with memory := s.memory.store t result (s.reg k) }
  | .post => if s.drained t then some { s.goto k .wait with semEnd := s.semEnd + 1 } else none

/-- `thread0_impl` stores into `x` and loads `y`. -/
def thread0Impl : State → Option State := threadImpl .thread0 .x .y .read0

/-- `thread1_impl` stores into `y` and loads `x`. -/
def thread1Impl : State → Option State := threadImpl .thread1 .y .x .read1

/-- `sem_post(&sem_begin0)` or `sem_post(&sem_begin1)`. -/
def State.release (s : State) (k : Worker) (next : MainAt) : Option State :=
  if s.drained .main then
    some { s with main := next, semBegin := update s.semBegin k (s.semBegin k + 1) }
  else none

/-- `sem_wait(&sem_end)`. -/
def State.collect (s : State) (next : MainAt) : Option State :=
  if s.drained .main ∧ 0 < s.semEnd then some { s with main := next, semEnd := s.semEnd - 1 }
  else none

/-- The next statement of `main`. -/
def mainStep (s : State) : Option State :=
  match s.main with
  | .loop => some { s with main := if s.i < 1000000 then .clearX else .puts }
  | .clearX => some { s with main := .clearY, memory := s.memory.store .main .x 0 }
  | .clearY => some { s with main := .begin0, memory := s.memory.store .main .y 0 }
  | .begin0 => s.release .thread0 .begin1
  | .begin1 => s.release .thread1 .end1
  | .end1 => s.collect .end2
  | .end2 => s.collect .test0
  | .test0 =>
      if s.memory.load .main .read0 = 0 then some { s with main := .test1 }
      else some { s with main := .loop, i := s.i + 1 }
  | .test1 =>
      if s.memory.load .main .read1 = 0 then some { s with main := .report }
      else some { s with main := .loop, i := s.i + 1 }
  | .report =>
      some { s with
        main := .exited
        stdout := s.stdout ++ "reordering happened on iteration " ++ toString s.i ++ "\n" }
  | .puts =>
      some { s with
        main := .exited
        stdout := s.stdout ++ "No reordering detected during 1000000 iterations\n" }
  | .exited => none

/-- What may happen next: a thread goes on, or the processor carries out a waiting store. -/
inductive Event where
  | main | thread0 | thread1 | drain (t : Thread)

/-- The process is over, with all its threads, when `main` has returned or called `exit`. -/
def next (s : State) (e : Event) : Option State :=
  if s.main = .exited then none
  else
    match e with
    | .main => mainStep s
    | .thread0 => thread0Impl s
    | .thread1 => thread1Impl s
    | .drain t => (s.memory.drain t).map fun memory => { s with memory := memory }

/-- Some thread moves, or some buffer hands on its oldest store. -/
def step (s s' : State) : Prop := ∃ e, next s e = some s'

end LowLevel.Program.CpuReordering
