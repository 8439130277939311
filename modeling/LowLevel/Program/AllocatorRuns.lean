import LowLevel.Program.Allocator

/-!
# Runs of the allocator

A client calls `_malloc` and `_free`; an allocation is live from the call that returned
it to the call that frees it. `Run` is a finite sequence of such calls, each of which
returns, with what the client sees of it: the result and the calls of `mmap`. A call may
be restricted by a condition on the state it is made in.
-/

set_option autoImplicit false

namespace LowLevel.Program.Allocator

open LowLevel.Library

/-- A call of the client. -/
inductive Call where
  | malloc (query : ℕ)
  | free (ptr : ℕ)
  deriving DecidableEq, Repr

/-- What `_malloc` returned for a request that is not freed yet. -/
structure Allocation where
  ptr : ℕ
  size : ℕ
  deriving DecidableEq, Repr

/-- The byte at `x` is in the payload. -/
def Allocation.Holds (a : Allocation) (x : ℕ) : Prop := a.ptr ≤ x ∧ x < a.ptr + a.size

namespace Call

/-- Make the call; `_free` returns nothing, recorded as zero. -/
def perform (fuel : ℕ) : Call → Heap ℕ
  | malloc query => Allocator.malloc fuel query
  | free ptr => do
      Allocator.free fuel ptr
      return 0

/-- A request is a `size_t`, and only live pointers are freed. -/
def Admissible (live : List Allocation) : Call → Prop
  | malloc query => query < SIZE
  | free ptr => ∃ a ∈ live, a.ptr = ptr

/-- The live allocations after the call returned `result`. -/
def after (live : List Allocation) (result : ℕ) : Call → List Allocation
  | malloc query => if result = 0 then live else ⟨result, query⟩ :: live
  | free ptr => live.filter (·.ptr ≠ ptr)

end Call

/-! ## The end of the heap -/

/-- A call after `heap_init`. -/
inductive HeapCall where
  | client (call : Call)
  | term
  deriving DecidableEq, Repr

namespace HeapCall

/-- Make the call; `heap_term` returns nothing, recorded as zero. -/
def perform (fuel : ℕ) : HeapCall → Heap ℕ
  | client call => call.perform fuel
  | term => do
      Allocator.heapTerm fuel
      return 0

/-- The live allocations after the call returned `result`; after `heap_term` there is no heap. -/
def after (live : Option (List Allocation)) (result : ℕ) : HeapCall → Option (List Allocation)
  | client call => live.map fun as => call.after as result
  | term => none

end HeapCall

/-- One call as the client and the kernel see it. -/
structure Event where
  call : Call
  result : ℕ
  requests : List Request
  deriving DecidableEq, Repr

/-- The event takes the process from `s` to `s'`. -/
structure Event.Takes (e : Event) (s s' : State) : Prop where
  settles : Settles (fun n => e.call.perform n) s e.result s'
  requests_eq : s'.requests = s.requests ++ e.requests

/-- A call has one outcome. -/
theorem Event.Takes.unique {e e' : Event} {s s₁ s₂ : State} (h₁ : e.Takes s s₁)
    (h₂ : e'.Takes s s₂) (hcall : e.call = e'.call) : e = e' ∧ s₁ = s₂ := by
  obtain ⟨c, r, rs⟩ := e
  obtain ⟨c', r', rs'⟩ := e'
  obtain rfl : c = c' := hcall
  obtain ⟨hr, hs⟩ := h₁.settles.unique h₂.settles
  dsimp only at hr
  subst hr hs
  have hrs : rs = rs' := List.append_cancel_left (h₁.requests_eq.symm.trans h₂.requests_eq)
  exact ⟨by rw [hrs], rfl⟩

/-- A sequence of calls, each admissible and as `ok` wants it where it is made. -/
inductive Run (ok : State → Call → Prop) :
    State → List Allocation → List Event → State → List Allocation → Prop where
  | done (s : State) (live : List Allocation) : Run ok s live [] s live
  | step {s s₁ s' : State} {live live' : List Allocation} {e : Event} {trace : List Event}
      (admissible : e.call.Admissible live) (allowed : ok s e.call) (takes : e.Takes s s₁)
      (rest : Run ok s₁ (e.call.after live e.result) trace s' live') :
      Run ok s live (e :: trace) s' live'

/-- `heap_init` in a process without a heap placed its region at `HEAP_START`. -/
def Started (s : State) : Prop :=
  ∃ (s₀ : State) (initial : ℕ), s₀.mapped = [] ∧ initial < SIZE ∧
    (heapInit initial).run s₀ = .ok (heapStart, s)

namespace Run

variable {ok : State → Call → Prop} {s s' : State} {live live' : List Allocation}
variable {trace : List Event}

/-- What every event of a run preserves holds at its end. -/
theorem preserves {I : State → List Allocation → Prop}
    (hstep : ∀ s live (e : Event) s₁, I s live → e.call.Admissible live → ok s e.call →
      e.Takes s s₁ → I s₁ (e.call.after live e.result))
    (h : Run ok s live trace s' live') (hI : I s live) : I s' live' := by
  induction h with
  | done => exact hI
  | step admissible allowed takes rest ih =>
      exact ih (hstep _ _ _ _ hI admissible allowed takes)

end Run

end LowLevel.Program.Allocator
