import Mathlib.Logic.Function.Basic
import Mathlib.Data.List.Basic

/-!
# Store buffers

The memory of a processor with total store order: what a thread stores waits in its buffer and
goes to the shared memory later, in the order in which it was stored. The thread itself reads its
waiting stores, the others do not. A fence, or a locked instruction, is taken when the buffer is
empty.
-/

set_option autoImplicit false

namespace LowLevel.Library

/-- The shared memory, and the waiting stores of each thread, the oldest one first. -/
structure BufferedMemory (Thread Loc Val : Type) where
  shared : Loc → Val
  buffer : Thread → List (Loc × Val)

namespace BufferedMemory

variable {Thread Loc Val : Type} (m : BufferedMemory Thread Loc Val)
  {m' : BufferedMemory Thread Loc Val} {t t' : Thread} {x : Loc} {v : Val}

section Stores

variable [DecidableEq Thread]

/-- A new store waits behind the older ones of its thread. -/
def store (t : Thread) (x : Loc) (v : Val) : BufferedMemory Thread Loc Val :=
  { m with buffer := Function.update m.buffer t (m.buffer t ++ [(x, v)]) }

@[simp] theorem shared_store : (m.store t x v).shared = m.shared := rfl

@[simp] theorem buffer_store_self : (m.store t x v).buffer t = m.buffer t ++ [(x, v)] :=
  Function.update_self ..

@[simp] theorem buffer_store_of_ne (h : t' ≠ t) : (m.store t x v).buffer t' = m.buffer t' :=
  Function.update_of_ne h ..

end Stores

section Loads

variable [DecidableEq Loc]

/-- What the thread reads: its waiting stores are carried out for it. -/
def load (t : Thread) (x : Loc) : Val :=
  (m.buffer t).foldl (fun f w => Function.update f w.1 w.2) m.shared x

variable {m}

theorem load_of_empty (h : m.buffer t = []) : m.load t x = m.shared x := by
  rw [load, h]
  rfl

end Loads

variable [DecidableEq Thread] [DecidableEq Loc]

/-- The oldest waiting store of the thread goes to the shared memory. -/
def drain (t : Thread) : Option (BufferedMemory Thread Loc Val) :=
  match m.buffer t with
  | [] => none
  | (x, v) :: ws => some ⟨Function.update m.shared x v, Function.update m.buffer t ws⟩

variable {m}

/-- A store that leaves the buffer. -/
theorem drain_eq_some (h : m.drain t = some m') : ∃ x v ws, m.buffer t = (x, v) :: ws ∧
    m' = ⟨Function.update m.shared x v, Function.update m.buffer t ws⟩ := by
  unfold drain at h
  split at h
  case h_1 => cases h
  case h_2 x v ws hbuffer => exact ⟨x, v, ws, hbuffer, (Option.some.inj h).symm⟩

theorem drain_eq_none (h : m.drain t = none) : m.buffer t = [] := by
  unfold drain at h
  split at h
  case h_1 hbuffer => exact hbuffer
  case h_2 => cases h

end BufferedMemory

end LowLevel.Library
