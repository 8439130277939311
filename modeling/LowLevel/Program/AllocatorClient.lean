import LowLevel.Program.AllocatorRuns

/-!
# A client that uses its memory

The client keeps what `_malloc` returned under a handle, and between the calls it stores to the
payloads and loads from them. It uses no byte outside of what it asked for, and nothing that it
has freed.
-/

set_option autoImplicit false

namespace LowLevel.Program.Allocator

open LowLevel.Library

/-- What the client does. The offset is from the start of the payload. -/
inductive Action where
  | malloc (handle query : ℕ)
  | free (handle : ℕ)
  | store (handle offset : ℕ) (bs : List Byte)
  | load (handle offset length : ℕ)
  deriving DecidableEq, Repr

/-- What the client learns from it. -/
inductive Answer where
  | served (nonNull : Bool)
  | done
  | bytes (bs : List Byte)
  deriving DecidableEq, Repr

/-- The process, and the allocations that are not freed yet by their handles. -/
structure Client where
  process : State
  table : List (ℕ × Allocation)

/-- The `n` bytes at `a`. -/
def loadBytes (a n : ℕ) : Heap (List Byte) := do
  touch a n
  return readBytes (← get).mem a n

/-- What a client may do. -/
def Action.Admissible (table : List (ℕ × Allocation)) : Action → Prop
  | malloc handle query => query < SIZE ∧ ∀ e ∈ table, e.1 ≠ handle
  | free handle => ∃ a, (handle, a) ∈ table
  | store handle offset bs => ∃ a, (handle, a) ∈ table ∧ offset + bs.length ≤ a.size
  | load handle offset length => ∃ a, (handle, a) ∈ table ∧ offset + length ≤ a.size

/-- One action. -/
inductive Client.Acts : Client → Action × Answer → Client → Prop where
  | malloc {s s' : State} {table : List (ℕ × Allocation)} {handle query result : ℕ}
      (hrun : Settles (fun n => (Call.malloc query).perform n) s result s') :
      Acts ⟨s, table⟩ (.malloc handle query, .served (result ≠ 0))
        ⟨s', if result = 0 then table else (handle, ⟨result, query⟩) :: table⟩
  | free {s s' : State} {table : List (ℕ × Allocation)} {handle result : ℕ} {a : Allocation}
      (hmem : (handle, a) ∈ table)
      (hrun : Settles (fun n => (Call.free a.ptr).perform n) s result s') :
      Acts ⟨s, table⟩ (.free handle, .done) ⟨s', table.filter (·.1 ≠ handle)⟩
  | store {s s' : State} {table : List (ℕ × Allocation)} {handle offset : ℕ} {bs : List Byte}
      {a : Allocation} (hmem : (handle, a) ∈ table)
      (hrun : (Allocator.store (a.ptr + offset) bs).run s = .ok ((), s')) :
      Acts ⟨s, table⟩ (.store handle offset bs, .done) ⟨s', table⟩
  | load {s s' : State} {table : List (ℕ × Allocation)} {handle offset length : ℕ}
      {bs : List Byte} {a : Allocation} (hmem : (handle, a) ∈ table)
      (hrun : (loadBytes (a.ptr + offset) length).run s = .ok (bs, s')) :
      Acts ⟨s, table⟩ (.load handle offset length, .bytes bs) ⟨s', table⟩

/-- An admissible action that `ok` allows. -/
def Client.Steps (ok : Action → Prop) (c : Client) (l : Action × Answer) (c' : Client) : Prop :=
  l.1.Admissible c.table ∧ ok l.1 ∧ c.Acts l c'

end LowLevel.Program.Allocator
