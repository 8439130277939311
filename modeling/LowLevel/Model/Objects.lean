import LowLevel.Program.AllocatorClient

/-!
# A store of objects

What an allocator is for: objects that a client makes, writes to, reads from and gives up, with no
addresses, and none of them in the way of another. A byte that was never written may read as
anything, and another value every time.
-/

set_option autoImplicit false

namespace LowLevel.Model

open LowLevel.Library LowLevel.Program.Allocator

/-- An object, with the bytes written so far. -/
structure Object where
  size : ℕ
  bytes : ℕ → Option Byte

/-- The objects by their handles. -/
abbrev Objects := ℕ → Option Object

/-- A new object. -/
def Object.fresh (size : ℕ) : Object := ⟨size, fun _ => none⟩

/-- Writing `bs` from `offset` on. -/
def Object.write (o : Object) (offset : ℕ) (bs : List Byte) : Object where
  size := o.size
  bytes i := if offset ≤ i ∧ i < offset + bs.length then bs[i - offset]? else o.bytes i

/-- The bytes from `offset` on may read as `bs`. -/
def Object.Reads (o : Object) (offset : ℕ) (bs : List Byte) : Prop :=
  ∀ i < bs.length, ∀ b, o.bytes (offset + i) = some b → bs[i]? = some b

/-- One action on the objects. -/
inductive Objects.Acts : Objects → Action × Answer → Objects → Prop where
  | made {os : Objects} {handle query : ℕ} (hfree : os handle = none) :
      Acts os (.malloc handle query, .served true)
        (Function.update os handle (some (.fresh query)))
  | refused {os : Objects} {handle query : ℕ} (hfree : os handle = none) :
      Acts os (.malloc handle query, .served false) os
  | gone {os : Objects} {handle : ℕ} {o : Object} (hobject : os handle = some o) :
      Acts os (.free handle, .done) (Function.update os handle none)
  | written {os : Objects} {handle offset : ℕ} {bs : List Byte} {o : Object}
      (hobject : os handle = some o) (hfits : offset + bs.length ≤ o.size) :
      Acts os (.store handle offset bs, .done)
        (Function.update os handle (some (o.write offset bs)))
  | read {os : Objects} {handle offset length : ℕ} {bs : List Byte} {o : Object}
      (hobject : os handle = some o) (hlength : bs.length = length)
      (hfits : offset + length ≤ o.size) (hreads : o.Reads offset bs) :
      Acts os (.load handle offset length, .bytes bs) os

end LowLevel.Model
