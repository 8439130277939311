import LowLevel.Library.LittleEndian
import Mathlib.Data.List.Forall2

/-!
# Pipes

A pipe holds the bytes that have been written and not read yet. A small write is put in as a whole
or has to wait; a read takes what is there, and waits when there is nothing and somebody may still
write. A pipe that is only written and read in pieces of one size hands the pieces on one by one.
-/

set_option autoImplicit false

namespace LowLevel.Library

/-- The bytes under way, and how many descriptors of the two ends are open. -/
structure Pipe where
  bytes : List Byte
  readers : ℕ
  writers : ℕ

namespace Pipe

variable {p p' : Pipe} {capacity n : ℕ} {data piece : List Byte}

/-- An atomic write, when there is room for it. -/
def write (p : Pipe) (capacity : ℕ) (data : List Byte) : Option Pipe :=
  if p.bytes.length + data.length ≤ capacity then some { p with bytes := p.bytes ++ data }
  else none

/-- A read of at most `n` bytes: nothing is read from an empty pipe without writers. -/
def read (p : Pipe) (n : ℕ) : Option (List Byte × Pipe) :=
  if p.bytes = [] ∧ 0 < p.writers then none
  else some (p.bytes.take n, { p with bytes := p.bytes.drop n })

theorem write_eq_some (h : p.write capacity data = some p') :
    p' = { p with bytes := p.bytes ++ data } := by
  rw [write, Option.ite_none_right_eq_some, Option.some.injEq] at h
  exact h.2.symm

/-- The bytes are the messages `as`, one behind the other, each encoded as `R` says. -/
def Carries {α : Type} (R : List Byte → α → Prop) (bytes : List Byte) (as : List α) : Prop :=
  ∃ pieces : List (List Byte), bytes = pieces.flatten ∧ List.Forall₂ R pieces as

section Messages

variable {α : Type} {R : List Byte → α → Prop} {a : α} {as : List α} {bytes : List Byte}

theorem carries_nil : Carries R [] [] := ⟨[], rfl, .nil⟩

/-- One more message behind the others. -/
theorem Carries.snoc (h : Carries R bytes as) (ha : R piece a) :
    Carries R (bytes ++ piece) (as ++ [a]) := by
  obtain ⟨pieces, rfl, hpieces⟩ := h
  exact ⟨pieces ++ [piece], by simp, List.rel_append hpieces (.cons ha .nil)⟩

/-- With no message under way there is no byte. -/
theorem Carries.eq_nil (h : Carries R bytes []) : bytes = [] := by
  obtain ⟨pieces, rfl, hpieces⟩ := h
  rw [List.forall₂_nil_right_iff.mp hpieces]
  rfl

/-- **The oldest message is read as a whole**, when all encodings have the length that is asked
for. -/
theorem Carries.read (h : Carries R p.bytes (a :: as)) (hn : 0 < n)
    (hlength : ∀ piece a, R piece a → piece.length = n) :
    ∃ piece bytes, R piece a ∧ Carries R bytes as ∧ p.bytes = piece ++ bytes ∧
      p.read n = some (piece, { p with bytes := bytes }) := by
  obtain ⟨pieces, hbytes, hpieces⟩ := h
  obtain ⟨piece, pieces, ha, has, rfl⟩ := List.forall₂_cons_right_iff.mp hpieces
  rw [List.flatten_cons] at hbytes
  have hpiece := hlength piece a ha
  refine ⟨piece, pieces.flatten, ha, ⟨pieces, rfl, has⟩, hbytes, ?_⟩
  have hne : p.bytes ≠ [] := by
    rw [hbytes]
    exact List.append_ne_nil_of_left_ne_nil (List.ne_nil_of_length_pos (hpiece ▸ hn)) _
  rw [Pipe.read, if_neg fun h => hne h.1, hbytes, List.take_left' hpiece, List.drop_left' hpiece]

end Messages

end Pipe

end LowLevel.Library
