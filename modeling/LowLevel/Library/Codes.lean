import Mathlib.Data.List.Basic
import Mathlib.Data.List.Infix

/-!
# Codes that are read word by word

A code gives a word to each symbol, and a message is written as the words of its symbols one after
the other. When no word is the beginning of another, the message can be read back.
-/

set_option autoImplicit false

namespace LowLevel.Library

variable {α β : Type} {code : α → List β}

/-- No word is empty, and the first word of a text is that of one symbol only. -/
structure Instantaneous (code : α → List β) : Prop where
  ne_nil : ∀ a, code a ≠ []
  eq_of_append_eq : ∀ a b xs ys, code a ++ xs = code b ++ ys → a = b

/-- **A message can be read back.** -/
theorem Instantaneous.flatMap_injective (h : Instantaneous code) :
    Function.Injective (List.flatMap code) := by
  intro as bs heq
  induction as generalizing bs with
  | nil =>
      cases bs with
      | nil => rfl
      | cons b bs =>
          rw [List.flatMap_nil, List.flatMap_cons] at heq
          exact absurd (List.append_eq_nil_iff.mp heq.symm).1 (h.ne_nil b)
  | cons a as ih =>
      cases bs with
      | nil =>
          rw [List.flatMap_nil, List.flatMap_cons] at heq
          exact absurd (List.append_eq_nil_iff.mp heq).1 (h.ne_nil a)
      | cons b bs =>
          rw [List.flatMap_cons, List.flatMap_cons] at heq
          obtain rfl := h.eq_of_append_eq a b _ _ heq
          rw [ih (List.append_cancel_left heq)]

/-- Different words of one length. -/
theorem instantaneous_of_length {n : ℕ} (hpos : 0 < n) (hlength : ∀ a, (code a).length = n)
    (hinj : Function.Injective code) : Instantaneous code where
  ne_nil a hnil := by
    have := hlength a
    rw [hnil, List.length_nil] at this
    omega
  eq_of_append_eq a b xs ys heq := by
    refine hinj (List.append_inj_left heq ?_)
    rw [hlength, hlength]

/-- The place where a symbol stands first is known. -/
theorem eq_of_append_cons_eq {b : β} {pre pre' post post' : List β} (hb : b ∉ pre) (hb' : b ∉ pre')
    (h : pre ++ b :: post = pre' ++ b :: post') : pre = pre' ∧ post = post' := by
  induction pre generalizing pre' with
  | nil =>
      cases pre' with
      | nil => exact ⟨rfl, (List.cons.inj h).2⟩
      | cons c pre' => exact absurd ((List.cons.inj h).1 ▸ List.mem_cons_self) hb'
  | cons c pre ih =>
      cases pre' with
      | nil => exact absurd ((List.cons.inj h).1 ▸ List.mem_cons_self) hb
      | cons c' pre' =>
          obtain ⟨rfl, htail⟩ := List.cons.inj h
          obtain ⟨rfl, hpost⟩ := ih (List.not_mem_of_not_mem_cons hb)
            (List.not_mem_of_not_mem_cons hb') htail
          exact ⟨rfl, hpost⟩

end LowLevel.Library
