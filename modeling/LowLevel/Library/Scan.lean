import Mathlib.Data.List.TakeWhile

/-!
# Scanning a list

What a scan for the first element that fails a test takes, and where it stops.
-/

set_option autoImplicit false

namespace LowLevel.Library

variable {α : Type} {p : α → Bool} {xs ys : List α}

/-- The scan stops at an element that fails. -/
theorem eq_false_of_mem_head?_dropWhile (xs : List α) :
    ∀ a ∈ (xs.dropWhile p).head?, p a = false := by
  intro a ha
  have hnot := List.head?_dropWhile_not p xs
  rw [Option.mem_def.mp ha] at hnot
  exact hnot

/-- What stands behind the part that a scan takes, or the default at the end. -/
theorem headD_dropWhile (xs : List α) {d : α} (hd : p d = false) :
    p ((xs.dropWhile p).headD d) = false := by
  cases h : xs.dropWhile p with
  | nil => exact hd
  | cons a ys =>
      have hhead : a ∈ (xs.dropWhile p).head? := by rw [h, List.head?_cons, Option.mem_some]
      exact eq_false_of_mem_head?_dropWhile xs a hhead

/-- What comes before an element that fails is taken. -/
theorem takeWhile_append_of_head? (hxs : ∀ a ∈ xs, p a) (hys : ∀ a ∈ ys.head?, p a = false) :
    (xs ++ ys).takeWhile p = xs := by
  rw [List.takeWhile_append_of_pos hxs]
  cases ys with
  | nil => rw [List.takeWhile_nil, List.append_nil]
  | cons a ys =>
      rw [List.takeWhile_cons_of_neg (by simpa using hys a rfl), List.append_nil]

/-- An element of a list, with what is before and behind it. -/
theorem exists_split {k : ℕ} (hk : k < xs.length) :
    ∃ as a bs, xs = as ++ a :: bs ∧ as.length = k := by
  refine ⟨xs.take k, xs[k], xs.drop (k + 1), ?_, List.length_take_of_le hk.le⟩
  rw [← List.drop_eq_getElem_cons hk, List.take_append_drop]

end LowLevel.Library
