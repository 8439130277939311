import Mathlib.Data.List.Basic
import Mathlib.Tactic.Ring

/-!
# Rows of equal length

Byte strings of one length laid out one after another: element `k` of row `i` stands at
`i * s + k`, and the whole is as long as the rows together. The first `n` rows are built
up row by row (`rows_succ`), which is how loops write and read them.
-/

set_option autoImplicit false

namespace LowLevel.Library

variable {α : Type}

/-- The rows `f first`, `f (first + 1)`, … one after another, `n` of them. -/
def rows (f : ℕ → List α) : ℕ → ℕ → List α
  | 0, _ => []
  | n + 1, first => f first ++ rows f n (first + 1)

variable {f : ℕ → List α} {n first s i k : ℕ}

theorem rows_succ : rows f (n + 1) first = f first ++ rows f n (first + 1) := rfl

/-- Rows of length `s` are `n * s` long together. -/
theorem length_rows (hlen : ∀ i < n, (f (first + i)).length = s) :
    (rows f n first).length = n * s := by
  induction n generalizing first with
  | zero => simp [rows]
  | succ n ih =>
      have hhead : (f first).length = s := hlen 0 (by omega)
      have htail : (rows f n (first + 1)).length = n * s := by
        apply ih
        intro i hi
        rw [show first + 1 + i = first + (i + 1) by omega]
        exact hlen (i + 1) (by omega)
      rw [rows_succ, List.length_append, hhead, htail]
      ring

/-- **Where an element stands**: element `k` of row `i` is at `i * s + k`. -/
theorem getElem?_rows (hlen : ∀ i < n, (f (first + i)).length = s) (hi : i < n) (hk : k < s) :
    (rows f n first)[i * s + k]? = (f (first + i))[k]? := by
  induction n generalizing first i with
  | zero => omega
  | succ n ih =>
      have hhead : (f first).length = s := hlen 0 (by omega)
      rw [rows_succ]
      cases i with
      | zero =>
          rw [Nat.zero_mul, Nat.zero_add, List.getElem?_append_left (by omega)]
          rfl
      | succ i =>
          have hskip : (i + 1) * s + k = s + (i * s + k) := by ring
          rw [List.getElem?_append_right (by rw [hskip, hhead]; omega), hhead, hskip,
            Nat.add_sub_cancel_left, show first + (i + 1) = first + 1 + i by omega]
          refine ih (fun i hi => ?_) (by omega)
          rw [show first + 1 + i = first + (i + 1) by omega]
          exact hlen (i + 1) (by omega)

end LowLevel.Library
