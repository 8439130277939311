import Mathlib.Data.Nat.Basic

/-!
# Unsigned expressions

An index expression over unsigned words, with its value modulo the word size and its
value as an integer. The two agree when no operation leaves the words.
-/

set_option autoImplicit false

namespace LowLevel.Library

inductive Unsigned
  | val (n : ℕ)
  | add (a b : Unsigned)
  | sub (a b : Unsigned)
  | mul (a b : Unsigned)

namespace Unsigned

/-- The value in unsigned arithmetic modulo `m`. -/
def wrap (m : ℕ) : Unsigned → ℕ
  | val n => n
  | add a b => (a.wrap m + b.wrap m) % m
  | sub a b => (a.wrap m + (m - b.wrap m % m)) % m
  | mul a b => a.wrap m * b.wrap m % m

/-- The value in the integers. -/
def eval : Unsigned → ℤ
  | val n => n
  | add a b => a.eval + b.eval
  | sub a b => a.eval - b.eval
  | mul a b => a.eval * b.eval

/-- **No wrap-around**: every value on the way is one of a word. -/
def Exact (m : ℕ) : Unsigned → Prop
  | val n => n < m
  | add a b => a.Exact m ∧ b.Exact m ∧ a.eval + b.eval < m
  | sub a b => a.Exact m ∧ b.Exact m ∧ b.eval ≤ a.eval
  | mul a b => a.Exact m ∧ b.Exact m ∧ a.eval * b.eval < m

/-- Without wrap-around the unsigned value is the integer one. -/
theorem wrap_eq {m : ℕ} {e : Unsigned} (h : e.Exact m) :
    (e.wrap m : ℤ) = e.eval ∧ e.wrap m < m := by
  induction e with
  | val n => exact ⟨rfl, h⟩
  | add a b iha ihb =>
      obtain ⟨ha, hb, hsum⟩ := h
      obtain ⟨ha, -⟩ := iha ha
      obtain ⟨hb, -⟩ := ihb hb
      have hlt : a.wrap m + b.wrap m < m := by omega
      simp only [wrap, eval, Nat.mod_eq_of_lt hlt]
      omega
  | sub a b iha ihb =>
      obtain ⟨ha, hb, hle⟩ := h
      obtain ⟨ha, halt⟩ := iha ha
      obtain ⟨hb, hblt⟩ := ihb hb
      have hwrap : a.wrap m + (m - b.wrap m) = a.wrap m - b.wrap m + m := by omega
      simp only [wrap, eval, Nat.mod_eq_of_lt hblt]
      rw [hwrap, Nat.add_mod_right, Nat.mod_eq_of_lt (by omega)]
      omega
  | mul a b iha ihb =>
      obtain ⟨ha, hb, hprod⟩ := h
      obtain ⟨ha, -⟩ := iha ha
      obtain ⟨hb, -⟩ := ihb hb
      have hlt : a.wrap m * b.wrap m < m := by
        rw [← ha, ← hb] at hprod
        exact_mod_cast hprod
      simp only [wrap, eval, Nat.mod_eq_of_lt hlt, Int.natCast_mul, ha, hb]
      exact ⟨trivial, hlt⟩

end Unsigned

end LowLevel.Library
