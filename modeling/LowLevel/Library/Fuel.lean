import Mathlib.Order.Lattice
import Mathlib.Data.Nat.Basic

/-!
# Stateful computations with loops, run with fuel

A program that reads and writes a state `σ` and may stop with a fault `ε` is a
`StateT σ (Except ε)` computation. A loop takes a fuel argument and faults when it runs
out of it, so that every definition is total and can be evaluated.

`Settles f s a s'` says that `f`, given enough fuel, runs from `s` to the answer `a` and
the state `s'`. It is the big-step meaning of `f` with the fuel hidden: it composes along
`>>=` (`Settles.bind`), it is closed under one unfolding of a fuelled recursion
(`Settles.step`), and it determines the answer and the state (`Settles.unique`).
-/

set_option autoImplicit false

namespace LowLevel.Library

variable {σ ε α β : Type}

/-- A computation that succeeds hands its answer and state to the rest. -/
theorem run_bind_of_ok {x : StateT σ (Except ε) α} {f : α → StateT σ (Except ε) β}
    {s s₁ : σ} {a : α} (h : x.run s = .ok (a, s₁)) : (x >>= f).run s = (f a).run s₁ := by
  rw [StateT.run_bind, h]
  rfl

/-- A computation that faults stops the whole. -/
theorem run_bind_of_error {x : StateT σ (Except ε) α} {f : α → StateT σ (Except ε) β}
    {s : σ} {e : ε} (h : x.run s = .error e) : (x >>= f).run s = .error e := by
  rw [StateT.run_bind, h]
  rfl

/-- With enough fuel, `f` runs from `s` to the answer `a` and the state `s'`. -/
def Settles (f : ℕ → StateT σ (Except ε) α) (s : σ) (a : α) (s' : σ) : Prop :=
  ∃ n₀, ∀ n, n₀ ≤ n → (f n).run s = .ok (a, s')

namespace Settles

variable {f : ℕ → StateT σ (Except ε) α} {g : ℕ → α → StateT σ (Except ε) β}
variable {s s₁ s₂ : σ} {a : α} {b : β}

/-- A computation without loops settles when it runs. -/
theorem of_run {x : StateT σ (Except ε) α} (h : x.run s = .ok (a, s₁)) :
    Settles (fun _ => x) s a s₁ :=
  ⟨0, fun _ _ => h⟩

/-- Sequencing: the second computation starts where the first settled. -/
theorem bind (hf : Settles f s a s₁) (hg : Settles (fun n => g n a) s₁ b s₂) :
    Settles (fun n => f n >>= g n) s b s₂ := by
  obtain ⟨n₁, h₁⟩ := hf
  obtain ⟨n₂, h₂⟩ := hg
  refine ⟨max n₁ n₂, fun n hn => ?_⟩
  show (f n >>= g n).run s = .ok (b, s₂)
  rw [run_bind_of_ok (h₁ n ((le_max_left n₁ n₂).trans hn))]
  exact h₂ n ((le_max_right n₁ n₂).trans hn)

/-- Sequencing after a computation that needs no fuel. -/
theorem bind_run {x : StateT σ (Except ε) α} (hx : x.run s = .ok (a, s₁))
    (hg : Settles (fun n => g n a) s₁ b s₂) :
    Settles (fun n => x >>= g n) s b s₂ :=
  bind (of_run hx) hg

/-- One unfolding of a recursion on the fuel: if `f` with one more unit of fuel goes on
as `f'` from `s₁`, then `f` settles as `f'` does from there. -/
theorem step {f' : ℕ → StateT σ (Except ε) α} (h : Settles f' s₁ a s₂)
    (hstep : ∀ n, (f (n + 1)).run s = (f' n).run s₁) : Settles f s a s₂ := by
  obtain ⟨n₀, hn₀⟩ := h
  refine ⟨n₀ + 1, fun n hn => ?_⟩
  obtain ⟨k, rfl⟩ : ∃ k, n = k + 1 := ⟨n - 1, by omega⟩
  rw [hstep, hn₀ k (by omega)]

/-- A computation that returns at once when it has any fuel. -/
theorem of_succ (h : ∀ n, (f (n + 1)).run s = .ok (a, s₁)) : Settles f s a s₁ := by
  have hpure : Settles (fun _ => (pure a : StateT σ (Except ε) α)) s₁ a s₁ :=
    ⟨0, fun _ _ => rfl⟩
  exact hpure.step h

/-- Computations that run alike settle alike. -/
theorem congr {f' : ℕ → StateT σ (Except ε) α} (h : Settles f' s a s₁)
    (hrun : ∀ n, (f n).run s = (f' n).run s) : Settles f s a s₁ := by
  obtain ⟨n₀, hn₀⟩ := h
  exact ⟨n₀, fun n hn => (hrun n).trans (hn₀ n hn)⟩

/-- A computation settles to one answer and one state. -/
theorem unique {a' : α} {s' : σ} (h : Settles f s a s₁) (h' : Settles f s a' s') :
    a = a' ∧ s₁ = s' := by
  obtain ⟨n₁, h₁⟩ := h
  obtain ⟨n₂, h₂⟩ := h'
  have := (h₁ _ (le_max_left n₁ n₂)).symm.trans (h₂ _ (le_max_right n₁ n₂))
  simpa using this

end Settles

/-! ## Computations that neither loop nor fault -/

namespace Stateful

variable {x y : StateM σ α}

theorem bind_apply (x : StateM σ α) (f : α → StateM σ β) (s : σ) :
    (x >>= f) s = f (x s).1 (x s).2 := rfl

theorem get_apply (s : σ) : (get : StateM σ σ) s = (s, s) := rfl

theorem modify_apply (f : σ → σ) (s : σ) : (modify f : StateM σ PUnit) s = (⟨⟩, f s) := rfl

theorem ite_apply (c : Prop) [Decidable c] (s : σ) :
    (if c then x else y) s = if c then x s else y s := by
  split_ifs
  · rfl
  · rfl

end Stateful

end LowLevel.Library
