import LowLevel.Library.X86.Runs

/-!
# What is on the stack

`Stacked m p vs` says that the quadwords `vs` stand at `p`, one above the other, as pushes leave
them. What is stored below `p` does not matter to them.
-/

set_option autoImplicit false

namespace LowLevel.Library.X86

/-- The quadwords `vs` stand at `p`. -/
def Stacked (m : Memory) : Word → List Word → Prop
  | _, [] => True
  | p, v :: vs => m.read64 p = v ∧ Stacked m (p + 8) vs

namespace Stacked

open Memory

variable {m m' : Memory} {p : Word} {vs vs' : List Word} {n : ℕ}

/-- They depend on their own bytes only. -/
theorem congr (h : Stacked m p vs) (hlen : 8 * vs.length ≤ 2 ^ 64)
    (hsame : ∀ x : Word, (x - p).toNat < 8 * vs.length → m' x = m x) : Stacked m' p vs := by
  induction vs generalizing p with
  | nil => trivial
  | cons v vs ih =>
      rw [List.length_cons] at hlen hsame
      refine ⟨?_, ih h.2 (by omega) fun x hx => hsame x (by bv_omega)⟩
      rw [← h.1]
      exact read64_congr fun x hx => hsame x (by omega)

theorem of_onlyBelow (h : Stacked m p vs) (hm : OnlyBelow m m' p n)
    (hlen : n + 8 * vs.length ≤ 2 ^ 64) : Stacked m' p vs := by
  refine h.congr (by omega) fun x hx => hm x ?_
  bv_omega

/-- A push puts a quadword below the others. -/
theorem push (h : Stacked m p vs) (v : Word) (hlen : 8 * (vs.length + 1) ≤ 2 ^ 64) :
    Stacked (m.write64 (p - 8) v) (p - 8) (v :: vs) := by
  have hup : p - 8 + 8 = p := by bv_omega
  refine ⟨read64_write64 m (p - 8) v, ?_⟩
  rw [hup]
  exact h.congr (by omega) fun x hx => write64_of_le (by bv_omega)

/-- Beyond the first ones. -/
theorem drop (vs : List Word) (h : Stacked m p (vs ++ vs')) :
    Stacked m (p + BitVec.ofNat 64 (8 * vs.length)) vs' := by
  induction vs generalizing p with
  | nil => simpa using h
  | cons v vs ih =>
      have hadd : p + 8 + BitVec.ofNat 64 (8 * vs.length) =
          p + BitVec.ofNat 64 (8 * (vs.length + 1)) := by bv_omega
      rw [List.length_cons, ← hadd]
      exact ih h.2

end Stacked

end LowLevel.Library.X86
