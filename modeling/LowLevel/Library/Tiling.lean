import Mathlib.Data.List.Basic
import Mathlib.Data.List.Count
import Mathlib.Data.List.Nodup
import Mathlib.Data.List.Pairwise
import Mathlib.Tactic.Tauto

/-!
# Tilings, by counting

Pieces of type `α` lie on points of type `ι`: `holds a x` says that the piece `a` covers
the point `x`. `depth holds l x` is the number of pieces of `l` that cover `x`. A list of
pieces tiles a set of points when the depth is one on the set and zero elsewhere, so
that both "nothing is lost" and "nothing overlaps" are one equation, and an edit of the
list that keeps the depth keeps the tiling, wherever in the list it happens.
-/

set_option autoImplicit false

namespace LowLevel.Library

variable {α ι : Type} (holds : α → ι → Prop) [∀ a x, Decidable (holds a x)]

/-- The number of pieces of `l` that cover `x`. -/
def depth (l : List α) (x : ι) : ℕ := l.countP fun a => decide (holds a x)

variable {holds}

@[simp] theorem depth_nil (x : ι) : depth holds [] x = 0 := rfl

@[simp] theorem depth_cons (a : α) (l : List α) (x : ι) :
    depth holds (a :: l) x = (if holds a x then 1 else 0) + depth holds l x := by
  unfold depth
  rw [List.countP_cons, Nat.add_comm]
  simp

@[simp] theorem depth_append (l₁ l₂ : List α) (x : ι) :
    depth holds (l₁ ++ l₂) x = depth holds l₁ x + depth holds l₂ x :=
  List.countP_append

/-- A point is covered when some piece covers it. -/
theorem depth_pos_iff {l : List α} {x : ι} : 0 < depth holds l x ↔ ∃ a ∈ l, holds a x := by
  simp [depth, List.countP_pos_iff]

/-- The order of the pieces does not matter. -/
theorem depth_eq_of_perm {l₁ l₂ : List α} (h : l₁.Perm l₂) (x : ι) :
    depth holds l₁ x = depth holds l₂ x :=
  h.countP_eq _

/-- Where the depth is at most one everywhere, no two pieces share a point. -/
theorem pairwise_of_depth_le_one {l : List α} (h : ∀ x, depth holds l x ≤ 1) :
    l.Pairwise fun a b => ∀ x, holds a x → ¬ holds b x := by
  induction l with
  | nil => exact List.Pairwise.nil
  | cons a l ih =>
      simp only [depth_cons] at h
      refine List.Pairwise.cons (fun b hb x ha hbx => ?_) (ih fun x => ?_)
      · have hpos : 0 < depth holds l x := depth_pos_iff.mpr ⟨b, hb, hbx⟩
        have hx := h x
        rw [if_pos ha] at hx
        omega
      · have hx := h x
        omega

/-- A set cut in two disjoint parts is counted once in each. -/
theorem ite_add_ite {p q r : Prop} [Decidable p] [Decidable q] [Decidable r] (hor : r ↔ p ∨ q)
    (hand : ¬ (p ∧ q)) :
    (if p then 1 else 0) + (if q then 1 else 0) = if r then 1 else 0 := by
  by_cases hp : p
  · have hq : ¬ q := fun hq => hand ⟨hp, hq⟩
    rw [if_pos hp, if_neg hq, if_pos (hor.mpr (.inl hp))]
  · by_cases hq : q
    · rw [if_neg hp, if_pos hq, if_pos (hor.mpr (.inr hq))]
    · rw [if_neg hp, if_neg hq, if_neg (by tauto)]

/-- Cutting a piece in two disjoint parts keeps the depth. -/
theorem depth_pair_eq {a b c : α} {x : ι} (hor : holds a x ↔ holds b x ∨ holds c x)
    (hand : ¬ (holds b x ∧ holds c x)) : depth holds [b, c] x = depth holds [a] x := by
  simp only [depth_cons, depth_nil, Nat.add_zero]
  exact ite_add_ite hor hand

/-- Where the depth is at most one everywhere, a point has one piece. -/
theorem eq_of_depth_le_one {l : List α} (h : ∀ x, depth holds l x ≤ 1) {a b : α} {x : ι}
    (ha : a ∈ l) (hb : b ∈ l) (hax : holds a x) (hbx : holds b x) : a = b := by
  by_contra hne
  have : Std.Symm fun a b => ∀ x, holds a x → ¬ holds b x :=
    ⟨fun _ _ hapart x hb ha => hapart x ha hb⟩
  exact (pairwise_of_depth_le_one h).forall ha hb hne x hax hbx

section Starts

variable {α : Type} {holds : α → ℕ → Prop} [∀ a x, Decidable (holds a x)] {l₁ l₂ : List α}
  {start : α → ℕ} (hstart : ∀ a, holds a (start a)) (hle : ∀ a x, holds a x → start a ≤ x)
  (hdet : ∀ a ∈ l₁, ∀ b ∈ l₂, start a = start b → a = b)
  (hdepth : ∀ x, depth holds l₁ x = depth holds l₂ x) (hsingle : ∀ x, depth holds l₁ x ≤ 1)
include hstart hle hdet hdepth hsingle

/-- A piece is in the other tiling when the pieces of that one below it are in both. -/
theorem mem_of_depth_eq {a : α} (ha : a ∈ l₁) (hbelow : ∀ b ∈ l₂, start b < start a → b ∈ l₁) :
    a ∈ l₂ := by
  have hpos : 0 < depth holds l₂ (start a) := by
    rw [← hdepth]
    exact depth_pos_iff.mpr ⟨a, ha, hstart a⟩
  obtain ⟨b, hb, hholds⟩ := depth_pos_iff.mp hpos
  rcases Nat.lt_or_eq_of_le (hle b _ hholds) with hlt | heq
  · rwa [eq_of_depth_le_one hsingle ha (hbelow b hb hlt) (hstart a) hholds]
  · rwa [hdet a ha b hb heq.symm]

/-- **Tilings of the same points** are the same pieces, when a piece is determined by its
start. -/
theorem perm_of_depth_eq : l₁.Perm l₂ := by
  have hnodup : ∀ {l : List α}, (∀ x, depth holds l x ≤ 1) → l.Nodup := by
    intro l hl
    refine (pairwise_of_depth_le_one hl).imp fun {a b} hapart => ?_
    rintro rfl
    exact hapart (start a) (hstart a) (hstart a)
  have hsingle' : ∀ x, depth holds l₂ x ≤ 1 := fun x => hdepth x ▸ hsingle x
  have hdet' : ∀ a ∈ l₂, ∀ b ∈ l₁, start a = start b → a = b := fun a ha b hb heq =>
    (hdet b hb a ha heq.symm).symm
  refine (List.perm_ext_iff_of_nodup (hnodup hsingle) (hnodup hsingle')).mpr fun a => ?_
  -- from the lowest piece upwards
  induction hn : start a using Nat.strongRecOn generalizing a with
  | ind n ih =>
      subst hn
      constructor
      · intro ha
        exact mem_of_depth_eq hstart hle hdet hdepth hsingle ha fun b hb hlt =>
          (ih _ hlt b rfl).mpr hb
      · intro ha
        exact mem_of_depth_eq hstart hle hdet' (fun x => (hdepth x).symm) hsingle' ha
          fun b hb hlt => (ih _ hlt b rfl).mp hb

end Starts

end LowLevel.Library
