import Mathlib.Data.List.Basic
import Mathlib.Data.Nat.Basic

/-!
# Runs of one element in a list

A run is a stretch of consecutive places that all hold `a`. `FirstRun a xs k start` says that the
first maximal run of `k` places or more starts at `start`; it is found by a pass from the left
that counts the places at the end of what it has seen (`hasRun_concat`, `firstRun_append`).
-/

set_option autoImplicit false

namespace LowLevel.Library

variable {α : Type} {a b : α} {xs pre post : List α} {c k start length : ℕ}

/-- The `length` places from `start` on hold `a`. -/
def RunAt (a : α) (xs : List α) (start length : ℕ) : Prop :=
  ∀ i, start ≤ i → i < start + length → xs[i]? = some a

/-- Some `k` consecutive places hold `a`. -/
def HasRun (a : α) (xs : List α) (k : ℕ) : Prop := ∃ start, RunAt a xs start k

/-- A run that cannot be extended at either end. -/
structure MaximalRun (a : α) (xs : List α) (start length : ℕ) : Prop where
  run : RunAt a xs start length
  nonempty : 0 < length
  left : ∀ i, i + 1 = start → xs[i]? ≠ some a
  right : xs[start + length]? ≠ some a

/-- The first maximal run of `k` places or more starts at `start`. -/
def FirstRun (a : α) (xs : List α) (k start : ℕ) : Prop :=
  ∃ length, MaximalRun a xs start length ∧ k ≤ length ∧
    ∀ start' length', MaximalRun a xs start' length' → k ≤ length' → start ≤ start'

theorem RunAt.mono (h : RunAt a xs start length) (hk : k ≤ length) : RunAt a xs start k :=
  fun i hi hlt => h i hi (by omega)

/-- A run is inside of the list. -/
theorem RunAt.add_le_length (h : RunAt a xs start length) (hlength : 0 < length) :
    start + length ≤ xs.length := by
  have hlast := h (start + length - 1) (by omega) (by omega)
  obtain ⟨hlt, -⟩ := List.getElem?_eq_some_iff.mp hlast
  omega

theorem RunAt.append (h : RunAt a xs start length) (ys : List α) :
    RunAt a (xs ++ ys) start length := by
  intro i hi hlt
  have hplace := h i hi hlt
  obtain ⟨hin, -⟩ := List.getElem?_eq_some_iff.mp hplace
  rw [List.getElem?_append_left hin, hplace]

/-- A run of a longer list that ends before what was appended. -/
theorem RunAt.of_append {ys : List α} (h : RunAt a (xs ++ ys) start length)
    (hend : start + length ≤ xs.length) : RunAt a xs start length := by
  intro i hi hlt
  rw [← List.getElem?_append_left (by omega)]
  exact h i hi hlt

theorem HasRun.append (h : HasRun a xs k) (ys : List α) : HasRun a (xs ++ ys) k :=
  h.imp fun _ hrun => hrun.append ys

theorem runAt_replicate (a : α) (pre post : List α) (k : ℕ) :
    RunAt a (pre ++ List.replicate k a ++ post) pre.length k := by
  refine RunAt.append (fun i hi hlt => ?_) post
  rw [List.getElem?_append_right hi, List.getElem?_replicate, if_pos (by omega)]

/-- Where the list in front does not end with `a`, a run starts in it only if it ends in it. -/
theorem RunAt.add_le_of_lt (hpre : pre.getLast? ≠ some a) {ys : List α}
    (h : RunAt a (pre ++ ys) start length) (hlt : start < pre.length) :
    start + length ≤ pre.length := by
  by_contra hlong
  apply hpre
  rw [List.getLast?_eq_getElem?, ← List.getElem?_append_left (by omega : _ < pre.length)]
  exact h (pre.length - 1) (by omega) (by omega)

/-- Another element makes no run. -/
theorem not_hasRun_concat (hk : 0 < k) (hb : b ≠ a) (h : ¬ HasRun a xs k) :
    ¬ HasRun a (xs ++ [b]) k := by
  rintro ⟨start, hrun⟩
  have hinside := hrun.add_le_length hk
  rw [List.length_append, List.length_singleton] at hinside
  by_cases hend : start + k ≤ xs.length
  · exact h ⟨start, hrun.of_append hend⟩
  · have hlast := hrun xs.length (by omega) (by omega)
    rw [List.getElem?_concat_length, Option.some_inj] at hlast
    exact hb hlast

/-- One more `a` makes a run of at most the places at the end. -/
theorem le_of_hasRun_concat (hk : 0 < k) (hpre : pre.getLast? ≠ some a)
    (h : ¬ HasRun a (pre ++ List.replicate c a) k)
    (hrun : HasRun a (pre ++ List.replicate c a ++ [a]) k) : k ≤ c + 1 := by
  obtain ⟨start, hrun⟩ := hrun
  have hinside := hrun.add_le_length hk
  rw [List.length_append, List.length_append, List.length_replicate,
    List.length_singleton] at hinside
  by_cases hstart : start < pre.length
  · rw [List.append_assoc] at hrun
    have hend := hrun.add_le_of_lt hpre hstart
    exact absurd ⟨start, (hrun.of_append hend).append _⟩ h
  · omega

/-- The `a`s that a list starts with. -/
theorem exists_replicate_append (a : α) (xs : List α) :
    ∃ c ys, xs = List.replicate c a ++ ys ∧ ys.head? ≠ some a := by
  induction xs with
  | nil => exact ⟨0, [], rfl, Option.some_ne_none a ∘ Eq.symm⟩
  | cons x xs ih =>
      by_cases hx : x = a
      · obtain ⟨c, ys, rfl, hys⟩ := ih
        exact ⟨c + 1, ys, by rw [hx]; rfl, hys⟩
      · exact ⟨0, x :: xs, rfl, fun h => hx (Option.some.inj h)⟩

/-- **The first run**: where none was before it, and what is before it does not end with `a`. -/
theorem firstRun_append (hk : 0 < k) (hpre : pre.getLast? ≠ some a) (hnone : ¬ HasRun a pre k) :
    FirstRun a (pre ++ List.replicate k a ++ post) k pre.length := by
  obtain ⟨c, ys, rfl, hys⟩ := exists_replicate_append a post
  have hsplit : pre ++ List.replicate k a ++ (List.replicate c a ++ ys) =
      pre ++ List.replicate (k + c) a ++ ys := by
    rw [← List.append_assoc, List.append_assoc pre, ← List.replicate_add]
  rw [hsplit]
  refine ⟨k + c, ⟨runAt_replicate a pre ys (k + c), by omega, fun i hi => ?_, ?_⟩,
    Nat.le_add_right k c, fun start' length' hmax hlength => ?_⟩
  · rw [List.append_assoc, List.getElem?_append_left (by omega)]
    rw [List.getLast?_eq_getElem?, ← hi, Nat.add_sub_cancel] at hpre
    exact hpre
  · rw [List.getElem?_append_right (by simp), List.length_append, List.length_replicate,
      Nat.sub_self, ← List.head?_eq_getElem?]
    exact hys
  · by_contra hbefore
    have hrun := hmax.run.mono hlength
    rw [List.append_assoc] at hrun
    have hend := hrun.add_le_of_lt hpre (by omega)
    exact hnone ⟨start', hrun.of_append hend⟩

end LowLevel.Library
