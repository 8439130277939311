import Mathlib.Data.Fin.Rev
import Mathlib.Logic.Function.Iterate
import Mathlib.Tactic.Ring

/-!
# Pictures and quarter turns

A picture is a rectangular array. A quarter turn makes its columns rows, last column
first; four of them are the identity, so the turns of a picture compose like the integers
modulo four. Seen in the plane, with the first row on top, a quarter turn is the
counter-clockwise one.
-/

set_option autoImplicit false

namespace LowLevel.Library

variable {α : Type}

/-- A rectangular array of cells. -/
structure Picture (α : Type) where
  rows : ℕ
  cols : ℕ
  cell : Fin rows → Fin cols → α

namespace Picture

/-- The quarter turn that takes the last column to the first row. -/
def turn (p : Picture α) : Picture α := ⟨p.cols, p.rows, fun i j => p.cell j i.rev⟩

/-- Two quarter turns are a half turn. -/
theorem turn_turn (p : Picture α) :
    p.turn.turn = ⟨p.rows, p.cols, fun i j => p.cell i.rev j.rev⟩ := rfl

/-- Three quarter turns are one the other way. -/
theorem turn_turn_turn (p : Picture α) :
    p.turn.turn.turn = ⟨p.cols, p.rows, fun i j => p.cell j.rev i⟩ := by
  rw [turn_turn]
  simp only [turn, Fin.rev_rev]

/-- **Four quarter turns** are the identity. -/
theorem turn_four (p : Picture α) : turn^[4] p = p := by
  show p.turn.turn.turn.turn = p
  rw [turn_turn_turn]
  simp only [turn, Fin.rev_rev]

/-- Turns compose modulo four. -/
theorem turn_iterate_mod (p : Picture α) (n : ℕ) : turn^[n % 4] p = turn^[n] p := by
  have hfour : ∀ k, turn^[4 * k] p = p := by
    intro k
    induction k with
    | zero => rfl
    | succ k ih => rw [Nat.mul_succ, Function.iterate_add_apply, turn_four, ih]
  calc turn^[n % 4] p = turn^[n % 4] (turn^[4 * (n / 4)] p) := by rw [hfour]
    _ = turn^[n % 4 + 4 * (n / 4)] p := (Function.iterate_add_apply _ _ _ _).symm
    _ = turn^[n] p := by rw [Nat.mod_add_div]

/-! ## Other cells -/

variable {β : Type}

/-- Pictures of the same size with the same cells. -/
theorem mk_congr {rows cols : ℕ} {cell cell' : Fin rows → Fin cols → α}
    (h : ∀ i j, cell i j = cell' i j) : Picture.mk rows cols cell = ⟨rows, cols, cell'⟩ :=
  congrArg _ (funext fun i => funext (h i))

/-- The picture with `f` of every cell. -/
def map (f : α → β) (p : Picture α) : Picture β := ⟨p.rows, p.cols, fun i j => f (p.cell i j)⟩

theorem map_turn_iterate (f : α → β) (p : Picture α) (n : ℕ) :
    (turn^[n] p).map f = turn^[n] (p.map f) := by
  induction n with
  | zero => rfl
  | succ n ih =>
      rw [Function.iterate_succ_apply', Function.iterate_succ_apply', ← ih]
      rfl

/-- Turning keeps the number of cells. -/
theorem size_iterate_turn (p : Picture α) (n : ℕ) :
    (turn^[n] p).cols * (turn^[n] p).rows = p.cols * p.rows := by
  induction n with
  | zero => rfl
  | succ n ih =>
      rw [Function.iterate_succ_apply', ← ih]
      exact Nat.mul_comm _ _

theorem dims_iterate_turn {bound : ℕ} {p : Picture α} (hcols : p.cols < bound)
    (hrows : p.rows < bound) (n : ℕ) : (turn^[n] p).cols < bound ∧ (turn^[n] p).rows < bound := by
  induction n with
  | zero => exact ⟨hcols, hrows⟩
  | succ n ih =>
      rw [Function.iterate_succ_apply']
      exact ⟨ih.2, ih.1⟩

/-! ## Pictures in the plane -/

/-- The picture `p` shows the cell `a` at the point `z`. The origin is the centre of the
picture, its first row is the upper one, and a cell is two units wide and high. -/
def Shows (p : Picture α) (z : ℤ × ℤ) (a : α) : Prop :=
  ∃ (i : Fin p.rows) (j : Fin p.cols),
    z = (2 * (j : ℤ) + 1 - p.cols, p.rows - (2 * (i : ℤ) + 1)) ∧ p.cell i j = a

/-- The picture `p'` is `p` after the motion `move` of the plane. -/
def Moves (move : ℤ × ℤ → ℤ × ℤ) (p p' : Picture α) : Prop :=
  ∀ z a, p.Shows z a ↔ p'.Shows (move z) a

/-- A quarter turn of the plane, counter-clockwise. -/
def counterClockwise (z : ℤ × ℤ) : ℤ × ℤ := (-z.2, z.1)

/-- A quarter turn of the plane, clockwise. -/
def clockwise (z : ℤ × ℤ) : ℤ × ℤ := (z.2, -z.1)

/-- A half turn of the plane. -/
def halfTurn (z : ℤ × ℤ) : ℤ × ℤ := (-z.1, -z.2)

/-- Two motions after each other. -/
theorem Moves.comp {move move' : ℤ × ℤ → ℤ × ℤ} {p p' p'' : Picture α} (h : Moves move p p')
    (h' : Moves move' p' p'') : Moves (move' ∘ move) p p'' :=
  fun z a => (h z a).trans (h' (move z) a)

/-- **A quarter turn** of a picture is one of the plane. -/
theorem moves_turn (p : Picture α) : Moves counterClockwise p p.turn := by
  intro z a
  constructor
  · rintro ⟨i, j, rfl, ha⟩
    refine ⟨j.rev, i, Prod.ext ?_ ?_, by simpa only [turn, Fin.rev_rev] using ha⟩
    · simp only [counterClockwise, turn]
      ring
    · simp only [counterClockwise, turn, Fin.val_rev]
      omega
  · rintro ⟨i, j, hz, ha⟩
    obtain ⟨hy, hx⟩ := Prod.mk.inj hz
    refine ⟨j, i.rev, Prod.ext ?_ ?_, ha⟩
    · have hi : (i : ℕ) < p.cols := i.isLt
      have hrev : (i.rev : ℕ) = p.cols - (i + 1) := Fin.val_rev i
      simp only [turn] at hx
      omega
    · simp only [turn] at hy
      omega

theorem moves_turn_turn (p : Picture α) : Moves halfTurn p p.turn.turn :=
  p.moves_turn.comp p.turn.moves_turn

theorem moves_turn_turn_turn (p : Picture α) : Moves clockwise p p.turn.turn.turn := by
  have hthree : clockwise = counterClockwise ∘ halfTurn := by
    funext z
    simp only [clockwise, counterClockwise, halfTurn, Function.comp_apply, neg_neg]
  rw [hthree]
  exact p.moves_turn_turn.comp p.turn.turn.moves_turn

/-- The picture with its first row at the bottom. -/
def flip (p : Picture α) : Picture α := ⟨p.rows, p.cols, fun i j => p.cell i.rev j⟩

/-- Upside down, a quarter turn goes the other way. -/
theorem flip_turn (p : Picture α) : p.turn.flip = p.flip.turn.turn.turn := by
  rw [turn_turn_turn]
  simp only [flip, turn, Fin.rev_rev]

theorem flip_turn_turn (p : Picture α) : p.turn.turn.flip = p.flip.turn.turn := by
  rw [turn_turn, turn_turn]
  rfl

theorem flip_turn_turn_turn (p : Picture α) : p.turn.turn.turn.flip = p.flip.turn := by
  rw [turn_turn_turn]
  rfl

end Picture

end LowLevel.Library
