import LowLevel.Program.Semaphore
import LowLevel.Library.Transitions

/-!
# The array is printed between two changes

New semaphores let the child and the parent take turns: the parent prints the array after every
change and before the next one, so no line mixes two states of the array. Only the end of a line
may come late. The two never wait for each other.
-/

set_option autoImplicit false

namespace LowLevel.Analysis.Semaphore

open Program.Semaphore Relation

variable {s s' : State} {stdin : List ℤ} {k : ℕ}

/-- The index of a change, counted from zero: behind the end of the input the last one stays. -/
def idxAt (stdin : List ℤ) (k : ℕ) : Option ℤ := stdin[2 * min k ((stdin.length - 1) / 2)]?

/-- The value of a change, in the same way. -/
def valAt (stdin : List ℤ) (k : ℕ) : Option ℤ := stdin[2 * min k ((stdin.length - 2) / 2) + 1]?

/-- The array after the first `k` changes. -/
def arrayAt (stdin : List ℤ) : ℕ → List ℤ
  | 0 => [1, 2, 3, 4, 5, 6, 7, 8, 9, 10]
  | k + 1 => (arrayAt stdin k).set ((idxAt stdin k).getD 0).toNat ((valAt stdin k).getD 0)

/-- The numbers of an array, each with a space behind it. -/
def row (arr : List ℤ) : String := String.join (arr.map fun v => toString v ++ " ")

/-- The lines for the array after each of the first `k` changes. -/
def lines (stdin : List ℤ) (k : ℕ) : String :=
  String.join ((List.range k).map fun j => row (arrayAt stdin (j + 1)) ++ "\n")

/-- What a variable holds before it is read for the change `k`. -/
def before (at' : ℕ → Option ℤ) : ℕ → Option ℤ
  | 0 => none
  | k + 1 => at' k

/-- The variables of the child and the numbers it has not read. -/
def Scanned (stdin : List ℤ) (n : ℕ) (idx val : Option ℤ) (s : State) : Prop :=
  s.stdin = stdin.drop n ∧ s.idx = idx ∧ s.val = val

/-- How far the child is when `k` changes have been made. -/
def Child (stdin : List ℤ) (k : ℕ) (s : State) : Prop :=
  match s.child with
  | .scanIdx | .post | .wait =>
      Scanned stdin (2 * k) (before (idxAt stdin) k) (before (valAt stdin) k) s
  | .scanVal => Scanned stdin (2 * k + 1) (idxAt stdin k) (before (valAt stdin) k) s
  | .change => Scanned stdin (2 * k + 2) (idxAt stdin k) (valAt stdin k) s
  | .undefined => True

/-- The end of a line that the parent has not written yet. -/
def owed (s : State) : String := if s.parent = .newline then "\n" else ""

/-- Whose turn it is, after `k` changes. -/
inductive Turn (stdin : List ℤ) : ℕ → State → Prop where
  | reading {k : ℕ} {s : State} (hchild : s.child ≠ .post) (hchild' : s.child ≠ .wait)
      (hsem : s.semChild = 0) (hsem' : s.semParent = 0)
      (hparent : s.parent = .wait ∨ s.parent = .newline)
      (htext : s.stdout ++ owed s = lines stdin k) : Turn stdin k s
  | changed {k : ℕ} {s : State} (hchild : s.child = .post)
      (hsem : s.semChild = 0) (hsem' : s.semParent = 0)
      (hparent : s.parent = .wait ∨ s.parent = .newline)
      (htext : s.stdout ++ owed s = lines stdin k) : Turn stdin (k + 1) s
  | posted {k : ℕ} {s : State} (hchild : s.child = .wait)
      (hsem : s.semChild = 1) (hsem' : s.semParent = 0)
      (hparent : s.parent = .wait ∨ s.parent = .newline)
      (htext : s.stdout ++ owed s = lines stdin k) : Turn stdin (k + 1) s
  | printing {k i : ℕ} {s : State} (hchild : s.child = .wait)
      (hsem : s.semChild = 0) (hsem' : s.semParent = 0) (hparent : s.parent = .print i)
      (hi : i ≤ 10)
      (htext : s.stdout = lines stdin k ++ row ((arrayAt stdin (k + 1)).take i)) :
      Turn stdin (k + 1) s
  | printed {k : ℕ} {s : State} (hchild : s.child = .wait)
      (hsem : s.semChild = 0) (hsem' : s.semParent = 0) (hparent : s.parent = .post)
      (htext : s.stdout ++ "\n" = lines stdin (k + 1)) : Turn stdin (k + 1) s
  | returned {k : ℕ} {s : State} (hchild : s.child = .wait)
      (hsem : s.semChild = 0) (hsem' : s.semParent = 1)
      (hparent : s.parent = .wait ∨ s.parent = .newline)
      (htext : s.stdout ++ owed s = lines stdin (k + 1)) : Turn stdin (k + 1) s

/-- The array, the child and the turn agree on how many changes have been made. -/
def Inv (stdin : List ℤ) (s : State) : Prop :=
  ∃ k, s.arr = arrayAt stdin k ∧ Child stdin k s ∧ Turn stdin k s

theorem length_arrayAt (stdin : List ℤ) (k : ℕ) : (arrayAt stdin k).length = 10 := by
  induction k with
  | zero => rfl
  | succ k ih => rw [arrayAt, List.length_set, ih]

theorem lines_succ (stdin : List ℤ) (k : ℕ) :
    lines stdin (k + 1) = lines stdin k ++ row (arrayAt stdin (k + 1)) ++ "\n" := by
  rw [lines, List.range_succ, List.map_append]
  simp [lines, String.append_assoc]

/-- What `scanf` makes of the input behind the first `n` numbers. -/
theorem scanf_drop (stdin : List ℤ) (n : ℕ) (v : Option ℤ) :
    scanf (stdin.drop n) v = (stdin[n]? <|> v, stdin.drop (n + 1)) := by
  by_cases hn : n < stdin.length
  · rw [List.drop_eq_getElem_cons hn, List.getElem?_eq_getElem hn]
    rfl
  · rw [List.drop_eq_nil_of_le (by omega), List.drop_eq_nil_of_le (by omega),
      List.getElem?_eq_none (by omega)]
    rfl

/-- Of every second number from the number `c` on, the last one stays at the end of the input. -/
theorem getElem?_or_before (stdin : List ℤ) (c k : ℕ) :
    (stdin[2 * k + c]? <|>
        before (fun k => stdin[2 * min k ((stdin.length - (c + 1)) / 2) + c]?) k) =
      stdin[2 * min k ((stdin.length - (c + 1)) / 2) + c]? := by
  by_cases hk : 2 * k + c < stdin.length
  · rw [Nat.min_eq_left (by omega), List.getElem?_eq_getElem hk]
    rfl
  · rw [List.getElem?_eq_none (by omega)]
    cases k with
    | zero => exact (List.getElem?_eq_none (by omega)).symm
    | succ k =>
        rw [before, Nat.min_eq_right (by omega), Nat.min_eq_right (by omega)]
        rfl

/-- The index of a change is the one that is read for it, or else the one before. -/
theorem idxAt_eq (stdin : List ℤ) (k : ℕ) :
    (stdin[2 * k]? <|> before (idxAt stdin) k) = idxAt stdin k :=
  getElem?_or_before stdin 0 k

/-- The value of a change is the one that is read for it, or else the one before. -/
theorem valAt_eq (stdin : List ℤ) (k : ℕ) :
    (stdin[2 * k + 1]? <|> before (valAt stdin) k) = valAt stdin k :=
  getElem?_or_before stdin 1 k

theorem row_append (arr arr' : List ℤ) : row (arr ++ arr') = row arr ++ row arr' := by
  simp [row]

/-- Whose turn it is while the child reads its numbers. -/
theorem Turn.of_reading (h : Turn stdin k s) (hpost : s.child ≠ .post) (hwait : s.child ≠ .wait) :
    s.semChild = 0 ∧ s.semParent = 0 ∧ (s.parent = .wait ∨ s.parent = .newline) ∧
      s.stdout ++ owed s = lines stdin k := by
  cases h with
  | reading _ _ hsem hsem' hparent htext => exact ⟨hsem, hsem', hparent, htext⟩
  | changed hchild => exact absurd hchild hpost
  | posted hchild | printing hchild | printed hchild | returned hchild =>
      exact absurd hchild hwait

theorem Inv.child (hI : Inv stdin s) (h : childStep s = some s') : Inv stdin s' := by
  obtain ⟨k, harr, hnumbers, hturn⟩ := hI
  unfold childStep at h
  unfold Child at hnumbers
  cases hchild : s.child <;> simp only [hchild, Option.some.injEq, reduceCtorEq] at h hnumbers
  case scanIdx =>
      obtain ⟨hstdin, hidx, hval⟩ := hnumbers
      rw [hstdin, hidx, scanf_drop, idxAt_eq] at h
      subst h
      obtain ⟨hsem, hsem', hparent, htext⟩ := hturn.of_reading (by simp [hchild]) (by simp [hchild])
      exact ⟨k, harr, ⟨rfl, rfl, hval⟩, .reading (by simp) (by simp) hsem hsem' hparent htext⟩
  case scanVal =>
      obtain ⟨hstdin, hidx, hval⟩ := hnumbers
      rw [hstdin, hval, scanf_drop, valAt_eq] at h
      subst h
      obtain ⟨hsem, hsem', hparent, htext⟩ := hturn.of_reading (by simp [hchild]) (by simp [hchild])
      exact ⟨k, harr, ⟨rfl, hidx, rfl⟩, .reading (by simp) (by simp) hsem hsem' hparent htext⟩
  case change =>
      obtain ⟨hstdin, hidx, hval⟩ := hnumbers
      obtain ⟨hsem, hsem', hparent, htext⟩ := hturn.of_reading (by simp [hchild]) (by simp [hchild])
      split at h
      case h_1 arr hchange =>
          obtain rfl := Option.some.inj h
          rw [hidx, hval] at hchange
          refine ⟨k + 1, ?_, ⟨hstdin, hidx, hval⟩, .changed rfl hsem hsem' hparent htext⟩
          obtain ⟨idx, hidx', hchange⟩ := Option.bind_eq_some_iff.mp hchange
          obtain ⟨val, hval', hchange⟩ := Option.bind_eq_some_iff.mp hchange
          rw [changeArr, Option.ite_none_right_eq_some, Option.some.injEq] at hchange
          rw [← hchange.2, harr, arrayAt, hidx', hval']
          rfl
      case h_2 =>
          obtain rfl := Option.some.inj h
          exact ⟨k, harr, trivial, .reading (by simp) (by simp) hsem hsem' hparent htext⟩
  case post =>
      subst h
      cases hturn with
      | changed _ hsem hsem' hparent htext =>
          exact ⟨_, harr, hnumbers, .posted rfl (by simp [hsem]) hsem' hparent htext⟩
      | reading hpost => exact absurd hchild hpost
      | posted hwait | printing hwait | printed hwait | returned hwait => simp [hchild] at hwait
  case wait =>
      rw [Option.ite_none_right_eq_some, Option.some.injEq] at h
      obtain ⟨hpos, rfl⟩ := h
      cases hturn with
      | returned _ hsem hsem' hparent htext =>
          refine ⟨_, harr, hnumbers, ?_⟩
          exact .reading (by simp) (by simp) hsem (by simp [hsem']) hparent htext
      | reading _ hwait => exact absurd hchild hwait
      | changed hpost => simp [hchild] at hpost
      | posted _ _ hsem' | printing _ _ hsem' | printed _ _ hsem' => omega

theorem Inv.parent (hI : Inv stdin s) (h : parentStep s = some s') : Inv stdin s' := by
  obtain ⟨k, harr, hnumbers, hturn⟩ := hI
  unfold parentStep at h
  cases hparent : s.parent <;> simp only [hparent, Option.some.injEq] at h
  case wait =>
      rw [Option.ite_none_right_eq_some, Option.some.injEq] at h
      obtain ⟨hpos, rfl⟩ := h
      cases hturn with
      | posted hchild hsem hsem' hparent' htext =>
          refine ⟨_, harr, hnumbers, .printing hchild (by simp [hsem]) hsem' rfl (Nat.zero_le _) ?_⟩
          simpa [owed, hparent, row] using htext
      | reading _ _ hsem | changed _ hsem | printing _ hsem | printed _ hsem | returned _ hsem =>
          omega
  case print i => 
      cases hturn with
      | printing hchild hsem hsem' hparent' hi htext =>
          obtain rfl : i = _ := ParentAt.print.inj (hparent.symm.trans hparent')
          split at h
          case isTrue hlt =>
              obtain rfl := Option.some.inj h
              refine ⟨_, harr, hnumbers, .printing hchild hsem hsem' rfl hlt ?_⟩
              have hget := Nat.lt_of_lt_of_eq hlt ((harr ▸ length_arrayAt stdin _).symm)
              rw [htext, ← harr, List.take_add_one, List.getElem?_eq_getElem hget, row_append]
              simp [row, String.append_assoc, hget]
          case isFalse hge =>
              obtain rfl := Option.some.inj h
              refine ⟨_, harr, hnumbers, .printed hchild hsem hsem' rfl ?_⟩
              rw [htext, lines_succ, List.take_of_length_le (by rw [length_arrayAt]; omega)]
      | reading _ _ _ _ hparent' | changed _ _ _ hparent' | posted _ _ _ hparent'
      | printed _ _ _ hparent' | returned _ _ _ hparent' => simp [hparent] at hparent'
  case post =>
      subst h
      cases hturn with
      | printed hchild hsem hsem' hparent' htext =>
          exact ⟨_, harr, hnumbers, .returned hchild hsem (by simp [hsem']) (.inr rfl) htext⟩
      | reading _ _ _ _ hparent' | changed _ _ _ hparent' | posted _ _ _ hparent'
      | printing _ _ _ hparent' | returned _ _ _ hparent' => simp [hparent] at hparent'
  case newline =>
      subst h
      refine ⟨k, harr, hnumbers, ?_⟩
      cases hturn with
      | reading hchild hchild' hsem hsem' hparent' htext =>
          exact .reading hchild hchild' hsem hsem' (.inl rfl) (by simpa [owed, hparent] using htext)
      | changed hchild hsem hsem' hparent' htext =>
          exact .changed hchild hsem hsem' (.inl rfl) (by simpa [owed, hparent] using htext)
      | posted hchild hsem hsem' hparent' htext =>
          exact .posted hchild hsem hsem' (.inl rfl) (by simpa [owed, hparent] using htext)
      | returned hchild hsem hsem' hparent' htext =>
          exact .returned hchild hsem hsem' (.inl rfl) (by simpa [owed, hparent] using htext)
      | printing _ _ _ hparent' | printed _ _ _ hparent' => simp [hparent] at hparent'

theorem inv_initial (stdin : List ℤ) : Inv stdin (initial 0 0 stdin) := by
  refine ⟨0, rfl, ?_, .reading (by simp [initial]) (by simp [initial]) rfl rfl (.inl rfl) rfl⟩
  exact ⟨rfl, rfl, rfl⟩

theorem inv_of_reachable (h : ReflTransGen Step (initial 0 0 stdin) s) : Inv stdin s := by
  refine Library.invariant_of_steps (fun s s' hI hstep => ?_) (inv_initial stdin) h
  cases hstep with
  | child h => exact hI.child h
  | parent h => exact hI.parent h

/-- Somebody can go on, unless the child has come to something undefined. -/
theorem Inv.undefined_of_stuck (hI : Inv stdin s) (hstuck : ∀ s', ¬ Step s s') :
    s.child = .undefined := by
  have hchild : childStep s = none :=
    Option.eq_none_iff_forall_ne_some.mpr fun s' hs' => hstuck s' (.child hs')
  have hparent : parentStep s = none :=
    Option.eq_none_iff_forall_ne_some.mpr fun s' hs' => hstuck s' (.parent hs')
  obtain ⟨k, -, -, hturn⟩ := hI
  unfold childStep at hchild
  cases hat : s.child <;> simp only [hat, reduceCtorEq] at hchild
  case change => split at hchild <;> cases hchild
  case undefined => rfl
  case wait =>
      -- the baton is with the parent, or on its way back
      unfold parentStep at hparent
      cases hturn with
      | reading _ hwait => exact absurd hat hwait
      | changed hpost => simp [hat] at hpost
      | posted _ hsem _ hat' => rcases hat' with hat' | hat' <;> simp [hat', hsem] at hparent
      | printing _ _ _ hat' =>
          simp only [hat'] at hparent
          split at hparent <;> cases hparent
      | printed _ _ _ hat' => simp [hat'] at hparent
      | returned _ _ hsem => simp [hsem] at hchild

theorem lines_pred (stdin : List ℤ) (k : ℕ) :
    ∃ rest, lines stdin (k - 1) ++ rest = lines stdin k := by
  cases k with
  | zero => exact ⟨"", rfl⟩
  | succ k => exact ⟨row (arrayAt stdin (k + 1)) ++ "\n", by simp [lines_succ, String.append_assoc]⟩

/-- What has been printed, by the side of the lines for the changes that have been made. -/
theorem Turn.printed_lines (h : Turn stdin k s) :
    (∃ rest, s.stdout ++ rest = lines stdin k) ∧
      ∃ rest, lines stdin (k - 1) ++ rest = s.stdout ++ "\n" := by
  have hall : ∀ k, s.stdout ++ owed s = lines stdin k →
      (∃ rest, s.stdout ++ rest = lines stdin k) ∧
        ∃ rest, lines stdin (k - 1) ++ rest = s.stdout ++ "\n" := by
    intro k htext
    obtain ⟨rest, hrest⟩ := lines_pred stdin k
    refine ⟨⟨_, htext⟩, ?_⟩
    by_cases hnewline : s.parent = .newline
    · exact ⟨rest, by rw [hrest, ← htext, owed, if_pos hnewline]⟩
    · refine ⟨rest ++ "\n", ?_⟩
      rw [← String.append_assoc, hrest, ← htext, owed, if_neg hnewline, String.append_empty]
  have hlast : ∀ k, s.stdout ++ owed s = lines stdin k →
      (∃ rest, s.stdout ++ rest = lines stdin (k + 1)) ∧
        ∃ rest, lines stdin k ++ rest = s.stdout ++ "\n" := by
    intro k htext
    refine ⟨⟨owed s ++ (row (arrayAt stdin (k + 1)) ++ "\n"), ?_⟩, ?_⟩
    · rw [← String.append_assoc, htext, lines_succ, String.append_assoc]
    · by_cases hnewline : s.parent = .newline
      · exact ⟨"", by rw [← htext, owed, if_pos hnewline, String.append_empty]⟩
      · exact ⟨"\n", by rw [← htext, owed, if_neg hnewline, String.append_empty]⟩
  cases h with
  | reading _ _ _ _ _ htext => exact hall _ htext
  | changed _ _ _ _ htext | posted _ _ _ _ htext => exact hlast _ htext
  | @printing k i _ _ _ _ _ _ htext =>
      refine ⟨⟨row ((arrayAt stdin (k + 1)).drop i) ++ "\n", ?_⟩,
        ⟨row ((arrayAt stdin (k + 1)).take i) ++ "\n", ?_⟩⟩
      · have hrow : row ((arrayAt stdin (k + 1)).take i) ++ row ((arrayAt stdin (k + 1)).drop i) =
            row (arrayAt stdin (k + 1)) := by
          rw [← row_append, List.take_append_drop]
        rw [htext, lines_succ, ← hrow]
        simp only [String.append_assoc]
      · rw [htext, Nat.add_sub_cancel, String.append_assoc]
  | printed _ _ _ _ htext => exact ⟨⟨_, htext⟩, htext ▸ lines_pred stdin _⟩
  | returned _ _ _ _ htext => exact hall _ htext

end LowLevel.Analysis.Semaphore
