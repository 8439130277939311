import LowLevel.Program.PrintingThreads
import LowLevel.Library.Transitions

/-!
# Words are printed whole

The mutex keeps the characters of a word together, however the two threads take turns: what has
been printed is a sequence of whole words and the beginning of one more. Every run comes to its
end, when each word has been printed ten times.
-/

set_option autoImplicit false

namespace LowLevel.Analysis.PrintingThreads

open Program.PrintingThreads Function Relation

variable {s s' : State} {k j : Worker}

/-- The thread is where it holds the mutex. -/
def inside : WorkerAt → Bool
  | .print _ | .pause _ | .unlock => true
  | _ => false

/-- It has printed a word that its counter does not count yet. -/
def ahead : WorkerAt → ℕ
  | .unlock | .sleep => 1
  | _ => 0

/-- What is left to print of a word. -/
def left : WorkerAt → Option (List Char)
  | .print rest | .pause rest => some rest
  | _ => none

/-- What the words make together. -/
def text (order : List Worker) : List Char := order.flatMap fun k => (word k).toList

/-- What the loop counter and the mutex say about where a thread is, and how often its word has
been printed. -/
structure Placed (order : List Worker) (s : State) (k : Worker) : Prop where
  locked : inside (s.worker k) ↔ s.mutex = some k
  running : s.worker k ≠ .done → s.i k < 10
  finished : s.worker k = .done → s.i k = 10
  count : order.count k = s.i k + ahead (s.worker k)

/-- The characters of a word that have been printed by the thread that holds the mutex. -/
def Begun (s : State) (begun : List Char) : Prop :=
  match s.mutex with
  | none => begun = []
  | some k =>
      match left (s.worker k) with
      | none => begun = []
      | some rest => begun ++ rest = (word k).toList

theorem Begun.begins {begun : List Char} (h : Begun s begun) :
    ∃ k, begun <+: (word k).toList := by
  unfold Begun at h
  split at h
  case h_1 => exact ⟨.t1, (word .t1).toList, by rw [h]; rfl⟩
  case h_2 k _ =>
      split at h
      case h_1 => exact ⟨k, (word k).toList, by rw [h]; rfl⟩
      case h_2 rest _ => exact ⟨k, ⟨rest, h⟩⟩

/-- Nothing is begun while no thread is inside its word. -/
theorem Begun.eq_nil {begun : List Char} (h : Begun s begun)
    (hleft : ∀ k, left (s.worker k) = none) : begun = [] := by
  unfold Begun at h
  split at h
  case h_1 => exact h
  case h_2 k _ =>
      rw [hleft k] at h
      exact h

/-- Whole words are printed, and what has begun belongs to the owner of the mutex. -/
structure Inv (s : State) : Prop where
  joined1 : s.main ≠ .join1 → s.worker .t1 = .done
  joined2 : s.main ≠ .join1 → s.main ≠ .join2 → s.worker .t2 = .done
  printed : ∃ order begun, (∀ k, Placed order s k) ∧ s.stdout = text order ++ begun ∧
    Begun s begun

theorem text_snoc (order : List Worker) (k : Worker) :
    text (order ++ [k]) = text order ++ (word k).toList := by
  simp [text]

/-- What a step of a thread leaves as it is. -/
theorem frame_of_myThread (h : myThread k s = some s') :
    s'.main = s.main ∧ (∀ j, j ≠ k → s'.worker j = s.worker j ∧ s'.i j = s.i j) ∧
      s.worker k ≠ .done := by
  unfold myThread at h
  cases hat : s.worker k <;> simp only [hat, reduceCtorEq] at h
  case lock =>
      rw [Option.ite_none_right_eq_some, Option.some.injEq] at h
      obtain ⟨-, rfl⟩ := h
      exact ⟨rfl, fun j hj => by simp [State.goto, hj], by simp⟩
  case print rest =>
      cases rest <;> obtain rfl := Option.some.inj h <;>
        exact ⟨rfl, fun j hj => by simp [State.goto, hj], by simp⟩
  case pause | unlock | sleep =>
      obtain rfl := Option.some.inj h
      exact ⟨rfl, fun j hj => by simp [State.goto, hj], by simp⟩

/-- The thread that has made a step is placed anew, the other one is where it was. -/
theorem placed_of_myThread {order : List Worker} (order' : List Worker) (h : myThread k s = some s')
    (hplaced : ∀ j, Placed order s j) (hk : Placed order' s' k)
    (hmutex : ∀ j, j ≠ k → (s'.mutex = some j ↔ s.mutex = some j))
    (hcount : ∀ j, j ≠ k → order'.count j = order.count j) : ∀ j, Placed order' s' j := by
  intro j
  by_cases hj : j = k
  · rw [hj]
    exact hk
  · obtain ⟨hworker, hi⟩ := (frame_of_myThread h).2.1 j hj
    obtain ⟨hlocked, hrunning, hfinished, hcounted⟩ := hplaced j
    exact ⟨by rw [hworker, hlocked, hmutex j hj], by rwa [hworker, hi], by rwa [hworker, hi],
      by rw [hcount j hj, hcounted, hworker, hi]⟩

/-- What a step prints, and which words are complete after it. -/
theorem printed_of_myThread {order : List Worker} {begun : List Char} (h : myThread k s = some s')
    (hplaced : ∀ j, Placed order s j) (htext : s.stdout = text order ++ begun)
    (hbegun : Begun s begun) :
    ∃ order begun, (∀ k, Placed order s' k) ∧ s'.stdout = text order ++ begun ∧ Begun s' begun := by
  have hplaced' := fun order' => placed_of_myThread order' h hplaced
  obtain ⟨hlocked, hrunning, hfinished, hcount⟩ := hplaced k
  have hi := hrunning (frame_of_myThread h).2.2
  unfold myThread at h
  cases hat : s.worker k <;> simp only [hat, inside, ahead, reduceCtorEq] at h hlocked hcount
  case lock =>
      rw [Option.ite_none_right_eq_some, Option.some.injEq] at h
      obtain ⟨hfree, rfl⟩ := h
      simp only [Begun, hfree] at hbegun
      refine ⟨order, [], hplaced' order ?_ ?_ (fun _ _ => rfl), hbegun ▸ htext, ?_⟩
      · constructor <;> simp [State.goto, inside, ahead, hi, hcount]
      · intro j hj
        simp [hfree, Ne.symm hj]
      · simp [Begun, State.goto, left]
  case print rest =>
      have hmutex := hlocked.mp trivial
      simp only [Begun, hmutex, hat, left] at hbegun
      cases rest with
      | nil =>
          obtain rfl := Option.some.inj h
          refine ⟨order ++ [k], [], hplaced' _ ?_ (fun _ _ => Iff.rfl) ?_, ?_, ?_⟩
          · constructor <;> simp [State.goto, inside, ahead, hi, hcount, hmutex]
          · intro j hj
            simp [Ne.symm hj]
          · rw [text_snoc, ← hbegun]
            simpa [State.goto] using htext
          · simp [Begun, State.goto, hmutex, left]
      | cons c rest =>
          obtain rfl := Option.some.inj h
          refine ⟨order, begun ++ [c], hplaced' _ ?_ (fun _ _ => Iff.rfl) (fun _ _ => rfl), ?_, ?_⟩
          · constructor <;> simp [State.goto, inside, ahead, hi, hcount, hmutex]
          · simp [htext]
          · simpa [Begun, State.goto, hmutex, left] using hbegun
  case pause rest =>
      have hmutex := hlocked.mp trivial
      simp only [Begun, hmutex, hat, left] at hbegun
      obtain rfl := Option.some.inj h
      refine ⟨order, begun, hplaced' _ ?_ (fun _ _ => Iff.rfl) (fun _ _ => rfl), htext, ?_⟩
      · constructor <;> simp [State.goto, inside, ahead, hi, hcount, hmutex]
      · simpa [Begun, State.goto, hmutex, left] using hbegun
  case unlock =>
      have hmutex := hlocked.mp trivial
      simp only [Begun, hmutex, hat, left] at hbegun
      obtain rfl := Option.some.inj h
      refine ⟨order, [], hplaced' _ ?_ ?_ (fun _ _ => rfl), hbegun ▸ htext, ?_⟩
      · constructor <;> simp [State.goto, inside, ahead, hi, hcount]
      · intro j hj
        simp [hmutex, Ne.symm hj]
      · simp [Begun]
  case sleep =>
      obtain rfl := Option.some.inj h
      refine ⟨order, begun, hplaced' _ ?_ (fun _ _ => Iff.rfl) (fun _ _ => rfl), htext, ?_⟩
      · have hout : s.mutex ≠ some k := fun hmutex => absurd (hlocked.mpr hmutex) (by simp)
        by_cases hlast : s.i k + 1 < 10
        · constructor <;> simp [State.goto, loop, inside, ahead, hlast, hout, hcount]
        · have hten : s.i k = 9 := by omega
          constructor <;> simp [State.goto, loop, inside, ahead, hout, hcount, hten]
      · -- the word that has begun is one of the other thread
        cases hmutex : s.mutex with
        | none => simpa [Begun, State.goto, hmutex] using hbegun
        | some j =>
            have hj : j ≠ k := by
              rintro rfl
              exact absurd (hlocked.mpr hmutex) (by simp)
            simpa [Begun, State.goto, hmutex, hj] using hbegun

theorem Inv.worker (hI : Inv s) (h : myThread k s = some s') : Inv s' := by
  obtain ⟨hmain, hothers, hrunning⟩ := frame_of_myThread h
  have hdone : ∀ j, s.worker j = .done → s'.worker j = .done := by
    intro j hj
    rw [(hothers j (by rintro rfl; exact hrunning hj)).1, hj]
  obtain ⟨order, begun, hplaced, htext, hbegun⟩ := hI.printed
  refine ⟨fun hjoin => hdone _ ?_, fun hjoin hjoin' => hdone _ ?_,
    printed_of_myThread h hplaced htext hbegun⟩
  · exact hI.joined1 (hmain ▸ hjoin)
  · exact hI.joined2 (hmain ▸ hjoin) (hmain ▸ hjoin')

theorem Inv.main (hI : Inv s) (h : mainStep s = some s') : Inv s' := by
  obtain ⟨hjoined1, hjoined2, order, begun, hplaced, htext, hbegun⟩ := hI
  have hprinted : ∀ main, ∃ order begun, (∀ k, Placed order { s with main := main } k) ∧
      s.stdout = text order ++ begun ∧ Begun { s with main := main } begun := fun main =>
    ⟨order, begun, fun k => ⟨(hplaced k).locked, (hplaced k).running, (hplaced k).finished,
      (hplaced k).count⟩, htext, hbegun⟩
  unfold mainStep at h
  cases hat : s.main <;> simp only [hat, Option.ite_none_right_eq_some, Option.some.injEq,
    reduceCtorEq] at h
  case join1 =>
      obtain ⟨hdone, rfl⟩ := h
      exact ⟨fun _ => hdone, fun _ hjoin => absurd rfl hjoin, hprinted _⟩
  case join2 =>
      obtain ⟨hdone, rfl⟩ := h
      exact ⟨fun _ => hjoined1 (by simp [hat]), fun _ _ => hdone, hprinted _⟩
  case destroy =>
      subst h
      exact ⟨fun _ => hjoined1 (by simp [hat]),
        fun _ _ => hjoined2 (by simp [hat]) (by simp [hat]), hprinted _⟩

theorem Inv.step (hI : Inv s) (h : Step s s') : Inv s' := by
  cases h with
  | main h => exact hI.main h
  | worker k h => exact hI.worker h

theorem inv_initial : Inv initial := by
  refine ⟨by simp [initial], by simp [initial], [], [], fun k => ?_, rfl, rfl⟩
  constructor <;> simp [initial, inside, ahead]

def mainWork : MainAt → ℕ
  | .join1 => 3
  | .join2 => 2
  | .destroy => 1
  | .exited => 0

/-- What is left of a thread, from where it is in its loop. -/
def lineWork (i : ℕ) : WorkerAt → ℕ
  | .lock => 40 * (10 - i)
  | .print rest => 40 * (9 - i) + 2 * rest.length + 4
  | .pause rest => 40 * (9 - i) + 2 * rest.length + 5
  | .unlock => 40 * (9 - i) + 3
  | .sleep => 40 * (9 - i) + 2
  | .done => 0

/-- What the three threads have left to do. -/
def work (s : State) : ℕ :=
  mainWork s.main + (lineWork (s.i .t1) (s.worker .t1) + lineWork (s.i .t2) (s.worker .t2))

theorem lineWork_myThread (hI : Inv s) (h : myThread k s = some s') :
    lineWork (s'.i k) (s'.worker k) < lineWork (s.i k) (s.worker k) := by
  obtain ⟨order, begun, hplaced, -, -⟩ := hI.printed
  have hi := (hplaced k).running (frame_of_myThread h).2.2
  have hlength : (word k).toList.length ≤ 7 := by cases k <;> decide
  unfold myThread at h
  cases hat : s.worker k <;> simp only [hat, reduceCtorEq] at h
  case lock =>
      rw [Option.ite_none_right_eq_some, Option.some.injEq] at h
      obtain ⟨-, rfl⟩ := h
      simp only [State.goto, update_self, lineWork]
      omega
  case print rest =>
      cases rest <;> obtain rfl := Option.some.inj h <;>
        simp only [State.goto, update_self, lineWork, List.length_nil, List.length_cons] <;> omega
  case pause rest | unlock =>
      obtain rfl := Option.some.inj h
      simp [State.goto, lineWork]
  case sleep =>
      obtain rfl := Option.some.inj h
      simp only [State.goto, update_self, loop]
      split <;> simp only [lineWork] <;> omega

/-- Every step leaves less to do. -/
theorem work_step (hI : Inv s) (h : Step s s') : work s' < work s := by
  cases h with
  | main h =>
      unfold mainStep at h
      cases hat : s.main <;> simp only [hat, Option.ite_none_right_eq_some, Option.some.injEq,
        reduceCtorEq] at h
      case join1 | join2 =>
          obtain ⟨-, rfl⟩ := h
          simp [work, hat, mainWork]
      case destroy =>
          subst h
          simp [work, hat, mainWork]
  | worker k h =>
      have hless := lineWork_myThread hI h
      obtain ⟨hmain, hothers, -⟩ := frame_of_myThread h
      cases k
      · obtain ⟨hworker, hi⟩ := hothers .t2 (by decide)
        rw [work, work, hmain, hworker, hi]
        omega
      · obtain ⟨hworker, hi⟩ := hothers .t1 (by decide)
        rw [work, work, hmain, hworker, hi]
        omega

/-- **No deadlock**: who holds the mutex can go on. -/
theorem exited_of_stuck (hI : Inv s) (hstuck : ∀ s', ¬ Step s s') :
    s.main = .exited ∧ ∀ k, s.worker k = .done := by
  obtain ⟨order, begun, hplaced, -, -⟩ := hI.printed
  have hmain : mainStep s = none :=
    Option.eq_none_iff_forall_ne_some.mpr fun s' hs' => hstuck s' (.main hs')
  have hworker : ∀ k, myThread k s = none := fun k =>
    Option.eq_none_iff_forall_ne_some.mpr fun s' hs' => hstuck s' (.worker k hs')
  have hwaits : ∀ k, s.worker k = .done ∨ s.worker k = .lock ∧ s.mutex ≠ none := by
    intro k
    have hk := hworker k
    unfold myThread at hk
    cases hat : s.worker k <;> simp only [hat, reduceCtorEq] at hk
    case lock => exact .inr ⟨rfl, by simpa using hk⟩
    case print rest => cases rest <;> cases hk
    case done => exact .inl rfl
  have hfree : s.mutex = none := by
    cases hmutex : s.mutex with
    | none => rfl
    | some k =>
        have hinside := (hplaced k).locked.mpr hmutex
        obtain hat | ⟨hat, -⟩ := hwaits k <;> simp [hat, inside] at hinside
  have hdone : ∀ k, s.worker k = .done := fun k => (hwaits k).resolve_right fun h => h.2 hfree
  unfold mainStep at hmain
  refine ⟨?_, hdone⟩
  cases hat : s.main <;> simp [hat, hdone] at hmain
  rfl

/-- **Whole words**: at every moment what has been printed is a sequence of whole words and the
beginning of one more, and every run comes to its end, with the words of both threads ten times
each. -/
theorem words_stay_whole :
    (∀ s, ReflTransGen Step initial s → ∃ order begun, s.stdout = text order ++ begun ∧
      ∃ k, begun <+: (word k).toList) ∧
    Library.EndsIn Step (fun s => s.main = .exited ∧
      ∃ order, (∀ k, order.count k = 10) ∧ s.stdout = text order) initial := by
  constructor
  · intro s hs
    obtain ⟨order, begun, -, htext, hbegun⟩ :=
      (Library.invariant_of_steps (fun _ _ hI h => hI.step h) inv_initial hs).printed
    exact ⟨order, begun, htext, hbegun.begins⟩
  · refine Library.endsIn_of_measure work (fun _ _ hI h => hI.step h)
      (fun _ _ hI h => work_step hI h) (fun s hI hstuck => ?_) inv_initial
    obtain ⟨hmain, hdone⟩ := exited_of_stuck hI hstuck
    obtain ⟨order, begun, hplaced, htext, hbegun⟩ := hI.printed
    refine ⟨hmain, order, fun k => ?_, ?_⟩
    · rw [(hplaced k).count, (hplaced k).finished (hdone k), hdone k]
      rfl
    · rw [htext, hbegun.eq_nil fun k => by rw [hdone k]; rfl, List.append_nil]

end LowLevel.Analysis.PrintingThreads
