import LowLevel.Interface.ReorderingRounds
import LowLevel.Library.Transitions

/-!
# The reordering test never finds a reordering

With the fence between the store and the load of both threads, at least one of them reads what
the other has stored, in every order of steps and for every delay of the store buffers. Every run
of the program comes to its end, and says so.
-/

set_option autoImplicit false

namespace LowLevel.Analysis.CpuReordering

open Library Program.CpuReordering Interface.CpuReordering Function

variable {s s' : State} {k : Worker}

/-- What the process has left to do, as far as the main thread decides it. -/
def mainWork (s : State) : ℕ :=
  match s.main with
  | .loop => 32 * (1000000 - s.i) + 2
  | .clearX => 32 * (1000000 - s.i - 1) + 30
  | .clearY => 32 * (1000000 - s.i - 1) + 28
  | .begin0 => 32 * (1000000 - s.i - 1) + 26
  | .begin1 => 32 * (1000000 - s.i - 1) + 16
  | .end1 => 32 * (1000000 - s.i - 1) + 6
  | .end2 => 32 * (1000000 - s.i - 1) + 5
  | .test0 => 32 * (1000000 - s.i - 1) + 4
  | .test1 => 32 * (1000000 - s.i - 1) + 3
  | .report | .puts => 1
  | .exited => 0

/-- The steps that a thread takes from here to the next wait. -/
def lineWork : WorkerAt → ℕ
  | .wait => 0
  | .store => 8
  | .fence => 6
  | .load => 5
  | .record => 4
  | .post => 2

/-- What a thread has left to do: its calls, the statements of a round, its waiting stores. -/
def viewWork (v : View) : ℕ := 9 * v.semBegin + lineWork v.line + v.buffer.length

/-- What the process has left to do. -/
def work (s : State) : ℕ :=
  mainWork s + (viewWork (view s .thread0) + viewWork (view s .thread1)) +
    (s.memory.buffer .main).length

theorem viewWork_lt {v v' : View} {seen : ℤ} (h : View.Advance k seen v v') :
    viewWork v' < viewWork v := by
  cases h <;> simp_all [viewWork, lineWork] <;> omega

/-- Where the test is, and what has been printed. -/
structure Counted (s : State) : Prop where
  running : s.main ≠ .loop → s.main ≠ .puts → s.main ≠ .exited → s.i < 1000000
  printed : s.stdout =
    if s.main = .exited then "No reordering detected during 1000000 iterations\n" else ""

theorem viewWork_add_other (s : State) (k : Worker) :
    viewWork (view s k) + viewWork (view s (other k)) =
      viewWork (view s .thread0) + viewWork (view s .thread1) := by
  cases k
  · rfl
  · exact Nat.add_comm ..

/-- A statement of a thread leaves less to do. -/
theorem work_workerStep (h : workerStep k s = some s') : work s' < work s := by
  obtain ⟨hown, hothers, -, hmain, hi, -, -, hbuffer⟩ := ran_of_workerStep h
  have hless := viewWork_lt hown
  have hwork : mainWork s' = mainWork s := by simp only [mainWork, hmain, hi]
  rw [work, work, ← viewWork_add_other s k, ← viewWork_add_other s' k, hothers _ other_ne, hwork,
    hbuffer]
  omega

theorem work_drain {t : Thread} {memory : BufferedMemory Thread Var ℤ}
    (h : s.memory.drain t = some memory) : work { s with memory := memory } < work s := by
  obtain ⟨var, val, ws, hbuffer, rfl⟩ := BufferedMemory.drain_eq_some h
  cases t
  case main => simp [work, mainWork, viewWork, view, hbuffer]
  case worker k => cases k <;> simp [work, mainWork, viewWork, view, hbuffer]

theorem work_mainStep (hs : Counted s) (h : mainStep s = some s') : work s' < work s := by
  have hrunning := hs.running
  unfold mainStep at h
  cases hmain : s.main <;>
    simp only [hmain, State.release, State.collect, Option.some.injEq,
      Option.ite_none_right_eq_some, reduceCtorEq] at h
  case loop =>
      subst h
      by_cases hi : s.i < 1000000 <;> simp [work, mainWork, hmain, hi, viewWork, view]
      omega
  case clearX | clearY =>
      subst h
      simp [work, mainWork, hmain, viewWork, view]
      omega
  case begin0 | begin1 =>
      obtain ⟨-, rfl⟩ := h
      simp [work, mainWork, hmain, viewWork, view]
      omega
  case end1 | end2 =>
      obtain ⟨-, rfl⟩ := h
      simp [work, mainWork, hmain, viewWork, view]
  case test0 | test1 =>
      have hi := hrunning (by simp [hmain]) (by simp [hmain]) (by simp [hmain])
      split at h
      case isTrue =>
          obtain rfl := Option.some.inj h
          simp [work, mainWork, hmain, viewWork, view]
      case isFalse =>
          obtain rfl := Option.some.inj h
          simp [work, mainWork, hmain, viewWork, view]
          omega
  case report | puts =>
      subst h
      simp [work, mainWork, hmain, viewWork, view]

theorem Counted.main (hs : Counted s) (hI : Inv s) (h : mainStep s = some s') : Counted s' := by
  have hrunning := hs.running
  have hprinted := hs.printed
  unfold mainStep at h
  cases hmain : s.main <;>
    simp only [hmain, State.release, State.collect, Option.some.injEq,
      Option.ite_none_right_eq_some, reduceCtorEq, if_false] at h hprinted
  case loop =>
      subst h
      by_cases hi : s.i < 1000000 <;> constructor <;> simp [hi, hprinted]
  case clearX | clearY =>
      subst h
      constructor <;> simp_all
  case begin0 | begin1 | end1 | end2 =>
      obtain ⟨-, rfl⟩ := h
      constructor <;> simp_all
  case test0 | test1 =>
      split at h <;> obtain rfl := Option.some.inj h <;> constructor <;> simp_all
  case report => exact absurd hmain hI.unreported
  case puts =>
      subst h
      constructor <;> simp [hprinted]

theorem Counted.next {e : Event} (hs : Counted s) (hI : Inv s) (h : next s e = some s') :
    Counted s' := by
  unfold Program.CpuReordering.next at h
  split at h
  case isTrue => cases h
  case isFalse =>
      have hworker : ∀ k, workerStep k s = some s' → Counted s' := by
        intro k hk
        obtain ⟨-, -, -, hmain, hi, hstdout, -, -⟩ := ran_of_workerStep hk
        exact ⟨by rw [hmain, hi]; exact hs.running, by rw [hmain, hstdout]; exact hs.printed⟩
      cases e
      case main => exact hs.main hI h
      case thread0 => exact hworker .thread0 h
      case thread1 => exact hworker .thread1 h
      case drain t =>
          obtain ⟨memory, -, rfl⟩ := Option.map_eq_some_iff.mp h
          exact ⟨hs.running, hs.printed⟩

/-- Whatever happens leaves less to do. -/
theorem work_next {e : Event} (hs : Counted s) (h : next s e = some s') : work s' < work s := by
  unfold Program.CpuReordering.next at h
  split at h
  case isTrue => cases h
  case isFalse =>
      cases e
      case main => exact work_mainStep hs h
      case thread0 => exact work_workerStep (k := .thread0) h
      case thread1 => exact work_workerStep (k := .thread1) h
      case drain t =>
          obtain ⟨memory, hdrain, rfl⟩ := Option.map_eq_some_iff.mp h
          exact work_drain hdrain

/-- **No deadlock**: as long as `main` has not returned, something can happen. -/
theorem exited_of_stuck (hI : Inv s) (hstuck : ∀ s', ¬ step s s') : s.main = .exited := by
  by_contra hmain
  have hnone : ∀ e, next s e = none := fun e =>
    Option.eq_none_iff_forall_ne_some.mpr fun s' hs' => hstuck s' ⟨e, hs'⟩
  simp only [next, if_neg hmain] at hnone
  have hempty : ∀ t, s.memory.buffer t = [] := fun t =>
    BufferedMemory.drain_eq_none (Option.map_eq_none_iff.mp (hnone (.drain t)))
  have hdrained : ∀ t, s.drained t := fun t => State.drained_iff.mpr (hempty t)
  have hidle : ∀ k, (view s k).calls = 0 := by
    intro k
    have hworker : workerStep k s = none := by
      cases k
      · exact hnone .thread0
      · exact hnone .thread1
    unfold workerStep threadImpl at hworker
    cases hline : s.worker k <;> simp [hline, hdrained] at hworker
    simp [View.calls, view, hline, hworker]
  have hcount := hI.count
  rw [hidle, hidle] at hcount
  have hstep := hnone .main
  unfold mainStep at hstep
  cases hline : s.main <;>
    simp only [hline, State.release, State.collect, hdrained, pending, true_and, if_true,
      reduceCtorEq] at hstep hcount
  case exited => exact hmain hline
  case end1 | end2 => simp [show 0 < s.semEnd by omega] at hstep
  case test0 | test1 => split at hstep <;> cases hstep

/-- **The test finds nothing**: whatever the order of the steps, and however long the stores wait
in their buffers, the program comes to its end and has printed that there was no reordering. -/
theorem no_reordering_detected :
    EndsIn step (fun s => s.main = .exited ∧
      s.stdout = "No reordering detected during 1000000 iterations\n") initial := by
  refine endsIn_of_measure (I := fun s => Inv s ∧ Counted s) work ?_ ?_ ?_ ?_
  · rintro s s' ⟨hI, hs⟩ ⟨e, he⟩
    exact ⟨hI.next he, hs.next hI he⟩
  · rintro s s' ⟨-, hs⟩ ⟨e, he⟩
    exact work_next hs he
  · rintro s ⟨hI, hs⟩ hstuck
    have hmain := exited_of_stuck hI hstuck
    exact ⟨hmain, hs.printed.trans (if_pos hmain)⟩
  · exact ⟨inv_initial, by simp [initial], by simp [initial]⟩

end LowLevel.Analysis.CpuReordering
