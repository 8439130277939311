import LowLevel.Program.CpuReordering

/-!
# The rounds of `cpu-reordering.c`

What one thread can see of a state, and what holds of it at every moment of a round: which of its
stores still wait in its buffer, and what it has left behind in the shared memory.
-/

set_option autoImplicit false

namespace LowLevel.Interface.CpuReordering

open Library Program.CpuReordering Function

/-- The variable that the thread sets before its fence. -/
def flag : Worker → Var
  | .thread0 => .x
  | .thread1 => .y

/-- The variable that the thread stores what it has read in. -/
def result : Worker → Var
  | .thread0 => .read0
  | .thread1 => .read1

def other : Worker → Worker
  | .thread0 => .thread1
  | .thread1 => .thread0

def workerStep (k : Worker) : State → Option State :=
  threadImpl k (flag k) (flag (other k)) (result k)

/-- `main` has posted the semaphore of the thread in this round. -/
def released : MainAt → Worker → Bool
  | .begin1, .thread0 => true
  | .end1, _ | .end2, _ | .test0, _ | .test1, _ => true
  | _, _ => false

/-- How often `main` is still to wait for `sem_end` for the threads that it has released. -/
def pending : MainAt → ℕ
  | .begin1 | .end2 => 1
  | .end1 => 2
  | _ => 0

/-- The part of a state that belongs to one of the threads. -/
structure View where
  released : Bool
  line : WorkerAt
  semBegin : ℕ
  reg : ℤ
  buffer : List (Var × ℤ)
  /-- What its two variables hold in the shared memory. -/
  flagValue : ℤ
  resultValue : ℤ

/-- The part of `s` that belongs to the thread. -/
def view (s : State) (k : Worker) : View where
  released := released s.main k
  line := s.worker k
  semBegin := s.semBegin k
  reg := s.reg k
  buffer := s.memory.buffer (.worker k)
  flagValue := s.memory.shared (flag k)
  resultValue := s.memory.shared (result k)

namespace View

/-- The thread has been called in this round and has not posted `sem_end` yet. -/
def calls (v : View) : ℕ := v.semBegin + if v.line = .wait then 0 else 1

/-- It has run in this round, and is past its fence. -/
def Fenced (v : View) : Prop :=
  v.released ∧ v.semBegin = 0 ∧ v.line ≠ .store ∧ v.line ≠ .fence

/-- It is past its load as well. -/
def Loaded (v : View) : Prop := v.Fenced ∧ v.line ≠ .load

/-- What waits in the buffer: the store of the statement before, if any. -/
def Buffered (k : Worker) (v : View) : Prop :=
  match v.line with
  | .fence => v.buffer = [(flag k, 1)] ∨ v.buffer = [] ∧ v.flagValue = 1
  | .post => v.buffer = [(result k, v.reg)] ∨ v.buffer = [] ∧ v.resultValue = v.reg
  | _ => v.buffer = []

/-- What holds of a thread by itself: it runs once in each round, and what it has stored is seen. -/
structure Ok (k : Worker) (v : View) : Prop where
  idle : v.released = false → v.calls = 0
  once : v.calls ≤ 1
  buffered : v.Buffered k
  visible : v.Fenced → v.flagValue = 1
  recorded : v.Loaded → v.line = .wait → v.resultValue = v.reg

/-- One statement of the thread, when `seen` is what it reads: its own part of the state after
it. -/
inductive Advance (k : Worker) (seen : ℤ) : View → View → Prop where
  | wait (v : View) (hline : v.line = .wait) (hbuffer : v.buffer = []) (hpos : 0 < v.semBegin) :
      Advance k seen v { v with line := .store, semBegin := v.semBegin - 1 }
  | store (v : View) (hline : v.line = .store) :
      Advance k seen v { v with
        line := .fence, buffer := v.buffer ++ [(flag k, 1)] }
  | fence (v : View) (hline : v.line = .fence) (hbuffer : v.buffer = []) :
      Advance k seen v { v with line := .load }
  | load (v : View) (hline : v.line = .load) :
      Advance k seen v { v with line := .record, reg := seen }
  | record (v : View) (hline : v.line = .record) :
      Advance k seen v { v with
        line := .post, buffer := v.buffer ++ [(result k, v.reg)] }
  | post (v : View) (hline : v.line = .post) (hbuffer : v.buffer = []) :
      Advance k seen v { v with line := .wait }

variable {k : Worker} {v v' : View} {seen : ℤ}

/-- It stays so under a statement of the thread. -/
theorem Ok.advance (hv : v.Ok k) (h : Advance k seen v v') : v'.Ok k := by
  obtain ⟨hidle, honce, hbuffered, hvisible, hrecorded⟩ := hv
  cases h <;> constructor <;> grind [calls, Fenced, Loaded, Buffered]

theorem Ok.call (hv : v.Ok k) (hcalls : v.calls = 0) :
    Ok k { v with released := true, semBegin := v.semBegin + 1 } := by
  obtain ⟨hidle, honce, hbuffered, hvisible, hrecorded⟩ := hv
  constructor <;> grind [calls, Fenced, Loaded, Buffered]

theorem Ok.nextRound (hv : v.Ok k) (hcalls : v.calls = 0) :
    Ok k { v with released := false } := by
  obtain ⟨hidle, honce, hbuffered, hvisible, hrecorded⟩ := hv
  constructor <;> grind [calls, Fenced, Loaded, Buffered]

/-- What has been loaded stays, and what has just been loaded is what was read. -/
theorem Advance.loaded (h : Advance k seen v v') (hloaded : v'.Loaded) :
    v.Loaded ∧ v'.reg = v.reg ∨ v.line = .load ∧ v'.reg = seen := by
  cases h <;> grind [Loaded, Fenced]

end View

variable {s s' : State} {k j : Worker}

theorem State.drained_iff {t : Thread} : s.drained t ↔ s.memory.buffer t = [] := List.isEmpty_iff

/-- What a statement of a thread changes: its own part of the state, and `sem_end`. -/
structure Ran (k : Worker) (s s' : State) : Prop where
  own : View.Advance k (s.memory.load (.worker k) (flag (other k))) (view s k) (view s' k)
  others : ∀ j, j ≠ k → view s' j = view s j
  posts : (view s' k).calls + s'.semEnd = (view s k).calls + s.semEnd
  main : s'.main = s.main
  i : s'.i = s.i
  stdout : s'.stdout = s.stdout
  shared : s'.memory.shared = s.memory.shared
  buffer : s'.memory.buffer .main = s.memory.buffer .main

/-- A statement of a thread changes no more than this. -/
theorem ran_of_workerStep (h : workerStep k s = some s') : Ran k s s' := by
  unfold workerStep threadImpl at h
  cases hline : s.worker k <;> simp only [hline, Option.ite_none_right_eq_some,
    Option.some.injEq, State.drained_iff] at h
  case wait =>
      obtain ⟨⟨hbuffer, hpos⟩, rfl⟩ := h
      constructor <;> try rfl
      · simpa [view, State.goto] using View.Advance.wait (view s k) hline hbuffer hpos
      · intro j hj
        simp [view, State.goto, hj]
      · simp [view, State.goto, View.calls, hline]
        omega
  case store =>
      subst h
      constructor <;> try rfl
      · simpa [view, State.goto] using View.Advance.store (view s k) hline
      · intro j hj
        simp [view, State.goto, hj]
      · simp [view, State.goto, View.calls, hline]
  case fence =>
      obtain ⟨hbuffer, rfl⟩ := h
      constructor <;> try rfl
      · simpa [view, State.goto] using View.Advance.fence (view s k) hline hbuffer
      · intro j hj
        simp [view, State.goto, hj]
      · simp [view, State.goto, View.calls, hline]
  case load =>
      subst h
      constructor <;> try rfl
      · simpa [view, State.goto] using View.Advance.load (view s k) hline
      · intro j hj
        simp [view, State.goto, hj]
      · simp [view, State.goto, View.calls, hline]
  case record =>
      subst h
      constructor <;> try rfl
      · simpa [view, State.goto] using View.Advance.record (view s k) hline
      · intro j hj
        simp [view, State.goto, hj]
      · simp [view, State.goto, View.calls, hline]
  case post =>
      obtain ⟨hbuffer, rfl⟩ := h
      constructor <;> try rfl
      · simpa [view, State.goto] using View.Advance.post (view s k) hline hbuffer
      · intro j hj
        simp [view, State.goto, hj]
      · simp [view, State.goto, View.calls, hline]
        omega

/-- **A store that leaves the buffer** of a thread: it is the one of the statement before. -/
theorem View.Ok.drain (hv : (view s k).Ok k) {memory : BufferedMemory Thread Var ℤ}
    (h : s.memory.drain (.worker k) = some memory) :
    s.worker k = .fence ∧ memory = ⟨update s.memory.shared (flag k) 1,
        update s.memory.buffer (.worker k) []⟩ ∨
      s.worker k = .post ∧ memory = ⟨update s.memory.shared (result k) (s.reg k),
        update s.memory.buffer (.worker k) []⟩ := by
  obtain ⟨var, val, ws, hbuffer, rfl⟩ := BufferedMemory.drain_eq_some h
  have hkind := hv.buffered
  cases hline : s.worker k <;>
    simp only [View.Buffered, view, hline, hbuffer, reduceCtorEq, false_and, or_false,
      List.cons.injEq, Prod.mk.injEq] at hkind
  case fence =>
      obtain ⟨⟨rfl, rfl⟩, rfl⟩ := hkind
      exact .inl ⟨rfl, rfl⟩
  case post =>
      obtain ⟨⟨rfl, rfl⟩, rfl⟩ := hkind
      exact .inr ⟨rfl, rfl⟩

/-- What holds in every state. Of two threads past their loads one has read 1. -/
structure Inv (s : State) : Prop where
  ok : ∀ k, (view s k).Ok k
  count : (view s .thread0).calls + (view s .thread1).calls + s.semEnd = pending s.main
  seen : ∀ k, (view s k).Loaded → (view s (other k)).Loaded →
    (view s k).reg = 1 ∨ (view s (other k)).reg = 1
  clear : s.main ≠ .clearY → s.main ≠ .begin0 → s.memory.buffer .main = []
  clears : ∀ w ∈ s.memory.buffer .main, w.1 = .x ∨ w.1 = .y
  unread : s.main = .test1 → s.memory.shared .read0 = 0
  unreported : s.main ≠ .report

theorem inv_initial : Inv initial := by
  have hcalls : ∀ k, (view initial k).calls = 0 := fun k => rfl
  have hfenced : ∀ k, ¬ (view initial k).Fenced :=
    fun k h => absurd h.1 (by simp [view, initial, released])
  constructor
  case ok =>
      intro k
      exact ⟨fun _ => hcalls k, by simp [hcalls], rfl, fun h => absurd h (hfenced k),
        fun h => absurd h.1 (hfenced k)⟩
  case count => rfl
  case seen => exact fun k hk => absurd hk.1 (hfenced k)
  case clear => exact fun _ _ => rfl
  case clears => simp [initial]
  case unread => simp [initial]
  case unreported => simp [initial]

@[simp] theorem other_ne : other k ≠ k := by cases k <;> decide

theorem eq_other (h : j ≠ k) : j = other k := by cases j <;> cases k <;> trivial

@[simp] theorem other_other : other (other k) = k := by cases k <;> rfl

/-- The count, from the side of either thread. -/
theorem calls_add_other (s : State) (k : Worker) :
    (view s k).calls + (view s (other k)).calls =
      (view s .thread0).calls + (view s .thread1).calls := by
  cases k
  · rfl
  · exact Nat.add_comm ..

/-- **What a thread reads** after its fence is what the other one has stored, when that one is
past its fence as well. -/
theorem Inv.load_eq_one (hI : Inv s) (hline : s.worker k = .load)
    (hother : (view s (other k)).Fenced) : s.memory.load (.worker k) (flag (other k)) = 1 := by
  have hbuffer := (hI.ok k).buffered
  simp only [View.Buffered, view, hline] at hbuffer
  rw [BufferedMemory.load_of_empty hbuffer]
  exact (hI.ok (other k)).visible hother

/-- It is kept by a statement of a thread. -/
theorem Inv.worker (hI : Inv s) (h : workerStep k s = some s') : Inv s' := by
  obtain ⟨hown, hothers, hposts, hmain, -, -, hshared, hbuffer⟩ := ran_of_workerStep h
  have hother := hothers (other k) other_ne
  have hseen : (view s' k).Loaded → (view s' (other k)).Loaded →
      (view s' k).reg = 1 ∨ (view s' (other k)).reg = 1 := by
    intro hk ho
    rw [hother] at ho ⊢
    obtain ⟨hwas, hreg⟩ | ⟨hline, hreg⟩ := hown.loaded hk
    · rw [hreg]
      exact hI.seen k hwas ho
    · left
      rw [hreg]
      exact hI.load_eq_one hline ho.1
  constructor
  case ok =>
      intro j
      by_cases hj : j = k
      · subst hj
        exact (hI.ok j).advance hown
      · rw [hothers j hj]
        exact hI.ok j
  case count =>
      have hcount := hI.count
      rw [← calls_add_other s k, ← hother, ← hmain] at hcount
      rw [← calls_add_other s' k]
      omega
  case seen =>
      intro j hj ho
      by_cases hjk : j = k
      · subst hjk
        exact hseen hj ho
      · obtain rfl := eq_other hjk
        rw [other_other] at ho ⊢
        exact (hseen ho hj).symm
  case clear => rw [hmain, hbuffer]; exact hI.clear
  case clears => rw [hbuffer]; exact hI.clears
  case unread => rw [hmain, hshared]; exact hI.unread
  case unreported => rw [hmain]; exact hI.unreported

theorem flag_ne_result : flag j ≠ result k := by cases j <;> cases k <;> decide

theorem flag_injective (h : j ≠ k) : flag j ≠ flag k := by
  cases j <;> cases k <;> first | decide | exact absurd rfl h

theorem result_injective (h : j ≠ k) : result j ≠ result k := by
  cases j <;> cases k <;> first | decide | exact absurd rfl h

/-- When `main` waits for nobody, no thread is called. -/
theorem Inv.calls_eq_zero (hI : Inv s) (h : pending s.main = 0) (k : Worker) :
    (view s k).calls = 0 := by
  have hcount := hI.count
  have hboth := calls_add_other s k
  omega

/-- Then both threads wait for their semaphores. -/
theorem Inv.line_of_pending_eq_zero (hI : Inv s) (h : pending s.main = 0) (k : Worker) :
    s.semBegin k = 0 ∧ s.worker k = .wait := by
  have hcalls := hI.calls_eq_zero h k
  grind [View.calls, view]

theorem Inv.drainWorker (hI : Inv s) {memory : BufferedMemory Thread Var ℤ}
    (h : s.memory.drain (.worker k) = some memory) : Inv { s with memory := memory } := by
  have hothers : ∀ j, j ≠ k → view { s with memory := memory } j = view s j := by
    intro j hj
    obtain ⟨-, rfl⟩ | ⟨-, rfl⟩ := (hI.ok k).drain h
    · simp [view, hj, flag_injective hj, flag_ne_result.symm]
    · simp [view, hj, result_injective hj, flag_ne_result]
  have hown : (view { s with memory := memory } k).Ok k := by
    obtain ⟨hidle, honce, hbuffered, hvisible, hrecorded⟩ := hI.ok k
    obtain ⟨hline, rfl⟩ | ⟨hline, rfl⟩ := (hI.ok k).drain h
    · constructor <;>
        grind [view, View.calls, View.Fenced, View.Loaded, View.Buffered, flag_ne_result]
    · constructor <;>
        grind [view, View.calls, View.Fenced, View.Loaded, View.Buffered, flag_ne_result]
  constructor
  case ok =>
      intro j
      by_cases hj : j = k
      · subst hj
        exact hown
      · rw [hothers j hj]
        exact hI.ok j
  case count => exact hI.count
  case seen => exact hI.seen
  case clear => 
      obtain ⟨-, rfl⟩ | ⟨-, rfl⟩ := (hI.ok k).drain h <;> simpa using hI.clear
  case clears =>
      obtain ⟨-, rfl⟩ | ⟨-, rfl⟩ := (hI.ok k).drain h <;> simpa using hI.clears
  case unread => 
      intro hmain
      have hline := (hI.line_of_pending_eq_zero (by rw [show s.main = _ from hmain]; rfl) k).2
      obtain ⟨hline', -⟩ | ⟨hline', -⟩ := (hI.ok k).drain h <;> simp [hline] at hline'
  case unreported => exact hI.unreported

theorem Inv.drainMain (hI : Inv s) {memory : BufferedMemory Thread Var ℤ}
    (h : s.memory.drain .main = some memory) : Inv { s with memory := memory } := by
  obtain ⟨var, val, ws, hbuffer, rfl⟩ := BufferedMemory.drain_eq_some h
  have hclear := hI.clear
  have hclears := hI.clears
  have hcleared : s.main = .clearY ∨ s.main = .begin0 := by
    by_contra hmain
    rw [hI.clear (by tauto) (by tauto)] at hbuffer
    cases hbuffer
  have hreleased : ∀ k, released s.main k = false := by
    rcases hcleared with hmain | hmain <;> simp [hmain, released]
  constructor
  case ok =>
      intro j
      obtain ⟨hidle, honce, hbuffered, hvisible, hrecorded⟩ := hI.ok j
      have := hreleased j
      constructor <;>
        grind [view, View.calls, View.Fenced, View.Loaded, View.Buffered, flag_ne_result]
  case count => exact hI.count
  case seen => exact hI.seen
  case clear => grind
  case clears => 
      intro w hw
      simp only [update_self] at hw
      exact hI.clears w (hbuffer ▸ List.mem_cons_of_mem _ hw)
  case unread => grind
  case unreported => exact hI.unreported

/-- Where the threads are not concerned. -/
theorem Inv.of_view (hI : Inv s) (hview : ∀ k, view s' k = view s k)
    (hcount : s'.semEnd + pending s.main = s.semEnd + pending s'.main)
    (hclear : s'.main ≠ .clearY → s'.main ≠ .begin0 → s'.memory.buffer .main = [])
    (hclears : ∀ w ∈ s'.memory.buffer .main, w.1 = .x ∨ w.1 = .y)
    (hunread : s'.main = .test1 → s'.memory.shared .read0 = 0) (hunreported : s'.main ≠ .report) :
    Inv s' where
  ok k := hview k ▸ hI.ok k
  count := by
    have := hI.count
    rw [hview, hview]
    omega
  seen k := by
    rw [hview, hview]
    exact hI.seen k
  clear := hclear
  clears := hclears
  unread := hunread
  unreported := hunreported

/-- The next round begins: no thread has been called in it. -/
theorem Inv.nextRound (hI : Inv s) (hmain : pending s.main = 0)
    (hclear : s.memory.buffer .main = []) : Inv { s with main := .loop, i := s.i + 1 } := by
  have hview : ∀ k, view { s with main := .loop, i := s.i + 1 } k =
      { view s k with released := false } := fun k => rfl
  constructor
  case ok =>
      intro k
      rw [hview]
      exact (hI.ok k).nextRound (hI.calls_eq_zero hmain k)
  case count =>
      have hcount := hI.count
      rw [hmain] at hcount
      exact hcount
  case seen => exact fun k hk => absurd hk.1.1 (by simp [view, released])
  case clear => exact fun _ _ => hclear
  case clears => simp [hclear]
  case unread => simp
  case unreported => simp

/-- `sem_post` of the semaphore of a thread, which nobody has called in this round. -/
theorem Inv.release {next : MainAt} (hI : Inv s) (h : s.release k next = some s')
    (hcalled : released s.main k = false)
    (hreleased : ∀ j, released next j = if j = k then true else released s.main j)
    (hpending : pending next = pending s.main + 1) (hnext : next ≠ .test1)
    (hnext' : next ≠ .report) : Inv s' := by
  simp only [State.release, Option.ite_none_right_eq_some, Option.some.injEq,
    State.drained_iff] at h
  obtain ⟨hclear, hs'⟩ := h
  have hothers : ∀ j, j ≠ k → view s' j = view s j := by
    intro j hj
    simp [view, hreleased, hj, ← hs']
  have hown : view s' k =
      { view s k with released := true, semBegin := (view s k).semBegin + 1 } := by
    simp [view, hreleased, ← hs']
  have hidle := (hI.ok k).idle hcalled
  have hunfenced : ¬ (view s' k).Fenced := by simp [hown, View.Fenced]
  constructor
  case ok =>
      intro j
      by_cases hj : j = k
      · subst hj
        exact hown ▸ (hI.ok j).call hidle
      · rw [hothers j hj]
        exact hI.ok j
  case count =>
      have hcount := hI.count
      have hcalls : (view s' k).calls = (view s k).calls + 1 := by
        rw [hown]
        exact Nat.add_right_comm ..
      have hsem : s'.semEnd = s.semEnd := by rw [← hs']
      have hmain : s'.main = next := by rw [← hs']
      rw [← calls_add_other s k] at hcount
      rw [← calls_add_other s' k, hcalls, hothers _ other_ne, hsem, hmain, hpending]
      omega
  case seen =>
      intro j hj ho
      by_cases hjk : j = k
      · exact absurd (hjk ▸ hj.1) hunfenced
      · rw [eq_other hjk, other_other] at ho
        exact absurd ho.1 hunfenced
  case clear => simp [← hs', hclear]
  case clears => simp [← hs', hclear]
  case unread => simp [← hs', hnext]
  case unreported => simpa [← hs'] using hnext'

/-- **Both threads have run**: one of them has read what the other one has stored. -/
theorem Inv.read_one (hI : Inv s) (hmain : pending s.main = 0)
    (hreleased : ∀ k, released s.main k = true) :
    s.memory.shared .read0 = 1 ∨ s.memory.shared .read1 = 1 := by
  have hline := hI.line_of_pending_eq_zero hmain
  have hloaded : ∀ k, (view s k).Loaded := fun k => by
    simp [View.Loaded, View.Fenced, view, hline k, hreleased k]
  have hrecorded : ∀ k, s.memory.shared (result k) = (view s k).reg := fun k =>
    (hI.ok k).recorded (hloaded k) (hline k).2
  have hseen := hI.seen .thread0 (hloaded _) (hloaded _)
  rw [← hrecorded, ← hrecorded] at hseen
  exact hseen

theorem Inv.main (hI : Inv s) (h : mainStep s = some s') : Inv s' := by
  unfold mainStep at h
  cases hmain : s.main <;> simp only [hmain, Option.some.injEq] at h
  case loop =>
      subst h
      refine hI.of_view (fun k => ?_) ?_ ?_ ?_ ?_ ?_
      · simp [view, hmain]
        grind [released]
      · simp [hmain, pending]
        grind [pending]
      · simp [hI.clear, hmain]
      · simp [hI.clear, hmain]
      · grind
      · grind
  case clearX | clearY =>
      subst h
      refine hI.of_view (fun k => ?_) ?_ ?_ ?_ ?_ ?_
      · simp [view, hmain, released]
      · simp [hmain, pending]
      · simp
      · simpa [or_imp, forall_and] using hI.clears
      · simp
      · simp
  case begin0 =>
      refine hI.release h ?_ (fun j => ?_) ?_ ?_ ?_ <;> simp [hmain, pending, released]
      cases j <;> simp
  case begin1 =>
      refine hI.release h ?_ (fun j => ?_) ?_ ?_ ?_ <;> simp [hmain, pending, released]
      cases j <;> simp
  case end1 | end2 => 
      simp only [State.collect, Option.ite_none_right_eq_some, Option.some.injEq,
        State.drained_iff] at h
      obtain ⟨⟨hclear, hpos⟩, rfl⟩ := h
      refine hI.of_view (fun k => ?_) ?_ ?_ ?_ ?_ ?_
      · simp [view, hmain, released]
      · simp [hmain, pending]
        omega
      · simp [hclear]
      · simp [hclear]
      · simp
      · simp
  case test0 => 
      have hclear := hI.clear (by simp [hmain]) (by simp [hmain])
      split at h
      case isTrue hread =>
          obtain rfl := Option.some.inj h
          rw [BufferedMemory.load_of_empty hclear] at hread
          refine hI.of_view (fun k => ?_) ?_ ?_ ?_ ?_ ?_
          · simp [view, hmain, released]
          · simp [hmain, pending]
          · simp [hclear]
          · simp [hclear]
          · simp [hread]
          · simp
      case isFalse =>
          obtain rfl := Option.some.inj h
          exact hI.nextRound (by simp [hmain, pending]) hclear
  case test1 =>
      have hclear := hI.clear (by simp [hmain]) (by simp [hmain])
      have hunread := hI.unread hmain
      have hread : s.memory.shared .read1 = 1 := by
        have hone := hI.read_one (by simp [hmain, pending]) (by simp [hmain, released])
        omega
      rw [BufferedMemory.load_of_empty hclear, hread, if_neg (by decide), Option.some.injEq] at h
      subst h
      exact hI.nextRound (by simp [hmain, pending]) hclear
  case report => exact absurd hmain hI.unreported
  case puts => 
      subst h
      refine hI.of_view (fun k => ?_) ?_ ?_ ?_ ?_ ?_
      · simp [view, hmain, released]
      · simp [hmain, pending]
      · simp [hI.clear, hmain]
      · simp [hI.clear, hmain]
      · simp
      · simp
  case exited => cases h

/-- It is kept whatever happens. -/
theorem Inv.next {e : Event} (hI : Inv s) (h : next s e = some s') : Inv s' := by
  unfold Program.CpuReordering.next at h
  split at h
  case isTrue => cases h
  case isFalse =>
      cases e
      case main => exact hI.main h
      case thread0 => exact hI.worker (k := .thread0) h
      case thread1 => exact hI.worker (k := .thread1) h
      case drain t =>
          obtain ⟨memory, hdrain, rfl⟩ := Option.map_eq_some_iff.mp h
          cases t
          · exact hI.drainMain hdrain
          · exact hI.drainWorker hdrain

end LowLevel.Interface.CpuReordering
