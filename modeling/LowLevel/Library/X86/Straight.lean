import LowLevel.Library.X86.Runs

/-!
# Straight-line code

A stretch of instructions without jumps is run as a whole: `execAll` folds what its
instructions do, and splits along the stretches that macros expand to. Programs are
deterministic, so two runs that come to an end come to the same one.
-/

set_option autoImplicit false

namespace LowLevel.Library.X86

variable {L : Type}

/-- The instructions one after another; `none` is a fault. -/
def execAll (s : State) : List (Instr L) → Option State
  | [] => some s
  | instr :: instrs => (instr.exec s).bind (execAll · instrs)

/-- One stretch behind another. -/
theorem execAll_append (s : State) (instrs instrs' : List (Instr L)) :
    execAll s (instrs ++ instrs') = (execAll s instrs).bind (execAll · instrs') := by
  induction instrs generalizing s with
  | nil => rfl
  | cons instr instrs ih =>
      rw [List.cons_append, execAll, execAll, Option.bind_assoc]
      congr 1
      funext s'
      exact ih s'

/-- **A stretch of a block** runs to the instruction behind it. -/
theorem Runs.straight {P : Program L} {B : L → Block L} (hP : P.block = B) {l : L} {s s' : State}
    {Q : Control L → State → Prop} (pre : List (Instr L)) {instrs rest : List (Instr L)}
    (hcode : (B l).code = pre ++ (instrs ++ rest)) (hexec : execAll s instrs = some s')
    (h : P.Runs (.at l (pre.length + instrs.length)) s' Q) : P.Runs (.at l pre.length) s Q := by
  induction instrs generalizing s pre with
  | nil =>
      rw [Option.some.inj hexec]
      exact h
  | cons instr instrs ih =>
      obtain ⟨s₁, hfirst, hrest⟩ := Option.bind_eq_some_iff.mp hexec
      have hget : (B l).code[pre.length]? = some instr := by
        rw [hcode, List.getElem?_append_right le_rfl, Nat.sub_self]
        rfl
      refine Runs.instr hP hget hfirst ?_
      have hnext := ih (pre ++ [instr]) (by rw [hcode, List.append_assoc]; rfl) hrest
      rw [List.length_append, List.length_singleton] at hnext
      refine hnext ?_
      rw [Nat.add_assoc, Nat.add_comm 1]
      exact h

/-- **Determinism**: two runs of a program to where it stops end alike. -/
theorem Program.Steps.unique {P : Program L} {c d d' : Control L × State} (h : P.Steps c d)
    (h' : P.Steps c d') (hd : P.step d = none) (hd' : P.step d' = none) : d = d' := by
  induction h using Relation.ReflTransGen.head_induction_on with
  | refl =>
      rcases h'.cases_head with rfl | ⟨e, hstep, -⟩
      · rfl
      · rw [hd] at hstep
        cases hstep
  | head hstep _ ih =>
      rcases h'.cases_head with rfl | ⟨e, hstep', hrest⟩
      · rw [hd'] at hstep
        cases hstep
      · rw [hstep] at hstep'
        rw [Option.some.inj hstep'] at ih
        exact ih hrest

/-- Two specifications of a routine that returns out of the program hold of one state. -/
theorem Program.Returns.and {P : Program L} {f : L} {s : State} {Q Q' : State → Prop} {v : Word}
    (hout : P.goto (s.mem.read64 (s.reg .rsp)) = .outside v) (h : P.Returns f s Q)
    (h' : P.Returns f s Q') : ∃ s', Q s' ∧ Q' s' := by
  obtain ⟨c₁, s₁, hsteps, hc₁, -, hq⟩ := h
  obtain ⟨c₂, s₂, hsteps', hc₂, -, hq'⟩ := h'
  rw [hc₁, hout] at hsteps
  rw [hc₂, hout] at hsteps'
  have hends := hsteps.unique hsteps' rfl rfl
  rw [Prod.mk.injEq] at hends
  exact ⟨s₁, hq, hends.2 ▸ hq'⟩

end LowLevel.Library.X86
