import LowLevel.Library.X86.Routine

/-!
# The calling convention

A routine may change `volatile` registers. The others belong to its caller, and it gives them back:
if it comes to its return, they are as they were when it was called.
-/

set_option autoImplicit false

namespace LowLevel.Library.X86

variable {L : Type} {P : Program L} {f : L} {s s' : State}

/-- The registers that a routine may change. -/
abbrev volatile : List Reg := [.rax, .rcx, .rdx, .rsi, .rdi, .r8, .r9, .r10, .r11]

/-- The registers that belong to the caller. -/
def calleeSaved : List Reg := [.rbx, .rbp, .r12, .r13, .r14, .r15, .rsp]

/-- The routine comes to its return with the registers of its caller as they were, or it goes on
for ever. -/
def KeepsCalleeSaved (P : Program L) (f : L) (s : State) : Prop :=
  P.Finishes f s (fun s' => ∀ r ∈ calleeSaved, s'.reg r = s.reg r) ∨
    P.DivergesIn (fun _ => True) (s.reg .rsp) (.at f 0, s)

/-- The state of another caller: other values in its registers, and everything else as it is. -/
def State.withCaller (s : State) (ρ : Reg → Word) : State :=
  { s with reg := fun r => if r ∈ calleeSaved ∧ r ≠ .rsp then ρ r else s.reg r }

section Caller

variable (s : State) (ρ : Reg → Word) {r : Reg}

/-- The registers of the caller are replaced. -/
theorem State.withCaller_of_mem (hr : r ∈ calleeSaved) (hne : r ≠ .rsp) :
    (s.withCaller ρ).reg r = ρ r := if_pos ⟨hr, hne⟩

/-- The others, in which a routine takes its arguments, are not. -/
theorem State.withCaller_of_not_mem (hr : r ∉ calleeSaved) :
    (s.withCaller ρ).reg r = s.reg r := if_neg fun h => hr h.1

/-- Nor is the stack pointer. -/
@[simp] theorem State.withCaller_rsp : (s.withCaller ρ).reg .rsp = s.reg .rsp := by
  simp [State.withCaller]

@[simp] theorem State.withCaller_mem : (s.withCaller ρ).mem = s.mem := rfl

@[simp] theorem State.withCaller_streams : (s.withCaller ρ).streams = s.streams := rfl

@[simp] theorem State.withCaller_rdi : (s.withCaller ρ).reg .rdi = s.reg .rdi :=
  s.withCaller_of_not_mem ρ (by decide)

@[simp] theorem State.withCaller_rsi : (s.withCaller ρ).reg .rsi = s.reg .rsi :=
  s.withCaller_of_not_mem ρ (by decide)

end Caller

/-- Every register is one or the other. -/
theorem mem_calleeSaved_iff (r : Reg) : r ∈ calleeSaved ↔ r ∉ volatile := by
  cases r <;> decide

theorem Keeps.calleeSaved (h : Keeps volatile s s') : ∀ r ∈ calleeSaved, s'.reg r = s.reg r :=
  fun r hr => h r ((mem_calleeSaved_iff r).mp hr)

/-- The stack pointer is back. -/
theorem Keeps.of_rsp {rs : List Reg} (h : Keeps (.rsp :: rs) s s')
    (hrsp : s'.reg .rsp = s.reg .rsp) : Keeps rs s s' := by
  intro r hr
  by_cases heq : r = .rsp
  · rw [heq, hrsp]
  · exact h r (by simp [heq, hr])

/-- A push stores in the quadword below the stack pointer. -/
theorem onlyBelow_push (s : State) (v : Word) :
    Memory.OnlyBelow s.mem (s.push v).mem (s.reg .rsp) 8 :=
  Memory.onlyBelow_write64 _ (by bv_omega) (by bv_omega)

/-- A routine that comes to its return, if it does, with no other register changed. -/
theorem keepsCalleeSaved_of_comesIn (h : P.ComesIn (fun _ => True) (s.reg .rsp) (.at f 0) s
    fun c s' => P.AtReturn (s.reg .rsp) (c, s') ∧ Keeps volatile s s') :
    KeepsCalleeSaved P f s := by
  rcases h with hrun | hdiverges
  · exact .inl ((RunsIn.finishes hrun).mono fun _ hkeeps => hkeeps.calleeSaved)
  · exact .inr hdiverges

/-- The end of such a routine. -/
theorem comesIn_atReturn {B : L → Block L} {A : Word × ℕ → Prop} {l : L} {i : ℕ}
    (hP : P.block = B) (hcode : (B l).code[i]? = some .ret) (hkeeps : Keeps volatile s s') :
    P.ComesIn A (s.reg .rsp) (.at l i) s' fun c s' =>
      P.AtReturn (s.reg .rsp) (c, s') ∧ Keeps volatile s s' :=
  ComesIn.done ⟨RunsIn.atReturn hP hcode (hkeeps .rsp (by decide)), hkeeps⟩

/-- The end of a routine that is called on the way, with the stack from its return address on as it
was. -/
theorem comesIn_ret {B : L → Block L} {A : Word × ℕ → Prop} {l : L} {i n : ℕ} {top : Word}
    (hP : P.block = B) (hcode : (B l).code[i]? = some .ret) (htop : s.reg .rsp ≠ top)
    (hkeeps : Keeps volatile s s') (hbelow : Memory.OnlyBelow s.mem s'.mem (s.reg .rsp) n)
    (hn : n + 8 ≤ 2 ^ 64) :
    P.ComesIn A top (.at l i) s' fun c s'' => c = P.goto (s.mem.read64 (s.reg .rsp)) ∧
      s''.reg .rsp = s.reg .rsp + 8 ∧ Keeps (.rsp :: volatile) s s'' ∧ s''.mem = s'.mem := by
  have hrsp : s'.reg .rsp = s.reg .rsp := hkeeps .rsp (by decide)
  have haddr := hbelow.read64_eq hn
  apply ComesIn.of_runsIn
  refine RunsIn.ret hP hcode (by rwa [hrsp]) (ComesIn.done ⟨by rw [hrsp, haddr], ?_, ?_, rfl⟩)
  · simp [hrsp]
  · simpa using hkeeps.cons .rsp

/-- Pops that take off what was pushed since the routine was called. -/
theorem runsIn_popsBack {B : L → Block L} {A : Word × ℕ → Prop} {l : L} {i : ℕ} {top : Word}
    (hP : P.block = B) (rs : List Reg) (hcode : rs.map .pop <+: (B l).code.drop i)
    (hrs : ∀ r ∈ rs, r ∈ volatile) (hkeeps : Keeps (.rsp :: volatile) s s')
    (hrsp : s'.reg .rsp = s.reg .rsp - BitVec.ofNat 64 (8 * rs.length)) :
    P.RunsIn A top (.at l i) s' fun c s'' =>
      c = .at l (i + rs.length) ∧ Keeps volatile s s'' := by
  have hnotMem : .rsp ∉ rs := fun hmem => absurd (hrs _ hmem) (by decide)
  refine RunsIn.mono (RunsIn.pops hP rs hcode hnotMem) ?_
  rintro c s'' ⟨rfl, hrsp', hkeeps'⟩
  refine ⟨rfl, Keeps.of_rsp (hkeeps.trans (hkeeps'.mono _ ?_)) ?_⟩
  · intro r hr
    rcases List.mem_cons.mp hr with rfl | hmem
    · exact List.mem_cons_self
    · exact List.mem_cons_of_mem _ (hrs r hmem)
  · rw [hrsp', hrsp, BitVec.sub_add_cancel]

/-- For a routine that comes to its return the registers tell. -/
theorem Program.Finishes.keepsCalleeSaved_iff {Q : State → Prop} {kept : Prop}
    (h : P.Finishes f s Q)
    (hkept : ∀ s', s'.reg .rsp = s.reg .rsp → Q s' →
      ((∀ r ∈ calleeSaved, s'.reg r = s.reg r) ↔ kept)) :
    KeepsCalleeSaved P f s ↔ kept := by
  obtain ⟨c', s', hpasses, hret, hq⟩ := h
  have hiff := hkept s' hret.2 hq
  constructor
  · rintro (hfinishes | hdiverges)
    · obtain ⟨s'', heq, hregs⟩ := Program.Finishes.and (Q := fun s'' => s'' = s')
        ⟨c', s', hpasses, hret, rfl⟩ hfinishes
      exact hiff.mp (heq ▸ hregs)
    · exact absurd hret (hdiverges.endless _ hpasses)
  · intro hk
    exact .inl ⟨c', s', hpasses, hret, hiff.mpr hk⟩

end LowLevel.Library.X86
