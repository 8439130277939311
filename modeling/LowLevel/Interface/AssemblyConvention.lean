import LowLevel.Interface.AssemblyInput
import LowLevel.Library.X86.Convention

/-!
# The registers that the assembly routines change

Whatever the memory holds: a routine may not find the end of its string, but where it comes to its
return, the stack pointer and the registers of the caller are as they were.
-/

set_option autoImplicit false

namespace LowLevel.Interface.Assembly

open LowLevel.Library LowLevel.Library.X86 LowLevel.Library.X86.Memory
open LowLevel.Program.Assembly

variable {P : Program Label} {sym : Symbols} {s : State} {top : Word}

/-! ## parse_uint -/

/-- The loop uses a quadword of the stack. -/
theorem parseUintLoop_comesIn (hP : P.block = blocks sym) :
    P.ComesIn (fun _ => True) top (.at .parseUintLoop 0) s fun c s' => c = .at .parseUintEnd 0 ∧
      Keeps volatile s s' ∧ OnlyBelow s.mem s'.mem (s.reg .rsp) 8 := by
  refine comesIn_of_loop (I := fun c s' => c = .at .parseUintLoop 0 ∧
    Keeps volatile s s' ∧ OnlyBelow s.mem s'.mem (s.reg .rsp) 8) ?_ ⟨rfl, .refl _ _, .refl _ _ _⟩
  rintro c s₁ ⟨rfl, hkeeps, hbelow⟩
  have hrsp : s₁.reg .rsp = s.reg .rsp := hkeeps .rsp (by decide)
  refine ⟨_, RunsIn.goesIn hP rfl nofun nofun (Program.step_instr hP rfl rfl), .inl ?_⟩
  apply RunsIn.jcc hP rfl (holds_l_ofSub _ _)
  · intro _
    exact RunsIn.done (.inr ⟨rfl, hkeeps, hbelow⟩)
  intro _
  apply RunsIn.instr hP rfl rfl rfl
  apply RunsIn.jcc hP rfl (holds_g_ofSub _ _)
  · intro _
    exact RunsIn.done (.inr ⟨rfl, hkeeps, hbelow⟩)
  intro _
  apply RunsIn.instr hP rfl rfl rfl
  apply RunsIn.instr hP rfl rfl rfl
  apply RunsIn.instr hP rfl rfl rfl
  apply RunsIn.instr hP rfl rfl rfl
  apply RunsIn.instr hP rfl rfl rfl
  apply RunsIn.instr hP rfl rfl rfl
  apply RunsIn.instr hP rfl rfl rfl
  apply RunsIn.jmp hP rfl
  refine RunsIn.done (.inl ⟨rfl, ?_, ?_⟩)
  · apply Keeps.of_rsp
    · simpa using hkeeps.cons .rsp
    · simp [hrsp]
  · have hpush := onlyBelow_push s₁ (s₁.reg .rdx)
    rw [hrsp] at hpush
    exact hbelow.trans (by simpa [hrsp] using hpush)

/-- `parse_uint` comes to its end with volatile registers changed, and a quadword below the stack
pointer. -/
theorem parseUint_comesIn (hP : P.block = blocks sym) :
    P.ComesIn (fun _ => True) top (.at .parseUint 0) s fun c s' => c = .at .parseUintEnd 0 ∧
      Keeps volatile s s' ∧ OnlyBelow s.mem s'.mem (s.reg .rsp) 8 := by
  apply ComesIn.of_runsIn
  apply RunsIn.instr hP rfl rfl rfl
  apply RunsIn.instr hP rfl rfl rfl
  apply RunsIn.instr hP rfl rfl rfl
  apply RunsIn.instr hP rfl rfl rfl
  apply RunsIn.instr hP rfl rfl rfl
  apply RunsIn.fall hP rfl rfl
  refine RunsIn.done (ComesIn.mono (parseUintLoop_comesIn hP) ?_)
  rintro c s' ⟨rfl, hkeeps, hbelow⟩
  exact ⟨rfl, by simpa using hkeeps, by simpa using hbelow⟩

/-- As a call, `parse_uint` comes back with the stack as deep as before. -/
theorem parseUint_comesBackIn (hP : P.block = blocks sym) (htop : s.reg .rsp ≠ top) :
    P.ComesBackIn (fun _ => True) top .parseUint s fun s' => Keeps (.rsp :: volatile) s s' := by
  refine ComesIn.bind (parseUint_comesIn hP) ?_
  rintro c s' ⟨rfl, hkeeps, hbelow⟩
  refine ComesIn.mono (comesIn_ret hP rfl htop hkeeps hbelow (by norm_num)) ?_
  rintro c s'' ⟨rfl, hrsp, hkeeps', -⟩
  exact ⟨rfl, hrsp, hkeeps'⟩

/-- **`parse_uint`** returns with the registers of its caller. -/
theorem parseUint_keepsCalleeSaved (hP : P.block = blocks sym) :
    KeepsCalleeSaved P .parseUint s := by
  refine keepsCalleeSaved_of_comesIn (ComesIn.mono (parseUint_comesIn hP) ?_)
  rintro c s' ⟨rfl, hkeeps, -⟩
  exact ⟨RunsIn.atReturn hP rfl (hkeeps .rsp (by decide)), hkeeps⟩

/-! ## parse_int -/

/-- The number behind a sign. -/
theorem parseIntSigned_comesIn (hP : P.block = blocks sym) (htop : s.reg .rsp = top) :
    P.ComesIn (fun _ => True) top (.at .parseIntSigned 0) s fun c s' =>
      P.AtReturn top (c, s') ∧ Keeps volatile s s' := by
  subst htop
  have hdown := slot_down (s.reg .rsp)
  apply ComesIn.of_runsIn
  apply RunsIn.instr hP rfl rfl rfl
  apply RunsIn.instr hP rfl rfl rfl
  apply RunsIn.instr hP rfl rfl rfl
  apply RunsIn.instr hP rfl rfl rfl
  refine RunsIn.done (ComesIn.callReturns hP rfl (parseUint_comesBackIn hP ?_) ?_)
  · simp [hdown 8, hdown 16, hdown 24]
  intro s₁ hrsp hkeeps
  simp [hdown 8, hdown 16] at hrsp hkeeps
  apply ComesIn.of_runsIn
  refine RunsIn.bind
    (runsIn_popsBack hP [.rdi, .r9, .r8] ⟨_, rfl⟩ (by simp) hkeeps (by simpa using hrsp)) ?_
  rintro c s₂ ⟨rfl, hkeeps₂⟩
  apply RunsIn.instr hP rfl rfl rfl
  apply RunsIn.jcc hP rfl (holds_e_ofSub _ _)
  · intro _
    exact RunsIn.done (comesIn_atReturn hP rfl hkeeps₂)
  intro _
  apply RunsIn.instr hP rfl rfl rfl
  apply RunsIn.instr hP rfl rfl rfl
  apply RunsIn.jcc hP rfl (holds_e_ofSub _ _)
  · intro _
    apply RunsIn.instr hP rfl rfl rfl
    apply RunsIn.fall hP rfl rfl
    exact RunsIn.done (comesIn_atReturn hP rfl (by simpa using hkeeps₂))
  · intro _
    exact RunsIn.done (comesIn_atReturn hP rfl (by simpa using hkeeps₂))

/-- **`parse_int`** returns with the registers of its caller, whether the text has a sign or not. -/
theorem parseInt_keepsCalleeSaved (hP : P.block = blocks sym) :
    KeepsCalleeSaved P .parseInt s := by
  apply keepsCalleeSaved_of_comesIn
  apply ComesIn.of_runsIn
  apply RunsIn.instr hP rfl rfl rfl
  apply RunsIn.instr hP rfl rfl rfl
  apply RunsIn.jcc hP rfl (holds_e_ofSub _ _)
  · intro _
    apply RunsIn.instr hP rfl rfl rfl
    apply RunsIn.instr hP rfl rfl rfl
    apply RunsIn.fall hP rfl rfl
    refine RunsIn.done (ComesIn.mono (parseIntSigned_comesIn hP (by simp)) ?_)
    rintro c s' ⟨hret, hkeeps⟩
    exact ⟨hret, by simpa using hkeeps⟩
  intro _
  apply RunsIn.instr hP rfl rfl rfl
  apply RunsIn.jcc hP rfl (holds_ne_ofSub _ _)
  · intro _
    apply RunsIn.instr hP rfl rfl rfl
    refine RunsIn.done (ComesIn.callReturns hP rfl (parseUint_comesBackIn hP ?_) ?_)
    · simp [slot_down (s.reg .rsp) 8]
    intro s₁ hrsp hkeeps
    simp at hrsp hkeeps
    apply ComesIn.of_runsIn
    refine RunsIn.bind
      (runsIn_popsBack hP [.rdi] ⟨_, rfl⟩ (by simp) hkeeps (by simpa using hrsp)) ?_
    rintro c s₂ ⟨rfl, hkeeps₂⟩
    apply RunsIn.instr hP rfl rfl rfl
    apply RunsIn.instr hP rfl rfl rfl
    exact RunsIn.done (comesIn_atReturn hP rfl (by simpa using hkeeps₂))
  · intro _
    apply RunsIn.jmp hP rfl
    refine RunsIn.done (ComesIn.mono (parseIntSigned_comesIn hP (by simp)) ?_)
    rintro c s' ⟨hret, hkeeps⟩
    exact ⟨hret, by simpa using hkeeps⟩

/-! ## string_copy -/

/-- The loop stores nothing; it may run for ever over a text without NUL. -/
theorem stringLengthLoop_comesIn (hP : P.block = blocks sym) :
    P.ComesIn (fun _ => True) top (.at .stringLengthLoop 0) s fun c s' =>
      c = .at .stringLengthEnd 0 ∧ Keeps volatile s s' ∧ s'.mem = s.mem := by
  refine comesIn_of_loop (I := fun c s' => c = .at .stringLengthLoop 0 ∧
    Keeps volatile s s' ∧ s'.mem = s.mem) ?_ ⟨rfl, .refl _ _, rfl⟩
  rintro c s₁ ⟨rfl, hkeeps, hmem⟩
  refine ⟨_, RunsIn.goesIn hP rfl nofun nofun (Program.step_instr hP rfl rfl), .inl ?_⟩
  apply RunsIn.jcc hP rfl (holds_e_ofSub _ _)
  · intro _
    exact RunsIn.done (.inr ⟨rfl, hkeeps, hmem⟩)
  · intro _
    apply RunsIn.instr hP rfl rfl rfl
    apply RunsIn.jmp hP rfl
    exact RunsIn.done (.inl ⟨rfl, by simpa using hkeeps, hmem⟩)

/-- As a call, `string_length` comes back with the memory as it was. -/
theorem stringLength_comesBackIn (hP : P.block = blocks sym) (htop : s.reg .rsp ≠ top) :
    P.ComesBackIn (fun _ => True) top .stringLength s fun s' =>
      Keeps (.rsp :: volatile) s s' ∧ s'.mem = s.mem := by
  apply ComesIn.of_runsIn
  apply RunsIn.instr hP rfl rfl rfl
  apply RunsIn.fall hP rfl rfl
  refine RunsIn.done (ComesIn.bind (stringLengthLoop_comesIn hP) ?_)
  rintro c s' ⟨rfl, hkeeps, hmem⟩
  have hbelow : OnlyBelow s.mem s'.mem (s.reg .rsp) 0 := by
    rw [hmem]
    exact .refl _ _ _
  refine ComesIn.mono (comesIn_ret hP rfl htop (by simpa using hkeeps) hbelow (by norm_num)) ?_
  rintro c s'' ⟨rfl, hrsp, hkeeps', hmem'⟩
  exact ⟨rfl, hrsp, hkeeps', hmem'.trans hmem⟩

/-- The loop may store anywhere, yet it changes volatile registers only. -/
theorem stringCopyLoop_comesIn (hP : P.block = blocks sym) :
    P.ComesIn (fun _ => True) top (.at .stringCopyLoop 0) s fun c s' =>
      c = .at .stringCopySuccess 0 ∧ Keeps volatile s s' := by
  refine comesIn_of_loop (I := fun c s' => c = .at .stringCopyLoop 0 ∧ Keeps volatile s s') ?_
    ⟨rfl, .refl _ _⟩
  rintro c s₁ ⟨rfl, hkeeps⟩
  refine ⟨_, RunsIn.goesIn hP rfl nofun nofun (Program.step_instr hP rfl rfl), .inl ?_⟩
  apply RunsIn.instr hP rfl rfl rfl
  apply RunsIn.jcc hP rfl (holds_e_ofSub _ _)
  · intro _
    exact RunsIn.done (.inr ⟨rfl, by simpa using hkeeps⟩)
  · intro _
    refine RunsIn.store hP rfl rfl (fun _ _ => trivial) ?_
    apply RunsIn.instr hP rfl rfl rfl
    apply RunsIn.jmp hP rfl
    exact RunsIn.done (.inl ⟨rfl, by simpa using hkeeps⟩)

/-- **`string_copy`** returns with the registers of its caller. -/
theorem stringCopy_keepsCalleeSaved (hP : P.block = blocks sym) :
    KeepsCalleeSaved P .stringCopy s := by
  have hdown := slot_down (s.reg .rsp)
  apply keepsCalleeSaved_of_comesIn
  apply ComesIn.of_runsIn
  apply RunsIn.instr hP rfl rfl rfl
  apply RunsIn.instr hP rfl rfl rfl
  apply RunsIn.instr hP rfl rfl rfl
  apply RunsIn.instr hP rfl rfl rfl
  refine RunsIn.done (ComesIn.callReturns hP rfl (stringLength_comesBackIn hP ?_) ?_)
  · simp [hdown 8, hdown 16, hdown 24]
  rintro s₁ hrsp ⟨hkeeps, -⟩
  simp [hdown 8, hdown 16] at hrsp hkeeps
  apply ComesIn.of_runsIn
  refine RunsIn.bind
    (runsIn_popsBack hP [.rsi, .rdi, .rdx] ⟨_, rfl⟩ (by simp) hkeeps (by simpa using hrsp)) ?_
  rintro c s₂ ⟨rfl, hkeeps₂⟩
  apply RunsIn.instr hP rfl rfl rfl
  apply RunsIn.instr hP rfl rfl rfl
  apply RunsIn.instr hP rfl rfl rfl
  apply RunsIn.instr hP rfl rfl rfl
  apply RunsIn.jcc hP rfl (holds_g_ofSub _ _)
  · intro _
    apply RunsIn.instr hP rfl rfl rfl
    apply RunsIn.fall hP rfl rfl
    exact RunsIn.done (comesIn_atReturn hP rfl (by simpa using hkeeps₂))
  · intro _
    apply RunsIn.fall hP rfl rfl
    refine RunsIn.done (ComesIn.bind (stringCopyLoop_comesIn hP) ?_)
    rintro c s₃ ⟨rfl, hkeeps₃⟩
    have hkeeps' : Keeps volatile s s₃ := hkeeps₂.trans (by simpa using hkeeps₃)
    apply ComesIn.of_runsIn
    apply RunsIn.instr hP rfl rfl rfl
    refine RunsIn.store hP rfl rfl (fun _ _ => trivial) ?_
    apply RunsIn.instr hP rfl rfl rfl
    apply RunsIn.jmp hP rfl
    exact RunsIn.done (comesIn_atReturn hP rfl (by simpa using hkeeps'))

/-! ## print_uint and print_int -/

/-- As a call, `print_string` comes back from the call inside it. -/
theorem printString_comesBackIn (hP : P.block = blocks sym) (htop : s.reg .rsp ≠ top)
    (htop' : s.reg .rsp - 16 ≠ top) :
    P.ComesBackIn (fun _ => True) top .printString s fun s' => Keeps (.rsp :: volatile) s s' := by
  apply ComesIn.of_runsIn
  apply RunsIn.instr hP rfl rfl rfl
  refine RunsIn.done (ComesIn.callReturns hP rfl (stringLength_comesBackIn hP ?_) ?_)
  · simpa [slot_down (s.reg .rsp) 8] using htop'
  rintro s₁ hrsp ⟨hkeeps, hmem⟩
  simp at hrsp hkeeps
  have hbelow : OnlyBelow s.mem s₁.mem (s.reg .rsp) 16 := by
    rw [hmem]
    exact (onlyBelow_write64 _ (by bv_omega) (by bv_omega)).trans
      (onlyBelow_write64 _ (by simp; bv_omega) (by simp; bv_omega))
  apply ComesIn.of_runsIn
  apply RunsIn.instr hP rfl rfl rfl
  apply RunsIn.instr hP rfl rfl rfl
  apply RunsIn.instr hP rfl rfl rfl
  apply RunsIn.instr hP rfl rfl rfl
  apply RunsIn.write hP rfl (by simp) (by simp)
  rintro s₂ - hmem₂ hkeeps₂
  have hrsp₂ := hkeeps₂ .rsp (by decide)
  simp [hrsp] at hrsp₂ hmem₂
  have hkeeps' := hkeeps₂.mono (.rsp :: volatile) (by simp)
  have hkept : Keeps volatile s s₂ := Keeps.of_rsp (hkeeps.trans (by simpa using hkeeps')) hrsp₂
  rw [← hmem₂] at hbelow
  refine RunsIn.done (ComesIn.mono (comesIn_ret hP rfl htop hkept hbelow (by norm_num)) ?_)
  rintro c s₃ ⟨rfl, hrsp₃, hkeeps₃, -⟩
  exact ⟨rfl, hrsp₃, hkeeps₃⟩

/-- The digits are stored below the stack pointer; the registers that change are volatile. -/
theorem printUintCountLoop_comesIn (hP : P.block = blocks sym) (hr9 : s.reg .r9 = 10) :
    P.ComesIn (fun _ => True) top (.at .printUintCountLoop 0) s fun c s' =>
      c = .at .printUintEnd 0 ∧ Keeps volatile s s' := by
  refine comesIn_of_loop (I := fun c s' => c = .at .printUintCountLoop 0 ∧ s'.reg .r9 = 10 ∧
    Keeps volatile s s') ?_ ⟨rfl, hr9, .refl _ _⟩
  rintro c s₁ ⟨rfl, hr9, hkeeps⟩
  refine ⟨_, RunsIn.goesIn hP rfl nofun nofun (Program.step_instr hP rfl rfl), .inl ?_⟩
  apply RunsIn.instr hP rfl rfl rfl
  apply RunsIn.div hP rfl (by simp) (by simp [hr9])
  apply RunsIn.instr hP rfl rfl rfl
  apply RunsIn.instr hP rfl rfl rfl
  apply RunsIn.instr hP rfl rfl rfl
  refine RunsIn.store hP rfl rfl (fun _ _ => trivial) ?_
  apply RunsIn.instr hP rfl rfl rfl
  apply RunsIn.instr hP rfl rfl rfl
  apply RunsIn.jcc hP rfl (holds_ne_ofLogic _)
  · intro _
    exact RunsIn.done (.inl ⟨rfl, by simpa using hr9, by simpa using hkeeps⟩)
  · intro _
    apply RunsIn.fall hP rfl rfl
    exact RunsIn.done (.inr ⟨rfl, by simpa using hkeeps⟩)

/-- `print_uint` comes to its own return, behind the call of `print_string`. -/
theorem printUint_comesIn (hP : P.block = blocks sym) (htop : s.reg .rsp = top) :
    P.ComesIn (fun _ => True) top (.at .printUint 0) s fun c s' =>
      P.AtReturn top (c, s') ∧ Keeps volatile s s' := by
  subst htop
  apply ComesIn.of_runsIn
  apply RunsIn.instr hP rfl rfl rfl
  apply RunsIn.instr hP rfl rfl rfl
  apply RunsIn.instr hP rfl rfl rfl
  apply RunsIn.instr hP rfl rfl rfl
  apply RunsIn.instr hP rfl rfl rfl
  apply RunsIn.instr hP rfl rfl rfl
  apply RunsIn.instr hP rfl rfl rfl
  refine RunsIn.store hP rfl rfl (fun _ _ => trivial) ?_
  apply RunsIn.fall hP rfl rfl
  refine RunsIn.done (ComesIn.bind (printUintCountLoop_comesIn hP (by simp)) ?_)
  rintro c s₁ ⟨rfl, hkeeps₁⟩
  have hrsp₁ := hkeeps₁ .rsp (by decide)
  have hkeeps := hkeeps₁.cons .rsp
  simp at hrsp₁ hkeeps
  apply ComesIn.of_runsIn
  apply RunsIn.instr hP rfl rfl rfl
  refine RunsIn.done (ComesIn.callReturns hP rfl (printString_comesBackIn hP ?_ ?_) ?_)
  · simp [hrsp₁]
    bv_omega
  · simp [hrsp₁]
    bv_omega
  intro s₂ hrsp₂ hkeeps₂
  simp [hrsp₁] at hrsp₂ hkeeps₂
  apply ComesIn.of_runsIn
  apply RunsIn.instr hP rfl rfl rfl
  refine RunsIn.done (comesIn_atReturn hP rfl (Keeps.of_rsp ?_ ?_))
  · simpa using hkeeps.trans hkeeps₂
  · simp [hrsp₂]

/-- **`print_uint`** returns with the registers of its caller. -/
theorem printUint_keepsCalleeSaved (hP : P.block = blocks sym) :
    KeepsCalleeSaved P .printUint s :=
  keepsCalleeSaved_of_comesIn (printUint_comesIn hP rfl)

/-- **`print_int`** returns with the registers of its caller, for either sign. -/
theorem printInt_keepsCalleeSaved (hP : P.block = blocks sym) :
    KeepsCalleeSaved P .printInt s := by
  apply keepsCalleeSaved_of_comesIn
  apply ComesIn.of_runsIn
  apply RunsIn.instr hP rfl rfl rfl
  apply RunsIn.jcc hP rfl (holds_ge_ofSub _ _)
  · intro _
    apply RunsIn.jmp hP rfl
    refine RunsIn.done (ComesIn.mono (printUint_comesIn hP (by simp)) ?_)
    rintro c s' ⟨hret, hkeeps⟩
    exact ⟨hret, by simpa using hkeeps⟩
  · intro _
    apply RunsIn.fall hP rfl rfl
    apply RunsIn.instr hP rfl rfl rfl
    apply RunsIn.instr hP rfl rfl rfl
    refine RunsIn.callReturns hP rfl (printChar_returnsIn hP ?_) ?_
    · simp [slot_down (s.reg .rsp) 8]
    rintro s₁ hrsp ⟨-, hkeeps, -⟩
    replace hkeeps := hkeeps.mono (.rsp :: volatile) (by simp)
    simp at hrsp hkeeps
    have hrsp' : s₁.reg .rsp + 8#64 = s.reg .rsp := by simp [hrsp]
    apply RunsIn.instr hP rfl rfl rfl
    apply RunsIn.instr hP rfl rfl rfl
    apply RunsIn.fall hP rfl rfl
    apply RunsIn.jmp hP rfl
    refine RunsIn.done (ComesIn.mono (printUint_comesIn hP (by simpa using hrsp')) ?_)
    rintro c s' ⟨hret, hkeeps'⟩
    refine ⟨hret, Keeps.of_rsp ?_ hret.2⟩
    have hlater := hkeeps'.cons .rsp
    exact hkeeps.trans (by simpa using hlater)

end LowLevel.Interface.Assembly
