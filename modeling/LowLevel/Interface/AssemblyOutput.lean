import LowLevel.Library.X86.Routine
import LowLevel.Program.Assembly

/-!
# The output routines of the assembly library

`string_length`, `print_string`, `print_char` and `print_newline`: what they return and write,
which registers they change, and how far below the stack pointer they store.
-/

set_option autoImplicit false

namespace LowLevel.Interface.Assembly

open LowLevel.Library LowLevel.Library.X86 LowLevel.Library.X86.Memory
open LowLevel.Program.Assembly

variable {P : Program Label} {sym : Symbols} {A : Word × ℕ → Prop} {s : State} {top : Word}
  {bs : List Byte}

/-! ## string_length -/

/-- From `i` characters on, `k` before the end. -/
theorem stringLengthLoop_runsIn (hP : P.block = blocks sym) {k i : ℕ} (hk : i + k = bs.length)
    (hstr : CString s.mem (s.reg .rdi) bs) (hrax : s.reg .rax = BitVec.ofNat 64 i) :
    P.RunsIn A top (.at .stringLengthLoop 0) s fun c s' => c = .at .stringLengthEnd 0 ∧
      s'.reg .rax = BitVec.ofNat 64 bs.length ∧ Keeps [.rax] s s' ∧ s'.mem = s.mem ∧
      s'.streams = s.streams := by
  induction k generalizing s i with
  | zero =>
      obtain rfl : i = bs.length := by omega
      apply RunsIn.instr hP rfl rfl rfl
      apply RunsIn.jcc hP rfl (holds_e_ofSub _ _)
      · intro _
        exact RunsIn.done ⟨rfl, hrax, fun r _ => rfl, rfl, rfl⟩
      · intro hne
        exact absurd (by simp [hrax, hstr.nul]) hne
  | succ k ih =>
      have hi : i < bs.length := by omega
      apply RunsIn.instr hP rfl rfl rfl
      apply RunsIn.jcc hP rfl (holds_e_ofSub _ _)
      · intro heq
        have hnul : bs[i] = 0 := by simpa [hrax, hstr.getElem hi] using heq
        exact absurd hnul (hstr.nonzero _ (List.getElem_mem hi))
      · intro _
        apply RunsIn.instr hP rfl rfl rfl
        apply RunsIn.jmp hP rfl
        refine RunsIn.mono (ih (i := i + 1) (by omega) hstr (by simp [hrax, ofNat_add_one])) ?_
        rintro c s' ⟨rfl, hrax', hkeeps, hmem, hstreams⟩
        exact ⟨rfl, hrax', by simpa using hkeeps, hmem, hstreams⟩

theorem stringLength_returnsIn (hP : P.block = blocks sym) (htop : s.reg .rsp ≠ top)
    (hstr : CString s.mem (s.reg .rdi) bs) :
    P.ReturnsIn A top .stringLength s fun s' => s'.reg .rax = BitVec.ofNat 64 bs.length ∧
      Keeps [.rax, .rsp] s s' ∧ s'.mem = s.mem ∧ s'.streams = s.streams := by
  apply RunsIn.instr hP rfl rfl rfl
  apply RunsIn.fall hP rfl rfl
  refine RunsIn.bind (stringLengthLoop_runsIn hP (Nat.zero_add bs.length) hstr (by simp)) ?_
  rintro c s' ⟨rfl, hrax, hkeeps, hmem, hstreams⟩
  have hrsp : s'.reg .rsp = s.reg .rsp := hkeeps .rsp (by decide)
  have hkeeps' : Keeps [.rax, .rsp] s s' := by simpa using hkeeps.mono [.rax, .rsp] (by simp)
  exact RunsIn.ret hP rfl (by rwa [hrsp]) ⟨by rw [hmem, hrsp]; rfl, by simp [hrsp],
    by simpa using hrax, by simpa using hkeeps', hmem, hstreams⟩

/-- **`string_length`** returns the length of the string. -/
theorem stringLength_returns (hP : P.block = blocks sym)
    (hstr : CString s.mem (s.reg .rdi) bs) :
    P.Returns .stringLength s fun s' => s'.reg .rax = BitVec.ofNat 64 bs.length ∧
      Keeps [.rax, .rsp] s s' ∧ s'.mem = s.mem ∧ s'.streams = s.streams := by
  have hother : s.reg .rsp ≠ s.reg .rsp + 1 := by bv_omega
  exact RunsIn.runs (stringLength_returnsIn (A := fun _ => True) hP hother hstr)

/-! ## print_string -/

/-- The registers that the printing routines change. -/
abbrev printing : List Reg := [.rax, .rcx, .rdx, .rsi, .rdi, .r11, .rsp]

/-- **`print_string`** writes the string. -/
theorem printString_returns (hP : P.block = blocks sym) (hstr : CString s.mem (s.reg .rdi) bs)
    (hclear : Clear (s.reg .rdi) (bs.length + 1) (s.reg .rsp) 16) :
    P.Returns .printString s fun s' =>
      s'.streams = { s.streams with stdout := s.streams.stdout ++ bs } ∧
      Keeps printing s s' ∧
      OnlyBelow s.mem s'.mem (s.reg .rsp) 16 := by
  set m := (s.mem.write64 (s.reg .rsp - 8#64) (s.reg .rdi)).write64 (s.reg .rsp - 8#64 - 8#64)
    (P.addr .printString 2) with hm
  have hbelow : OnlyBelow s.mem m (s.reg .rsp) 16 :=
    (onlyBelow_write64 _ (by bv_omega) (by bv_omega)).trans
      (onlyBelow_write64 _ (by bv_omega) (by bv_omega))
  have hsaved : m.read64 (s.reg .rsp - 8#64) = s.reg .rdi := by
    rw [hm, read64_write64_of_le (by bv_omega) (by bv_omega), read64_write64]
  have hstr' : CString m (s.reg .rdi) bs := hstr.of_onlyBelow hbelow hclear
  apply Runs.instr hP rfl rfl
  apply Runs.callReturns hP rfl (stringLength_returns hP (show CString _ _ bs by simpa using hstr'))
  rintro s₁ hrsp ⟨hrax, hkeeps, hmem, hstreams⟩
  apply Runs.instr hP rfl rfl
  apply Runs.instr hP rfl rfl
  apply Runs.instr hP rfl rfl
  apply Runs.instr hP rfl rfl
  apply Runs.write hP rfl (by simp) (by simp)
  intro s₂ hstreams₂ hmem₂ hkeeps₂
  have hrsp₂ := hkeeps₂ .rsp (by decide)
  have hlen : (BitVec.ofNat 64 bs.length).toNat = bs.length := by
    rw [BitVec.toNat_ofNat, Nat.mod_eq_of_lt hstr.short]
  simp [hrax, hmem, hstreams, hrsp, ← hm, hsaved, -BitVec.toNat_ofNat,
    hlen, hstr'.bytes_eq] at hstreams₂ hmem₂ hrsp₂
  have hkeeps' : Keeps printing s s₂ := by
    have h₁ := hkeeps.mono printing (by simp)
    have h₂ := hkeeps₂.mono printing (by simp)
    exact Keeps.trans (by simpa using h₁) (by simpa using h₂)
  refine Runs.ret hP rfl ⟨?_, by simp [hrsp₂], hstreams₂, by simpa using hkeeps', ?_⟩
  · rw [hrsp₂, hmem₂, hbelow.read64_eq (by norm_num)]
  · rw [State.mem_setReg, hmem₂]
    exact hbelow

/-! ## print_char -/

theorem printChar_returnsIn (hP : P.block = blocks sym) (htop : s.reg .rsp ≠ top) :
    P.ReturnsIn A top .printChar s fun s' =>
      s'.streams = { s.streams with
        stdout := s.streams.stdout ++ [(s.reg .rdi).setWidth 8] } ∧
      Keeps printing s s' ∧ OnlyBelow s.mem s'.mem (s.reg .rsp) 8 := by
  set m := s.mem.write64 (s.reg .rsp - 8#64) (s.reg .rdi) with hm
  have hbelow : OnlyBelow s.mem m (s.reg .rsp) 8 := onlyBelow_write64 _ (by bv_omega) (by bv_omega)
  have hchar : m.bytes (s.reg .rsp - 8#64) 1 = [(s.reg .rdi).setWidth 8] := by
    simp [bytes, hm, write64_self]
  apply RunsIn.instr hP rfl rfl rfl
  apply RunsIn.instr hP rfl rfl rfl
  apply RunsIn.instr hP rfl rfl rfl
  apply RunsIn.instr hP rfl rfl rfl
  apply RunsIn.instr hP rfl rfl rfl
  apply RunsIn.write hP rfl (by simp) (by simp)
  intro s₁ hstreams hmem hkeeps
  have hrsp := hkeeps .rsp (by decide)
  simp [← hm, hchar] at hstreams hmem hrsp
  have hkeeps' : Keeps printing s s₁ := by simpa using hkeeps.mono printing (by simp)
  apply RunsIn.instr hP rfl rfl rfl
  refine RunsIn.ret hP rfl ?_ ⟨?_, ?_, hstreams, by simpa using hkeeps', ?_⟩
  · simpa [hrsp] using htop
  · simp [hrsp, hmem, hbelow.read64_eq]
  · simp [hrsp]
  · simpa [hmem] using hbelow

/-- **`print_char`** writes the lowest byte of its argument. -/
theorem printChar_returns (hP : P.block = blocks sym) :
    P.Returns .printChar s fun s' =>
      s'.streams = { s.streams with
        stdout := s.streams.stdout ++ [(s.reg .rdi).setWidth 8] } ∧
      Keeps printing s s' ∧ OnlyBelow s.mem s'.mem (s.reg .rsp) 8 := by
  have hother : s.reg .rsp ≠ s.reg .rsp + 1 := by bv_omega
  exact RunsIn.runs (printChar_returnsIn (A := fun _ => True) hP hother)

/-- **`print_newline`** writes a newline. -/
theorem printNewline_returns (hP : P.block = blocks sym) :
    P.Returns .printNewline s fun s' =>
      s'.streams = { s.streams with stdout := s.streams.stdout ++ [0xA] } ∧
      Keeps printing s s' ∧ OnlyBelow s.mem s'.mem (s.reg .rsp) 8 := by
  apply Runs.instr hP rfl rfl
  apply Runs.jmp hP rfl
  refine Runs.mono (printChar_returns hP) ?_
  rintro c s' ⟨hc, hrsp, hstreams, hkeeps, hbelow⟩
  exact ⟨hc, hrsp, by simpa using hstreams, by simpa using hkeeps, by simpa using hbelow⟩

end LowLevel.Interface.Assembly
