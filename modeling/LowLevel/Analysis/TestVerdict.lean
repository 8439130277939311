import LowLevel.Interface.ParseUintSteps
import LowLevel.Library.X86.Characters

/-!
# What the test of `parse_uint` says

Every program that `test_uint.py` generates, for an input that stays one string between the quotes
it is pasted into, prints the leading number of its input modulo `2 ^ 64` and exits with its length
modulo 256, and does not complain about the calling convention. So the test passes for every such
input but those whose number or length is too large to be told.
-/

set_option autoImplicit false

namespace LowLevel.Analysis

open LowLevel.Library LowLevel.Library.X86 LowLevel.Library.X86.Memory
open LowLevel.Interface.Assembly (digitsAt_leadingDigits)
open LowLevel.Interface.ParseUintTest LowLevel.Program.ParseUintTest

variable {P : Program Label} {sym : Symbols} {s : State} {bs : List Byte}

/-- The number is printed, and the length is the exit status. -/
theorem continue_runs (hP : P.block = blocks sym) {n k : ℕ}
    (hrax : s.reg .rax = BitVec.ofNat 64 n) (hrdx : s.reg .rdx = BitVec.ofNat 64 k) :
    P.Runs (.at .continue 0) s fun c s' => c = .exited (k % 256) ∧
      s'.streams = { s.streams with stdout := s.streams.stdout ++ numeral (n % 2 ^ 64) } := by
  have hrax' : s.reg .rax = BitVec.ofNat 64 (n % 2 ^ 64) := by
    rw [hrax]
    bv_omega
  apply Runs.instr hP rfl rfl
  apply Runs.instr hP rfl rfl
  apply Runs.callReturns hP rfl (printUintTest_returns hP (n := n % 2 ^ 64)
    (Nat.mod_lt _ (by norm_num)) (by simpa using hrax'))
  rintro s₁ hrsp ⟨hstreams, -, hbelow⟩
  simp at hrsp hstreams hbelow
  -- the length was saved above what the routine stores
  have hsaved : s₁.mem.read64 (s.reg .rsp - 8#64) = BitVec.ofNat 64 k := by
    rw [(hbelow.of_lower (p := s.reg .rsp - 8#64) (k := 64) (by bv_omega)).read64_eq (by norm_num),
      read64_write64_of_le (by bv_omega) (by bv_omega), read64_write64, hrdx]
  apply Runs.instr hP rfl rfl
  apply Runs.instr hP rfl rfl
  refine Runs.exit hP rfl (by simp [exitNumber]) ⟨?_, hstreams⟩
  simp [hrsp, hsaved]

/-- The whole program: what it prints, and its exit status. -/
theorem testProgram_runs (hP : P.block = blocks sym) (hinput : s.mem.CString sym.input bs)
    (hclear : Clear sym.input (bs.length + 1) (s.reg .rsp) 64) :
    P.Runs (.at .start 0) s fun c s' => c = .exited ((leadingDigits bs).length % 256) ∧
      s'.streams = { s.streams with
        stdout := s.streams.stdout ++ numeral (decimalValue (leadingDigits bs) % 2 ^ 64) } := by
  have hlen := length_leadingDigits_le bs
  refine Runs.bind (start_runs hP (digitsAt_leadingDigits hinput) (hclear.of_le (by omega))) ?_
  rintro c s₁ ⟨rfl, hrax, hrdx, hstreams⟩
  rw [← hstreams]
  exact continue_runs hP hrax hrdx

theorem startsUint_eq (bs : List Byte) :
    startsUint bs = (decimalValue (leadingDigits bs), (leadingDigits bs).length) := by
  unfold startsUint
  split
  · next hnone => rw [hnone]; rfl
  · rfl

theorem int_numeral (n : ℕ) : int (numeral n) = some n := by
  have hdigits : ∀ b ∈ numeral n, IsDigit b := fun b hb => isDigit_of_mem_numeral hb
  have hint : (!(numeral n).isEmpty && (numeral n).all fun b => IsDigit b) = true := by
    simpa [numeral_ne_nil] using hdigits
  rw [int, if_pos hint, decimalValue_numeral]

/-- An input that the generator can paste is a string in memory. -/
theorem cString_of_inputData {data : List Byte} (hdata : inputData bs = some data)
    (hheld : s.mem.Holds sym.input data) (hshort : bs.length < 2 ^ 64) :
    s.mem.CString sym.input bs := by
  rw [inputData, Option.ite_none_right_eq_some, Option.some.injEq, List.all_eq_true] at hdata
  obtain ⟨hplain, rfl⟩ := hdata
  refine ⟨hheld, fun b hb hzero => ?_, hshort⟩
  have hnul := hplain b hb
  rw [hzero] at hnul
  exact absurd hnul (by decide)

/-- **The verdict**: the program for any input that the generator can paste into it ends without a
complaint, and the checker of the test accepts what it printed and its exit status exactly when the
number that the input starts with is below `2 ^ 64` and has fewer than 256 digits. -/
theorem test_passes_iff (hP : P.block = blocks sym) {data : List Byte}
    (hdata : inputData bs = some data) (hheld : s.mem.Holds sym.input data)
    (hclear : Clear sym.input (bs.length + 1) (s.reg .rsp) 64) (hempty : s.streams.stdout = []) :
    P.Runs (.at .start 0) s fun c s' => s'.streams.stderr = s.streams.stderr ∧
      ∃ r, c = .exited r ∧ (checker bs s'.streams.stdout r ↔
        (startsUint bs).1 < 2 ^ 64 ∧ (startsUint bs).2 < 256) := by
  have hroom := hclear.add_le (Nat.succ_pos _) (by norm_num)
  have hinput := cString_of_inputData hdata hheld (by omega)
  refine Runs.mono (testProgram_runs hP hinput hclear) ?_
  rintro c s' ⟨rfl, hstreams⟩
  refine ⟨by rw [hstreams], _, rfl, ?_⟩
  rw [hstreams, hempty, List.nil_append, checker, startsUint_eq, int_numeral, Option.some.injEq]
  dsimp only
  rw [eq_comm, Nat.mod_eq_iff_lt (by norm_num), Nat.mod_eq_iff_lt (by norm_num)]

/-- The input `12 apples`. -/
def apples : List Byte := [0x31, 0x32, 0x20, 0x61, 0x70, 0x70, 0x6c, 0x65, 0x73]

/-- The program for this input when it starts. -/
def startedApples : State := .fresh (Memory.store (fun _ => 0) 4096 (apples ++ [0])) (-16) []

/-- The test passes for this input. -/
theorem test_passes_iff_apples : (inOrder ⟨4096, 8192⟩).Runs (.at .start 0) startedApples
    fun c s' => ∃ r, c = .exited r ∧ checker apples s'.streams.stdout r := by
  have hinput : startedApples.mem.CString 4096 apples := .of_store (by decide) (by decide)
  have hdata : inputData apples = some (apples ++ [0]) := rfl
  have hclear : Clear 4096 (apples.length + 1) (startedApples.reg .rsp) 64 := by
    intro x hx
    have hrsp : startedApples.reg .rsp = -16 := rfl
    have hlen : apples.length = 9 := rfl
    rw [hrsp]
    bv_omega
  obtain ⟨c, s', hsteps, -, r, hc, hpasses⟩ :=
    test_passes_iff (P := inOrder ⟨4096, 8192⟩) rfl hdata hinput.holds hclear rfl
  exact ⟨c, s', hsteps, r, hc, hpasses.mpr (by decide)⟩

end LowLevel.Analysis
