import LowLevel.Interface.AssemblyNumbers
import LowLevel.Library.X86.Stack
import LowLevel.Program.ParseUintTest

/-!
# The routines of the test program

`parse_uint` of `seminar2/lib.inc` reads the leading digits of a string modulo `2 ^ 64`, and
`print_uint_test` writes the numeral of its argument, which it builds on the stack from the last
digit on. Both leave the registers and the stack of their caller as they were.
-/

set_option autoImplicit false

namespace LowLevel.Interface.ParseUintTest

open LowLevel.Library LowLevel.Library.X86 LowLevel.Library.X86.Memory
open LowLevel.Interface.Assembly (DigitsAt ofNat_mul_ten_add ofNat_div_ten setWidth_mod_ten
  length_numeral_le_twenty)
open LowLevel.Program.ParseUintTest

variable {P : Program Label} {sym : Symbols} {s : State}

/-! ## parse_uint -/

/-- One turn of the loop, on a digit. -/
theorem parseUintLoop_turn (hP : P.block = blocks sym) {v i : ℕ} {b : Byte}
    (hb : s.mem (s.reg .rdi + BitVec.ofNat 64 i) = b) (hdigit : IsDigit b)
    (hclear : 8 ≤ (s.reg .rsp - 1 - (s.reg .rdi + BitVec.ofNat 64 i)).toNat)
    (hrax : s.reg .rax = BitVec.ofNat 64 v) (hrdx : s.reg .rdx = BitVec.ofNat 64 i)
    (hr8 : s.reg .r8 = 10) (hr9 : (s.reg .r9).toNat < 256) :
    P.Runs (.at .parseUintLoop 0) s fun c s' => c = .at .parseUintLoop 0 ∧
      s'.reg .rax = BitVec.ofNat 64 (10 * v + (b.toNat - 0x30)) ∧
      s'.reg .rdx = BitVec.ofNat 64 (i + 1) ∧ (s'.reg .r9).toNat < 256 ∧
      s'.reg .rsp = s.reg .rsp ∧ Keeps [.rax, .rdx, .r9, .rsp] s s' ∧
      OnlyBelow s.mem s'.mem (s.reg .rsp) 8 ∧ s'.streams = s.streams := by
  have hbounds := (isDigit_iff_toInt b).mp hdigit
  have hbelow : OnlyBelow s.mem (s.mem.write64 (s.reg .rsp - 8#64) (s.reg .rdx))
      (s.reg .rsp) 8 := onlyBelow_write64 _ (by bv_omega) (by bv_omega)
  have hsame : s.mem.write64 (s.reg .rsp - 8#64) (s.reg .rdx)
      (s.reg .rdi + s.reg .rdx) = b := by
    rw [hrdx] at hbelow ⊢
    exact (hbelow _ hclear).trans hb
  set w := State.setLow (State.setLow (s.reg .r9) b) (b - 48#8) with hw
  have hr9' : w.toNat = b.toNat - 0x30 := by
    rw [hw, State.toNat_setLow _ _ (by rw [State.toNat_setLow _ _ hr9]; exact b.isLt)]
    unfold IsDigit at hdigit
    bv_omega
  apply Runs.instr hP rfl rfl
  apply Runs.jcc hP rfl (holds_e_ofSub _ _)
  · intro hzero
    simp [hrdx, hb] at hzero
    exact absurd hbounds.1 (by rw [hzero]; decide)
  intro _
  apply Runs.instr hP rfl rfl
  apply Runs.jcc hP rfl (holds_l_ofSub _ _)
  · intro hlow
    simp [hrdx, hb] at hlow
    exact absurd hbounds.1 (Int.not_le.mpr hlow)
  intro _
  apply Runs.instr hP rfl rfl
  apply Runs.jcc hP rfl (holds_g_ofSub _ _)
  · intro hhigh
    simp [hrdx, hb] at hhigh
    exact absurd hbounds.2 (Int.not_le.mpr hhigh)
  intro _
  apply Runs.instr hP rfl rfl
  apply Runs.instr hP rfl rfl
  apply Runs.instr hP rfl rfl
  apply Runs.instr hP rfl rfl
  apply Runs.instr hP rfl rfl
  apply Runs.instr hP rfl rfl
  apply Runs.instr hP rfl rfl
  apply Runs.jmp hP rfl
  refine Runs.done ⟨rfl, ?_, ?_, ?_, ?_, ?_, ?_, rfl⟩
  · rw [← ofNat_mul_ten_add hr9', ← hrax]
    simp [hsame, ← hw, hr8]
  · simp [hrdx, ofNat_add_one]
  · simp [hsame, ← hw, hr9']
    omega
  · simp
  · simp
  · exact hbelow

/-- Behind the last digit the loop ends at the NUL, or at a character that is no digit. -/
theorem parseUintLoop_ends (hP : P.block = blocks sym) {i : ℕ}
    (hend : ¬ IsDigit (s.mem (s.reg .rdi + BitVec.ofNat 64 i)))
    (hrdx : s.reg .rdx = BitVec.ofNat 64 i) :
    P.Runs (.at .parseUintLoop 0) s fun c s' => c = .at .parseUintEnd 0 ∧ s'.reg = s.reg ∧
      s'.mem = s.mem ∧ s'.streams = s.streams := by
  rw [isDigit_iff_toInt] at hend
  apply Runs.instr hP rfl rfl
  apply Runs.jcc hP rfl (holds_e_ofSub _ _)
  · exact fun _ => Runs.done ⟨rfl, rfl, rfl, rfl⟩
  intro _
  apply Runs.instr hP rfl rfl
  apply Runs.jcc hP rfl (holds_l_ofSub _ _)
  · exact fun _ => Runs.done ⟨rfl, rfl, rfl, rfl⟩
  intro hlow
  apply Runs.instr hP rfl rfl
  apply Runs.jcc hP rfl (holds_g_ofSub _ _)
  · exact fun _ => Runs.done ⟨rfl, rfl, rfl, rfl⟩
  intro hhigh
  simp [hrdx] at hlow hhigh
  exact absurd ⟨hlow, hhigh⟩ hend

/-- From digit `i` on, `k` before the end. -/
theorem parseUintLoop_runs (hP : P.block = blocks sym) {ds : List Byte} {k i : ℕ}
    (hk : i + k = ds.length) (hdigits : DigitsAt s.mem (s.reg .rdi) ds)
    (hclear : Clear (s.reg .rdi) (ds.length + 1) (s.reg .rsp) 8)
    (hrax : s.reg .rax = BitVec.ofNat 64 (decimalValue (ds.take i)))
    (hrdx : s.reg .rdx = BitVec.ofNat 64 i) (hr8 : s.reg .r8 = 10)
    (hr9 : (s.reg .r9).toNat < 256) :
    P.Runs (.at .parseUintLoop 0) s fun c s' => c = .at .parseUintEnd 0 ∧
      s'.reg .rax = BitVec.ofNat 64 (decimalValue ds) ∧
      s'.reg .rdx = BitVec.ofNat 64 ds.length ∧ s'.reg .rsp = s.reg .rsp ∧
      Keeps [.rax, .rdx, .r9, .rsp] s s' ∧ OnlyBelow s.mem s'.mem (s.reg .rsp) 8 ∧
      s'.streams = s.streams := by
  induction k generalizing s i with
  | zero =>
      obtain rfl : i = ds.length := by omega
      rw [List.take_length] at hrax
      refine Runs.mono (parseUintLoop_ends hP hdigits.not_isDigit hrdx) ?_
      rintro c s' ⟨rfl, hreg, hmem, hstreams⟩
      refine ⟨rfl, by rw [hreg, hrax], by rw [hreg, hrdx], by rw [hreg], ?_, ?_, hstreams⟩
      · exact fun r _ => by rw [hreg]
      · rw [hmem]
        exact .refl _ _ _
  | succ k ih =>
      have hi : i < ds.length := by omega
      have hclear' : 8 ≤ (s.reg .rsp - 1 - (s.reg .rdi + BitVec.ofNat 64 i)).toNat := by
        apply hclear
        rw [offset_add _ (by have := hdigits.short; omega)]
        omega
      refine Runs.bind (parseUintLoop_turn hP rfl (hdigits.isDigit hi) hclear' hrax hrdx hr8 hr9) ?_
      rintro c s₁ ⟨rfl, hrax₁, hrdx₁, hr9₁, hrsp₁, hkeeps₁, hbelow₁, hstreams₁⟩
      have hrdi₁ : s₁.reg .rdi = s.reg .rdi := hkeeps₁ .rdi (by decide)
      have hr8₁ : s₁.reg .r8 = s.reg .r8 := hkeeps₁ .r8 (by decide)
      have hvalue : decimalValue (ds.take (i + 1)) = 10 * decimalValue (ds.take i) +
          ((s.mem (s.reg .rdi + BitVec.ofNat 64 i)).toNat - 0x30) := by
        rw [List.take_succ_eq_append_getElem hi, decimalValue_concat, ← hdigits.getElem hi]
      refine Runs.mono (ih (i := i + 1) (by omega) ?_ ?_ ?_ hrdx₁ (hr8₁.trans hr8) hr9₁) ?_
      · rw [hrdi₁]
        exact hdigits.of_onlyBelow hbelow₁ hclear
      · rw [hrdi₁, hrsp₁]
        exact hclear
      · rw [hrax₁, hvalue]
      · rintro c s' ⟨rfl, hrax', hrdx', hrsp, hkeeps, hbelow, hstreams⟩
        rw [hrsp₁] at hrsp hbelow
        exact ⟨rfl, hrax', hrdx', hrsp, hkeeps₁.trans hkeeps, hbelow₁.trans hbelow,
          hstreams.trans hstreams₁⟩

/-- **`parse_uint`** reads the digits modulo `2 ^ 64` and counts them. -/
theorem parseUint_returns (hP : P.block = blocks sym) {ds : List Byte}
    (hdigits : DigitsAt s.mem (s.reg .rdi) ds)
    (hclear : Clear (s.reg .rdi) (ds.length + 1) (s.reg .rsp) 8) :
    P.Returns .parseUint s fun s' =>
      s'.reg .rax = BitVec.ofNat 64 (decimalValue ds) ∧
      s'.reg .rdx = BitVec.ofNat 64 ds.length ∧
      Keeps [.rax, .rdx, .r8, .r9, .rsp] s s' ∧ OnlyBelow s.mem s'.mem (s.reg .rsp) 8 ∧
      s'.streams = s.streams := by
  apply Runs.instr hP rfl rfl
  apply Runs.instr hP rfl rfl
  apply Runs.instr hP rfl rfl
  apply Runs.instr hP rfl rfl
  apply Runs.fall hP rfl rfl
  refine Runs.bind (parseUintLoop_runs hP (Nat.zero_add ds.length) (by simpa using hdigits)
    (by simpa using hclear) (by simp [decimalValue]) (by simp) (by simp) (by simp)) ?_
  rintro c s' ⟨rfl, hrax, hrdx, hrsp, hkeeps, hbelow, hstreams⟩
  simp at hrsp hbelow hstreams
  have hkeeps' : Keeps [.rax, .rdx, .r8, .r9, .rsp] s s' := by
    simpa using hkeeps.mono [.rax, .rdx, .r8, .r9, .rsp] (by simp)
  refine Runs.ret hP rfl ⟨?_, by simp [hrsp], by simpa using hrax, by simpa using hrdx,
    by simpa using hkeeps', hbelow, hstreams⟩
  rw [hrsp, hbelow.read64_eq (by norm_num)]

/-! ## print_uint_test -/

/-- The digits that the loop stores, none for zero. -/
def loopDigits (n : ℕ) : List Byte := if n = 0 then [] else numeral n

theorem loopDigits_of_pos {n : ℕ} (hn : 0 < n) :
    loopDigits n = loopDigits (n / 10) ++ [digitChar (n % 10)] := by
  unfold loopDigits
  rw [if_neg hn.ne']
  split_ifs with hlast
  · have hlt : n < 10 := by omega
    rw [numeral_of_lt hlt, Nat.mod_eq_of_lt hlt]
    rfl
  · exact numeral_of_le (by omega)

theorem length_loopDigits_le {n : ℕ} (hn : n < 2 ^ 64) : (loopDigits n).length ≤ 20 := by
  unfold loopDigits
  split_ifs
  · exact Nat.zero_le _
  · exact length_numeral_le_twenty hn

/-- The character that is made of a remainder in `dl`. -/
theorem setWidth_mod_ten_add {n : ℕ} (hn : n < 2 ^ 64) :
    (BitVec.ofNat 64 n % 10#64).setWidth 8 + 48#8 = digitChar (n % 10) := by
  rw [← setWidth_mod_ten hn, BitVec.setWidth_add _ _ (by norm_num)]
  rfl

/-- The digits of `n` are stored below `r13`, and counted in `r12`. -/
theorem printUintTestA_runs (hP : P.block = blocks sym) {n : ℕ} (hn : n < 2 ^ 64)
    (hrax : s.reg .rax = BitVec.ofNat 64 n) (hr15 : s.reg .r15 = 10) :
    P.Runs (.at .printUintTestA 0) s fun c s' => c = .at .printUintTestB 0 ∧
      s'.reg .r13 = s.reg .r13 - BitVec.ofNat 64 (loopDigits n).length ∧
      s'.reg .r12 = s.reg .r12 + BitVec.ofNat 64 (loopDigits n).length ∧
      s'.mem = s.mem.store (s.reg .rsp + s'.reg .r13) (loopDigits n) ∧
      Keeps [.rax, .rdx, .r12, .r13] s s' ∧ s'.streams = s.streams := by
  induction n using Nat.strongRecOn generalizing s with
  | ind n ih =>
      have hzero : BitVec.ofNat 64 n = 0#64 ↔ n = 0 := by
        rw [← BitVec.toNat_inj, BitVec.toNat_ofNat, Nat.mod_eq_of_lt hn]
        rfl
      apply Runs.instr hP rfl rfl
      apply Runs.jcc hP rfl (holds_e_ofLogic _)
      · intro hdone
        simp [hrax, hzero] at hdone
        subst hdone
        refine Runs.done ⟨rfl, ?_, ?_, ?_, ?_, rfl⟩ <;> simp [loopDigits]
      · intro hmore
        simp [hrax, hzero] at hmore
        have hpos : 0 < n := Nat.pos_of_ne_zero hmore
        have hquot := ofNat_div_ten hn
        have hdigit := setWidth_mod_ten_add hn
        apply Runs.instr hP rfl rfl
        apply Runs.div hP rfl (by simp) (by simp [hr15])
        apply Runs.instr hP rfl rfl
        apply Runs.instr hP rfl rfl
        apply Runs.instr hP rfl rfl
        apply Runs.instr hP rfl rfl
        apply Runs.jmp hP rfl
        refine Runs.mono (ih (n / 10) (by omega) (by omega) ?_ ?_) ?_
        · simp [hrax, hr15, hquot]
        · simp [hr15]
        · rintro c s' ⟨rfl, hr13, hr12, hmem, hkeeps, hstreams⟩
          simp [hrax, hr15, hdigit] at hr13 hr12 hmem hstreams
          refine ⟨rfl, ?_, ?_, ?_, by simpa using hkeeps, hstreams⟩
          · rw [hr13, loopDigits_of_pos hpos, List.length_append, List.length_singleton,
              ← ofNat_add_one]
            bv_omega
          · rw [hr12, loopDigits_of_pos hpos, List.length_append, List.length_singleton,
              ← ofNat_add_one]
            bv_omega
          · rw [hmem, loopDigits_of_pos hpos]
            apply store_append
            · rw [hr13]
              bv_omega
            · have hlen := length_loopDigits_le (show n / 10 < 2 ^ 64 by omega)
              rw [List.length_singleton]
              omega

/-- **The numeral** is built at the end of the 32 bytes at the stack pointer. -/
theorem printUintTest_builds (hP : P.block = blocks sym) {n : ℕ} (hn : n < 2 ^ 64)
    (hrax : s.reg .rax = BitVec.ofNat 64 n) (hr12 : s.reg .r12 = 0) (hr13 : s.reg .r13 = 32)
    (hr15 : s.reg .r15 = 10) :
    P.Runs (.at .printUintTestA 0) s fun c s' => c = .at .printUintTestC 0 ∧
      s'.reg .r13 = 32 - BitVec.ofNat 64 (numeral n).length ∧
      s'.reg .r12 = BitVec.ofNat 64 (numeral n).length ∧
      s'.mem = s.mem.store (s.reg .rsp + s'.reg .r13) (numeral n) ∧
      Keeps [.rax, .rdx, .r12, .r13] s s' ∧ s'.streams = s.streams := by
  refine Runs.bind (printUintTestA_runs hP hn hrax hr15) ?_
  rintro c s₁ ⟨rfl, hr13₁, hr12₁, hmem, hkeeps, hstreams⟩
  have hrsp : s₁.reg .rsp = s.reg .rsp := hkeeps .rsp (by decide)
  rw [hr13] at hr13₁
  rw [hr12, BitVec.ofNat_eq_ofNat, BitVec.zero_add] at hr12₁
  apply Runs.instr hP rfl rfl
  apply Runs.jcc hP rfl (holds_ne_ofLogic _)
  · -- there is a digit, so the number is not zero
    intro hsome
    simp [hr12₁] at hsome
    have hn0 : n ≠ 0 := by
      rintro rfl
      exact hsome rfl
    rw [loopDigits, if_neg hn0] at hr13₁ hr12₁ hmem
    exact Runs.done ⟨rfl, hr13₁, hr12₁, hmem, hkeeps, hstreams⟩
  · intro hnone
    have hlen := length_loopDigits_le hn
    simp [hr12₁] at hnone
    have hnil : (loopDigits n).length = 0 := by
      have hcount := congrArg BitVec.toNat hnone
      rwa [BitVec.toNat_ofNat, Nat.mod_eq_of_lt (by omega)] at hcount
    have hn0 : n = 0 := by
      by_contra hn0
      rw [loopDigits, if_neg hn0] at hnil
      exact numeral_ne_nil n (List.length_eq_zero_iff.mp hnil)
    subst hn0
    have hnumeral : numeral 0 = [0x30] := rfl
    simp [loopDigits] at hr13₁ hmem
    apply Runs.instr hP rfl rfl
    apply Runs.instr hP rfl rfl
    apply Runs.instr hP rfl rfl
    apply Runs.fall hP rfl rfl
    rw [hnumeral]
    refine Runs.done ⟨rfl, ?_, ?_, ?_, by simpa using hkeeps, hstreams⟩
    · simp [hr13₁]
    · simp [hr12₁, loopDigits]
    · simp [hmem, hrsp]

/-- What `print_uint_test` saves, and its return address. -/
def savedRegisters (s : State) : List Word :=
  [s.reg .r15, s.reg .r13, s.reg .r12, s.mem.read64 (s.reg .rsp)]

/-- The registers are saved, and 32 bytes made free. -/
theorem printUintTest_enters (hP : P.block = blocks sym) :
    P.Runs (.at .printUintTest 0) s fun c s' => c = .at .printUintTestA 0 ∧
      s'.reg .rax = s.reg .rdi ∧ s'.reg .r12 = 0 ∧ s'.reg .r13 = 32 ∧ s'.reg .r15 = 10 ∧
      s'.reg .rsp = s.reg .rsp - 56 ∧ Keeps [.rax, .r12, .r13, .r15, .rsp] s s' ∧
      Stacked s'.mem (s.reg .rsp - 24) (savedRegisters s) ∧
      OnlyBelow s.mem s'.mem (s.reg .rsp) 56 ∧ s'.streams = s.streams := by
  apply Runs.instr hP rfl rfl
  apply Runs.instr hP rfl rfl
  apply Runs.instr hP rfl rfl
  apply Runs.instr hP rfl rfl
  apply Runs.instr hP rfl rfl
  apply Runs.instr hP rfl rfl
  apply Runs.instr hP rfl rfl
  apply Runs.instr hP rfl rfl
  apply Runs.instr hP rfl rfl
  apply Runs.instr hP rfl rfl
  apply Runs.instr hP rfl rfl
  apply Runs.fall hP rfl rfl
  refine Runs.done ⟨rfl, by simp, by simp, by simp, by simp, ?_, by simp, ?_, ?_, rfl⟩
  · simp
    bv_omega
  · have hret : Stacked s.mem (s.reg .rsp) [s.mem.read64 (s.reg .rsp)] := ⟨rfl, trivial⟩
    have hsaved := ((hret.push (s.reg .r12) (by simp)).push (s.reg .r13) (by simp)).push
      (s.reg .r15) (by simp)
    have hfree := (((hsaved.push 0 (by simp)).push 0 (by simp)).push 0 (by simp)).push 0 (by simp)
    have hstack := Stacked.drop [0, 0, 0, 0] hfree
    simp at hstack ⊢
    rwa [show s.reg .rsp - 24#64 = s.reg .rsp - 8#64 - 8#64 - 8#64 - 8#64 - 8#64 - 8#64 - 8#64 +
      32#64 by bv_omega]
  · simp
    refine ((((((onlyBelow_write64 _ ?_ ?_).trans (onlyBelow_write64 _ ?_ ?_)).trans
      (onlyBelow_write64 _ ?_ ?_)).trans (onlyBelow_write64 _ ?_ ?_)).trans
      (onlyBelow_write64 _ ?_ ?_)).trans (onlyBelow_write64 _ ?_ ?_)).trans
      (onlyBelow_write64 _ ?_ ?_) <;> bv_omega

/-- The numeral is written, and the saved registers are taken back. -/
theorem printUintTestC_runs (hP : P.block = blocks sym) {r15 r13 r12 ret : Word} {ds : List Byte}
    (hds : s.mem.bytes (s.reg .rsp + s.reg .r13) ds.length = ds)
    (hr12 : s.reg .r12 = BitVec.ofNat 64 ds.length) (hshort : ds.length < 2 ^ 64)
    (hstack : Stacked s.mem (s.reg .rsp + 32) [r15, r13, r12, ret]) :
    P.Runs (.at .printUintTestC 0) s fun c s' => c = P.goto ret ∧
      s'.reg .rsp = s.reg .rsp + 64 ∧ s'.reg .r15 = r15 ∧ s'.reg .r13 = r13 ∧ s'.reg .r12 = r12 ∧
      Keeps [.rax, .rcx, .rdx, .rsi, .rdi, .r11, .rsp, .r12, .r13, .r15] s s' ∧
      s'.mem = s.mem ∧
      s'.streams = { s.streams with stdout := s.streams.stdout ++ ds } := by
  obtain ⟨hpop₁, hpop₂, hpop₃, hret, -⟩ := hstack
  have hlen : (BitVec.ofNat 64 ds.length).toNat = ds.length := by
    rw [BitVec.toNat_ofNat, Nat.mod_eq_of_lt hshort]
  apply Runs.instr hP rfl rfl
  apply Runs.instr hP rfl rfl
  apply Runs.instr hP rfl rfl
  apply Runs.instr hP rfl rfl
  apply Runs.write hP rfl (by simp) (by simp)
  intro s₁ hstreams hmem hkeeps
  have hrsp := hkeeps .rsp (by decide)
  simp [hr12, -BitVec.toNat_ofNat, hlen, hds] at hstreams hmem hrsp
  have hkeeps' : Keeps [.rax, .rcx, .rdx, .rsi, .rdi, .r11, .rsp, .r12, .r13, .r15] s s₁ := by
    have h₁ := hkeeps.mono [.rax, .rcx, .rdx, .rsi, .rdi, .r11, .rsp, .r12, .r13, .r15] (by simp)
    simpa using h₁
  apply Runs.instr hP rfl rfl
  apply Runs.instr hP rfl rfl
  apply Runs.instr hP rfl rfl
  apply Runs.instr hP rfl rfl
  refine Runs.ret hP rfl ⟨?_, ?_, ?_, ?_, ?_, by simpa using hkeeps', hmem, hstreams⟩
  · rw [← hret]
    simp [hrsp, hmem]
  · simp [hrsp]
    bv_omega
  · rw [← hpop₁]
    simp [hrsp, hmem]
  · rw [← hpop₂]
    simp [hrsp, hmem]
  · rw [← hpop₃]
    simp [hrsp, hmem]

/-- **`print_uint_test`** writes the numeral of its argument. -/
theorem printUintTest_returns (hP : P.block = blocks sym) {n : ℕ} (hn : n < 2 ^ 64)
    (hrdi : s.reg .rdi = BitVec.ofNat 64 n) :
    P.Returns .printUintTest s fun s' =>
      s'.streams = { s.streams with stdout := s.streams.stdout ++ numeral n } ∧
      Keeps [.rax, .rcx, .rdx, .rsi, .rdi, .r11, .rsp] s s' ∧
      OnlyBelow s.mem s'.mem (s.reg .rsp) 56 := by
  have hlen := length_numeral_le_twenty hn
  refine Runs.bind (printUintTest_enters hP) ?_
  rintro c s₁ ⟨rfl, hrax₁, hr12₁, hr13₁, hr15₁, hrsp₁, hkeeps₁, hstack₁, hbelow₁, hstreams₁⟩
  refine Runs.bind (printUintTest_builds hP hn (hrax₁.trans hrdi) hr12₁ hr13₁ hr15₁) ?_
  rintro c s₂ ⟨rfl, hr13₂, hr12₂, hmem₂, hkeeps₂, hstreams₂⟩
  have hrsp₂ : s₂.reg .rsp = s.reg .rsp - 56 := (hkeeps₂ .rsp (by decide)).trans hrsp₁
  -- the numeral is in the 32 bytes, below what was saved
  set a := s.reg .rsp - 24 - BitVec.ofNat 64 (numeral n).length with ha
  have haddr : s₂.reg .rsp + s₂.reg .r13 = a := by
    rw [hrsp₂, hr13₂]
    bv_omega
  rw [hrsp₁, ← hrsp₂, haddr] at hmem₂
  have hbelow₂ : OnlyBelow s₁.mem s₂.mem (s.reg .rsp - 24) 32 := by
    rw [hmem₂]
    exact onlyBelow_store _ (by bv_omega) (by bv_omega)
  have hstack₂ := hstack₁.of_onlyBelow hbelow₂ (by simp [savedRegisters])
  have hbytes : s₂.mem.bytes a (numeral n).length = numeral n := by
    rw [hmem₂]
    exact bytes_store (by omega)
  have hall : OnlyBelow s.mem s₂.mem (s.reg .rsp) 56 :=
    hbelow₁.trans (hbelow₂.of_lower (by bv_omega))
  rw [← haddr] at hbytes
  rw [show s.reg .rsp - 24 = s₂.reg .rsp + 32 by rw [hrsp₂]; bv_omega] at hstack₂
  refine Runs.mono (printUintTestC_runs hP hbytes hr12₂ (by omega) hstack₂) ?_
  rintro c s₃ ⟨rfl, hrsp₃, hr15₃, hr13₃, hr12₃, hkeeps₃, hmem₃, hstreams₃⟩
  refine ⟨rfl, ?_, ?_, fun r hr => ?_, ?_⟩
  · rw [hrsp₃, hrsp₂]
    bv_omega
  · rw [hstreams₃, hstreams₂, hstreams₁]
  · by_cases hsaved : r ∈ [Reg.r15, .r13, .r12]
    · simp only [List.mem_cons, List.not_mem_nil, or_false] at hsaved
      rcases hsaved with rfl | rfl | rfl
      · exact hr15₃
      · exact hr13₃
      · exact hr12₃
    · have hkept : r ∉ [Reg.rax, .rcx, .rdx, .rsi, .rdi, .r11, .rsp, .r12, .r13, .r15] := by
        simp_all
      rw [hkeeps₃ r hkept, hkeeps₂ r (by simp_all), hkeeps₁ r (by simp_all)]
  · rw [hmem₃]
    exact hall

/-! ## _start -/

/-- The registers that are filled, and the stack pointer. -/
abbrev filled : List Reg := [.rdi, .rsi, .rax, .rcx, .rdx, .r8, .r9, .r10, .r11, .rsp]

/-- The registers are filled, and those to keep are saved. -/
theorem start_enters (hP : P.block = blocks sym) :
    P.Runs (.at .start 0) s fun c s' => c = .at .start 15 ∧ s'.reg .rsp = s.reg .rsp - 48 ∧
      Keeps filled s s' ∧
      Stacked s'.mem (s.reg .rsp - 48) (keptRegisters.map s.reg) ∧
      OnlyBelow s.mem s'.mem (s.reg .rsp) 48 ∧ s'.streams = s.streams := by
  apply Runs.instr hP rfl rfl
  apply Runs.instr hP rfl rfl
  apply Runs.instr hP rfl rfl
  apply Runs.instr hP rfl rfl
  apply Runs.instr hP rfl rfl
  apply Runs.instr hP rfl rfl
  apply Runs.instr hP rfl rfl
  apply Runs.instr hP rfl rfl
  apply Runs.instr hP rfl rfl
  apply Runs.instr hP rfl rfl
  apply Runs.instr hP rfl rfl
  apply Runs.instr hP rfl rfl
  apply Runs.instr hP rfl rfl
  apply Runs.instr hP rfl rfl
  apply Runs.instr hP rfl rfl
  refine Runs.done ⟨rfl, ?_, by simp, ?_, ?_, rfl⟩
  · simp
    bv_omega
  · have hnone : Stacked s.mem (s.reg .rsp) [] := trivial
    have hsaved := (((((hnone.push (s.reg .rbx) (by simp)).push (s.reg .rbp) (by simp)).push
      (s.reg .r12) (by simp)).push (s.reg .r13) (by simp)).push (s.reg .r14) (by simp)).push
      (s.reg .r15) (by simp)
    simp [keptRegisters] at hsaved ⊢
    rwa [show s.reg .rsp - 48#64 = s.reg .rsp - 8#64 - 8#64 - 8#64 - 8#64 - 8#64 - 8#64 by
      bv_omega]
  · simp
    refine (((((onlyBelow_write64 _ ?_ ?_).trans (onlyBelow_write64 _ ?_ ?_)).trans
      (onlyBelow_write64 _ ?_ ?_)).trans (onlyBelow_write64 _ ?_ ?_)).trans
      (onlyBelow_write64 _ ?_ ?_)).trans (onlyBelow_write64 _ ?_ ?_) <;> bv_omega

/-- A register that is as it was saved. -/
theorem checkKept_runs (hP : P.block = blocks sym) {r : Reg} {i : ℕ}
    (hcode : ∀ k instr, (checkKept r)[k]? = some instr →
      (blocks sym .start).code[i + k]? = some instr)
    (hr : r ≠ .rsp) (hkept : s.mem.read64 (s.reg .rsp) = s.reg r) :
    P.Runs (.at .start i) s fun c s' => c = .at .start (i + 3) ∧ s'.reg .rsp = s.reg .rsp + 8 ∧
      Keeps [.rsp] s s' ∧ s'.mem = s.mem ∧ s'.streams = s.streams := by
  apply Runs.instr hP (hcode 0 _ rfl) rfl
  apply Runs.jcc hP (hcode 1 _ rfl) (holds_ne_ofSub _ _)
  · intro hother
    exact absurd (by simpa using hkept.symm) hother
  intro _
  apply Runs.instr hP (hcode 2 _ rfl) rfl
  refine Runs.done ⟨rfl, by simp [hr.symm], fun r' hr' => ?_, rfl, rfl⟩
  have hne : r' ≠ .rsp := by simpa using hr'
  by_cases heq : r' = r
  · simp [heq, hkept]
  · simp [heq, hne]

/-- **The comparison** of registers that are as they were saved comes to its end. -/
theorem checksKept_runs (hP : P.block = blocks sym) (rs : List Reg) {i : ℕ}
    (hcode : rs.flatMap checkKept <+: (blocks sym .start).code.drop i) (hrs : .rsp ∉ rs)
    (hstack : Stacked s.mem (s.reg .rsp) (rs.map s.reg)) :
    P.Runs (.at .start i) s fun c s' => c = .at .start (i + 3 * rs.length) ∧
      s'.reg .rsp = s.reg .rsp + BitVec.ofNat 64 (8 * rs.length) ∧ Keeps [.rsp] s s' ∧
      s'.mem = s.mem ∧ s'.streams = s.streams := by
  induction rs generalizing s i with
  | nil => exact Runs.done ⟨rfl, by simp, .refl _ _, rfl, rfl⟩
  | cons r rs ih =>
      obtain ⟨rest, hrest⟩ := hcode
      obtain ⟨hkept, hstack'⟩ := hstack
      have hr : r ≠ .rsp := fun heq => hrs (heq ▸ List.mem_cons_self)
      have hrs' : .rsp ∉ rs := fun hmem => hrs (List.mem_cons_of_mem r hmem)
      have hnext : rs.flatMap checkKept <+: (blocks sym .start).code.drop (i + 3) := by
        refine ⟨rest, ?_⟩
        rw [← List.drop_drop, ← hrest]
        rfl
      refine Runs.bind (checkKept_runs hP (fun k instr hk => ?_) hr hkept) ?_
      · obtain ⟨hlt, -⟩ := List.getElem?_eq_some_iff.mp hk
        rw [← List.getElem?_drop, ← hrest, List.flatMap_cons, List.append_assoc,
          List.getElem?_append_left hlt, hk]
      rintro c s₁ ⟨rfl, hrsp₁, hkeeps₁, hmem₁, hstreams₁⟩
      have hsame : rs.map s₁.reg = rs.map s.reg := by
        refine List.map_congr_left fun r' hr' => hkeeps₁ r' ?_
        rw [List.mem_singleton]
        rintro rfl
        exact hrs' hr'
      refine Runs.mono (ih hnext hrs' (by rw [hmem₁, hrsp₁, hsame]; exact hstack')) ?_
      rintro c s' ⟨rfl, hrsp, hkeeps, hmem, hstreams⟩
      refine ⟨by rw [List.length_cons]; ring_nf, ?_, hkeeps₁.trans hkeeps, hmem.trans hmem₁,
        hstreams.trans hstreams₁⟩
      rw [hrsp, hrsp₁, List.length_cons]
      bv_omega

/-- **The registers that are filled** hide nothing from `parse_uint`, and those that are compared
are as they were: the program comes to `continue` with what `parse_uint` returned. -/
theorem start_runs (hP : P.block = blocks sym) {ds : List Byte}
    (hdigits : DigitsAt s.mem sym.input ds)
    (hclear : Clear sym.input (ds.length + 1) (s.reg .rsp) 64) :
    P.Runs (.at .start 0) s fun c s' => c = .at .continue 0 ∧
      s'.reg .rax = BitVec.ofNat 64 (decimalValue ds) ∧
      s'.reg .rdx = BitVec.ofNat 64 ds.length ∧ s'.streams = s.streams := by
  refine Runs.bind (start_enters hP) ?_
  rintro c s₁ ⟨rfl, hrsp₁, hkeeps₁, hstack₁, hbelow₁, hstreams₁⟩
  have hpush : OnlyBelow s.mem (s₁.mem.write64 (s.reg .rsp - 48 - 8) (P.addr .start 17))
      (s.reg .rsp) 56 :=
    (hbelow₁.mono (by norm_num)).trans (onlyBelow_write64 _ (by bv_omega) (by bv_omega))
  apply Runs.instr hP rfl rfl
  apply Runs.callReturns hP rfl (parseUint_returns hP (show DigitsAt _ _ ds from ?_) ?_)
  · rintro s₂ hrsp₂ ⟨hrax₂, hrdx₂, hkeeps₂, hbelow₂, hstreams₂⟩
    simp [hrsp₁] at hrsp₂ hbelow₂ hstreams₂
    have hbelow : OnlyBelow s₁.mem s₂.mem (s.reg .rsp - 48) 16 :=
      (onlyBelow_write64 _ (by bv_omega) (by bv_omega)).trans (hbelow₂.of_lower (by bv_omega))
    have hkeeps : Keeps filled s s₂ := by
      have h₂ := hkeeps₂.mono filled (by simp)
      exact hkeeps₁.trans (by simpa using h₂)
    have hsame : keptRegisters.map s₂.reg = keptRegisters.map s.reg := by
      refine List.map_congr_left fun r hr => hkeeps r ?_
      revert r
      decide
    have hstack₂ : Stacked s₂.mem (s₂.reg .rsp) (keptRegisters.map s₂.reg) := by
      rw [hrsp₂, hsame]
      exact hstack₁.of_onlyBelow hbelow (by simp [keptRegisters])
    refine Runs.bind (checksKept_runs hP keptRegisters ⟨[.jmp .continue], rfl⟩ (by decide)
      hstack₂) ?_
    rintro c s₃ ⟨rfl, -, hkeeps₃, -, hstreams₃⟩
    apply Runs.jmp hP rfl
    refine Runs.done ⟨rfl, ?_, ?_, ?_⟩
    · rw [hkeeps₃ .rax (by decide), hrax₂]
    · rw [hkeeps₃ .rdx (by decide), hrdx₂]
    · rw [hstreams₃, hstreams₂, hstreams₁]
  · simp [hrsp₁]
    exact hdigits.of_onlyBelow hpush (hclear.mono (by norm_num))
  · simp [hrsp₁]
    exact hclear.of_lower (by bv_omega)

end LowLevel.Interface.ParseUintTest
