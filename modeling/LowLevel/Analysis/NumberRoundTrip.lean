import LowLevel.Interface.AssemblyNumbers

/-!
# Parsing a printed number

`parse_uint` undoes `print_uint` and `parse_int` undoes `print_int`, on every quadword. The
multiplications of `parse_uint` are modulo `2 ^ 64`, and so is the negation in `parse_int`,
which is what makes the least integer come back.
-/

set_option autoImplicit false

namespace LowLevel.Analysis

open LowLevel.Library LowLevel.Library.X86 LowLevel.Library.X86.Memory
open LowLevel.Interface.Assembly LowLevel.Program.Assembly

variable {P : Program Label} {sym : Symbols} {n : Word} {bs : List Byte}

/-- The routine writes `bs` when it is called with `n`. -/
def Prints (P : Program Label) (f : Label) (n : Word) (bs : List Byte) : Prop :=
  ∀ s : State, s.reg .rdi = n → P.Returns f s fun s' =>
    s'.streams = { s.streams with stdout := s.streams.stdout ++ bs }

/-- The routine returns with `bs` in the 32 bytes that were below the stack pointer. -/
def BuildsOnStack (P : Program Label) (f : Label) (n : Word) (bs : List Byte) : Prop :=
  ∀ s : State, s.reg .rdi = n → P.Returns f s fun s' =>
    ∃ a, s'.mem.Holds a bs ∧ bs.length ≤ (s.reg .rsp - a).toNat ∧ (s.reg .rsp - a).toNat ≤ 32

/-- The routine returns `n` and the length of `bs` when it is called with the address of `bs`,
with any character behind it that is no digit. The string is not among the 40 bytes below the
stack pointer, which the routine uses. -/
def Parses (P : Program Label) (f : Label) (bs : List Byte) (n : Word) : Prop :=
  ∀ (s : State) (t : Byte), ¬ IsDigit t → s.mem.Holds (s.reg .rdi) (bs ++ [t]) →
    Clear (s.reg .rdi) (bs.length + 1) (s.reg .rsp) 40 → P.Returns f s fun s' =>
      s'.reg .rax = n ∧ s'.reg .rdx = BitVec.ofNat 64 bs.length

/-- A numeral in memory, as the parser finds it. -/
theorem digitsAt_numeral {m : Memory} {a : Word} {t : Byte} {k : ℕ} (hk : k < 2 ^ 64)
    (ht : ¬ IsDigit t) (hholds : m.Holds a (numeral k ++ [t])) : DigitsAt m a (numeral k) :=
  ⟨⟨t, ht, hholds⟩, fun _ hb => isDigit_of_mem_numeral hb,
    (length_numeral_le_twenty hk).trans_lt (by norm_num)⟩

theorem prints_printUint (hP : P.block = blocks sym) :
    Prints P .printUint n (numeral n.toNat) := by
  intro s hrdi
  refine Runs.mono (printUint_returns hP n.isLt (by simpa using hrdi)) ?_
  rintro c s' ⟨hc, hrsp, hstreams, -⟩
  exact ⟨hc, hrsp, hstreams⟩

/-- The numeral is built below the stack pointer. -/
theorem buildsOnStack_printUint (hP : P.block = blocks sym) :
    BuildsOnStack P .printUint n (numeral n.toNat) := by
  intro s hrdi
  refine Runs.mono (printUint_returns hP n.isLt (by simpa using hrdi)) ?_
  rintro c s' ⟨hc, hrsp, -, ⟨a, hstr, hoffset, hroom⟩, -⟩
  exact ⟨hc, hrsp, a, hstr.bytes_eq, by omega, by omega⟩

theorem parses_parseUint (hP : P.block = blocks sym) :
    Parses P .parseUint (numeral n.toNat) n := by
  intro s t ht hholds hclear
  refine Runs.mono (parseUint_returns hP (digitsAt_numeral n.isLt ht hholds)
    (hclear.mono (by norm_num))) ?_
  rintro c s' ⟨hc, hrsp, hrax, hrdx, -⟩
  rw [decimalValue_numeral, BitVec.ofNat_toNat, BitVec.setWidth_eq] at hrax
  exact ⟨hc, hrsp, hrax, hrdx⟩

theorem prints_printInt (hP : P.block = blocks sym) :
    Prints P .printInt n (signedNumeral n.toInt) := by
  rintro s rfl
  refine Runs.mono (printInt_returns hP) ?_
  rintro c s' ⟨hc, hrsp, hstreams, -⟩
  exact ⟨hc, hrsp, hstreams⟩

theorem parses_parseInt (hP : P.block = blocks sym) :
    Parses P .parseInt (signedNumeral n.toInt) n := by
  intro s t ht hholds hclear
  have habs : n.toInt.natAbs < 2 ^ 64 := by
    have hlow := BitVec.le_toInt n
    have hhigh := BitVec.toInt_lt (x := n)
    omega
  unfold signedNumeral at hholds hclear ⊢
  by_cases hneg : n.toInt < 0
  · rw [if_pos hneg] at hholds hclear ⊢
    have hlen := length_numeral_le_twenty habs
    rw [List.cons_append, ← List.singleton_append, holds_append] at hholds
    have hminus : s.mem (s.reg .rdi) = 0x2d := by
      simpa using hholds.1.getElem (by norm_num) (i := 0) (by norm_num)
    have hclear' : Clear (s.reg .rdi + 1) ((numeral n.toInt.natAbs).length + 1) (s.reg .rsp) 40 :=
      Clear.append (i := 1) (by rwa [Nat.add_comm]) (by omega)
    refine Runs.mono (parseInt_returns_neg hP (numeral_ne_nil _) hminus
      (digitsAt_numeral habs ht hholds.2) hclear') ?_
    rintro c s' ⟨hc, hrsp, hrax, hrdx, -⟩
    refine ⟨hc, hrsp, ?_, hrdx⟩
    rw [hrax, decimalValue_numeral, ← toNat_neg_of_neg hneg, BitVec.ofNat_toNat,
      BitVec.setWidth_eq, BitVec.neg_neg]
  · rw [if_neg hneg] at hholds hclear ⊢
    refine Runs.mono (parseInt_returns hP (numeral_ne_nil _) (digitsAt_numeral habs ht hholds)
      (hclear.mono (by norm_num))) ?_
    rintro c s' ⟨hc, hrsp, hrax, hrdx, -⟩
    refine ⟨hc, hrsp, ?_, hrdx⟩
    rw [hrax, decimalValue_numeral, ← toNat_of_nonneg (Int.not_lt.mp hneg), BitVec.ofNat_toNat,
      BitVec.setWidth_eq]

/-- **Parsing undoes printing**, unsigned and signed. -/
theorem parsing_undoes_printing (hP : P.block = blocks sym) (n : Word) :
    (IsNumeral (numeral n.toNat) n.toNat ∧ Prints P .printUint n (numeral n.toNat) ∧
      BuildsOnStack P .printUint n (numeral n.toNat) ∧
      Parses P .parseUint (numeral n.toNat) n) ∧
    (Prints P .printInt n (signedNumeral n.toInt) ∧
      Parses P .parseInt (signedNumeral n.toInt) n) :=
  ⟨⟨isNumeral_numeral _, prints_printUint hP, buildsOnStack_printUint hP, parses_parseUint hP⟩,
    prints_printInt hP, parses_parseInt hP⟩

/-- The least integer: its numeral is written, and read back from address 4096. -/
theorem parsing_undoes_printing_least :
    (inOrder ⟨0, 0, 0, 0⟩).Returns .printInt
        ((State.fresh (fun _ => 0) 8192 []).setReg .rdi (BitVec.intMin 64))
        (fun s' => s'.streams = ⟨[], ascii "-9223372036854775808", []⟩) ∧
      (inOrder ⟨0, 0, 0, 0⟩).Returns .parseInt
        ((State.fresh (Memory.store (fun _ => 0) 4096 (ascii "-9223372036854775808" ++ [0])) 8192
          []).setReg .rdi 4096)
        (fun s' => s'.reg .rax = BitVec.intMin 64 ∧ s'.reg .rdx = 20) := by
  have hnumeral : signedNumeral (BitVec.intMin 64).toInt = ascii "-9223372036854775808" := by
    decide
  obtain ⟨-, hprints, hparses⟩ :=
    parsing_undoes_printing (show (inOrder ⟨0, 0, 0, 0⟩).block = blocks _ from rfl)
      (BitVec.intMin 64)
  rw [hnumeral] at hprints hparses
  refine ⟨hprints _ rfl, hparses _ 0 (by decide) ?_ ?_⟩
  · exact bytes_store (by decide)
  · intro x hx
    have hin : (x - 4096#64).toNat < 21 := hx
    show 40 ≤ (8192#64 - 1 - x).toNat
    bv_omega

end LowLevel.Analysis
