import LowLevel.Interface.AssemblyOutput
import LowLevel.Library.Decimal

/-!
# Numbers in the assembly library

`print_uint` builds the numeral of its argument from the last digit on, in the 32 bytes below
the stack pointer, and `print_string` writes it. `parse_uint` reads a string of digits from the
first one on, modulo `2 ^ 64`. `print_int` and `parse_int` add the sign.
-/

set_option autoImplicit false

namespace LowLevel.Interface.Assembly

open LowLevel.Library LowLevel.Library.X86 LowLevel.Library.X86.Memory
open LowLevel.Program.Assembly

variable {P : Program Label} {sym : Symbols} {s : State} {bs : List Byte}

/-! ## print_uint -/

theorem ofNat_div_ten {n : ℕ} (hn : n < 2 ^ 64) :
    BitVec.ofNat 64 n / 10#64 = BitVec.ofNat 64 (n / 10) := by
  apply BitVec.eq_of_toNat_eq
  rw [BitVec.toNat_udiv, BitVec.toNat_ofNat, BitVec.toNat_ofNat, BitVec.toNat_ofNat,
    Nat.mod_eq_of_lt hn, Nat.mod_eq_of_lt (show 10 < 2 ^ 64 by norm_num),
    Nat.mod_eq_of_lt (show n / 10 < 2 ^ 64 by omega)]

/-- The character that is made of a remainder. -/
theorem setWidth_mod_ten {n : ℕ} (hn : n < 2 ^ 64) :
    (BitVec.ofNat 64 n % 10#64 + 48#64).setWidth 8 = digitChar (n % 10) := by
  have hmod : n % 10 < 10 := Nat.mod_lt n (by norm_num)
  apply BitVec.eq_of_toNat_eq
  rw [digitChar_toNat hmod, BitVec.toNat_setWidth, BitVec.toNat_add, BitVec.toNat_umod,
    BitVec.toNat_ofNat, BitVec.toNat_ofNat, BitVec.toNat_ofNat, Nat.mod_eq_of_lt hn,
    Nat.mod_eq_of_lt (show 10 < 2 ^ 64 by norm_num),
    Nat.mod_eq_of_lt (show 48 < 2 ^ 64 by norm_num)]
  omega

/-- A numeral of a quadword fits. -/
theorem length_numeral_le_twenty {n : ℕ} (hn : n < 2 ^ 64) : (numeral n).length ≤ 20 :=
  length_numeral_le (by norm_num) (hn.trans (by norm_num))

/-- The digits of `n` are stored below `r10`. -/
theorem printUintCountLoop_runs (hP : P.block = blocks sym) {n : ℕ} (hn : n < 2 ^ 64)
    (hrdi : s.reg .rdi = BitVec.ofNat 64 n) (hr9 : s.reg .r9 = 10) :
    P.Runs (.at .printUintCountLoop 0) s fun c s' => c = .at .printUintEnd 0 ∧
      s'.reg .r10 = s.reg .r10 - BitVec.ofNat 64 (numeral n).length ∧
      s'.mem = s.mem.store (s'.reg .r10) (numeral n) ∧
      Keeps [.rax, .rdx, .rdi, .r8, .r10] s s' ∧ s'.streams = s.streams := by
  induction n using Nat.strongRecOn generalizing s with
  | ind n ih =>
      have hquot := ofNat_div_ten hn
      have hdigit := setWidth_mod_ten hn
      have hzero : BitVec.ofNat 64 (n / 10) = 0#64 ↔ n < 10 := by
        rw [← BitVec.toNat_inj, BitVec.toNat_ofNat, Nat.mod_eq_of_lt (by omega)]
        show n / 10 = 0 ↔ n < 10
        omega
      apply Runs.instr hP rfl rfl
      apply Runs.instr hP rfl rfl
      apply Runs.div hP rfl (by simp) (by simp [hr9])
      apply Runs.instr hP rfl rfl
      apply Runs.instr hP rfl rfl
      apply Runs.instr hP rfl rfl
      apply Runs.instr hP rfl rfl
      apply Runs.instr hP rfl rfl
      apply Runs.instr hP rfl rfl
      apply Runs.jcc hP rfl (holds_ne_ofLogic _)
      · intro hmore
        simp only [State.read_reg, State.reg_setReg, State.reg_setFlags, State.reg_setMem,
          State.read_imm, hrdi, hr9, reduceCtorEq, if_false, if_true, BitVec.ofNat_eq_ofNat,
          BitVec.and_self, hquot, ne_eq, hzero, Nat.not_lt] at hmore
        refine Runs.mono (ih (n / 10) (by omega) (by omega) ?_ ?_) ?_
        · simp [hrdi, hr9, hquot]
        · simp [hr9]
        · rintro c s' ⟨rfl, hr10, hmem, hkeeps, hstreams⟩
          simp [hrdi, hr9, hdigit] at hr10 hmem hstreams
          refine ⟨rfl, ?_, ?_, by simpa using hkeeps, hstreams⟩
          · rw [hr10, numeral_of_le hmore, List.length_append, List.length_singleton,
              ← ofNat_add_one]
            bv_omega
          · rw [hmem, numeral_of_le hmore]
            apply store_append
            · rw [hr10]
              bv_omega
            · have hlen := length_numeral_le_twenty (show n / 10 < 2 ^ 64 by omega)
              rw [List.length_singleton]
              omega
      · intro hlast
        simp [hrdi, hr9, hquot, hzero] at hlast
        apply Runs.fall hP rfl rfl
        refine Runs.done ⟨rfl, ?_, ?_, ?_, ?_⟩
        · simp [numeral_of_lt hlast]
        · have hmod : n % 10 = n := Nat.mod_eq_of_lt hlast
          simp [hrdi, hr9, hdigit, hmod, numeral_of_lt hlast]
        · simp
        · simp

/-- The registers that the number printing routines change. -/
abbrev printingNumbers : List Reg :=
  [.rax, .rcx, .rdx, .rsi, .rdi, .r8, .r9, .r10, .r11, .rsp]

/-- **`print_uint`** writes the numeral of its argument; the numeral was built in the 32 bytes
below the stack pointer. -/
theorem printUint_returns (hP : P.block = blocks sym) {n : ℕ} (hn : n < 2 ^ 64)
    (hrdi : s.reg .rdi = BitVec.ofNat 64 n) :
    P.Returns .printUint s fun s' =>
      s'.streams = { s.streams with stdout := s.streams.stdout ++ numeral n } ∧
      (∃ a : Word, s'.mem.CString a (numeral n) ∧
        (s.reg .rsp - a).toNat = (numeral n).length + 1 ∧ (numeral n).length + 1 ≤ 32) ∧
      Keeps printingNumbers s s' ∧ OnlyBelow s.mem s'.mem (s.reg .rsp) 56 := by
  have hlen := length_numeral_le_twenty hn
  set a := s.reg .rsp - 1#64 - BitVec.ofNat 64 (numeral n).length with ha
  set m := s.mem.store a (numeral n ++ [0#8]) with hm
  have hnum : CString m a (numeral n) :=
    .of_store (fun b hb => ne_zero_of_mem_numeral hb) (by omega)
  have hbelow : OnlyBelow s.mem m (s.reg .rsp) 32 := by
    apply onlyBelow_store
    · bv_omega
    · rw [List.length_append, List.length_singleton]
      bv_omega
  apply Runs.instr hP rfl rfl
  apply Runs.instr hP rfl rfl
  apply Runs.instr hP rfl rfl
  apply Runs.instr hP rfl rfl
  apply Runs.instr hP rfl rfl
  apply Runs.instr hP rfl rfl
  apply Runs.instr hP rfl rfl
  apply Runs.instr hP rfl rfl
  apply Runs.fall hP rfl rfl
  refine Runs.bind (printUintCountLoop_runs hP hn (by simpa using hrdi) (by simp)) ?_
  rintro c s₁ ⟨rfl, hr10, hmem, hkeeps, hstreams⟩
  have hrsp := hkeeps .rsp (by decide)
  simp only [State.reg_setReg, State.reg_setMem] at hr10
  simp at hr10 hmem hrsp hstreams
  rw [hr10, ← ha, store_append (by rw [ha]; bv_omega) (by rw [List.length_singleton]; omega),
    ← hm] at hmem
  -- the call of `print_string`, on the 32 bytes and a return address
  have hpush : OnlyBelow m (m.write64 (s.reg .rsp - 32#64 - 8#64) (P.addr .printUintEnd 2))
      (s.reg .rsp - 32#64) 8 := onlyBelow_write64 _ (by bv_omega) (by bv_omega)
  have hclear : Clear a ((numeral n).length + 1) (s.reg .rsp - 32#64) 24 := by
    intro x hx
    bv_omega
  have hnum' := hnum.of_onlyBelow hpush (hclear.mono (by norm_num))
  apply Runs.instr hP rfl rfl
  apply Runs.callReturns hP rfl (printString_returns hP (show CString _ _ (numeral n) from ?_) ?_)
  · rintro s₂ hrsp₂ ⟨hstreams₂, hkeeps₂, hbelow₂⟩
    simp [hrsp, hmem, hstreams] at hrsp₂ hstreams₂ hbelow₂
    have hall : OnlyBelow s.mem s₂.mem (s.reg .rsp) 56 :=
      ((hbelow.mono (by norm_num)).trans (hpush.of_lower (by bv_omega))).trans
        (hbelow₂.of_lower (by bv_omega))
    have hstay : CString s₂.mem a (numeral n) := by
      apply hnum'.of_onlyBelow hbelow₂
      intro x hx
      bv_omega
    have hkeeps' : Keeps printingNumbers s s₂ := by
      have h₁ := hkeeps.mono printingNumbers (by simp)
      have h₂ := hkeeps₂.mono printingNumbers (by simp)
      exact Keeps.trans (by simpa using h₁) (by simpa using h₂)
    apply Runs.instr hP rfl rfl
    refine Runs.ret hP rfl ⟨?_, ?_, hstreams₂, ⟨a, hstay, ?_, by omega⟩, by simpa using hkeeps', ?_⟩
    · simp [hrsp₂, hall.read64_eq]
    · simp [hrsp₂]
    · bv_omega
    · exact hall
  · simpa [hr10, ← ha, hmem, hrsp] using hnum'
  · simp [hr10, ← ha, hrsp]
    intro x hx
    bv_omega

/-! ## print_int -/

/-- Negation of a negative quadword gives its absolute value, also for the least one. -/
theorem toNat_neg_of_neg {v : Word} (hv : v.toInt < 0) : (-v).toNat = v.toInt.natAbs := by
  rw [BitVec.toNat_neg]
  rw [BitVec.toInt_eq_toNat_cond] at hv ⊢
  have := v.isLt
  split_ifs at hv ⊢ <;> omega

theorem toNat_of_nonneg {v : Word} (hv : 0 ≤ v.toInt) : v.toNat = v.toInt.natAbs := by
  rw [BitVec.toInt_eq_toNat_cond] at hv ⊢
  have := v.isLt
  split_ifs at hv ⊢ <;> omega

/-- **`print_int`** writes the numeral of its argument with the sign. -/
theorem printInt_returns (hP : P.block = blocks sym) :
    P.Returns .printInt s fun s' =>
      s'.streams = { s.streams with
        stdout := s.streams.stdout ++ signedNumeral (s.reg .rdi).toInt } ∧
      Keeps printingNumbers s s' ∧ OnlyBelow s.mem s'.mem (s.reg .rsp) 56 := by
  apply Runs.instr hP rfl rfl
  apply Runs.jcc hP rfl (holds_ge_ofSub _ _)
  · intro hge
    have hge : 0 ≤ (s.reg .rdi).toInt := hge
    apply Runs.jmp hP rfl
    refine Runs.mono (printUint_returns hP (n := (s.reg .rdi).toNat) (s.reg .rdi).isLt
      (by simp)) ?_
    rintro c s' ⟨hc, hrsp, hstreams, -, hkeeps, hbelow⟩
    refine ⟨hc, hrsp, ?_, by simpa using hkeeps, hbelow⟩
    rw [hstreams, signedNumeral, if_neg (by omega), toNat_of_nonneg hge]
    rfl
  · intro hlt
    have hlt : (s.reg .rdi).toInt < 0 := Int.not_le.mp hlt
    apply Runs.fall hP rfl rfl
    apply Runs.instr hP rfl rfl
    apply Runs.instr hP rfl rfl
    apply Runs.callReturns hP rfl (printChar_returns hP)
    rintro s₁ hrsp ⟨hstreams, hkeeps, hbelow⟩
    simp at hrsp hstreams hbelow
    -- the argument was saved below the return address, and `print_char` worked below it
    have hsaved : s₁.mem.read64 (s.reg .rsp - 8#64) = s.reg .rdi := by
      rw [(hbelow.of_lower (p := s.reg .rsp - 8#64) (k := 16) (by bv_omega)).read64_eq
        (by norm_num)]
      rw [read64_write64_of_le (by bv_omega) (by bv_omega), read64_write64]
    have hbelow₁ : OnlyBelow s.mem s₁.mem (s.reg .rsp) 24 :=
      ((onlyBelow_write64 _ (by bv_omega) (by bv_omega)).trans
        (onlyBelow_write64 _ (by bv_omega) (by bv_omega))).trans (hbelow.of_lower (by bv_omega))
    apply Runs.instr hP rfl rfl
    apply Runs.instr hP rfl rfl
    apply Runs.fall hP rfl rfl
    apply Runs.jmp hP rfl
    refine Runs.mono (printUint_returns hP (n := (s.reg .rdi).toInt.natAbs) ?_ ?_) ?_
    · rw [← toNat_neg_of_neg hlt]
      exact (-s.reg .rdi).isLt
    · rw [← toNat_neg_of_neg hlt, BitVec.ofNat_toNat, BitVec.setWidth_eq]
      simp [hrsp, hsaved]
    · rintro c s' ⟨hc, hrsp₂, hstreams₂, -, hkeeps₂, hbelow₂⟩
      simp [hrsp] at hc hrsp₂ hstreams₂ hbelow₂
      have hkeeps' : Keeps printingNumbers s s' := by
        have h₁ := hkeeps.mono printingNumbers (by simp)
        exact Keeps.trans (by simpa using h₁) (by simpa using hkeeps₂)
      refine ⟨?_, hrsp₂, ?_, hkeeps', (hbelow₁.mono (by norm_num)).trans hbelow₂⟩
      · rw [hc, hbelow₁.read64_eq (by norm_num)]
      · rw [hstreams₂, hstreams, signedNumeral, if_pos hlt, List.append_assoc]
        rfl

/-! ## parse_uint -/

/-- The digits `ds` at `a`, and behind them a character that is no digit. -/
structure DigitsAt (m : Memory) (a : Word) (ds : List Byte) : Prop where
  holds : ∃ t, ¬ IsDigit t ∧ m.Holds a (ds ++ [t])
  digits : ∀ b ∈ ds, IsDigit b
  short : ds.length < 2 ^ 64

namespace DigitsAt

variable {m m' : Memory} {a p : Word} {ds : List Byte} {n i : ℕ}

theorem getElem (h : DigitsAt m a ds) (hi : i < ds.length) :
    m (a + BitVec.ofNat 64 i) = ds[i] := by
  obtain ⟨t, -, hholds⟩ := h.holds
  have hshort := h.short
  have hlen : (ds ++ [t]).length = ds.length + 1 := List.length_append
  rw [hholds.getElem (by omega) (show i < (ds ++ [t]).length by omega),
    List.getElem_append_left hi]

theorem isDigit (h : DigitsAt m a ds) (hi : i < ds.length) :
    IsDigit (m (a + BitVec.ofNat 64 i)) := by
  rw [h.getElem hi]
  exact h.digits _ (List.getElem_mem hi)

theorem not_isDigit (h : DigitsAt m a ds) :
    ¬ IsDigit (m (a + BitVec.ofNat 64 ds.length)) := by
  obtain ⟨t, ht, hholds⟩ := h.holds
  have hshort := h.short
  have hlen : (ds ++ [t]).length = ds.length + 1 := List.length_append
  rw [hholds.getElem (by omega) (show ds.length < (ds ++ [t]).length by omega),
    List.getElem_append_right le_rfl]
  simpa using ht

theorem of_onlyBelow (h : DigitsAt m a ds) (hm : OnlyBelow m m' p n)
    (hclear : Clear a (ds.length + 1) p n) : DigitsAt m' a ds := by
  obtain ⟨t, ht, hholds⟩ := h.holds
  have hshort := h.short
  have hlen : (ds ++ [t]).length = ds.length + 1 := List.length_append
  refine ⟨⟨t, ht, hholds.congr (by omega) fun x hx => hm x (hclear x (by omega))⟩, h.digits,
    hshort⟩

end DigitsAt

/-- The digits that a string starts with. -/
theorem digitsAt_leadingDigits {m : Memory} {a : Word} {bs : List Byte} (h : m.CString a bs) :
    DigitsAt m a (leadingDigits bs) := by
  obtain ⟨t, rest, ht, heq⟩ := exists_behind_leadingDigits bs (show ¬ IsDigit 0 by decide)
  refine ⟨⟨t, ht, ?_⟩, fun b hb => isDigit_of_mem_leadingDigits hb,
    (length_leadingDigits_le bs).trans_lt h.short⟩
  have hholds := h.holds
  rw [heq, ← List.singleton_append, ← List.append_assoc, holds_append] at hholds
  exact hholds.1

/-- One more digit is read. -/
theorem ofNat_mul_ten_add {v : ℕ} {w : Word} {b : Byte}
    (hw : w.toNat = b.toNat - 0x30) :
    BitVec.ofNat 64 ((BitVec.ofNat 64 v).toNat * 10) + w =
      BitVec.ofNat 64 (10 * v + (b.toNat - 0x30)) := by
  apply BitVec.eq_of_toNat_eq
  rw [BitVec.toNat_add, hw, BitVec.toNat_ofNat, BitVec.toNat_ofNat, BitVec.toNat_ofNat]
  omega

/-- One turn of the loop, on a digit. -/
theorem parseUintLoop_turn (hP : P.block = blocks sym) {v i : ℕ} {b : Byte}
    (hb : s.mem (s.reg .rdi + BitVec.ofNat 64 i) = b) (hdigit : IsDigit b)
    (hclear : 8 ≤ (s.reg .rsp - 1 - (s.reg .rdi + BitVec.ofNat 64 i)).toNat)
    (hrax : s.reg .rax = BitVec.ofNat 64 v) (hrdx : s.reg .rdx = BitVec.ofNat 64 i)
    (hr8 : s.reg .r8 = 10) (hr9 : (s.reg .r9).toNat < 256) :
    P.Runs (.at .parseUintLoop 0) s fun c s' => c = .at .parseUintLoop 0 ∧
      s'.reg .rax = BitVec.ofNat 64 (10 * v + (b.toNat - 0x30)) ∧
      s'.reg .rdx = BitVec.ofNat 64 (i + 1) ∧ (s'.reg .r9).toNat < 256 ∧
      s'.reg .rsp = s.reg .rsp ∧ Keeps [.rax, .rdx, .r9, .rsp] s s' ∧
      OnlyBelow s.mem s'.mem (s.reg .rsp) 8 ∧ s'.streams = s.streams := by
  have hbounds := (isDigit_iff_toInt b).mp hdigit
  have hbelow : OnlyBelow s.mem (s.mem.write64 (s.reg .rsp - 8#64) (s.reg .rdx))
      (s.reg .rsp) 8 := onlyBelow_write64 _ (by bv_omega) (by bv_omega)
  have hsame : s.mem.write64 (s.reg .rsp - 8#64) (s.reg .rdx)
      (s.reg .rdi + s.reg .rdx) = b := by
    rw [hrdx] at hbelow ⊢
    exact (hbelow _ hclear).trans hb
  set w := State.setLow (State.setLow (s.reg .r9) b) (b - 48#8) with hw
  have hr9' : w.toNat = b.toNat - 0x30 := by
    rw [hw, State.toNat_setLow _ _ (by rw [State.toNat_setLow _ _ hr9]; exact b.isLt)]
    unfold IsDigit at hdigit
    bv_omega
  apply Runs.instr hP rfl rfl
  apply Runs.jcc hP rfl (holds_l_ofSub _ _)
  · intro hlow
    simp [hrdx, hb] at hlow
    exact absurd hbounds.1 (Int.not_le.mpr hlow)
  · intro _
    apply Runs.instr hP rfl rfl
    apply Runs.jcc hP rfl (holds_g_ofSub _ _)
    · intro hhigh
      simp [hrdx, hb] at hhigh
      exact absurd hbounds.2 (Int.not_le.mpr hhigh)
    · intro _
      apply Runs.instr hP rfl rfl
      apply Runs.instr hP rfl rfl
      apply Runs.instr hP rfl rfl
      apply Runs.instr hP rfl rfl
      apply Runs.instr hP rfl rfl
      apply Runs.instr hP rfl rfl
      apply Runs.instr hP rfl rfl
      apply Runs.jmp hP rfl
      refine Runs.done ⟨rfl, ?_, ?_, ?_, ?_, ?_, ?_, rfl⟩
      · rw [← ofNat_mul_ten_add hr9', ← hrax]
        simp [hsame, ← hw, hr8]
      · simp [hrdx, ofNat_add_one]
      · simp [hsame, ← hw, hr9']
        omega
      · simp
      · simp
      · exact hbelow

/-- From digit `i` on, `k` before the end. -/
theorem parseUintLoop_runs (hP : P.block = blocks sym) {ds : List Byte} {k i : ℕ}
    (hk : i + k = ds.length) (hdigits : DigitsAt s.mem (s.reg .rdi) ds)
    (hclear : Clear (s.reg .rdi) (ds.length + 1) (s.reg .rsp) 8)
    (hrax : s.reg .rax = BitVec.ofNat 64 (decimalValue (ds.take i)))
    (hrdx : s.reg .rdx = BitVec.ofNat 64 i) (hr8 : s.reg .r8 = 10)
    (hr9 : (s.reg .r9).toNat < 256) :
    P.Runs (.at .parseUintLoop 0) s fun c s' => c = .at .parseUintEnd 0 ∧
      s'.reg .rax = BitVec.ofNat 64 (decimalValue ds) ∧
      s'.reg .rdx = BitVec.ofNat 64 ds.length ∧ s'.reg .rsp = s.reg .rsp ∧
      Keeps [.rax, .rdx, .r9, .rsp] s s' ∧ OnlyBelow s.mem s'.mem (s.reg .rsp) 8 ∧
      s'.streams = s.streams := by
  induction k generalizing s i with
  | zero =>
      obtain rfl : i = ds.length := by omega
      rw [List.take_length] at hrax
      have hend := hdigits.not_isDigit
      rw [isDigit_iff_toInt] at hend
      apply Runs.instr hP rfl rfl
      apply Runs.jcc hP rfl (holds_l_ofSub _ _)
      · intro _
        exact Runs.done ⟨rfl, hrax, hrdx, rfl, .refl _ _, .refl _ _ _, rfl⟩
      · intro hlow
        apply Runs.instr hP rfl rfl
        apply Runs.jcc hP rfl (holds_g_ofSub _ _)
        · intro _
          exact Runs.done ⟨rfl, hrax, hrdx, rfl, .refl _ _, .refl _ _ _, rfl⟩
        · intro hhigh
          simp [hrdx] at hlow hhigh
          exact absurd ⟨hlow, hhigh⟩ hend
  | succ k ih =>
      have hi : i < ds.length := by omega
      have hclear' : 8 ≤ (s.reg .rsp - 1 - (s.reg .rdi + BitVec.ofNat 64 i)).toNat := by
        apply hclear
        rw [offset_add _ (by have := hdigits.short; omega)]
        omega
      refine Runs.bind (parseUintLoop_turn hP rfl (hdigits.isDigit hi) hclear' hrax hrdx hr8 hr9) ?_
      rintro c s₁ ⟨rfl, hrax₁, hrdx₁, hr9₁, hrsp₁, hkeeps₁, hbelow₁, hstreams₁⟩
      have hrdi₁ : s₁.reg .rdi = s.reg .rdi := hkeeps₁ .rdi (by decide)
      have hr8₁ : s₁.reg .r8 = s.reg .r8 := hkeeps₁ .r8 (by decide)
      have hvalue : decimalValue (ds.take (i + 1)) = 10 * decimalValue (ds.take i) +
          ((s.mem (s.reg .rdi + BitVec.ofNat 64 i)).toNat - 0x30) := by
        rw [List.take_succ_eq_append_getElem hi, decimalValue_concat, ← hdigits.getElem hi]
      refine Runs.mono (ih (i := i + 1) (by omega) ?_ ?_ ?_ hrdx₁ (hr8₁.trans hr8) hr9₁) ?_
      · rw [hrdi₁]
        exact hdigits.of_onlyBelow hbelow₁ hclear
      · rw [hrdi₁, hrsp₁]
        exact hclear
      · rw [hrax₁, hvalue]
      · rintro c s' ⟨rfl, hrax', hrdx', hrsp, hkeeps, hbelow, hstreams⟩
        rw [hrsp₁] at hrsp hbelow
        exact ⟨rfl, hrax', hrdx', hrsp, hkeeps₁.trans hkeeps, hbelow₁.trans hbelow,
          hstreams.trans hstreams₁⟩

/-- **`parse_uint`** reads the digits modulo `2 ^ 64` and counts them. -/
theorem parseUint_returns (hP : P.block = blocks sym) {ds : List Byte}
    (hdigits : DigitsAt s.mem (s.reg .rdi) ds)
    (hclear : Clear (s.reg .rdi) (ds.length + 1) (s.reg .rsp) 8) :
    P.Returns .parseUint s fun s' =>
      s'.reg .rax = BitVec.ofNat 64 (decimalValue ds) ∧
      s'.reg .rdx = BitVec.ofNat 64 ds.length ∧
      Keeps [.rax, .rdx, .r8, .r9, .rsp] s s' ∧ OnlyBelow s.mem s'.mem (s.reg .rsp) 8 ∧
      s'.streams = s.streams := by
  apply Runs.instr hP rfl rfl
  apply Runs.instr hP rfl rfl
  apply Runs.instr hP rfl rfl
  apply Runs.instr hP rfl rfl
  apply Runs.instr hP rfl rfl
  apply Runs.fall hP rfl rfl
  refine Runs.bind (parseUintLoop_runs hP (Nat.zero_add ds.length) (by simpa using hdigits)
    (by simpa using hclear) (by simp [decimalValue]) (by simp) (by simp) (by simp)) ?_
  rintro c s' ⟨rfl, hrax, hrdx, hrsp, hkeeps, hbelow, hstreams⟩
  simp at hrsp hbelow hstreams
  have hkeeps' : Keeps [.rax, .rdx, .r8, .r9, .rsp] s s' := by
    simpa using hkeeps.mono [.rax, .rdx, .r8, .r9, .rsp] (by simp)
  refine Runs.ret hP rfl ⟨?_, by simp [hrsp], by simpa using hrax, by simpa using hrdx,
    by simpa using hkeeps', hbelow, hstreams⟩
  rw [hrsp, hbelow.read64_eq (by norm_num)]

/-! ## parse_int -/

/-- **`parse_int` without a sign** reads what `parse_uint` reads. -/
theorem parseInt_returns_unsigned (hP : P.block = blocks sym) {ds : List Byte}
    (hminus : s.mem (s.reg .rdi) ≠ 0x2d) (hplus : s.mem (s.reg .rdi) ≠ 0x2b)
    (hdigits : DigitsAt s.mem (s.reg .rdi) ds)
    (hclear : Clear (s.reg .rdi) (ds.length + 1) (s.reg .rsp) 24) :
    P.Returns .parseInt s fun s' =>
      s'.reg .rax = BitVec.ofNat 64 (decimalValue ds) ∧
      s'.reg .rdx = BitVec.ofNat 64 ds.length ∧ s'.streams = s.streams := by
  set m := (s.mem.write64 (s.reg .rsp - 8#64) (s.reg .rdi)).write64 (s.reg .rsp - 8#64 - 8#64)
    (P.addr .parseIntWithoutSign 2) with hm
  have hbelow : OnlyBelow s.mem m (s.reg .rsp) 16 :=
    (onlyBelow_write64 _ (by bv_omega) (by bv_omega)).trans
      (onlyBelow_write64 _ (by bv_omega) (by bv_omega))
  have hdigits' : DigitsAt m (s.reg .rdi) ds :=
    hdigits.of_onlyBelow hbelow (hclear.mono (by norm_num))
  have hclear' : Clear (s.reg .rdi) (ds.length + 1) (s.reg .rsp - 8#64 - 8#64) 8 :=
    hclear.of_lower (by bv_omega)
  apply Runs.instr hP rfl rfl
  apply Runs.instr hP rfl rfl
  apply Runs.jcc hP rfl (holds_e_ofSub _ _)
  · intro heq
    exact absurd (by simpa using heq) hminus
  · intro _
    apply Runs.instr hP rfl rfl
    apply Runs.jcc hP rfl (holds_ne_ofSub _ _)
    · intro _
      apply Runs.instr hP rfl rfl
      apply Runs.callReturns hP rfl (parseUint_returns hP (show DigitsAt _ _ ds by
        simpa [← hm] using hdigits') (by simpa using hclear'))
      rintro s₁ hrsp ⟨hrax, hrdx, -, hbelow₁, hstreams⟩
      simp [← hm] at hrsp hbelow₁ hstreams
      have hall : OnlyBelow s.mem s₁.mem (s.reg .rsp) 24 :=
        (hbelow.mono (by norm_num)).trans (hbelow₁.of_lower (by bv_omega))
      apply Runs.instr hP rfl rfl
      apply Runs.instr hP rfl rfl
      apply Runs.instr hP rfl rfl
      refine Runs.ret hP rfl ⟨?_, ?_, by simpa using hrax, by simpa using hrdx, hstreams⟩
      · simp [hrsp, hall.read64_eq]
      · simp [hrsp]
    · intro heq
      exact absurd (by simpa using heq) hplus

/-- `parse_int` on a digit reads what `parse_uint` reads. -/
theorem parseInt_returns (hP : P.block = blocks sym) {ds : List Byte} (hds : ds ≠ [])
    (hdigits : DigitsAt s.mem (s.reg .rdi) ds)
    (hclear : Clear (s.reg .rdi) (ds.length + 1) (s.reg .rsp) 24) :
    P.Returns .parseInt s fun s' =>
      s'.reg .rax = BitVec.ofNat 64 (decimalValue ds) ∧
      s'.reg .rdx = BitVec.ofNat 64 ds.length ∧ s'.streams = s.streams := by
  have hfirst : IsDigit (s.mem (s.reg .rdi)) := by
    simpa using hdigits.isDigit (List.length_pos_iff.mpr hds)
  refine parseInt_returns_unsigned hP ?_ ?_ hdigits hclear
  · intro heq
    rw [heq] at hfirst
    exact absurd hfirst (by decide)
  · intro heq
    rw [heq] at hfirst
    exact absurd hfirst (by decide)

/-- Behind the sign: the number is negated when `r9` is 1. -/
theorem parseIntSigned_runs (hP : P.block = blocks sym) {ds : List Byte}
    (hdigits : DigitsAt s.mem (s.reg .rdi + 1) ds)
    (hclear : Clear (s.reg .rdi + 1) (ds.length + 1) (s.reg .rsp) 40) :
    P.Runs (.at .parseIntSigned 0) s fun c s' =>
      c = P.goto (s.mem.read64 (s.reg .rsp)) ∧ s'.reg .rsp = s.reg .rsp + 8 ∧
      (ds = [] → s'.reg .rdx = 0) ∧
      (ds ≠ [] → s'.reg .rdx = BitVec.ofNat 64 (ds.length + 1) ∧
        s'.reg .rax = if s.reg .r9 = 1 then -BitVec.ofNat 64 (decimalValue ds)
          else BitVec.ofNat 64 (decimalValue ds)) ∧
      s'.streams = s.streams := by
  set q := s.reg .rsp - 8#64 - 8#64 - 8#64 with hq
  set m := (((s.mem.write64 (s.reg .rsp - 8#64) (s.reg .r8)).write64 (s.reg .rsp - 8#64 - 8#64)
    (s.reg .r9)).write64 q (s.reg .rdi + 1#64)).write64 (q - 8#64) (P.addr .parseIntSigned 5)
    with hm
  have hbelow : OnlyBelow s.mem m (s.reg .rsp) 32 :=
    (((onlyBelow_write64 _ (by bv_omega) (by bv_omega)).trans
      (onlyBelow_write64 _ (by bv_omega) (by bv_omega))).trans
      (onlyBelow_write64 _ (by bv_omega) (by bv_omega))).trans
      (onlyBelow_write64 _ (by bv_omega) (by bv_omega))
  have hsaved : m.read64 (q + 8#64) = s.reg .r9 := by
    rw [hm, read64_write64_of_le (by bv_omega) (by bv_omega),
      read64_write64_of_le (by bv_omega) (by bv_omega)]
    rw [show q + 8#64 = s.reg .rsp - 8#64 - 8#64 by bv_omega, read64_write64]
  have hdigits' : DigitsAt m (s.reg .rdi + 1#64) ds :=
    hdigits.of_onlyBelow hbelow (hclear.mono (by norm_num))
  have hclear' : Clear (s.reg .rdi + 1#64) (ds.length + 1) (q - 8#64) 8 :=
    hclear.of_lower (by bv_omega)
  apply Runs.instr hP rfl rfl
  apply Runs.instr hP rfl rfl
  apply Runs.instr hP rfl rfl
  apply Runs.instr hP rfl rfl
  apply Runs.callReturns hP rfl (parseUint_returns hP (show DigitsAt _ _ ds by
    simpa [← hq, ← hm] using hdigits') (by simpa [← hq] using hclear'))
  rintro s₁ hrsp ⟨hrax, hrdx, -, hbelow₁, hstreams⟩
  simp [← hq, ← hm] at hrsp hbelow₁ hstreams
  have hall : OnlyBelow s.mem s₁.mem (s.reg .rsp) 40 :=
    (hbelow.mono (by norm_num)).trans (hbelow₁.of_lower (by bv_omega))
  have hsign : s₁.mem.read64 (q + 8#64) = s.reg .r9 := by
    rw [← hsaved]
    apply (hbelow₁.of_lower (p := q + 8#64) (k := 24) (by bv_omega)).read64_eq
    norm_num
  have hcount : ds ≠ [] → BitVec.ofNat 64 ds.length ≠ 0#64 := by
    intro hds hzero
    have hpos := List.length_pos_iff.mpr hds
    have hshort := hdigits.short
    have := congrArg BitVec.toNat hzero
    rw [BitVec.toNat_ofNat, Nat.mod_eq_of_lt hshort] at this
    exact absurd this (by simpa using hpos.ne')
  have hrsp' : q + 8#64 + 8#64 + 8#64 = s.reg .rsp := by bv_omega
  apply Runs.instr hP rfl rfl
  apply Runs.instr hP rfl rfl
  apply Runs.instr hP rfl rfl
  apply Runs.instr hP rfl rfl
  apply Runs.jcc hP rfl (holds_e_ofSub _ _)
  · intro hzero
    simp [hrdx] at hzero
    have hds : ds = [] := by
      by_contra hds
      exact hcount hds hzero
    refine Runs.ret hP rfl ⟨?_, ?_, fun _ => ?_, fun hne => absurd hds hne, hstreams⟩
    · simp [hrsp, hrsp', hall.read64_eq]
    · simp [hrsp, hrsp']
    · simp [hrdx, hzero]
  · intro hsome
    simp [hrdx] at hsome
    have hds : ds ≠ [] := by
      rintro rfl
      exact hsome rfl
    apply Runs.instr hP rfl rfl
    apply Runs.instr hP rfl rfl
    apply Runs.jcc hP rfl (holds_e_ofSub _ _)
    · intro hone
      simp [hrsp, hsign] at hone
      apply Runs.instr hP rfl rfl
      apply Runs.fall hP rfl rfl
      refine Runs.ret hP rfl ⟨?_, ?_, fun h => absurd h hds, fun _ => ⟨?_, ?_⟩, hstreams⟩
      · simp [hrsp, hrsp', hall.read64_eq]
      · simp [hrsp, hrsp']
      · simp [hrdx, ofNat_add_one]
      · simp [hrax, hone]
    · intro hother
      simp [hrsp, hsign] at hother
      refine Runs.ret hP rfl ⟨?_, ?_, fun h => absurd h hds, fun _ => ⟨?_, ?_⟩, hstreams⟩
      · simp [hrsp, hrsp', hall.read64_eq]
      · simp [hrsp, hrsp']
      · simp [hrdx, ofNat_add_one]
      · simp [hrax, hother]

/-- `parse_int` on a minus sign, with digits behind it or without. -/
theorem parseInt_returns_minus (hP : P.block = blocks sym) {ds : List Byte}
    (hminus : s.mem (s.reg .rdi) = 0x2d) (hdigits : DigitsAt s.mem (s.reg .rdi + 1) ds)
    (hclear : Clear (s.reg .rdi + 1) (ds.length + 1) (s.reg .rsp) 40) :
    P.Returns .parseInt s fun s' =>
      (ds = [] → s'.reg .rdx = 0) ∧
      (ds ≠ [] → s'.reg .rdx = BitVec.ofNat 64 (ds.length + 1) ∧
        s'.reg .rax = -BitVec.ofNat 64 (decimalValue ds)) ∧ s'.streams = s.streams := by
  apply Runs.instr hP rfl rfl
  apply Runs.instr hP rfl rfl
  apply Runs.jcc hP rfl (holds_e_ofSub _ _)
  · intro _
    apply Runs.instr hP rfl rfl
    apply Runs.instr hP rfl rfl
    apply Runs.fall hP rfl rfl
    refine Runs.mono (parseIntSigned_runs hP (show DigitsAt _ _ ds by simpa using hdigits)
      (by simpa using hclear)) ?_
    rintro c s' ⟨rfl, hrsp, hnone, hsome, hstreams⟩
    refine ⟨by simp, by simpa using hrsp, hnone, fun hds => ?_, by simpa using hstreams⟩
    obtain ⟨hrdx, hrax⟩ := hsome hds
    exact ⟨hrdx, by simpa using hrax⟩
  · intro hne
    simp [hminus] at hne

/-- `parse_int` on a plus sign: `r9` is not set, so it is the caller's. -/
theorem parseInt_returns_plus (hP : P.block = blocks sym) {ds : List Byte}
    (hplus : s.mem (s.reg .rdi) = 0x2b) (hdigits : DigitsAt s.mem (s.reg .rdi + 1) ds)
    (hclear : Clear (s.reg .rdi + 1) (ds.length + 1) (s.reg .rsp) 40) :
    P.Returns .parseInt s fun s' =>
      (ds = [] → s'.reg .rdx = 0) ∧
      (ds ≠ [] → s'.reg .rdx = BitVec.ofNat 64 (ds.length + 1) ∧
        s'.reg .rax = if s.reg .r9 = 1 then -BitVec.ofNat 64 (decimalValue ds)
          else BitVec.ofNat 64 (decimalValue ds)) ∧ s'.streams = s.streams := by
  apply Runs.instr hP rfl rfl
  apply Runs.instr hP rfl rfl
  apply Runs.jcc hP rfl (holds_e_ofSub _ _)
  · intro heq
    simp [hplus] at heq
  · intro _
    apply Runs.instr hP rfl rfl
    apply Runs.jcc hP rfl (holds_ne_ofSub _ _)
    · intro hne
      simp [hplus] at hne
    · intro _
      apply Runs.jmp hP rfl
      refine Runs.mono (parseIntSigned_runs hP (show DigitsAt _ _ ds by simpa using hdigits)
        (by simpa using hclear)) ?_
      rintro c s' ⟨rfl, hrsp, hnone, hsome, hstreams⟩
      exact ⟨by simp, by simpa using hrsp, hnone, by simpa using hsome, by simpa using hstreams⟩

/-- **`parse_int` behind a minus sign** reads what `parse_uint` reads and negates it. -/
theorem parseInt_returns_neg (hP : P.block = blocks sym) {ds : List Byte} (hds : ds ≠ [])
    (hminus : s.mem (s.reg .rdi) = 0x2d) (hdigits : DigitsAt s.mem (s.reg .rdi + 1) ds)
    (hclear : Clear (s.reg .rdi + 1) (ds.length + 1) (s.reg .rsp) 40) :
    P.Returns .parseInt s fun s' =>
      s'.reg .rax = -BitVec.ofNat 64 (decimalValue ds) ∧
      s'.reg .rdx = BitVec.ofNat 64 (ds.length + 1) ∧ s'.streams = s.streams := by
  refine Runs.mono (parseInt_returns_minus hP hminus hdigits hclear) ?_
  rintro c s' ⟨hc, hrsp, -, hsome, hstreams⟩
  obtain ⟨hrdx, hrax⟩ := hsome hds
  exact ⟨hc, hrsp, hrax, hrdx, hstreams⟩

end LowLevel.Interface.Assembly
