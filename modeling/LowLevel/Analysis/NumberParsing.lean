import LowLevel.Interface.AssemblyNumbers
import LowLevel.Library.X86.Straight

/-!
# Which numbers are parsed right

`parse_uint` does not look for an overflow, so it answers right exactly on the texts whose
digits have a value below `2 ^ 64`. `parse_int` sets `r9` behind a minus sign only, and reads it
behind a plus sign, too: a text with a plus sign is read right unless the caller left 1 there.
-/

set_option autoImplicit false

namespace LowLevel.Analysis

open LowLevel.Library LowLevel.Library.X86 LowLevel.Library.X86.Memory
open LowLevel.Interface.Assembly LowLevel.Program.Assembly

/-- A text as the routines are called with: without a NUL, and with room in memory for the NUL
behind it and the 48 bytes of stack that the routines work on. -/
structure Text where
  bytes : List Byte
  nonzero : ∀ b ∈ bytes, b ≠ 0
  fits : bytes.length + 1 + 48 ≤ 2 ^ 64

namespace Text

variable (text : Text)

/-- The digits that the text starts with. -/
def digits : List Byte := leadingDigits text.bytes

/-- The digits behind the sign. -/
def signedDigits : List Byte := Library.signedDigits text.bytes

/-- The routine is called on the text, which is not among the 40 bytes below the stack pointer. -/
structure PassedTo (s : State) : Prop where
  string : s.mem.CString (s.reg .rdi) text.bytes
  clear : Clear (s.reg .rdi) (text.bytes.length + 1) (s.reg .rsp) 40

/-- The answer of `parse_uint`: a number that is reported is right, and none is reported that
is not there or does not fit. -/
structure ReadUnsigned (s' : State) : Prop where
  count : s'.reg .rdx ≠ 0 → (s'.reg .rdx).toNat = text.digits.length
  value : s'.reg .rdx ≠ 0 → (s'.reg .rax).toNat = decimalValue text.digits
  unread : text.digits = [] ∨ 2 ^ 64 ≤ decimalValue text.digits → s'.reg .rdx = 0

/-- The answer of `parse_int`: the digits behind the sign, with the sign. -/
structure ReadSigned (s' : State) : Prop where
  unread : text.signedDigits = [] → s'.reg .rdx = 0
  count : text.signedDigits ≠ [] →
    s'.reg .rdx = BitVec.ofNat 64 (signLength text.bytes + text.signedDigits.length)
  value : text.signedDigits ≠ [] → s'.reg .rax =
    if text.bytes.head? = some 0x2d then -BitVec.ofNat 64 (decimalValue text.signedDigits)
    else BitVec.ofNat 64 (decimalValue text.signedDigits)

/-- `parse_uint` never reports a wrong number for the text. -/
def ParsedUnsigned : Prop :=
  ∀ (sym : Symbols) (P : Program Label), P.block = blocks sym → ∀ s, text.PassedTo s →
    P.Returns .parseUint s text.ReadUnsigned

/-- `parse_int` reads the text when it is called with `r9` as this. -/
def ParsedSigned (r9 : Word) : Prop :=
  ∀ (sym : Symbols) (P : Program Label), P.block = blocks sym → ∀ s, text.PassedTo s →
    s.reg .r9 = r9 → P.Returns .parseInt s text.ReadSigned

/-! ## A call -/

/-- A call with the text at 48, the stack below it and the return address 0. -/
def callState (r9 : Word) : State :=
  ((State.fresh (Memory.store (fun _ => 0) 48 (text.bytes ++ [0])) 40 []).setReg .rdi 48).setReg
    .r9 r9

theorem passedTo_callState (r9 : Word) : text.PassedTo (text.callState r9) := by
  have hfits := text.fits
  refine ⟨CString.of_store text.nonzero (by omega), ?_⟩
  intro x hx
  have hx' : (x - 48#64).toNat < text.bytes.length + 1 := hx
  show 40 ≤ (40#64 - 1 - x).toNat
  bv_omega

/-- The call returns out of the program. -/
theorem goto_callState (r9 : Word) : (inOrder ⟨0, 0, 0, 0⟩).goto
    ((text.callState r9).mem.read64 ((text.callState r9).reg .rsp)) = .outside 0 := by
  have hfits := text.fits
  have hret : (Memory.store (fun _ => 0) 48 (text.bytes ++ [0])).read64 40 =
      Memory.read64 (fun _ => 0) 40 := by
    apply read64_congr
    intro x hx
    apply store_of_le
    rw [List.length_append, List.length_singleton]
    bv_omega
  show (inOrder ⟨0, 0, 0, 0⟩).goto
    ((Memory.store (fun _ => 0) 48 (text.bytes ++ [0])).read64 40) = _
  rw [hret]
  rfl

/-! ## parse_uint -/

theorem length_digits_lt : text.digits.length < 2 ^ 64 := by
  have hle := length_leadingDigits_le text.bytes
  have hfits := text.fits
  unfold digits
  omega

variable {text} {P : Program Label} {sym : Symbols} {s : State}

theorem parseUint_reads (hP : P.block = blocks sym) (hs : text.PassedTo s) :
    P.Returns .parseUint s fun s' =>
      s'.reg .rax = BitVec.ofNat 64 (decimalValue text.digits) ∧
      s'.reg .rdx = BitVec.ofNat 64 text.digits.length := by
  have hlen := length_leadingDigits_le text.bytes
  refine Runs.mono (parseUint_returns hP (digitsAt_leadingDigits hs.string)
    ((hs.clear.mono (by norm_num)).of_le (by omega))) ?_
  rintro c s' ⟨hc, hrsp, hrax, hrdx, -⟩
  exact ⟨hc, hrsp, hrax, hrdx⟩

/-! ## parse_int -/

theorem parseInt_reads (hP : P.block = blocks sym) (hs : text.PassedTo s) :
    P.Returns .parseInt s fun s' =>
      (text.signedDigits = [] → s'.reg .rdx = 0) ∧
      (text.signedDigits ≠ [] →
        s'.reg .rdx = BitVec.ofNat 64 (signLength text.bytes + text.signedDigits.length) ∧
        s'.reg .rax = if text.bytes.head? = some 0x2d ∨
            text.bytes.head? = some 0x2b ∧ s.reg .r9 = 1 then
          -BitVec.ofNat 64 (decimalValue text.signedDigits)
          else BitVec.ofNat 64 (decimalValue text.signedDigits)) := by
  obtain ⟨bytes, nonzero, fits⟩ := text
  obtain ⟨hstring, hclear⟩ := hs
  unfold signedDigits Library.signedDigits
  dsimp only at hstring hclear ⊢
  have hlen := length_leadingDigits_le bytes
  cases bytes with
  | nil =>
      have hzero : s.mem (s.reg .rdi) = 0 := hstring.eq_zero
      refine Runs.mono (parseInt_returns_unsigned hP (by simp [hzero]) (by simp [hzero])
        (digitsAt_leadingDigits hstring) ((hclear.mono (by norm_num)).of_le (by omega))) ?_
      rintro c s' ⟨hc, hrsp, -, hrdx, -⟩
      exact ⟨hc, hrsp, fun _ => hrdx, fun hsome => absurd rfl hsome⟩
  | cons b bytes =>
      have hfirst := hstring.head
      have htail := length_leadingDigits_le bytes
      have hclear' : Clear (s.reg .rdi + 1) (bytes.length + 1) (s.reg .rsp) 40 :=
        Clear.append (i := 1) (by simpa [Nat.add_comm] using hclear) (by simp at fits; omega)
      by_cases hminus : b = 0x2d
      · subst hminus
        have hsign : signLength (0x2d :: bytes) = 1 := rfl
        rw [hsign, List.drop_succ_cons, List.drop_zero]
        refine Runs.mono (parseInt_returns_minus hP hfirst
          (digitsAt_leadingDigits hstring.tail) (hclear'.of_le (by omega))) ?_
        rintro c s' ⟨hc, hrsp, hnone, hsome, -⟩
        exact ⟨hc, hrsp, hnone, by simpa [Nat.add_comm] using hsome⟩
      · by_cases hplus : b = 0x2b
        · subst hplus
          have hsign : signLength (0x2b :: bytes) = 1 := rfl
          rw [hsign, List.drop_succ_cons, List.drop_zero]
          refine Runs.mono (parseInt_returns_plus hP hfirst
            (digitsAt_leadingDigits hstring.tail) (hclear'.of_le (by omega))) ?_
          rintro c s' ⟨hc, hrsp, hnone, hsome, -⟩
          exact ⟨hc, hrsp, hnone, by simpa [Nat.add_comm] using hsome⟩
        · have hnosign : ¬ ((b :: bytes).head? = some 0x2d ∨
              (b :: bytes).head? = some 0x2b ∧ s.reg .r9 = 1) := by
            rintro (h | h)
            · exact hminus (Option.some.inj h)
            · exact hplus (Option.some.inj h.1)
          rw [signLength_cons_of_ne hminus hplus, List.drop_zero, Nat.zero_add, if_neg hnosign]
          refine Runs.mono (parseInt_returns_unsigned hP (by rwa [hfirst]) (by rwa [hfirst])
            (digitsAt_leadingDigits hstring) ((hclear.mono (by norm_num)).of_le (by omega))) ?_
          rintro c s' ⟨hc, hrsp, hrax, hrdx, -⟩
          refine ⟨hc, hrsp, fun hnone => ?_, fun _ => ⟨hrdx, hrax⟩⟩
          rw [hrdx, hnone]
          rfl

end Text

/-- **Which texts `parse_uint` reads right**: those with a number that fits in 64 bits. -/
theorem parsedUnsigned_iff (text : Text) :
    text.ParsedUnsigned ↔ decimalValue text.digits < 2 ^ 64 := by
  have hlen := text.length_digits_lt
  constructor
  · intro hparsed
    by_contra hlarge
    have hcall := text.passedTo_callState 0
    obtain ⟨s', hread, -, hrdx⟩ := Program.Returns.and (text.goto_callState 0)
      (hparsed _ (inOrder ⟨0, 0, 0, 0⟩) rfl _ hcall) (Text.parseUint_reads rfl hcall)
    -- the digits are counted, though the number does not fit
    have hzero := congrArg BitVec.toNat (hrdx.symm.trans (hread.unread (.inr (by omega))))
    rw [BitVec.toNat_ofNat, Nat.mod_eq_of_lt hlen] at hzero
    have hnil : text.digits = [] := List.length_eq_zero_iff.mp hzero
    rw [hnil] at hlarge
    exact hlarge (by decide)
  · intro hfits sym P hP s hs
    refine Runs.mono (Text.parseUint_reads hP hs) ?_
    rintro c s' ⟨hc, hrsp, hrax, hrdx⟩
    refine ⟨hc, hrsp, fun _ => ?_, fun _ => ?_, ?_⟩
    · rw [hrdx, BitVec.toNat_ofNat, Nat.mod_eq_of_lt hlen]
    · rw [hrax, BitVec.toNat_ofNat, Nat.mod_eq_of_lt hfits]
    · rintro (hnone | hlarge)
      · rw [hrdx, hnone]
        rfl
      · omega

/-- `2 ^ 64` is reported as 0. -/
def twoPow64 : Text where
  bytes := ascii "18446744073709551616"
  nonzero := by decide
  fits := by decide

theorem not_parsedUnsigned_twoPow64 : ¬ twoPow64.ParsedUnsigned := by
  intro hparsed
  have hcall := twoPow64.passedTo_callState 0
  obtain ⟨s', hread, hrax, hrdx⟩ := Program.Returns.and (twoPow64.goto_callState 0)
    (hparsed _ (inOrder ⟨0, 0, 0, 0⟩) rfl _ hcall) (Text.parseUint_reads rfl hcall)
  have hvalue := hread.value (by rw [hrdx]; decide)
  rw [hrax] at hvalue
  exact absurd hvalue (by decide)

/-- A number is its negative modulo `2 ^ 64` if it is a multiple of `2 ^ 63`. -/
theorem neg_ofNat_eq_iff (v : ℕ) :
    -BitVec.ofNat 64 v = BitVec.ofNat 64 v ↔ 2 ^ 63 ∣ v := by
  rw [← BitVec.toNat_inj, BitVec.toNat_neg, BitVec.toNat_ofNat]
  omega

/-- **Which texts `parse_int` reads right**, by the content of `r9` at the call: with 1 there, a
number behind a plus sign is negated. -/
theorem parsedSigned_iff (text : Text) (r9 : Word) : text.ParsedSigned r9 ↔
    (r9 = 1 → text.bytes.head? = some 0x2b → 2 ^ 63 ∣ decimalValue text.signedDigits) := by
  constructor
  · rintro hparsed rfl hplus
    have hcall := text.passedTo_callState 1
    obtain ⟨s', hread, -, hsome⟩ := Program.Returns.and (text.goto_callState 1)
      (hparsed _ (inOrder ⟨0, 0, 0, 0⟩) rfl _ hcall rfl) (Text.parseInt_reads rfl hcall)
    by_cases hnone : text.signedDigits = []
    · rw [hnone]
      exact dvd_zero _
    · have hvalue := hread.value hnone
      obtain ⟨-, hrax⟩ := hsome hnone
      rw [hplus] at hvalue hrax
      rw [if_neg (by decide)] at hvalue
      rw [if_pos (.inr ⟨rfl, rfl⟩)] at hrax
      exact (neg_ofNat_eq_iff _).mp (hrax.symm.trans hvalue)
  · intro hplus sym P hP s hs hr9
    refine Runs.mono (Text.parseInt_reads hP hs) ?_
    rintro c s' ⟨hc, hrsp, hnone, hsome⟩
    refine ⟨hc, hrsp, hnone, fun h => (hsome h).1, fun h => ?_⟩
    rw [(hsome h).2]
    by_cases hminus : text.bytes.head? = some 0x2d
    · rw [if_pos hminus, if_pos (.inl hminus)]
    · rw [if_neg hminus]
      split_ifs with hneg
      · obtain ⟨hhead, hone⟩ := hneg.resolve_left hminus
        exact (neg_ofNat_eq_iff _).mpr (hplus (hr9 ▸ hone) hhead)
      · rfl

/-- A positive number with a plus sign. -/
def plusFive : Text where
  bytes := ascii "+5"
  nonzero := by decide
  fits := by decide

/-- With 1 in `r9`, as `parse_int` itself leaves it behind a minus sign, `+5` is -5. -/
theorem not_parsedSigned_plusFive : ¬ plusFive.ParsedSigned 1 := by
  intro hparsed
  have hcall := plusFive.passedTo_callState 1
  obtain ⟨s', hread, -, hsome⟩ := Program.Returns.and (plusFive.goto_callState 1)
    (hparsed _ (inOrder ⟨0, 0, 0, 0⟩) rfl _ hcall rfl) (Text.parseInt_reads rfl hcall)
  have hdigits : plusFive.signedDigits ≠ [] := by decide
  have hvalue := hread.value hdigits
  rw [(hsome hdigits).2] at hvalue
  exact absurd hvalue (by decide)

end LowLevel.Analysis
