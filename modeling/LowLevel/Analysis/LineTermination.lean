import LowLevel.Interface.AssemblyLines

/-!
# When `read_line` returns

The error path looks for a newline. It does not return if none is to come, and it goes over the
line if the newline was the character that ended it.
-/

set_option autoImplicit false

namespace LowLevel.Analysis

open LowLevel.Library LowLevel.Library.X86 LowLevel.Library.X86.Memory
open LowLevel.Program.Assembly LowLevel.Interface.Assembly

/-- `read_line` returns and leaves what is behind the first newline. -/
def TakesOneLine (P : Program Label) (s : State) : Prop :=
  P.Finishes .readLine s fun s' => afterLine s.streams.stdin <:+ s'.streams.stdin

/-- A line of `len` characters ends before the limit of a buffer of `n` bytes, and it is not empty
to the code, which counts in 64 bits. There is no limit for `2 ^ 63` bytes. -/
def Accepted (len n : ℕ) : Prop :=
  0 < len ∧ len < n ∧ n < 2 ^ 63 ∨ n = 2 ^ 63 ∧ len % 2 ^ 64 ≠ 0

/-- The newline behind the first line is read as its end and looked for again. -/
def NewlineTaken (stdin : List Byte) (n : ℕ) : Prop :=
  stdin[(firstLine stdin).length]? = some 0xA ∧ ((firstLine stdin).length = 0 ∨ n = 2 ^ 63)

instance (len n : ℕ) : Decidable (Accepted len n) := inferInstanceAs (Decidable (_ ∨ _))

instance (stdin : List Byte) (n : ℕ) : Decidable (NewlineTaken stdin n) :=
  inferInstanceAs (Decidable (_ ∧ _))

variable {P : Program Label} {sym : Symbols} {s : State} {line rest : List Byte}

/-! ## The error path -/

section Err

variable {i : ℕ} {left : List Byte} {m : Memory} (hP : P.block = blocks sym)
  (hrun : P.RunsIn (fun _ => True) (s.reg .rsp) (.at .readLine 0) s fun c s' =>
    c = .at .readLineErr 0 ∧ Reading s 16 i { s.streams with stdin := left } m s')
include hP hrun

theorem takesOneLine_of_err_iff : TakesOneLine P s ↔
    0xA ∈ left ∧ afterLine s.streams.stdin <:+ afterLine left := by
  by_cases hnewline : 0xA ∈ left
  · have hfinishes : P.Finishes .readLine s fun s' => s'.streams.stdin = afterLine left := by
      refine (readLine_finishes_of_err hP hrun hnewline).mono ?_
      rintro s' ⟨c, hret⟩
      rw [hret.streams]
    constructor
    · intro htakes
      obtain ⟨s', hstdin, hsuffix⟩ := hfinishes.and htakes
      rw [hstdin] at hsuffix
      exact ⟨hnewline, hsuffix⟩
    · rintro ⟨-, hsuffix⟩
      refine hfinishes.mono fun s' hstdin => ?_
      rw [hstdin]
      exact hsuffix
  · exact ⟨fun htakes => absurd htakes (readLine_not_finishes_of_err hP hrun hnewline _),
      fun h => absurd h.1 hnewline⟩

/-- No newline has been read. -/
theorem takesOneLine_iff_mem {before : List Byte} (hbefore : ∀ b ∈ before, b ≠ 0xA)
    (hstdin : s.streams.stdin = before ++ left) : TakesOneLine P s ↔ 0xA ∈ s.streams.stdin := by
  have hmem : 0xA ∈ s.streams.stdin ↔ 0xA ∈ left := by
    rw [hstdin, List.mem_append]
    exact or_iff_right fun h => hbefore _ h rfl
  rw [takesOneLine_of_err_iff hP hrun, hmem, hstdin, afterLine_append hbefore]
  exact and_iff_left List.suffix_rfl

/-- The newline has been read. -/
theorem not_takesOneLine {before : List Byte} (hbefore : ∀ b ∈ before, b ≠ 0xA)
    (hstdin : s.streams.stdin = before ++ 0xA :: left) : ¬ TakesOneLine P s := by
  rw [takesOneLine_of_err_iff hP hrun, hstdin, afterLine_append hbefore, afterLine_newline]
  rintro ⟨hnewline, hsuffix⟩
  exact absurd hsuffix.length_le (Nat.not_le.mpr (length_afterLine_lt hnewline))

end Err

/-! ## The three ends of the line -/

section Ends

variable (hP : P.block = blocks sym) (hstdin : s.streams.stdin = line ++ rest)
  (hline : ∀ b ∈ line, InLine b)
include hP hstdin hline

/-- The line is accepted. -/
theorem takesOneLine_of_accepts (hend : ¬ InLine (rest.headD 0))
    (hfits : ∀ j < line.length, ¬ Exceeds (s.reg .rsi) (j + 1))
    (hne : BitVec.ofNat 64 line.length ≠ 0) : TakesOneLine P s := by
  refine (Returned.finishes (readLine_accepts (A := fun _ => True) hP hline hfits
    (fun _ _ => trivial) hstdin hend hne trivial)).mono ?_
  rintro s' ⟨c, hret⟩
  rw [hret.streams, hstdin, afterLine_append fun b hb => (hline b hb).1]
  show afterLine rest <:+ rest.tail
  rcases rest with _ | ⟨b, rest⟩
  · exact List.suffix_rfl
  · by_cases hb : b = 0xA
    · rw [hb, afterLine_newline]
      exact List.suffix_rfl
    · rw [afterLine_cons hb]
      exact afterLine_suffix rest

/-- The line is refused at its end. -/
theorem takesOneLine_iff_of_refuses (hend : ¬ InLine (rest.headD 0))
    (hfits : ∀ j < line.length, ¬ Exceeds (s.reg .rsi) (j + 1))
    (hzero : BitVec.ofNat 64 line.length = 0) :
    TakesOneLine P s ↔ 0xA ∈ s.streams.stdin ∧ rest.head? ≠ some 0xA := by
  have hrun := readLine_refuses (A := fun _ => True) hP hline hfits (fun _ _ => trivial) hstdin
    hend hzero
  have hbefore : ∀ b ∈ line, b ≠ 0xA := fun b hb => (hline b hb).1
  rcases rest with _ | ⟨b, rest⟩
  · rw [takesOneLine_iff_mem hP hrun hbefore hstdin]
    exact (and_iff_left nofun).symm
  · by_cases hb : b = 0xA
    · rw [hb] at hstdin
      exact ⟨fun htakes => absurd htakes (not_takesOneLine hP hrun hbefore hstdin),
        fun h => absurd (congrArg some hb) h.2⟩
    · have hbefore' : ∀ c ∈ line ++ [b], c ≠ 0xA := by
        intro c hc
        rcases List.mem_append.mp hc with hc | hc
        · exact hbefore c hc
        · rw [List.mem_singleton.mp hc]
          exact hb
      have hsplit : s.streams.stdin = (line ++ [b]) ++ rest := by
        rw [hstdin, List.append_assoc]
        rfl
      rw [takesOneLine_iff_mem hP hrun hbefore' hsplit]
      exact (and_iff_left fun h => hb (Option.some.inj h)).symm

/-- The line is stopped at character `k`. -/
theorem takesOneLine_iff_of_stops {k : ℕ} (hk : k < line.length)
    (hfits : ∀ j < k, ¬ Exceeds (s.reg .rsi) (j + 1)) (hexceeds : Exceeds (s.reg .rsi) (k + 1)) :
    TakesOneLine P s ↔ 0xA ∈ s.streams.stdin := by
  have hbefore : ∀ b ∈ line.take (k + 1), b ≠ 0xA :=
    fun b hb => (hline b (List.mem_of_mem_take hb)).1
  apply takesOneLine_iff_mem hP (readLine_stops hP hstdin hline hk hfits hexceeds) hbefore
  rw [← List.append_assoc, List.take_append_drop, hstdin]

end Ends

/-! ## The condition -/

theorem ofNat_eq_zero_iff (i : ℕ) : BitVec.ofNat 64 i = 0 ↔ i % 2 ^ 64 = 0 := by
  rw [← BitVec.toNat_inj, BitVec.toNat_ofNat]
  rfl

/-- **When `read_line` takes one line**: when the line is accepted, or when there is a newline that
has not been read before the error path looks for it. -/
theorem takesOneLine_iff (hP : P.block = blocks sym) (s : State) : TakesOneLine P s ↔
    Accepted (firstLine s.streams.stdin).length (s.reg .rsi).toNat ∨
      0xA ∈ s.streams.stdin ∧ ¬ NewlineTaken s.streams.stdin (s.reg .rsi).toNat := by
  obtain ⟨rest, hstdin, hend, hline⟩ := firstLine_spec s.streams.stdin
  unfold NewlineTaken
  generalize firstLine s.streams.stdin = line at *
  have hbehind : s.streams.stdin[line.length]? = rest.head? := by
    rw [hstdin, List.getElem?_append_right le_rfl, Nat.sub_self, List.head?_eq_getElem?]
  rw [hbehind]
  have hwrap := ofNat_eq_zero_iff line.length
  by_cases hzero : BitVec.ofNat 64 line.length = 0 ∧
      (line.length = 0 ∨ (s.reg .rsi).toNat = 2 ^ 63)
  · -- the line is refused at its end
    obtain ⟨hzero, hlimit⟩ := hzero
    have hfits : ∀ j < line.length, ¬ Exceeds (s.reg .rsi) (j + 1) :=
      fun j hj => not_exceeds_of_eq (by omega) _
    have hnot : ¬ Accepted line.length (s.reg .rsi).toNat := by
      have hmod := hwrap.mp hzero
      unfold Accepted
      omega
    rw [takesOneLine_iff_of_refuses hP hstdin hline hend hfits hzero, or_iff_right hnot,
      and_iff_left hlimit]
  by_cases haccepted : Accepted line.length (s.reg .rsi).toNat
  · have hfits : ∀ j < line.length, ¬ Exceeds (s.reg .rsi) (j + 1) := by
      intro j hj
      rcases haccepted with ⟨-, hlen, hsmall⟩ | ⟨hlimit, -⟩
      · exact not_exceeds (by omega) hsmall.le
      · exact not_exceeds_of_eq hlimit _
    have hne : BitVec.ofNat 64 line.length ≠ 0 := by
      rw [ne_eq, hwrap]
      unfold Accepted at haccepted
      omega
    exact iff_of_true (takesOneLine_of_accepts hP hstdin hline hend hfits hne) (.inl haccepted)
  · -- the line is stopped, at its first character or where the buffer ends
    have hcount := haccepted
    unfold Accepted at hcount
    rw [hwrap] at hzero
    have hplain : ¬ (rest.head? = some 0xA ∧ (line.length = 0 ∨ (s.reg .rsi).toNat = 2 ^ 63)) := by
      omega
    rw [or_iff_right haccepted, and_iff_left hplain]
    by_cases hneg : (s.reg .rsi).toNat = 0 ∨ 2 ^ 63 < (s.reg .rsi).toNat
    · exact takesOneLine_iff_of_stops hP hstdin hline (show 0 < line.length by omega)
        (fun j hj => absurd hj j.not_lt_zero) (exceeds_of_negative hneg (by norm_num))
    · obtain ⟨k, hk⟩ : ∃ k, (s.reg .rsi).toNat = k + 1 := ⟨(s.reg .rsi).toNat - 1, by omega⟩
      refine takesOneLine_iff_of_stops hP hstdin hline (show k < line.length by omega)
        (fun j hj => not_exceeds (by omega) (by omega)) ?_
      rw [← hk]
      exact exceeds_size (by omega) (by omega)

/-- A line for the buffer of the dictionary. -/
theorem takesOneLine_key : TakesOneLine (inOrder ⟨0, 0, 0, 0⟩) (readerCall 0 256 (ascii "a\nb")) :=
  (takesOneLine_iff rfl _).mpr (.inl (by decide))

/-- At the end of the input `read_line` does not return. -/
theorem not_takesOneLine_end : ¬ TakesOneLine (inOrder ⟨0, 0, 0, 0⟩) (readerCall 0 256 []) := by
  have hstdin : (readerCall 0 256 []).streams.stdin = [] ++ [] := rfl
  rw [takesOneLine_iff_of_refuses rfl hstdin (List.forall_mem_nil InLine) (by decide)
    (fun j hj => absurd hj j.not_lt_zero) rfl]
  exact fun h => absurd h.1 List.not_mem_nil

end LowLevel.Analysis
