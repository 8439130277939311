import LowLevel.Interface.AssemblyLines

/-!
# `read_line` takes one line

A line that fits is in the buffer, any other is refused and read away. The size is compared as a
signed number, so sizes from `2 ^ 63` on are treated as negative, or as no limit at all.
-/

set_option autoImplicit false

namespace LowLevel.Analysis

open LowLevel.Library LowLevel.Library.X86 LowLevel.Library.X86.Memory
open LowLevel.Program.Assembly LowLevel.Interface.Assembly

/-- A call of `read_line` on a line that is not empty, with a buffer apart from the stack that the
routine works on and its return address. -/
structure CallsReadLine (line rest : List Byte) (s : State) : Prop where
  size : 2 ≤ (s.reg .rsi).toNat
  stdin : s.streams.stdin = line ++ 0xA :: rest
  nonempty : line ≠ []
  inLine : ∀ b ∈ line, InLine b
  apart : Clear (s.reg .rdi) (s.reg .rsi).toNat (s.reg .rsp + 8) 48

/-- `read_line` returns to its caller, with the line if it is shorter than the buffer and with
zeros if not, and has taken the line and its newline. -/
def ReadsLine (P : Program Label) (line rest : List Byte) (s : State) : Prop :=
  P.Finishes .readLine s fun s' =>
    s'.mem.read64 (s.reg .rsp) = s.mem.read64 (s.reg .rsp) ∧
    (if line.length ≤ (s.reg .rsi).toNat - 1 then
      s'.reg .rax = s.reg .rdi ∧ s'.reg .rdx = BitVec.ofNat 64 line.length ∧
        s'.mem.Holds (s.reg .rdi) (line ++ [0])
    else s'.reg .rax = 0 ∧ s'.reg .rdx = 0) ∧
    s'.streams.stdin = rest

variable {P : Program Label} {sym : Symbols} {line rest : List Byte} {s : State}

/-! ## Where the limit is -/

/-- The limit does not stop the line, and its length is not zero to the code. -/
theorem readLine_finishes_accepted (hP : P.block = blocks sym) (h : CallsReadLine line rest s)
    (hfits : ∀ j < line.length, ¬ Exceeds (s.reg .rsi) (j + 1))
    (hne : BitVec.ofNat 64 line.length ≠ 0) :
    P.Finishes .readLine s fun s' => ∃ c, Returned P s 16 (s.reg .rdi)
      (BitVec.ofNat 64 line.length) { s.streams with stdin := rest } (accepted s line) c s' :=
  Returned.finishes (readLine_accepts (A := fun _ => True) hP h.inLine hfits (fun _ _ => trivial)
    h.stdin (fun hb => hb.1 rfl) hne trivial)

/-- The limit is hit at character `k`, and the rest of the line is read away. -/
theorem readLine_finishes_stopped (hP : P.block = blocks sym) (h : CallsReadLine line rest s)
    {k : ℕ} (hk : k < line.length) (hfits : ∀ j < k, ¬ Exceeds (s.reg .rsi) (j + 1))
    (hexceeds : Exceeds (s.reg .rsi) (k + 1)) :
    P.Finishes .readLine s fun s' => ∃ c, Returned P s 24 0 0
      { s.streams with stdin := rest }
      (storeChars (pushed s) (s.reg .rdi) (line.take (k + 1))) c s' := by
  have hafter : afterLine (line.drop (k + 1) ++ 0xA :: rest) = rest := by
    rw [afterLine_append fun c hc => (h.inLine c (List.mem_of_mem_drop hc)).1, afterLine_newline]
  have hfinishes := readLine_finishes_of_err hP
    (readLine_stops hP h.stdin h.inLine hk hfits hexceeds) (by simp)
  rw [hafter] at hfinishes
  exact hfinishes

/-- So many characters that the index is zero again: the newline is taken for the end of the line
and looked for once more. -/
theorem readLine_passes_line (hP : P.block = blocks sym) (h : CallsReadLine line rest s)
    (hfits : ∀ j < line.length, ¬ Exceeds (s.reg .rsi) (j + 1))
    (hzero : BitVec.ofNat 64 line.length = 0) :
    ¬ P.Finishes .readLine s fun s' => s'.streams.stdin = rest := by
  intro hfinishes
  have hrun := readLine_refuses (A := fun _ => True) hP h.inLine hfits (fun _ _ => trivial)
    h.stdin (fun hb => hb.1 rfl) hzero
  by_cases hnewline : 0xA ∈ rest
  · obtain ⟨s', ⟨c, hret⟩, hstdin⟩ := (readLine_finishes_of_err hP hrun hnewline).and hfinishes
    have hafter : afterLine rest = rest := (congrArg Streams.stdin hret.streams).symm.trans hstdin
    have hshort := length_afterLine_lt hnewline
    rw [hafter] at hshort
    exact Nat.lt_irrefl _ hshort
  · exact readLine_not_finishes_of_err hP hrun hnewline _ hfinishes

/-! ## The condition -/

theorem readsLine_of_short (hP : P.block = blocks sym) (h : CallsReadLine line rest s)
    (hlen : line.length < (s.reg .rsi).toNat) (hsmall : (s.reg .rsi).toNat ≤ 2 ^ 63) :
    ReadsLine P line rest s := by
  have hpos := List.length_pos_iff.mpr h.nonempty
  have hn : 0 < (s.reg .rsi).toNat := by omega
  refine (readLine_finishes_accepted hP h (fun j hj => not_exceeds (by omega) hsmall)
    (by bv_omega)).mono ?_
  rintro s' ⟨c, hret⟩
  refine ⟨hret.read64_eq (by norm_num)
    fun x hx => accepted_of_clear h.apart hn hlen.le hx, ?_, ?_⟩
  · rw [if_pos (by omega)]
    exact ⟨hret.rax, hret.rdx, hret.holds h.apart hn h.nonempty hlen⟩
  · rw [hret.streams]

/-- A line that is stopped at character `k` is refused. -/
theorem readsLine_of_long (hP : P.block = blocks sym) (h : CallsReadLine line rest s)
    (hlen : (s.reg .rsi).toNat ≤ line.length) {k : ℕ} (hk : k < (s.reg .rsi).toNat)
    (hfits : ∀ j < k, ¬ Exceeds (s.reg .rsi) (j + 1)) (hexceeds : Exceeds (s.reg .rsi) (k + 1)) :
    ReadsLine P line rest s := by
  have hn : 0 < (s.reg .rsi).toNat := by omega
  refine (readLine_finishes_stopped hP h (by omega) hfits hexceeds).mono ?_
  rintro s' ⟨c, hret⟩
  have hstored : (line.take (k + 1)).length ≤ (s.reg .rsi).toNat := by
    rw [List.length_take]
    omega
  refine ⟨hret.read64_eq le_rfl
    fun x hx => storeChars_of_clear h.apart hn hstored hx, ?_, ?_⟩
  · rw [if_neg (by omega)]
    exact ⟨hret.rax, hret.rdx⟩
  · rw [hret.streams]

/-- A negative size refuses a line that would fit. -/
theorem not_readsLine_of_negative (hP : P.block = blocks sym) (h : CallsReadLine line rest s)
    (hlen : line.length < (s.reg .rsi).toNat) (hneg : 2 ^ 63 < (s.reg .rsi).toNat) :
    ¬ ReadsLine P line rest s := by
  intro hreads
  have hpos := List.length_pos_iff.mpr h.nonempty
  obtain ⟨s', ⟨c, hret⟩, -, hresult, -⟩ :=
    (readLine_finishes_stopped hP h hpos (fun j hj => absurd hj j.not_lt_zero)
      (exceeds_of_negative (.inr hneg) (by norm_num))).and hreads
  rw [if_pos (by omega)] at hresult
  have hrdx := hresult.2.1.symm.trans hret.rdx
  have := (s.reg .rsi).isLt
  bv_omega

/-- Without a limit, a line that does not fit is accepted, or passed. -/
theorem not_readsLine_of_unlimited (hP : P.block = blocks sym) (h : CallsReadLine line rest s)
    (hlen : (s.reg .rsi).toNat ≤ line.length) (hlimit : (s.reg .rsi).toNat = 2 ^ 63) :
    ¬ ReadsLine P line rest s := by
  intro hreads
  have hfits : ∀ j < line.length, ¬ Exceeds (s.reg .rsi) (j + 1) :=
    fun j _ => not_exceeds_of_eq hlimit _
  by_cases hzero : BitVec.ofNat 64 line.length = 0
  · exact readLine_passes_line hP h hfits hzero (hreads.mono fun _ hs' => hs'.2.2)
  · obtain ⟨s', ⟨c, hret⟩, -, hresult, -⟩ :=
      (readLine_finishes_accepted hP h hfits hzero).and hreads
    rw [if_neg (by omega)] at hresult
    exact hzero (hret.rdx.symm.trans hresult.2)

/-- **When `read_line` takes one line**: for every size below `2 ^ 63`; for `2 ^ 63` when the line
fits, and for a negative size when it does not. -/
theorem readsLine_iff (hP : P.block = blocks sym) (h : CallsReadLine line rest s) :
    ReadsLine P line rest s ↔ (s.reg .rsi).toNat < 2 ^ 63 ∨
      (s.reg .rsi).toNat = 2 ^ 63 ∧ line.length < (s.reg .rsi).toNat ∨
      2 ^ 63 < (s.reg .rsi).toNat ∧ (s.reg .rsi).toNat ≤ line.length := by
  have hsize := h.size
  constructor
  · intro hreads
    by_contra hcond
    rcases Nat.lt_trichotomy (s.reg .rsi).toNat (2 ^ 63) with hlt | heq | hgt
    · exact hcond (.inl hlt)
    · exact not_readsLine_of_unlimited hP h (by omega) heq hreads
    · exact not_readsLine_of_negative hP h (by omega) hgt hreads
  · rintro (hlt | ⟨heq, hlen⟩ | ⟨hgt, hlen⟩)
    · by_cases hlen : line.length < (s.reg .rsi).toNat
      · exact readsLine_of_short hP h hlen hlt.le
      · obtain ⟨k, hk⟩ : ∃ k, (s.reg .rsi).toNat = k + 1 := ⟨(s.reg .rsi).toNat - 1, by omega⟩
        refine readsLine_of_long hP h (by omega) (show k < _ by omega)
          (fun j hj => not_exceeds (by omega) hlt.le) ?_
        rw [← hk]
        exact exceeds_size (by omega) hlt
    · exact readsLine_of_short hP h hlen heq.le
    · exact readsLine_of_long hP h hlen (show 0 < _ by omega)
        (fun j hj => absurd hj j.not_lt_zero) (exceeds_of_negative (.inr hgt) (by norm_num))

/-- A line of one character, and a second line. -/
theorem callsReadLine_readerCall {n : Word} (hsize : 2 ≤ n.toNat) (hroom : n.toNat + 48 ≤ 2 ^ 64) :
    CallsReadLine (ascii "a") (ascii "b\n") (readerCall 0 n (ascii "a\nb\n")) where
  size := hsize
  stdin := rfl
  nonempty := by decide
  inLine := by decide
  apart := clear_readerCall hroom

theorem readsLine_two : ReadsLine (inOrder ⟨0, 0, 0, 0⟩) (ascii "a") (ascii "b\n")
    (readerCall 0 2 (ascii "a\nb\n")) :=
  (readsLine_iff rfl (callsReadLine_readerCall (by decide) (by decide))).mpr (.inl (by decide))

/-- A buffer of `2 ^ 63 + 1` bytes does not take a line of one character. -/
theorem not_readsLine_large : ¬ ReadsLine (inOrder ⟨0, 0, 0, 0⟩) (ascii "a") (ascii "b\n")
    (readerCall 0 0x8000000000000001 (ascii "a\nb\n")) :=
  not_readsLine_of_negative rfl (callsReadLine_readerCall (by decide) (by decide)) (by decide)
    (by decide)

end LowLevel.Analysis
