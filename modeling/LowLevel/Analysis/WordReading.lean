import LowLevel.Interface.AssemblyWords

/-!
# The words that `read_word` accepts

The size less one is compared before the store, so a word as long as the buffer is accepted, and
its end is behind the buffer. The comparison is a signed one.
-/

set_option autoImplicit false

namespace LowLevel.Analysis

open LowLevel.Library LowLevel.Library.X86 LowLevel.Library.X86.Memory
open LowLevel.Program.Assembly LowLevel.Interface.Assembly

/-- The size of a buffer that has a place beside the stack of `read_word`, the return address
included. -/
structure BufferSize where
  bytes : ℕ
  pos : 1 ≤ bytes
  fits : bytes + 48 ≤ 2 ^ 64

/-- A call of `read_word` with a buffer of this size, apart from the stack. -/
structure CallsReadWord (size : BufferSize) (stdin : List Byte) (s : State) : Prop where
  rsi : (s.reg .rsi).toNat = size.bytes
  input : s.streams.stdin = stdin
  apart : Clear (s.reg .rdi) size.bytes (s.reg .rsp + 8) 48

/-- The word is returned, or zeros if it is empty or does not fit. -/
def WordRead (size : BufferSize) (stdin : List Byte) (s s' : State) : Prop :=
  if firstWord stdin = [] ∨ size.bytes - 1 < (firstWord stdin).length then
    s'.reg .rax = 0 ∧ s'.reg .rdx = 0
  else
    s'.reg .rax = s.reg .rdi ∧ s'.reg .rdx = BitVec.ofNat 64 (firstWord stdin).length ∧
      s'.mem.Holds (s.reg .rdi) (firstWord stdin ++ [0]) ∧
      s'.streams.stdin = (skipWhite stdin).drop ((firstWord stdin).length + 1)

/-- `read_word` comes to its return, with the return address in place, and has read the word,
wherever the program and the buffer are. -/
def ReadsWord (size : BufferSize) (stdin : List Byte) : Prop :=
  ∀ (sym : Symbols) (P : Program Label), P.block = blocks sym → ∀ s, CallsReadWord size stdin s →
    P.Finishes .readWord s fun s' =>
      s'.mem.read64 (s.reg .rsp) = s.mem.read64 (s.reg .rsp) ∧ WordRead size stdin s s'

variable {P : Program Label} {sym : Symbols} {size : BufferSize} {stdin : List Byte} {s : State}

/-! ## Runs -/

/-- A word that the limit does not stop and whose length is not zero to the code. -/
theorem readWord_finishes_accepted (hP : P.block = blocks sym) (h : CallsReadWord size stdin s)
    (hfits : ∀ j < (firstWord stdin).length, ¬ Exceeds (s.reg .rsi) j)
    (hne : BitVec.ofNat 64 (firstWord stdin).length ≠ 0) :
    P.Finishes .readWord s fun s' => ∃ c, Returned P s 16 (s.reg .rdi)
      (BitVec.ofNat 64 (firstWord stdin).length)
      { s.streams with stdin := (skipWhite stdin).drop ((firstWord stdin).length + 1) }
      (accepted s (firstWord stdin)) c s' := by
  obtain ⟨rest, hsplit, hend, hcs⟩ := firstWord_spec stdin
  have hbehind : (skipWhite stdin).drop ((firstWord stdin).length + 1) = rest.tail := by
    conv_lhs => rw [hsplit]
    rw [List.drop_length_add_append, List.drop_one]
  have hstdin : skipWhite s.streams.stdin = firstWord stdin ++ rest := by rw [h.input, hsplit]
  rw [hbehind]
  exact Returned.finishes (readWord_accepts (A := fun _ => True) hP hcs hfits (fun _ _ => trivial)
    hstdin hend hne trivial)

/-- A word that is refused at its end. -/
theorem readWord_finishes_refused (hP : P.block = blocks sym) (h : CallsReadWord size stdin s)
    (hfits : ∀ j < (firstWord stdin).length, ¬ Exceeds (s.reg .rsi) j)
    (hzero : BitVec.ofNat 64 (firstWord stdin).length = 0) :
    P.Finishes .readWord s fun s' => ∃ c st, Returned P s 16 0 0 st
      (storeChars (pushed s) (s.reg .rdi) (firstWord stdin)) c s' := by
  obtain ⟨rest, hsplit, hend, hcs⟩ := firstWord_spec stdin
  have hstdin : skipWhite s.streams.stdin = firstWord stdin ++ rest := by rw [h.input, hsplit]
  refine (Returned.finishes (readWord_refuses (A := fun _ => True) hP hcs hfits
    (fun _ _ => trivial) hstdin hend hzero)).mono ?_
  rintro s' ⟨c, hret⟩
  exact ⟨c, _, hret⟩

/-- A word that the limit stops at character `k`. -/
theorem readWord_finishes_stopped (hP : P.block = blocks sym) (h : CallsReadWord size stdin s)
    {k : ℕ} (hk : k < (firstWord stdin).length) (hfits : ∀ j < k, ¬ Exceeds (s.reg .rsi) j)
    (hexceeds : Exceeds (s.reg .rsi) k) :
    P.Finishes .readWord s fun s' => ∃ c st, Returned P s 16 0 0 st
      (storeChars (pushed s) (s.reg .rdi) ((firstWord stdin).take k)) c s' := by
  obtain ⟨rest, hsplit, -, hcs⟩ := firstWord_spec stdin
  have hstdin : skipWhite s.streams.stdin = firstWord stdin ++ rest := by rw [h.input, hsplit]
  refine (Returned.finishes (readWord_stops hP hstdin hcs hk hfits hexceeds)).mono ?_
  rintro s' ⟨c, hret⟩
  exact ⟨c, _, hret⟩

/-! ## Words that are read -/

/-- Zeros are returned where zeros are due, after `k` characters. -/
theorem wordRead_of_zeros (h : CallsReadWord size stdin s) {k : ℕ} (hk : k ≤ size.bytes)
    (hzeros : firstWord stdin = [] ∨ size.bytes - 1 < (firstWord stdin).length)
    (hfinishes : P.Finishes .readWord s fun s' => ∃ c st, Returned P s 16 0 0 st
      (storeChars (pushed s) (s.reg .rdi) ((firstWord stdin).take k)) c s') :
    P.Finishes .readWord s fun s' =>
      s'.mem.read64 (s.reg .rsp) = s.mem.read64 (s.reg .rsp) ∧ WordRead size stdin s s' := by
  refine hfinishes.mono ?_
  rintro s' ⟨c, st, hret⟩
  have hlen : ((firstWord stdin).take k).length ≤ size.bytes := by
    rw [List.length_take]
    omega
  refine ⟨hret.read64_eq (by norm_num)
    fun x hx => storeChars_of_clear h.apart size.pos hlen hx, ?_⟩
  unfold WordRead
  rw [if_pos hzeros]
  exact ⟨hret.rax, hret.rdx⟩

/-- A word that is shorter than the buffer is returned. -/
theorem wordRead_of_short (hP : P.block = blocks sym) (h : CallsReadWord size stdin s)
    (hne : firstWord stdin ≠ [])
    (hlen : (firstWord stdin).length < size.bytes) (hsmall : size.bytes ≤ 2 ^ 63) :
    P.Finishes .readWord s fun s' =>
      s'.mem.read64 (s.reg .rsp) = s.mem.read64 (s.reg .rsp) ∧ WordRead size stdin s s' := by
  have hpos := List.length_pos_iff.mpr hne
  have hrsi := h.rsi
  refine (readWord_finishes_accepted hP h (fun j hj => not_exceeds (by omega) (by omega))
    (by bv_omega)).mono ?_
  rintro s' ⟨c, hret⟩
  refine ⟨hret.read64_eq (by norm_num)
    fun x hx => accepted_of_clear h.apart size.pos hlen.le hx, ?_⟩
  unfold WordRead
  rw [if_neg (by rintro (hnil | hlong); exacts [hne hnil, by omega])]
  exact ⟨hret.rax, hret.rdx, hret.holds h.apart size.pos hne hlen, by rw [hret.streams]⟩

/-- Where the code reads the word of every call. -/
theorem readsWord_of_fits (hfit : firstWord stdin = [] ∨
      size.bytes < 2 ^ 63 ∧ (firstWord stdin).length ≠ size.bytes ∨
      size.bytes = 2 ^ 63 ∧ (firstWord stdin).length < size.bytes ∨
      2 ^ 63 < size.bytes ∧ size.bytes ≤ (firstWord stdin).length) : ReadsWord size stdin := by
  intro sym P hP s h
  have hrsi := h.rsi
  have hsize := size.pos
  by_cases hempty : firstWord stdin = []
  · have hlen : (firstWord stdin).length = 0 := List.length_eq_zero_iff.mpr hempty
    have hfinishes := readWord_finishes_refused hP h (fun j hj => by omega) (by rw [hlen]; rfl)
    exact wordRead_of_zeros h (Nat.zero_le _) (.inl hempty) (by rwa [hempty] at hfinishes ⊢)
  · have hpos := List.length_pos_iff.mpr hempty
    rcases hfit with hnil | ⟨hsmall, hne⟩ | ⟨hlimit, hlen⟩ | ⟨hneg, hlen⟩
    · exact absurd hnil hempty
    · rcases Nat.lt_or_gt_of_ne hne with hlt | hgt
      · exact wordRead_of_short hP h hempty hlt hsmall.le
      · refine wordRead_of_zeros h le_rfl (.inr (by omega)) (readWord_finishes_stopped hP h hgt
          (fun j hj => not_exceeds (by omega) (by omega)) ?_)
        rw [← hrsi]
        exact exceeds_size (by omega) (by omega)
    · exact wordRead_of_short hP h hempty hlen hlimit.le
    · exact wordRead_of_zeros h (Nat.zero_le _) (.inr (by omega)) (readWord_finishes_stopped hP h
        hpos (fun j hj => absurd hj j.not_lt_zero)
        (exceeds_of_negative (.inr (by omega)) (by norm_num)))

/-! ## Words that are not read -/

/-- Some call, with newlines all over the memory. -/
theorem callsReadWord_readerCall (size : BufferSize) (stdin : List Byte) :
    CallsReadWord size stdin (readerCall 0xA (BitVec.ofNat 64 size.bytes) stdin) := by
  have hfits := size.fits
  have hvalue : (BitVec.ofNat 64 size.bytes).toNat = size.bytes := by
    rw [BitVec.toNat_ofNat, Nat.mod_eq_of_lt (by omega)]
  exact ⟨hvalue, rfl, (clear_readerCall (by omega)).of_le hvalue.ge⟩

section NotRead

variable (hP : P.block = blocks sym) (h : CallsReadWord size stdin s)
  (hreads : P.Finishes .readWord s fun s' =>
    s'.mem.read64 (s.reg .rsp) = s.mem.read64 (s.reg .rsp) ∧ WordRead size stdin s s')
include hP h hreads

/-- A word that is too long is not stopped. -/
theorem not_read_of_long (hlen : size.bytes ≤ (firstWord stdin).length)
    (hfits : ∀ j < (firstWord stdin).length, ¬ Exceeds (s.reg .rsi) j)
    (hne : BitVec.ofNat 64 (firstWord stdin).length ≠ 0) : False := by
  have hsize := size.pos
  obtain ⟨s', ⟨c, hret⟩, -, hword⟩ := (readWord_finishes_accepted hP h hfits hne).and hreads
  unfold WordRead at hword
  rw [if_pos (.inr (by omega))] at hword
  exact hne (hret.rdx.symm.trans hword.2)

/-- A negative size stops a word that would fit. -/
theorem not_read_of_negative (hne : firstWord stdin ≠ [])
    (hlen : (firstWord stdin).length < size.bytes) (hneg : 2 ^ 63 < size.bytes) : False := by
  have hpos := List.length_pos_iff.mpr hne
  have hrsi := h.rsi
  have hfits := size.fits
  obtain ⟨s', ⟨c, st, hret⟩, -, hword⟩ := (readWord_finishes_stopped hP h hpos
    (fun j hj => absurd hj j.not_lt_zero)
    (exceeds_of_negative (.inr (by omega)) (by norm_num))).and hreads
  unfold WordRead at hword
  rw [if_neg (by rintro (hnil | hlong); exacts [hne hnil, by omega])] at hword
  have hrdx := hword.2.1.symm.trans hret.rdx
  bv_omega

/-- A word that goes once around the memory, or more often, overwrites the return address. -/
theorem not_read_of_around (hfits : ∀ j < (firstWord stdin).length, ¬ Exceeds (s.reg .rsi) j)
    (hlong : 2 ^ 64 ≤ (firstWord stdin).length)
    (hzero : BitVec.ofNat 64 (firstWord stdin).length = 0) (hmem : s.mem (s.reg .rsp) = 0xA) :
    False := by
  obtain ⟨s', ⟨c, st, hret⟩, haddr, -⟩ := (readWord_finishes_refused hP h hfits hzero).and hreads
  obtain ⟨rest, -, -, hcs⟩ := firstWord_spec stdin
  have hline : ∀ b ∈ firstWord stdin, b ≠ 0xA :=
    fun b hb hnewline => (hcs b hb).1 (.inr (.inr hnewline))
  have hstored : storeChars (pushed s) (s.reg .rdi) (firstWord stdin) (s.reg .rsp) ≠ 0xA :=
    storeChars_of_lt (p := (· ≠ 0xA)) (by decide) hline
      ((s.reg .rsp - s.reg .rdi).isLt.trans_le hlong)
  have hkept : s'.mem (s.reg .rsp) = 0xA := by
    rw [← setWidth_read64 s'.mem, haddr, setWidth_read64, hmem]
  rw [hret.mem _ (by bv_omega)] at hkept
  exact hstored hkept

end NotRead

/-- **The words that `read_word` reads**: those that are not as long as the buffer, when the size is
less than `2 ^ 63`. -/
theorem readsWord_iff (size : BufferSize) (stdin : List Byte) : ReadsWord size stdin ↔
    firstWord stdin = [] ∨ size.bytes < 2 ^ 63 ∧ (firstWord stdin).length ≠ size.bytes ∨
      size.bytes = 2 ^ 63 ∧ (firstWord stdin).length < size.bytes ∨
      2 ^ 63 < size.bytes ∧ size.bytes ≤ (firstWord stdin).length := by
  refine ⟨fun hreads => ?_, readsWord_of_fits⟩
  by_contra hcond
  have hsize := size.pos
  have hcall := callsReadWord_readerCall size stdin
  have hread := hreads _ (inOrder ⟨0, 0, 0, 0⟩) rfl _ hcall
  have hrsi := hcall.rsi
  have hne : firstWord stdin ≠ [] := fun hnil => hcond (.inl hnil)
  rcases Nat.lt_trichotomy size.bytes (2 ^ 63) with hlt | heq | hgt
  · -- a word as long as the buffer
    have hlen : (firstWord stdin).length = size.bytes := by
      by_contra hother
      exact hcond (.inr (.inl ⟨hlt, hother⟩))
    exact not_read_of_long rfl hcall hread hlen.ge
      (fun j hj => not_exceeds (by omega) (by omega)) (by bv_omega)
  · have hlen : size.bytes ≤ (firstWord stdin).length := by
      by_contra hshort
      exact hcond (.inr (.inr (.inl ⟨heq, Nat.not_le.mp hshort⟩)))
    have hfits : ∀ j < (firstWord stdin).length, ¬ Exceeds _ j :=
      fun j _ => not_exceeds_of_eq (hrsi.trans heq) j
    by_cases hzero : BitVec.ofNat 64 (firstWord stdin).length = 0
    · exact not_read_of_around rfl hcall hread hfits (by bv_omega) hzero rfl
    · exact not_read_of_long rfl hcall hread hlen hfits hzero
  · have hlen : (firstWord stdin).length < size.bytes := by
      by_contra hlong
      exact hcond (.inr (.inr (.inr ⟨hgt, Nat.not_lt.mp hlong⟩)))
    exact not_read_of_negative rfl hcall hread hne hlen hgt

/-- A buffer of four bytes. -/
def fourBytes : BufferSize where
  bytes := 4
  pos := by norm_num
  fits := by norm_num

/-- A word of four characters is accepted into a buffer of four bytes. -/
theorem not_readsWord_four : ¬ ReadsWord fourBytes (ascii "abcd ") := by
  intro hreads
  have hcall := callsReadWord_readerCall fourBytes (ascii "abcd ")
  have hfour : (firstWord (ascii "abcd ")).length = 4 := by decide
  refine not_read_of_long rfl hcall (hreads _ (inOrder ⟨0, 0, 0, 0⟩) rfl _ hcall) hfour.ge ?_
    (by rw [hfour]; decide)
  intro j hj
  rw [hfour] at hj
  exact not_exceeds (hj.trans_eq hcall.rsi.symm) (by rw [hcall.rsi]; decide)

end LowLevel.Analysis
