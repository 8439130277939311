import LowLevel.Interface.AssemblyCopying

/-!
# What `string_copy` leaves of the memory

A string that fits is copied with its NUL, and one that does not fit is not copied at all. The
registers are saved on the stack in both cases, so the 32 bytes below the stack pointer are not
as before, and a string that stood there would not be the same. The lengths are compared as signed
numbers: a string of `2 ^ 63` bytes is shorter than every buffer.
-/

set_option autoImplicit false

namespace LowLevel.Analysis

open LowLevel.Library LowLevel.Library.X86 LowLevel.Library.X86.Memory
open LowLevel.Program.Assembly LowLevel.Interface.Assembly

/-- A call of `string_copy` with the string `bs` and a buffer of `n` bytes that it is not in. -/
structure CallsStringCopy (s : State) (bs : List Byte) (n : ℕ) : Prop where
  string : CString s.mem (s.reg .rdi) bs
  size : (s.reg .rdx).toNat = n
  pos : 1 ≤ n
  small : n < 2 ^ 63
  apart : ∀ x : Word, (x - s.reg .rsi).toNat < n → bs.length < (x - s.reg .rdi).toNat

/-- Between `s` and `s'` the string has been copied, or nothing has. The `k` bytes below the stack
pointer are left open. -/
structure CopiedAllOrNothing (s : State) (bs : List Byte) (n k : ℕ) (s' : State) : Prop where
  all : bs.length ≤ n - 1 → s'.reg .rax = BitVec.ofNat 64 bs.length ∧
    s'.mem.Holds (s.reg .rsi) (bs ++ [0]) ∧
    ∀ x : Word, bs.length + 1 ≤ (x - s.reg .rsi).toNat → k ≤ (s.reg .rsp - 1 - x).toNat →
      s'.mem x = s.mem x
  nothing : n ≤ bs.length → s'.reg .rax = 0 ∧ OnlyBelow s.mem s'.mem (s.reg .rsp) k
  source : CString s'.mem (s.reg .rdi) bs

variable {P : Program Label} {sym : Symbols} {s : State} {bs : List Byte} {n : ℕ}

theorem CallsStringCopy.behind (h : CallsStringCopy s bs n) :
    bs.length < (s.reg .rsi - s.reg .rdi).toNat := by
  apply h.apart
  rw [BitVec.sub_self]
  exact h.pos

/-! ## The two ends -/

/-- The string is shorter than the buffer. -/
theorem copiedAll (h : CallsStringCopy s bs n)
    (hclear : Clear (s.reg .rdi) (bs.length + 1) (s.reg .rsp) 32) (hlen : bs.length < n)
    {s' : State} (hrax : s'.reg .rax = BitVec.ofNat 64 bs.length)
    (hmem : s'.mem = (copyPushed P s).store (s.reg .rsi) (bs ++ [0])) :
    CopiedAllOrNothing s bs n 32 s' := by
  have hsmall := h.small
  have hlength : (bs ++ [0]).length = bs.length + 1 := by
    rw [List.length_append, List.length_singleton]
  constructor
  case all =>
    intro _
    refine ⟨hrax, ?_, ?_⟩
    · rw [hmem]
      exact bytes_store (by omega)
    · intro x hx hbelow
      rw [hmem, store_of_le (by omega)]
      exact onlyBelow_copyPushed P s x hbelow
  case nothing =>
    intro hlong
    omega
  case source =>
    refine h.string.congr fun x hx => ?_
    have hfar : bs.length + 1 ≤ (x - s.reg .rsi).toNat := by
      by_contra hnear
      have := h.apart x (by omega)
      omega
    rw [hmem, store_of_le (by omega)]
    exact onlyBelow_copyPushed P s x (hclear x hx)

/-- The string is as long as the buffer or longer. -/
theorem copiedNothing (h : CallsStringCopy s bs n)
    (hclear : Clear (s.reg .rdi) (bs.length + 1) (s.reg .rsp) 32) (hlen : n ≤ bs.length)
    {s' : State} (hrax : s'.reg .rax = 0) (hmem : s'.mem = copyPushed P s) :
    CopiedAllOrNothing s bs n 32 s' := by
  have hpos := h.pos
  constructor
  case all =>
    intro hshort
    omega
  case nothing =>
    intro _
    rw [hmem]
    exact ⟨hrax, onlyBelow_copyPushed P s⟩
  case source =>
    rw [hmem]
    exact h.string.of_onlyBelow (onlyBelow_copyPushed P s) hclear

/-! ## Calls -/

/-- A call with the string at `src`, a buffer in the upper half of the memory and the stack pointer
behind it. -/
def copyCall (src n : Word) (mem : Memory) : State :=
  (((State.fresh mem 0x8000000000002000 []).setReg .rdi src).setReg .rsi
    0x8000000000001000).setReg .rdx n

theorem callsStringCopy_copyCall {src size : Word} {mem : Memory} (hstr : CString mem src bs)
    (hpos : 1 ≤ size.toNat) (hsmall : size.toNat < 2048)
    (hapart : ∀ x : Word, (x - 0x8000000000001000#64).toNat < 2048 →
      bs.length < (x - src).toNat) :
    CallsStringCopy (copyCall src size mem) bs size.toNat where
  string := hstr
  size := rfl
  pos := hpos
  small := by omega
  apart x hx := hapart x (Nat.lt_trans hx hsmall)

/-- The memory with `A` at zero. -/
def letterMemory : Memory := Memory.store (fun _ => 0) 0 (ascii "A" ++ [0])

theorem cstring_letterMemory : CString letterMemory 0 (ascii "A") :=
  CString.of_store (by decide) (by decide)

theorem callsStringCopy_letter {size : Word} (hpos : 1 ≤ size.toNat) (hsmall : size.toNat < 2048) :
    CallsStringCopy (copyCall 0 size letterMemory) (ascii "A") size.toNat := by
  refine callsStringCopy_copyCall cstring_letterMemory hpos hsmall ?_
  intro x hx
  show 1 < (x - 0#64).toNat
  bv_omega

theorem clear_letter (size : Word) : Clear ((copyCall 0 size letterMemory).reg .rdi)
    ((ascii "A").length + 1) ((copyCall 0 size letterMemory).reg .rsp) 32 := by
  intro x hx
  have hx' : (x - 0#64).toNat < 2 := hx
  show 32 ≤ (0x8000000000002000#64 - 1 - x).toNat
  bv_omega

/-! ## All or nothing -/

/-- **All or nothing**: a string of less than `2 ^ 63` bytes that is not in the 32 bytes below the
stack pointer is copied with its NUL, or refused. -/
theorem stringCopy_allOrNothing (hP : P.block = blocks sym) (h : CallsStringCopy s bs n)
    (hshort : bs.length < 2 ^ 63)
    (hclear : Clear (s.reg .rdi) (bs.length + 1) (s.reg .rsp) 32) :
    P.Finishes .stringCopy s (CopiedAllOrNothing s bs n 32) := by
  have hstr := h.string.of_onlyBelow (onlyBelow_copyPushed P s) hclear
  have hsize := h.size
  have hsmall := h.small
  by_cases hlen : bs.length < n
  · refine (stringCopy_copies hP hstr h.behind (not_exceeds (by omega) (by omega))).mono ?_
    rintro s' ⟨hrax, hmem⟩
    exact copiedAll h hclear hlen hrax hmem
  · have hpos := h.pos
    refine (stringCopy_refuses hP hstr (exceeds_of_le (by omega) (by omega) hshort)).mono ?_
    rintro s' ⟨hrax, hmem⟩
    exact copiedNothing h hclear (by omega) hrax hmem

/-- A letter is copied to a buffer of two bytes. -/
theorem stringCopy_allOrNothing_letter : (inOrder ⟨0, 0, 0, 0⟩).Finishes .stringCopy
    (copyCall 0 2 letterMemory)
    (CopiedAllOrNothing (copyCall 0 2 letterMemory) (ascii "A") 2 32) :=
  stringCopy_allOrNothing rfl (callsStringCopy_letter (by decide) (by decide))
    (by decide) (clear_letter 2)

/-! ## What is not as it was -/

/-- A buffer of one byte is too small, and its size has been saved on the stack. -/
theorem not_copiedAllOrNothing_letter : ¬ (inOrder ⟨0, 0, 0, 0⟩).Finishes .stringCopy
    (copyCall 0 1 letterMemory)
    (CopiedAllOrNothing (copyCall 0 1 letterMemory) (ascii "A") 1 0) := by
  intro hfinishes
  obtain ⟨s', hcopied, -, hmem⟩ := hfinishes.and (stringCopy_refuses (P := inOrder ⟨0, 0, 0, 0⟩) rfl
    (cstring_letterMemory.of_onlyBelow (onlyBelow_copyPushed _ _) (clear_letter 1)) (by decide))
  have hsaved := (copyPushed_saved (inOrder ⟨0, 0, 0, 0⟩) (copyCall 0 1 letterMemory)).2.2
  rw [← hmem, read64_congr fun x _ => (hcopied.nothing (by decide)).2 x (Nat.zero_le _)] at hsaved
  exact absurd hsaved (by decide)

/-- An empty string below the stack pointer, where the size is saved. -/
theorem callsStringCopy_stack :
    CallsStringCopy (copyCall 0x8000000000001ff8 1 fun _ => 0) [] 1 := by
  refine callsStringCopy_copyCall ⟨rfl, List.forall_mem_nil _, by decide⟩ (by decide)
    (by decide) ?_
  intro x hx
  show 1 ≤ (x - 0x8000000000001ff8#64).toNat
  bv_omega

theorem not_copiedAllOrNothing_stack : ¬ (inOrder ⟨0, 0, 0, 0⟩).Finishes .stringCopy
    (copyCall 0x8000000000001ff8 1 fun _ => 0)
    (CopiedAllOrNothing (copyCall 0x8000000000001ff8 1 fun _ => 0) [] 1 32) := by
  intro hfinishes
  have hpushed : CString (copyPushed (inOrder ⟨0, 0, 0, 0⟩)
      (copyCall 0x8000000000001ff8 1 fun _ => 0)) 0x8000000000001ff8 [1] :=
    ⟨rfl, by decide, by decide⟩
  obtain ⟨s', hcopied, -, hmem⟩ := hfinishes.and (stringCopy_refuses rfl hpushed (by decide))
  have hnul := hcopied.source.eq_zero
  rw [hmem] at hnul
  exact absurd (hpushed.head.symm.trans hnul) (by decide)

section Long

/-- A call with the string at zero and a buffer of one byte. -/
def longCall (bs : List Byte) : State :=
  copyCall 0 1 (Memory.store (fun _ => 0) 0 (bs ++ [0]))

variable (hlen : bs.length = 2 ^ 63) (hnonzero : ∀ b ∈ bs, b ≠ 0)
include hlen hnonzero

theorem callsStringCopy_long : CallsStringCopy (longCall bs) bs 1 := by
  refine callsStringCopy_copyCall (CString.of_store hnonzero (by omega)) (by decide)
    (by decide) ?_
  intro x hx
  rw [hlen]
  bv_omega

/-- `2 ^ 63` characters are copied to it. -/
theorem not_copiedAllOrNothing_long : ¬ (inOrder ⟨0, 0, 0, 0⟩).Finishes .stringCopy (longCall bs)
    (CopiedAllOrNothing (longCall bs) bs 1 32) := by
  intro hfinishes
  have hcall := callsStringCopy_long hlen hnonzero
  have hclear : Clear ((longCall bs).reg .rdi) (bs.length + 1) ((longCall bs).reg .rsp) 32 := by
    intro x hx
    have hx' : (x - 0#64).toNat < bs.length + 1 := hx
    show 32 ≤ (0x8000000000002000#64 - 1 - x).toNat
    bv_omega
  have hfits : ¬ Exceeds ((longCall bs).reg .rdx) bs.length := by
    rw [hlen]
    show ¬ Exceeds 1 (2 ^ 63)
    decide
  obtain ⟨s', hcopied, hrax, -⟩ := hfinishes.and (stringCopy_copies (P := inOrder ⟨0, 0, 0, 0⟩) rfl
    (hcall.string.of_onlyBelow (onlyBelow_copyPushed _ _) hclear) hcall.behind hfits)
  have hzero := (hcopied.nothing (by omega)).1
  rw [hrax, hlen] at hzero
  exact absurd hzero (by decide)

end Long

/-- **The memory is not as it was**: the registers are saved on the stack even when nothing is
copied, a string in the stack is written over, and `2 ^ 63` characters are copied to one byte. -/
theorem not_copiedAllOrNothing :
    (CallsStringCopy (copyCall 0 1 letterMemory) (ascii "A") 1 ∧
      ¬ (inOrder ⟨0, 0, 0, 0⟩).Finishes .stringCopy (copyCall 0 1 letterMemory)
        (CopiedAllOrNothing (copyCall 0 1 letterMemory) (ascii "A") 1 0)) ∧
    (CallsStringCopy (copyCall 0x8000000000001ff8 1 fun _ => 0) [] 1 ∧
      ¬ (inOrder ⟨0, 0, 0, 0⟩).Finishes .stringCopy (copyCall 0x8000000000001ff8 1 fun _ => 0)
        (CopiedAllOrNothing (copyCall 0x8000000000001ff8 1 fun _ => 0) [] 1 32)) ∧
    (CallsStringCopy (longCall (List.replicate (2 ^ 63) 65)) (List.replicate (2 ^ 63) 65) 1 ∧
      ¬ (inOrder ⟨0, 0, 0, 0⟩).Finishes .stringCopy (longCall (List.replicate (2 ^ 63) 65))
        (CopiedAllOrNothing (longCall (List.replicate (2 ^ 63) 65)) (List.replicate (2 ^ 63) 65)
          1 32)) := by
  have hlen : (List.replicate (2 ^ 63) (65 : Byte)).length = 2 ^ 63 := List.length_replicate
  have hnonzero : ∀ b ∈ List.replicate (2 ^ 63) (65 : Byte), b ≠ 0 := by
    intro b hb
    rw [List.eq_of_mem_replicate hb]
    decide
  exact ⟨⟨callsStringCopy_letter (by decide) (by decide),
      not_copiedAllOrNothing_letter⟩,
    ⟨callsStringCopy_stack, not_copiedAllOrNothing_stack⟩,
    ⟨callsStringCopy_long hlen hnonzero, not_copiedAllOrNothing_long hlen hnonzero⟩⟩

end LowLevel.Analysis
