import LowLevel.Interface.AssemblyOutput
import LowLevel.Library.X86.Characters
import LowLevel.Library.X86.Routine

/-!
# The input routines of the assembly library

`read_char` takes a byte from the standard input, and zero at its end. `clear_stdin` goes on to
the next newline, for ever if there is none. `read_line` and `read_word` keep their buffer, its
size and the number of characters in registers that they save on the stack; each character is
stored as a quadword, so the seven bytes behind it are cleared.
-/

set_option autoImplicit false

namespace LowLevel.Interface.Assembly

open LowLevel.Library LowLevel.Library.X86 LowLevel.Library.X86.Memory
open LowLevel.Program.Assembly

variable {P : Program Label} {sym : Symbols} {A : Word × ℕ → Prop} {s : State}

/-! ## read_char -/

/-- The system call `read` for a byte, in an empty quadword. -/
theorem write64_zero_store_take (m : Memory) (a : Word) (bs : List Byte) :
    (m.write64 a 0#64).store a (bs.take 1) = m.write64 a ((bs.headD 0).setWidth 64) := by
  cases bs with
  | nil =>
      funext x
      exact store_of_le (Nat.zero_le _)
  | cons b bs => exact write64_zero_store m a b

/-- **`read_char`** returns the next character, or zero at the end of the input. -/
theorem readChar_returnsIn (hP : P.block = blocks sym) {top : Word} (htop : s.reg .rsp ≠ top) :
    P.ReturnsIn A top .readChar s fun s' =>
      s'.reg .rax = (s.streams.stdin.headD 0).setWidth 64 ∧
      s'.streams = { s.streams with stdin := s.streams.stdin.tail } ∧
      Keeps printing s s' ∧ OnlyBelow s.mem s'.mem (s.reg .rsp) 8 := by
  set b := s.streams.stdin.headD 0 with hb
  set m := s.mem.write64 (s.reg .rsp - 8#64) (b.setWidth 64) with hm
  have hbelow : OnlyBelow s.mem m (s.reg .rsp) 8 := onlyBelow_write64 _ (by bv_omega) (by bv_omega)
  have hread := write64_zero_store_take s.mem (s.reg .rsp - 8#64) s.streams.stdin
  rw [← hb, ← hm] at hread
  apply RunsIn.instr hP rfl rfl rfl
  apply RunsIn.instr hP rfl rfl rfl
  apply RunsIn.instr hP rfl rfl rfl
  apply RunsIn.instr hP rfl rfl rfl
  apply RunsIn.instr hP rfl rfl rfl
  apply RunsIn.read hP rfl (by simp) (by simp)
  intro s₁ hrax hstreams hmem hkeeps
  have hrsp := hkeeps .rsp (by decide)
  simp [hread] at hrax hstreams hmem hrsp
  have hcount : s₁.reg .rax ≠ -1 := by
    rw [hrax]
    have hle : min 1 s.streams.stdin.length ≤ 1 := Nat.min_le_left _ _
    intro heq
    bv_omega
  have hkeeps' : Keeps printing s s₁ := by simpa using hkeeps.mono printing (by simp)
  apply RunsIn.instr hP rfl rfl rfl
  apply RunsIn.jcc hP rfl (holds_e_ofSub _ _)
  · intro heq
    exact absurd heq hcount
  · intro _
    apply RunsIn.instr hP rfl rfl rfl
    refine RunsIn.ret hP rfl ?_ ⟨?_, ?_, ?_, hstreams, by simpa using hkeeps',
      by simpa [hmem] using hbelow⟩
    · simpa [hrsp] using htop
    · simp [hrsp, hmem, hbelow.read64_eq]
    · simp [hrsp]
    · simp [hrsp, hmem, hm]

/-- A call of `read_char` took the next character into `rax`. -/
structure CharRead (s s' : State) : Prop where
  rax : s'.reg .rax = (s.streams.stdin.headD 0).setWidth 64
  streams : s'.streams = { s.streams with stdin := s.streams.stdin.tail }
  rsp : s'.reg .rsp = s.reg .rsp
  keeps : Keeps printing s s'
  mem : OnlyBelow s.mem s'.mem (s.reg .rsp) 16

theorem callReadChar (hP : P.block = blocks sym) {top : Word} {l : Label} {i : ℕ}
    {Q : Control Label → State → Prop} (hcode : (blocks sym l).code[i]? = some (.call .readChar))
    (htop : s.reg .rsp - 8 ≠ top)
    (h : ∀ s', CharRead s s' → P.RunsIn A top (.at l (i + 1)) s' Q) :
    P.RunsIn A top (.at l i) s Q := by
  apply RunsIn.callReturns hP hcode (readChar_returnsIn hP (by simpa using htop))
  rintro s' hrsp ⟨hrax, hstreams, hkeeps, hbelow⟩
  refine h s' ⟨hrax, hstreams, hrsp, by simpa using hkeeps, ?_⟩
  refine (onlyBelow_write64 _ ?_ ?_).trans (hbelow.of_lower ?_)
  · bv_omega
  · bv_omega
  · rw [State.reg_push, if_pos rfl]
    bv_omega

/-- The character that was read, against one of those that the code tests for. -/
theorem setWidth_eq_iff (b c : Byte) : b.setWidth 64 = c.setWidth 64 ↔ b = c := by
  constructor
  · intro h
    bv_omega
  · rintro rfl
    rfl

/-! ## clear_stdin -/

/-- What is behind the first newline. -/
def afterLine (stdin : List Byte) : List Byte := (stdin.dropWhile (· ≠ 0xA)).tail

theorem afterLine_newline (rest : List Byte) : afterLine (0xA :: rest) = rest := by
  rw [afterLine, List.dropWhile_cons_of_neg (by decide), List.tail_cons]

theorem afterLine_cons {b : Byte} (hb : b ≠ 0xA) (rest : List Byte) :
    afterLine (b :: rest) = afterLine rest := by
  rw [afterLine, afterLine, List.dropWhile_cons_of_pos (by simpa using hb)]

theorem afterLine_append {bs : List Byte} (hbs : ∀ b ∈ bs, b ≠ 0xA) (rest : List Byte) :
    afterLine (bs ++ rest) = afterLine rest := by
  induction bs with
  | nil => rfl
  | cons b bs ih =>
      rw [List.cons_append, afterLine_cons (hbs b List.mem_cons_self)]
      exact ih fun c hc => hbs c (List.mem_cons_of_mem b hc)

theorem afterLine_suffix (stdin : List Byte) : afterLine stdin <:+ stdin :=
  (List.tail_suffix _).trans (List.dropWhile_suffix _)

theorem length_afterLine_lt {stdin : List Byte} (hnewline : 0xA ∈ stdin) :
    (afterLine stdin).length < stdin.length := by
  have hsuffix := (List.dropWhile_suffix (l := stdin) fun b => decide (b ≠ 0xA)).length_le
  have hpos := List.length_pos_of_mem hnewline
  rw [afterLine, List.length_tail]
  omega

/-- A newline that is still to come is found. -/
theorem clearStdin_returnsIn (hP : P.block = blocks sym) {top : Word} (htop : s.reg .rsp ≠ top)
    (htop' : s.reg .rsp - 8 ≠ top) (hnewline : 0xA ∈ s.streams.stdin) :
    P.ReturnsIn A top .clearStdin s fun s' =>
      s'.streams = { s.streams with stdin := afterLine s.streams.stdin } ∧
      Keeps printing s s' ∧ OnlyBelow s.mem s'.mem (s.reg .rsp) 16 := by
  generalize hstdin : s.streams.stdin = stdin at hnewline
  induction stdin generalizing s with
  | nil => cases hnewline
  | cons b rest ih =>
      apply callReadChar hP rfl htop'
      intro s₁ hread
      have hrax := hread.rax
      have hstreams := hread.streams
      simp [hstdin] at hrax hstreams
      apply RunsIn.instr hP rfl rfl rfl
      apply RunsIn.jcc hP rfl (holds_e_ofSub _ _)
      · intro heq
        have hb : b = 0xA := (setWidth_eq_iff b 0xA).mp (by simpa [hrax] using heq)
        refine RunsIn.ret hP rfl (by simpa [hread.rsp] using htop) ⟨?_, ?_, ?_, ?_, ?_⟩
        · simp [hread.rsp, hread.mem.read64_eq]
        · simp [hread.rsp]
        · rw [hb, afterLine_newline]
          simp [hstreams]
        · simpa using hread.keeps
        · simpa using hread.mem
      · intro hne
        have hb : b ≠ 0xA := fun hb => hne (by simp [hrax, hb])
        have hrest : 0xA ∈ rest := (List.mem_cons.mp hnewline).resolve_left hb.symm
        apply RunsIn.jmp hP rfl
        refine RunsIn.mono (ih (s := s₁.setFlags _) ?_ ?_ ?_ hrest) ?_
        · simpa [hread.rsp] using htop
        · simpa [hread.rsp] using htop'
        · simp [hstreams]
        · rintro c s' ⟨hc, hrsp, hstreams', hkeeps, hbelow⟩
          simp [hread.rsp, hread.mem.read64_eq, hstreams] at hc hrsp hstreams' hkeeps hbelow
          refine ⟨hc, hrsp, ?_, hread.keeps.trans hkeeps, hread.mem.trans hbelow⟩
          rw [hstreams', afterLine_cons hb]

/-- Without a newline the end of the input is read again and again. -/
theorem clearStdin_divergesIn (hP : P.block = blocks sym) {top : Word}
    (htop : s.reg .rsp - 8 ≠ top) (hnewline : 0xA ∉ s.streams.stdin) :
    P.DivergesIn A top (.at .clearStdin 0, s) := by
  -- behind the call, the character that was read is no newline
  let I : Control Label → State → Prop := fun c s' => c = .at .clearStdin 1 ∧
    s'.reg .rax ≠ 0xA ∧ 0xA ∉ s'.streams.stdin ∧ s'.reg .rsp = s.reg .rsp
  have hcall : ∀ s', 0xA ∉ s'.streams.stdin → s'.reg .rsp = s.reg .rsp →
      P.RunsIn A top (.at .clearStdin 0) s' I := by
    intro s' hnewline' hrsp
    apply callReadChar hP rfl (by rw [hrsp]; exact htop)
    intro s₁ hread
    refine RunsIn.done ⟨rfl, ?_, ?_, hread.rsp.trans hrsp⟩
    · rw [hread.rax]
      cases hstdin : s'.streams.stdin with
      | nil => decide
      | cons b rest =>
          rw [hstdin] at hnewline'
          intro heq
          exact hnewline' (by rw [(setWidth_eq_iff b 0xA).mp heq]; exact List.mem_cons_self)
    · rw [hread.streams]
      exact fun hmem => hnewline' (List.mem_of_mem_tail hmem)
  refine Program.RunsIn.divergesIn (hcall s hnewline rfl) fun c s' => divergesIn_of_loop ?_
  rintro c s' ⟨rfl, hrax, hnewline', hrsp⟩
  refine ⟨_, RunsIn.goesIn hP rfl nofun nofun (Program.step_instr hP rfl rfl), .inl ?_⟩
  apply RunsIn.jcc hP rfl (holds_e_ofSub _ _)
  · intro heq
    exact absurd heq hrax
  · intro _
    apply RunsIn.jmp hP rfl
    exact hcall _ hnewline' hrsp

/-! ## Reading into a buffer -/

/-- The registers that the readers use. -/
abbrev reading : List Reg := .r12 :: .r13 :: .r14 :: printing

/-- The memory with the registers saved that hold the buffer, its size and the index. -/
def pushed (s : State) : Memory :=
  ((s.mem.write64 (s.reg .rsp - 8) (s.reg .r14)).write64 (s.reg .rsp - 16) (s.reg .r13)).write64
    (s.reg .rsp - 24) (s.reg .r12)

/-- A reader that was called in `s₀` has stored `i` characters; `m` is the memory but for the `d`
bytes below its stack. -/
structure Reading (s₀ : State) (d i : ℕ) (st : Streams) (m : Memory) (s : State) : Prop where
  rsp : s.reg .rsp = s₀.reg .rsp - 24
  r12 : s.reg .r12 = s₀.reg .rdi
  r13 : s.reg .r13 = s₀.reg .rsi - 1
  r14 : s.reg .r14 = BitVec.ofNat 64 i
  streams : s.streams = st
  keeps : Keeps reading s₀ s
  mem : OnlyBelow m s.mem (s₀.reg .rsp - 24) d

/-- The reader is about to return. -/
structure Returned (P : Program Label) (s₀ : State) (d : ℕ) (rax rdx : Word) (st : Streams)
    (m : Memory) (c : Control Label) (s : State) : Prop where
  atReturn : P.AtReturn (s₀.reg .rsp) (c, s)
  rax : s.reg .rax = rax
  rdx : s.reg .rdx = rdx
  streams : s.streams = st
  mem : OnlyBelow m s.mem (s₀.reg .rsp - 24) d
  r12 : s.reg .r12 = m.read64 (s₀.reg .rsp - 24)
  r13 : s.reg .r13 = m.read64 (s₀.reg .rsp - 16)
  r14 : s.reg .r14 = m.read64 (s₀.reg .rsp - 8)
  keeps : Keeps reading s₀ s

/-- With `i` characters the code has more than the size of its buffer less one, in its signed
comparison. -/
def Exceeds (n : Word) (i : ℕ) : Prop := (n - 1).toInt < (BitVec.ofNat 64 i).toInt

instance (n : Word) (i : ℕ) : Decidable (Exceeds n i) := inferInstanceAs (Decidable (_ < _))

section Limit

variable {n : Word} {i : ℕ}

theorem toInt_ofNat_of_lt (hi : i < 2 ^ 63) : (BitVec.ofNat 64 i).toInt = i := by
  rw [BitVec.toInt_eq_toNat_cond, BitVec.toNat_ofNat, Nat.mod_eq_of_lt (by omega),
    if_pos (by omega)]

/-- The size less one, of a buffer of at most `2 ^ 63` bytes. -/
theorem toInt_sub_one (hpos : 0 < n.toNat) (hn : n.toNat ≤ 2 ^ 63) :
    (n - 1).toInt = (n.toNat : ℤ) - 1 := by
  have hsub : (n - 1).toNat = n.toNat - 1 := by bv_omega
  rw [BitVec.toInt_eq_toNat_cond, hsub, if_pos (by omega)]
  omega

theorem not_exceeds (hi : i < n.toNat) (hn : n.toNat ≤ 2 ^ 63) : ¬ Exceeds n i := by
  unfold Exceeds
  rw [toInt_sub_one (by omega) hn, toInt_ofNat_of_lt (by omega)]
  omega

theorem exceeds_of_le (hpos : 0 < n.toNat) (hle : n.toNat ≤ i) (hi : i < 2 ^ 63) :
    Exceeds n i := by
  unfold Exceeds
  rw [toInt_sub_one hpos (by omega), toInt_ofNat_of_lt hi]
  omega

theorem exceeds_size (hpos : 0 < n.toNat) (hn : n.toNat < 2 ^ 63) : Exceeds n n.toNat :=
  exceeds_of_le hpos le_rfl hn

/-- No number is more than the greatest one. -/
theorem not_exceeds_of_eq (hn : n.toNat = 2 ^ 63) (i : ℕ) : ¬ Exceeds n i := by
  unfold Exceeds
  rw [toInt_sub_one (by omega) hn.le, hn]
  have := (BitVec.ofNat 64 i).toInt_lt
  omega

/-- Sizes over `2 ^ 63`, and zero, are negative when they are one less. -/
theorem exceeds_of_negative (hn : n.toNat = 0 ∨ 2 ^ 63 < n.toNat) (hi : i < 2 ^ 63) :
    Exceeds n i := by
  have hsub : 2 ^ 63 ≤ (n - 1).toNat := by bv_omega
  unfold Exceeds
  rw [toInt_ofNat_of_lt hi, BitVec.toInt_eq_toNat_cond, if_neg (by omega)]
  omega

end Limit

/-- How the readers begin. -/
def prologue : List (Instr Label) := [
  .push .r14,
  .push .r13,
  .push .r12,
  .alu .xor (.reg .rax) (.reg .rax),
  .alu .xor (.reg .r14) (.reg .r14),
  .mov (.reg .r12) (.reg .rdi),
  .mov (.reg .r13) (.reg .rsi),
  .dec .r13]

/-- How the readers end. -/
def epilogue : List (Instr Label) := [.pop .r12, .pop .r13, .pop .r14, .ret]

section Frame

variable {s₀ : State} {d i : ℕ} {st : Streams} {m : Memory} {l l' : Label}

theorem prologue_runsIn (hP : P.block = blocks sym) (hcode : (blocks sym l).code = prologue)
    (hnext : (blocks sym l).next = some l') {top : Word} :
    P.RunsIn A top (.at l 0) s fun c s' =>
      c = .at l' 0 ∧ Reading s 16 0 s.streams (pushed s) s' := by
  have hsub : s.reg .rsp - 8#64 - 8#64 = s.reg .rsp - 16#64 := by bv_omega
  have hsub' : s.reg .rsp - 16#64 - 8#64 = s.reg .rsp - 24#64 := by bv_omega
  refine RunsIn.straight hP [] (show (blocks sym l).code = [] ++ (prologue ++ []) by
    rw [hcode, List.append_nil, List.nil_append]) rfl ?_ ?_
  · simp [prologue, Instr.stores, Operand.range]
  · apply RunsIn.fall hP (by rw [hcode]; rfl) hnext
    refine RunsIn.done ⟨rfl, ?_, ?_, ?_, ?_, rfl, ?_, ?_⟩
    · simp [hsub, hsub']
    · simp
    · simp
    · simp
    · simp
    · simpa [hsub, hsub', pushed] using OnlyBelow.refl _ _ _

theorem epilogue_runsIn (hP : P.block = blocks sym) (hcode : (blocks sym l).code = epilogue)
    (hd : d ≤ 24) (h : Reading s₀ d i st m s) {rax rdx : Word} (hrax : s.reg .rax = rax)
    (hrdx : s.reg .rdx = rdx) :
    P.RunsIn A (s₀.reg .rsp) (.at l 0) s (Returned P s₀ d rax rdx st m) := by
  have hadd : s₀.reg .rsp - 24#64 + 8#64 = s₀.reg .rsp - 16#64 := by bv_omega
  have hadd' : s₀.reg .rsp - 16#64 + 8#64 = s₀.reg .rsp - 8#64 := by bv_omega
  have hread : ∀ a : Word, (a - (s₀.reg .rsp - 24#64)).toNat ≤ 16 →
      s.mem.read64 a = m.read64 a := by
    intro a ha
    apply read64_congr
    intro x hx
    apply h.mem
    bv_omega
  refine RunsIn.straight hP [] (show (blocks sym l).code = [] ++
    ([.pop .r12, .pop .r13, .pop .r14] ++ [.ret]) from hcode) rfl ?_ ?_
  · simp [Instr.stores]
  · refine RunsIn.done ⟨RunsIn.atReturn hP (by rw [hcode]; rfl) ?_, ?_, ?_, ?_, ?_, ?_, ?_, ?_, ?_⟩
    · simp [h.rsp, hadd, hadd']
    · simpa using hrax
    · simpa using hrdx
    · simpa using h.streams
    · simpa using h.mem
    · simp [h.rsp, hread _ (show (s₀.reg .rsp - 24#64 - (s₀.reg .rsp - 24#64)).toNat ≤ 16 by simp)]
    · simp [h.rsp, hadd, hread (s₀.reg .rsp - 16#64) (by bv_omega)]
    · simp [h.rsp, hadd, hadd', hread (s₀.reg .rsp - 8#64) (by bv_omega)]
    · simpa using h.keeps

/-- A call that the reader makes returns before the reader does. -/
theorem Reading.deep (h : Reading s₀ d i st m s) :
    s.reg .rsp ≠ s₀.reg .rsp ∧ s.reg .rsp - 8 ≠ s₀.reg .rsp ∧
      s.reg .rsp - 8 - 8 ≠ s₀.reg .rsp := by
  rw [h.rsp]
  refine ⟨?_, ?_, ?_⟩ <;> bv_omega

theorem Reading.setFlags (h : Reading s₀ d i st m s) (f : Flags) :
    Reading s₀ d i st m (s.setFlags f) :=
  ⟨h.rsp, h.r12, h.r13, h.r14, h.streams, h.keeps, h.mem⟩

theorem Reading.of_charRead {s' : State} (h : Reading s₀ 16 i st m s) (hread : CharRead s s') :
    Reading s₀ 16 i { st with stdin := st.stdin.tail } m s' := by
  have hkeeps := hread.keeps
  refine ⟨hread.rsp.trans h.rsp, ?_, ?_, ?_, ?_, ?_, ?_⟩
  · rw [hkeeps .r12 (by decide), h.r12]
  · rw [hkeeps .r13 (by decide), h.r13]
  · rw [hkeeps .r14 (by decide), h.r14]
  · rw [hread.streams, h.streams]
  · exact h.keeps.trans (hkeeps.mono reading (by simp))
  · refine h.mem.trans (hread.mem.of_lower ?_)
    rw [h.rsp]
    bv_omega

section Steps

variable {top : Word} {k : ℕ} {b c : Byte} {Q : Control Label → State → Prop}

/-- `call read_char`. -/
theorem Reading.nextChar (hP : P.block = blocks sym)
    (hcode : (blocks sym l).code[k]? = some (.call .readChar)) (h : Reading s₀ 16 i st m s)
    (hnext : ∀ s', s'.reg .rax = (st.stdin.headD 0).setWidth 64 →
      Reading s₀ 16 i { st with stdin := st.stdin.tail } m s' →
      P.RunsIn A (s₀.reg .rsp) (.at l (k + 1)) s' Q) :
    P.RunsIn A (s₀.reg .rsp) (.at l k) s Q := by
  apply callReadChar hP hcode h.deep.2.1
  intro s₁ hread
  refine hnext s₁ ?_ (h.of_charRead hread)
  rw [hread.rax, h.streams]

/-- `cmp rax, c` and `je`. -/
theorem Reading.testChar (hP : P.block = blocks sym)
    (hcmp : (blocks sym l).code[k]? = some (.alu .cmp (.reg .rax) (.imm (c.setWidth 64))))
    (hje : (blocks sym l).code[k + 1]? = some (.jcc .e l')) (h : Reading s₀ d i st m s)
    (hrax : s.reg .rax = b.setWidth 64)
    (heq : b = c → ∀ s', Reading s₀ d i st m s' → s'.reg .rax = b.setWidth 64 →
      P.RunsIn A top (.at l' 0) s' Q)
    (hne : b ≠ c → ∀ s', Reading s₀ d i st m s' → s'.reg .rax = b.setWidth 64 →
      P.RunsIn A top (.at l (k + 2)) s' Q) : P.RunsIn A top (.at l k) s Q := by
  apply RunsIn.instr hP hcmp rfl rfl
  apply RunsIn.jcc hP hje (holds_e_ofSub _ _)
  · intro hsame
    exact heq ((setWidth_eq_iff b c).mp (hrax.symm.trans hsame)) _ (h.setFlags _) hrax
  · intro hother
    exact hne (fun hb => hother (hrax.trans (congrArg _ hb))) _ (h.setFlags _) hrax

/-- `test rax, rax` and `je`. -/
theorem Reading.testNul (hP : P.block = blocks sym)
    (htest : (blocks sym l).code[k]? = some (.alu .test (.reg .rax) (.reg .rax)))
    (hje : (blocks sym l).code[k + 1]? = some (.jcc .e l')) (h : Reading s₀ d i st m s)
    (hrax : s.reg .rax = b.setWidth 64)
    (heq : b = 0 → ∀ s', Reading s₀ d i st m s' → s'.reg .rax = b.setWidth 64 →
      P.RunsIn A top (.at l' 0) s' Q)
    (hne : b ≠ 0 → ∀ s', Reading s₀ d i st m s' → s'.reg .rax = b.setWidth 64 →
      P.RunsIn A top (.at l (k + 2)) s' Q) : P.RunsIn A top (.at l k) s Q := by
  have hzero : s.reg .rax = 0 ↔ b = 0 := by
    rw [hrax]
    exact setWidth_eq_iff b 0
  apply RunsIn.instr hP htest rfl rfl
  apply RunsIn.jcc hP hje (holds_e_ofLogic _)
  · intro hsame
    exact heq (hzero.mp (by simpa using hsame)) _ (h.setFlags _) hrax
  · intro hother
    exact hne (fun hb => hother (by simpa using hzero.mpr hb)) _ (h.setFlags _) hrax

/-- `cmp r14, r13` and `jg`. -/
theorem Reading.testSize (hP : P.block = blocks sym)
    (hcmp : (blocks sym l).code[k]? = some (.alu .cmp (.reg .r14) (.reg .r13)))
    (hjg : (blocks sym l).code[k + 1]? = some (.jcc .g l')) (h : Reading s₀ d i st m s)
    (hmore : Exceeds (s₀.reg .rsi) i → ∀ s', Reading s₀ d i st m s' → s'.reg .rax = s.reg .rax →
      P.RunsIn A top (.at l' 0) s' Q)
    (hfits : ¬ Exceeds (s₀.reg .rsi) i → ∀ s', Reading s₀ d i st m s' →
      s'.reg .rax = s.reg .rax → P.RunsIn A top (.at l (k + 2)) s' Q) :
    P.RunsIn A top (.at l k) s Q := by
  apply RunsIn.instr hP hcmp rfl rfl
  apply RunsIn.jcc hP hjg (holds_g_ofSub _ _)
  · intro hgreater
    exact hmore (by simpa [Exceeds, h.r13, h.r14] using hgreater) _ (h.setFlags _) rfl
  · intro hle
    exact hfits (by simpa [Exceeds, h.r13, h.r14] using hle) _ (h.setFlags _) rfl

/-- `cmp r14, 0` and `je`. -/
theorem Reading.testEmpty (hP : P.block = blocks sym)
    (hcmp : (blocks sym l).code[k]? = some (.alu .cmp (.reg .r14) (.imm 0)))
    (hje : (blocks sym l).code[k + 1]? = some (.jcc .e l')) (h : Reading s₀ d i st m s)
    (hzero : BitVec.ofNat 64 i = 0 → ∀ s', Reading s₀ d i st m s' →
      P.RunsIn A top (.at l' 0) s' Q)
    (hne : BitVec.ofNat 64 i ≠ 0 → ∀ s', Reading s₀ d i st m s' →
      P.RunsIn A top (.at l (k + 2)) s' Q) : P.RunsIn A top (.at l k) s Q := by
  apply RunsIn.instr hP hcmp rfl rfl
  apply RunsIn.jcc hP hje (holds_e_ofSub _ _)
  · intro hsame
    exact hzero (by simpa [h.r14] using hsame) _ (h.setFlags _)
  · intro hother
    exact hne (by simpa [h.r14] using hother) _ (h.setFlags _)

end Steps

/-- `mov [r12 + r14], rax` and `inc r14`. -/
theorem storeChar_runsIn (hP : P.block = blocks sym) {k : ℕ} {b : Byte} {top : Word}
    {Q : Control Label → State → Prop}
    (hmov : (blocks sym l).code[k]? = some (.mov (.mem ⟨.r12, some .r14, 0⟩) (.reg .rax)))
    (hinc : (blocks sym l).code[k + 1]? = some (.inc .r14)) (h : Reading s₀ d i st m s)
    (hrax : s.reg .rax = b.setWidth 64) (hA : A (s₀.reg .rdi + BitVec.ofNat 64 i, 8))
    (hnext : ∀ s', Reading s₀ d (i + 1) st
      (m.write64 (s₀.reg .rdi + BitVec.ofNat 64 i) (b.setWidth 64)) s' →
      P.RunsIn A top (.at l (k + 2)) s' Q) : P.RunsIn A top (.at l k) s Q := by
  refine RunsIn.store hP hmov rfl ?_ (RunsIn.instr hP hinc rfl rfl (hnext _ ?_))
  · simpa [Instr.stores, Operand.range, h.r12, h.r14] using hA
  · refine ⟨?_, ?_, ?_, ?_, ?_, ?_, ?_⟩
    · simpa using h.rsp
    · simpa using h.r12
    · simpa using h.r13
    · simp [h.r14, ofNat_add_one]
    · simpa using h.streams
    · simpa using h.keeps
    · simpa [h.r12, h.r14, hrax] using h.mem.write64 _ _

/-- What the readers do with a string that they accept: a zero byte is put behind the one that
ends it, and its length and its address are returned. -/
def accept (fin : Label) : List (Instr Label) := [
  .mov (.reg .rdx) (.reg .r14),
  .inc .r14,
  .mov8 (.mem ⟨.r12, some .r14, 0⟩) (.imm 0),
  .mov (.reg .rax) (.reg .r12),
  .jmp fin]

/-- What the readers return otherwise. -/
def refuse : List (Instr Label) :=
  [.alu .xor (.reg .rdx) (.reg .rdx), .alu .xor (.reg .rax) (.reg .rax)]

theorem accept_runsIn (hP : P.block = blocks sym) {fin : Label} {k : ℕ}
    (hcode : (blocks sym l).code.drop k = accept fin) (hfin : (blocks sym fin).code = epilogue)
    (hd : d ≤ 24) (h : Reading s₀ d i st m s) (hA : A (s₀.reg .rdi + BitVec.ofNat 64 (i + 1), 1)) :
    P.RunsIn A (s₀.reg .rsp) (.at l k) s (Returned P s₀ d (s₀.reg .rdi) (BitVec.ofNat 64 i) st
      (m.store (s₀.reg .rdi + BitVec.ofNat 64 (i + 1)) [0])) := by
  have hget : ∀ j, (blocks sym l).code[k + j]? = (accept fin)[j]? := by
    intro j
    rw [← hcode, List.getElem?_drop]
  apply RunsIn.instr hP (hget 0) rfl rfl
  apply RunsIn.instr hP (hget 1) rfl rfl
  refine RunsIn.store hP (hget 2) rfl ?_ ?_
  · simpa [Instr.stores, Operand8.range, h.r12, h.r14, ofNat_add_one] using hA
  apply RunsIn.instr hP (hget 3) rfl rfl
  apply RunsIn.jmp hP (hget 4)
  refine epilogue_runsIn hP hfin hd (i := i + 1) ⟨?_, ?_, ?_, ?_, ?_, ?_, ?_⟩ ?_ ?_
  · simpa using h.rsp
  · simpa using h.r12
  · simpa using h.r13
  · simp [h.r14, ofNat_add_one]
  · simpa using h.streams
  · simpa using h.keeps
  · simpa [h.r12, h.r14, ofNat_add_one] using h.mem.store _ _
  · simp [h.r12]
  · simp [h.r14]

theorem refuse_runsIn (hP : P.block = blocks sym) {fin : Label} {k : ℕ}
    (hcode : (blocks sym l).code.drop k = refuse) (hnext : (blocks sym l).next = some fin)
    (hfin : (blocks sym fin).code = epilogue) (hd : d ≤ 24) (h : Reading s₀ d i st m s) :
    P.RunsIn A (s₀.reg .rsp) (.at l k) s (Returned P s₀ d 0 0 st m) := by
  have hget : ∀ j, (blocks sym l).code[k + j]? = refuse[j]? := by
    intro j
    rw [← hcode, List.getElem?_drop]
  apply RunsIn.instr hP (hget 0) rfl rfl
  apply RunsIn.instr hP (hget 1) rfl rfl
  apply RunsIn.fall hP (hget 2) hnext
  refine epilogue_runsIn hP hfin hd (i := i) ⟨?_, ?_, ?_, ?_, ?_, ?_, ?_⟩ ?_ ?_
  · simpa using h.rsp
  · simpa using h.r12
  · simpa using h.r13
  · simpa using h.r14
  · simpa using h.streams
  · simpa using h.keeps
  · simpa using h.mem
  · simp
  · simp

end Frame

/-- The return of a reader, as the end of its run. -/
theorem Returned.finishes {s₀ : State} {f : Label} {d : ℕ} {rax rdx : Word} {st : Streams}
    {m : Memory} (h : P.RunsIn A (s₀.reg .rsp) (.at f 0) s₀ (Returned P s₀ d rax rdx st m)) :
    P.Finishes f s₀ fun s => ∃ c, Returned P s₀ d rax rdx st m c s :=
  RunsIn.finishes (RunsIn.mono h fun c _ hret => ⟨hret.atReturn, c, hret⟩)

/-! ## What is beside the buffer -/

section Beside

variable {s₀ : State} {d n : ℕ} {rax rdx : Word} {st : Streams} {m : Memory}
  {c : Control Label} {cs : List Byte}

theorem onlyBelow_pushed (s : State) : OnlyBelow s.mem (pushed s) (s.reg .rsp) 24 :=
  ((onlyBelow_write64 _ (by bv_omega) (by bv_omega)).trans
    (onlyBelow_write64 _ (by bv_omega) (by bv_omega))).trans
    (onlyBelow_write64 _ (by bv_omega) (by bv_omega))

/-- The return address is where it was when the memory beside the stack has it. -/
theorem Returned.read64_eq (h : Returned P s₀ d rax rdx st m c s) (hd : d ≤ 24)
    (hm : ∀ x : Word, (x - (s₀.reg .rsp - 24)).toNat < 32 → m x = pushed s₀ x) :
    s.mem.read64 (s₀.reg .rsp) = s₀.mem.read64 (s₀.reg .rsp) := by
  apply read64_congr
  intro x hx
  rw [h.mem x (by bv_omega), hm x (by bv_omega)]
  apply onlyBelow_pushed
  bv_omega

/-- The memory of a string that was accepted. -/
def accepted (s₀ : State) (cs : List Byte) : Memory :=
  (storeChars (pushed s₀) (s₀.reg .rdi) cs).store
    (s₀.reg .rdi + BitVec.ofNat 64 (cs.length + 1)) [0]

section Apart

variable (hclear : Clear (s₀.reg .rdi) n (s₀.reg .rsp + 8) 48) (hn : 0 < n)
  (hlen : cs.length ≤ n)
include hclear hn

/-- The saved registers and the return address are beyond the buffer and the eight bytes behind
it. -/
theorem le_offset_of_clear {x : Word} (hx : (x - (s₀.reg .rsp - 24)).toNat < 32) :
    n + 8 ≤ (x - s₀.reg .rdi).toNat := by
  by_contra hlt
  have hwide : Clear (s₀.reg .rdi) (n + 8) (s₀.reg .rsp + 8) 40 := hclear.widen hn (by norm_num)
  have hfar := hwide x (Nat.not_le.mp hlt)
  clear hlt hwide
  bv_omega

/-- **The buffer** holds the string that was accepted, with its end. -/
theorem Returned.holds (h : Returned P s₀ 16 rax rdx st (accepted s₀ cs) c s)
    (hne : cs ≠ []) (hfits : cs.length < n) : s.mem.Holds (s₀.reg .rdi) (cs ++ [0]) := by
  have hroom := hclear.add_le hn (by norm_num)
  have hlength : (cs ++ [0]).length = cs.length + 1 := List.length_append
  refine (holds_storeChars (m := pushed s₀) hne (by omega)).congr (by omega) ?_
  intro x hx
  rw [hlength] at hx
  have hbeside := hclear x (by omega)
  rw [h.mem x (by clear hx; bv_omega), accepted, store_of_le]
  rw [List.length_singleton]
  clear hbeside
  bv_omega

include hlen

theorem storeChars_of_clear {x : Word} (hx : (x - (s₀.reg .rsp - 24)).toNat < 32) :
    storeChars m (s₀.reg .rdi) cs x = m x := by
  have hfar := le_offset_of_clear hclear hn hx
  have hroom := hclear.add_le hn (by norm_num)
  exact storeChars_of_le (by omega) (by omega)

theorem accepted_of_clear {x : Word} (hx : (x - (s₀.reg .rsp - 24)).toNat < 32) :
    accepted s₀ cs x = pushed s₀ x := by
  have hfar := le_offset_of_clear hclear hn hx
  have hroom := hclear.add_le hn (by norm_num)
  rw [accepted, store_of_le, storeChars_of_clear hclear hn hlen hx]
  rw [List.length_singleton]
  bv_omega

end Apart

end Beside

/-- A call of a reader with its buffer at `4096`, right behind the stack, in a memory that is filled
with `fill`. -/
def readerCall (fill : Byte) (n : Word) (stdin : List Byte) : State :=
  ((State.fresh (fun _ => fill) 4088 stdin).setReg .rdi 4096).setReg .rsi n

theorem clear_readerCall {fill : Byte} {n : Word} {stdin : List Byte}
    (hroom : n.toNat + 48 ≤ 2 ^ 64) :
    Clear ((readerCall fill n stdin).reg .rdi) ((readerCall fill n stdin).reg .rsi).toNat
      ((readerCall fill n stdin).reg .rsp + 8) 48 := by
  intro x hx
  have hx' : (x - 4096#64).toNat < n.toNat := hx
  show 48 ≤ (4088#64 + 8 - 1 - x).toNat
  bv_omega

end LowLevel.Interface.Assembly
