import LowLevel.Interface.AssemblyInput
import LowLevel.Library.Scan

/-!
# `read_line`

The line is collected until a newline, a NUL or the end of the input, or until there are more
characters than the buffer may take; in every case but success the rest of the input up to a
newline is read away.
-/

set_option autoImplicit false

namespace LowLevel.Interface.Assembly

open LowLevel.Library LowLevel.Library.X86 LowLevel.Library.X86.Memory
open LowLevel.Program.Assembly

/-- The characters of a line. -/
def InLine (b : Byte) : Prop := b ≠ 0xA ∧ b ≠ 0

instance (b : Byte) : Decidable (InLine b) := inferInstanceAs (Decidable (_ ∧ _))

/-- The characters that `read_line` collects. -/
def firstLine (stdin : List Byte) : List Byte := stdin.takeWhile fun b => InLine b

theorem firstLine_spec (stdin : List Byte) :
    ∃ rest, stdin = firstLine stdin ++ rest ∧ ¬ InLine (rest.headD 0) ∧
      ∀ b ∈ firstLine stdin, InLine b := by
  refine ⟨_, List.takeWhile_append_dropWhile.symm, ?_, ?_⟩
  · simpa using headD_dropWhile (p := fun b => decide (InLine b)) stdin (d := 0) (by decide)
  · intro b hb
    simpa using List.mem_takeWhile_imp hb

variable {P : Program Label} {sym : Symbols} {A : Word × ℕ → Prop} {s s₀ : State} {i : ℕ}
  {st : Streams} {m : Memory} {b : Byte} {cs rest : List Byte}

/-! ## The loop -/

/-- A character of the line comes to the store. -/
theorem readLineMainLoop_checks (hP : P.block = blocks sym)
    (h : Reading s₀ 16 i { st with stdin := b :: rest } m s) (hb : InLine b) :
    P.RunsIn A (s₀.reg .rsp) (.at .readLineMainLoop 0) s fun c s' => c = .at .readLineCheck 0 ∧
      s'.reg .rax = b.setWidth 64 ∧ Reading s₀ 16 i { st with stdin := rest } m s' := by
  apply h.nextChar hP rfl
  intro s₁ hrax h₁
  apply h₁.testChar (c := 0xA) hP rfl rfl hrax
  · intro hline
    exact absurd hline hb.1
  intro _ s₂ h₂ hrax₂
  apply h₂.testNul hP rfl rfl hrax₂
  · intro hnul
    exact absurd hnul hb.2
  intro _ s₃ h₃ hrax₃
  apply RunsIn.fall hP rfl rfl
  exact RunsIn.done ⟨rfl, hrax₃, h₃⟩

/-- The end of the line, or of the input. -/
theorem readLineMainLoop_ends (hP : P.block = blocks sym) (h : Reading s₀ 16 i st m s)
    (hend : ¬ InLine (st.stdin.headD 0)) :
    P.RunsIn A (s₀.reg .rsp) (.at .readLineMainLoop 0) s fun c s' => c = .at .readLineSuccess 0 ∧
      Reading s₀ 16 i { st with stdin := st.stdin.tail } m s' := by
  apply h.nextChar hP rfl
  intro s₁ hrax h₁
  apply h₁.testChar (c := 0xA) hP rfl rfl hrax
  · intro _ s₂ h₂ _
    exact RunsIn.done ⟨rfl, h₂⟩
  intro hline s₂ h₂ hrax₂
  apply h₂.testNul hP rfl rfl hrax₂
  · intro _ s₃ h₃ _
    exact RunsIn.done ⟨rfl, h₃⟩
  intro hnul
  exact absurd ⟨hline, hnul⟩ hend

/-- A character is stored, and the loop goes on if there may be one more. -/
theorem readLineCheck_turns (hP : P.block = blocks sym) (h : Reading s₀ 16 i st m s)
    (hrax : s.reg .rax = b.setWidth 64) (hA : A (s₀.reg .rdi + BitVec.ofNat 64 i, 8)) :
    P.RunsIn A (s₀.reg .rsp) (.at .readLineCheck 0) s fun c s' =>
      c = (if Exceeds (s₀.reg .rsi) (i + 1) then .at .readLineErr 0 else .at .readLineMainLoop 0) ∧
      Reading s₀ 16 (i + 1) st
        (m.write64 (s₀.reg .rdi + BitVec.ofNat 64 i) (b.setWidth 64)) s' := by
  apply storeChar_runsIn hP rfl rfl h hrax hA
  intro s₁ hreading
  apply hreading.testSize hP rfl rfl
  · intro hexceeds s₂ h₂ _
    exact RunsIn.done ⟨(if_pos hexceeds).symm, h₂⟩
  · intro hfits s₂ h₂ _
    apply RunsIn.jmp hP rfl
    exact RunsIn.done ⟨(if_neg hfits).symm, h₂⟩

/-- **The loop** over characters that there is room for. -/
theorem readLineMainLoop_collects (hP : P.block = blocks sym)
    (h : Reading s₀ 16 i { st with stdin := cs ++ rest } m s) (hcs : ∀ b ∈ cs, InLine b)
    (hfits : ∀ j < cs.length, ¬ Exceeds (s₀.reg .rsi) (i + j + 1))
    (hA : ∀ j < cs.length, A (s₀.reg .rdi + BitVec.ofNat 64 (i + j), 8)) :
    P.RunsIn A (s₀.reg .rsp) (.at .readLineMainLoop 0) s fun c s' =>
      c = .at .readLineMainLoop 0 ∧ Reading s₀ 16 (i + cs.length) { st with stdin := rest }
        (storeChars m (s₀.reg .rdi + BitVec.ofNat 64 i) cs) s' := by
  induction cs generalizing s i m with
  | nil => exact RunsIn.done ⟨rfl, h⟩
  | cons b cs ih =>
      refine RunsIn.bind (readLineMainLoop_checks hP h (hcs b List.mem_cons_self)) ?_
      rintro c s₁ ⟨rfl, hrax, hreading⟩
      refine RunsIn.bind (readLineCheck_turns hP hreading hrax (hA 0 (Nat.succ_pos _))) ?_
      rintro c s₂ ⟨rfl, hreading₂⟩
      rw [if_neg (hfits 0 (Nat.succ_pos _))]
      refine RunsIn.mono (ih hreading₂ (fun c hc => hcs c (List.mem_cons_of_mem b hc)) ?_ ?_) ?_
      · intro j hj
        have := hfits (j + 1) (Nat.succ_lt_succ hj)
        rwa [show i + (j + 1) + 1 = i + 1 + j + 1 by omega] at this
      · intro j hj
        have := hA (j + 1) (Nat.succ_lt_succ hj)
        rwa [show i + (j + 1) = i + 1 + j by omega] at this
      · rintro c s' ⟨rfl, hdone⟩
        refine ⟨rfl, ?_⟩
        rw [storeChars_cons, List.length_cons, Nat.add_comm cs.length, ← Nat.add_assoc]
        exact hdone

/-! ## The ends -/

/-- Characters that are accepted. -/
theorem readLineSuccess_accepts (hP : P.block = blocks sym) (h : Reading s₀ 16 i st m s)
    (hfits : ¬ Exceeds (s₀.reg .rsi) i) (hne : BitVec.ofNat 64 i ≠ 0)
    (hA : A (s₀.reg .rdi + BitVec.ofNat 64 (i + 1), 1)) :
    P.RunsIn A (s₀.reg .rsp) (.at .readLineSuccess 0) s
      (Returned P s₀ 16 (s₀.reg .rdi) (BitVec.ofNat 64 i) st
        (m.store (s₀.reg .rdi + BitVec.ofNat 64 (i + 1)) [0])) := by
  apply h.testSize hP rfl rfl
  · intro hexceeds
    exact absurd hexceeds hfits
  intro _ s₁ h₁ _
  apply h₁.testEmpty hP rfl rfl
  · intro hzero
    exact absurd hzero hne
  intro _ s₂ h₂
  exact accept_runsIn hP rfl rfl (by norm_num) h₂ hA

/-- No character, or so many that the index is zero again. -/
theorem readLineSuccess_refuses (hP : P.block = blocks sym) (h : Reading s₀ 16 i st m s)
    (hzero : BitVec.ofNat 64 i = 0) :
    P.RunsIn A (s₀.reg .rsp) (.at .readLineSuccess 0) s fun c s' =>
      c = .at .readLineErr 0 ∧ Reading s₀ 16 i st m s' := by
  apply h.testSize hP rfl rfl
  · intro _ s₁ h₁ _
    exact RunsIn.done ⟨rfl, h₁⟩
  intro _ s₁ h₁ _
  apply h₁.testEmpty hP rfl rfl
  · intro _ s₂ h₂
    exact RunsIn.done ⟨rfl, h₂⟩
  intro hne
  exact absurd hzero hne

/-- The error path, when a newline is still to come. -/
theorem readLineErr_returnsIn (hP : P.block = blocks sym) (h : Reading s₀ 16 i st m s)
    (hnewline : 0xA ∈ st.stdin) :
    P.RunsIn A (s₀.reg .rsp) (.at .readLineErr 0) s
      (Returned P s₀ 24 0 0 { st with stdin := afterLine st.stdin } m) := by
  apply RunsIn.callReturns hP rfl (clearStdin_returnsIn hP (by simpa using h.deep.2.1)
    (by simpa using h.deep.2.2) (by simpa [h.streams] using hnewline))
  rintro s₁ hrsp ⟨hstreams, hkeeps, hbelow⟩
  refine refuse_runsIn hP rfl rfl rfl le_rfl (i := i) ⟨hrsp.trans h.rsp, ?_, ?_, ?_, ?_, ?_, ?_⟩
  · rw [hkeeps .r12 (by decide)]
    exact h.r12
  · rw [hkeeps .r13 (by decide)]
    exact h.r13
  · rw [hkeeps .r14 (by decide)]
    exact h.r14
  · rw [hstreams]
    simp [h.streams]
  · exact h.keeps.trans (by simpa using hkeeps.mono reading (by simp))
  · refine (h.mem.mono (by norm_num)).trans ((onlyBelow_write64 _ ?_ ?_).trans (hbelow.of_lower ?_))
    · rw [h.rsp]
      bv_omega
    · rw [h.rsp]
      bv_omega
    · rw [State.reg_push, if_pos rfl, h.rsp]
      bv_omega

/-- The error path without end. -/
theorem readLineErr_divergesIn (hP : P.block = blocks sym) (h : Reading s₀ 16 i st m s)
    (hnewline : 0xA ∉ st.stdin) : P.DivergesIn A (s₀.reg .rsp) (.at .readLineErr 0, s) := by
  have hcall : P.RunsIn A (s₀.reg .rsp) (.at .readLineErr 0) s fun c s' =>
      c = .at .clearStdin 0 ∧ s' = s.push (P.addr .readLineErr 1) :=
    RunsIn.call hP rfl (RunsIn.done ⟨rfl, rfl⟩)
  apply Program.RunsIn.divergesIn hcall
  rintro c s' ⟨rfl, rfl⟩
  exact clearStdin_divergesIn hP (by simpa using h.deep.2.2) (by simpa [h.streams] using hnewline)

/-- On the error path nothing more is stored through the pointer. -/
theorem readLineErr_staysIn (hP : P.block = blocks sym) (h : Reading s₀ 16 i st m s) :
    P.StaysIn A (s₀.reg .rsp) (.at .readLineErr 0, s) := by
  by_cases hnewline : 0xA ∈ st.stdin
  · exact Program.RunsIn.staysIn (readLineErr_returnsIn hP h hnewline)
      fun _ _ hret => hret.atReturn.staysIn
  · exact (readLineErr_divergesIn hP h hnewline).staysIn

section Err

variable (hP : P.block = blocks sym)
  (hrun : P.RunsIn A (s.reg .rsp) (.at .readLine 0) s fun c s' =>
    c = .at .readLineErr 0 ∧ Reading s 16 i st m s')
include hP hrun

/-- A call that comes to the error path. -/
theorem readLine_finishes_of_err (hnewline : 0xA ∈ st.stdin) : P.Finishes .readLine s fun s' =>
    ∃ c, Returned P s 24 0 0 { st with stdin := afterLine st.stdin } m c s' := by
  refine Returned.finishes (RunsIn.bind hrun ?_)
  rintro c s₁ ⟨rfl, h⟩
  exact readLineErr_returnsIn hP h hnewline

theorem readLine_divergesIn_of_err (hnewline : 0xA ∉ st.stdin) :
    P.DivergesIn A (s.reg .rsp) (.at .readLine 0, s) := by
  apply Program.RunsIn.divergesIn hrun
  rintro c s' ⟨rfl, h⟩
  exact readLineErr_divergesIn hP h hnewline

theorem readLine_not_finishes_of_err (hnewline : 0xA ∉ st.stdin) (Q : State → Prop) :
    ¬ P.Finishes .readLine s Q :=
  (readLine_divergesIn_of_err hP hrun hnewline).endless.not_finishes

end Err

/-! ## The routine -/

section Routine

variable (hP : P.block = blocks sym) (hcs : ∀ b ∈ cs, InLine b)
  (hfits : ∀ j < cs.length, ¬ Exceeds (s.reg .rsi) (j + 1))
  (hA : ∀ j < cs.length, A (s.reg .rdi + BitVec.ofNat 64 j, 8))
include hP hcs hfits hA

/-- The beginning of a line, as long as there is room. -/
theorem readLine_collects (hstdin : s.streams.stdin = cs ++ rest) :
    P.RunsIn A (s.reg .rsp) (.at .readLine 0) s fun c s' => c = .at .readLineMainLoop 0 ∧
      Reading s 16 cs.length { s.streams with stdin := rest }
        (storeChars (pushed s) (s.reg .rdi) cs) s' := by
  refine RunsIn.bind (prologue_runsIn hP rfl rfl) ?_
  rintro c s₁ ⟨rfl, h⟩
  have hstreams : s.streams = { s.streams with stdin := cs ++ rest } := by rw [← hstdin]
  rw [hstreams] at h
  refine RunsIn.mono (readLineMainLoop_collects hP h hcs ?_ ?_) ?_
  · intro j hj
    rw [Nat.zero_add]
    exact hfits j hj
  · intro j hj
    rw [Nat.zero_add]
    exact hA j hj
  · rintro c s' ⟨rfl, hreading⟩
    rw [Nat.zero_add, BitVec.add_zero] at hreading
    exact ⟨rfl, hreading⟩

/-- **A line that is accepted.** -/
theorem readLine_accepts (hstdin : s.streams.stdin = cs ++ rest)
    (hend : ¬ InLine (rest.headD 0)) (hne : BitVec.ofNat 64 cs.length ≠ 0)
    (hA' : A (s.reg .rdi + BitVec.ofNat 64 (cs.length + 1), 1)) :
    P.RunsIn A (s.reg .rsp) (.at .readLine 0) s
      (Returned P s 16 (s.reg .rdi) (BitVec.ofNat 64 cs.length)
        { s.streams with stdin := rest.tail } (accepted s cs)) := by
  have hpos : 0 < cs.length := by
    by_contra hzero
    rw [Nat.eq_zero_of_not_pos hzero] at hne
    exact hne rfl
  have hlast := hfits (cs.length - 1) (by omega)
  rw [Nat.sub_add_cancel hpos] at hlast
  refine RunsIn.bind (readLine_collects hP hcs hfits hA hstdin) ?_
  rintro c s₁ ⟨rfl, h⟩
  refine RunsIn.bind (readLineMainLoop_ends hP h hend) ?_
  rintro c s₂ ⟨rfl, h⟩
  exact readLineSuccess_accepts hP h hlast hne hA'

/-- A line that ends and is not accepted. -/
theorem readLine_refuses (hstdin : s.streams.stdin = cs ++ rest)
    (hend : ¬ InLine (rest.headD 0)) (hzero : BitVec.ofNat 64 cs.length = 0) :
    P.RunsIn A (s.reg .rsp) (.at .readLine 0) s fun c s' => c = .at .readLineErr 0 ∧
      Reading s 16 cs.length { s.streams with stdin := rest.tail }
        (storeChars (pushed s) (s.reg .rdi) cs) s' := by
  refine RunsIn.bind (readLine_collects hP hcs hfits hA hstdin) ?_
  rintro c s₁ ⟨rfl, h⟩
  refine RunsIn.bind (readLineMainLoop_ends hP h hend) ?_
  rintro c s₂ ⟨rfl, h⟩
  exact readLineSuccess_refuses hP h hzero

/-- A character more than there is room for. -/
theorem readLine_overflows (hstdin : s.streams.stdin = cs ++ b :: rest) (hb : InLine b)
    (hexceeds : Exceeds (s.reg .rsi) (cs.length + 1))
    (hA' : A (s.reg .rdi + BitVec.ofNat 64 cs.length, 8)) :
    P.RunsIn A (s.reg .rsp) (.at .readLine 0) s fun c s' => c = .at .readLineErr 0 ∧
      Reading s 16 (cs.length + 1) { s.streams with stdin := rest }
        (storeChars (pushed s) (s.reg .rdi) (cs ++ [b])) s' := by
  refine RunsIn.bind (readLine_collects hP hcs hfits hA hstdin) ?_
  rintro c s₁ ⟨rfl, h⟩
  refine RunsIn.bind (readLineMainLoop_checks hP h hb) ?_
  rintro c s₂ ⟨rfl, hrax, h⟩
  refine RunsIn.mono (readLineCheck_turns hP h hrax hA') ?_
  rintro c s' ⟨rfl, h⟩
  rw [if_pos hexceeds]
  refine ⟨rfl, ?_⟩
  rw [storeChars_append]
  exact h

end Routine

/-- A line that the limit stops at character `k`. -/
theorem readLine_stops (hP : P.block = blocks sym) {k : ℕ}
    (hstdin : s.streams.stdin = cs ++ rest) (hcs : ∀ b ∈ cs, InLine b) (hk : k < cs.length)
    (hfits : ∀ j < k, ¬ Exceeds (s.reg .rsi) (j + 1)) (hexceeds : Exceeds (s.reg .rsi) (k + 1)) :
    P.RunsIn (fun _ => True) (s.reg .rsp) (.at .readLine 0) s fun c s' => c = .at .readLineErr 0 ∧
      Reading s 16 (k + 1) { s.streams with stdin := cs.drop (k + 1) ++ rest }
        (storeChars (pushed s) (s.reg .rdi) (cs.take (k + 1))) s' := by
  obtain ⟨before, b, behind, rfl, rfl⟩ := exists_split hk
  have hdrop : (before ++ b :: behind).drop (before.length + 1) = behind := by
    rw [List.drop_length_add_append]
    rfl
  have htake : (before ++ b :: behind).take (before.length + 1) = before ++ [b] := by
    rw [List.take_length_add_append]
    rfl
  rw [hdrop, htake]
  rw [List.append_assoc, List.cons_append] at hstdin
  exact readLine_overflows hP (fun c hc => hcs c (List.mem_append_left _ hc)) hfits
    (fun _ _ => trivial) hstdin (hcs b (by simp)) hexceeds trivial

/-- An empty line. -/
theorem readLine_refuses_empty (hP : P.block = blocks sym)
    (hend : ¬ InLine (s.streams.stdin.headD 0)) :
    P.RunsIn A (s.reg .rsp) (.at .readLine 0) s fun c s' => c = .at .readLineErr 0 ∧
      Reading s 16 0 { s.streams with stdin := s.streams.stdin.tail } (pushed s) s' :=
  readLine_refuses hP (List.forall_mem_nil InLine)
    (fun j hj => absurd hj j.not_lt_zero) (fun j hj => absurd hj j.not_lt_zero) rfl hend rfl

/-- A size for which the first character is one too many. -/
theorem readLine_overflows_first (hP : P.block = blocks sym)
    (hstdin : s.streams.stdin = b :: rest) (hb : InLine b) (hexceeds : Exceeds (s.reg .rsi) 1)
    (hA : A (s.reg .rdi, 8)) :
    P.RunsIn A (s.reg .rsp) (.at .readLine 0) s fun c s' => c = .at .readLineErr 0 ∧
      Reading s 16 1 { s.streams with stdin := rest }
        (storeChars (pushed s) (s.reg .rdi) [b]) s' :=
  readLine_overflows hP (List.forall_mem_nil InLine)
    (fun j hj => absurd hj j.not_lt_zero) (fun j hj => absurd hj j.not_lt_zero) hstdin hb hexceeds
    (by rw [List.length_nil, BitVec.add_zero]; exact hA)

/-! ## A line of a file -/

/-- Only the buffer and what is near it, and the `n` bytes below `p`, have changed. A
character at index 254 takes the bytes up to 261. -/
def OnlyBuffer (m m' : Memory) (buf p : Word) (n : ℕ) : Prop :=
  ∀ x : Word, 262 ≤ (x - buf).toNat → n ≤ (p - 1 - x).toNat → m' x = m x

theorem OnlyBuffer.of_lower {m' : Memory} {buf p q : Word} {n k : ℕ}
    (h : OnlyBuffer m m' buf q n) (hq : n + (p - q).toNat ≤ k) : OnlyBuffer m m' buf p k := by
  intro x hx hx'
  apply h x hx
  clear hx
  bv_omega

/-- The input goes on with the end of a line. -/
def EndsLine (rest : List Byte) : Prop := rest = [] ∨ ∃ more, rest = 0xA :: more

/-- **`read_line`** reads a line of 1 to 255 characters into a buffer of 256 bytes. A NUL ends the
line, too. -/
theorem readLine_returns_of_end (hP : P.block = blocks sym) {key : List Byte}
    (hrsi : s.reg .rsi = 256) (hne : key ≠ []) (hlen : key.length ≤ 255)
    (hkey : ∀ b ∈ key, InLine b) (hstdin : s.streams.stdin = key ++ rest)
    (hend : ¬ InLine (rest.headD 0)) (hclear : Clear (s.reg .rdi) 262 (s.reg .rsp + 8) 48) :
    P.Returns .readLine s fun s' => s'.reg .rax = s.reg .rdi ∧
      s'.mem.CString (s.reg .rdi) key ∧
      s'.streams = { s.streams with stdin := rest.tail } ∧
      OnlyBuffer s.mem s'.mem (s.reg .rdi) (s.reg .rsp) 40 := by
  have hsize : (s.reg .rsi).toNat = 256 := by rw [hrsi]; rfl
  have hbuffer : Clear (s.reg .rdi) 256 (s.reg .rsp + 8) 48 := hclear.of_le (by norm_num)
  have hcount : BitVec.ofNat 64 key.length ≠ 0 := by
    have := List.length_pos_iff.mpr hne
    bv_omega
  have hrun := readLine_accepts (A := fun _ => True) hP hkey
    (fun j hj => not_exceeds (by omega) (by omega)) (fun _ _ => trivial) hstdin hend hcount trivial
  refine Program.Finishes.returns (RunsIn.finishes (RunsIn.mono hrun ?_))
  intro c s' h
  have hheld := h.holds hbuffer (by norm_num) hne (by omega)
  refine ⟨h.atReturn, ?_, h.rax, ⟨hheld, fun b hb => (hkey b hb).2, by omega⟩, h.streams, ?_⟩
  · exact h.read64_eq (by norm_num)
      fun x hx => accepted_of_clear hbuffer (by norm_num) (by omega) hx
  · intro x hx hx'
    have hlower : 16 ≤ (s.reg .rsp - 24 - 1 - x).toNat := by
      clear hx
      bv_omega
    have hnear : 24 ≤ (s.reg .rsp - 1 - x).toNat := by omega
    show s'.mem x = _
    rw [h.mem x hlower, accepted, store_of_le, storeChars_of_le (by omega) (by omega)]
    · exact onlyBelow_pushed s x hnear
    · rw [List.length_singleton]
      clear hx' hlower hnear
      bv_omega

/-- The characters that were stored before a line was refused. -/
theorem readLine_returns_of_err (hP : P.block = blocks sym) {stored : List Byte} {k : ℕ}
    {st : Streams} (hrun : P.RunsIn (fun _ => True) (s.reg .rsp) (.at .readLine 0) s fun c s' =>
      c = .at .readLineErr 0 ∧ Reading s 16 k st (storeChars (pushed s) (s.reg .rdi) stored) s')
    (hnewline : 0xA ∈ st.stdin) (hlen : stored.length ≤ 256)
    (hclear : Clear (s.reg .rdi) 256 (s.reg .rsp + 8) 48) :
    P.Returns .readLine s fun s' => s'.reg .rax = 0 ∧
      s'.streams = { st with stdin := afterLine st.stdin } ∧
      ∀ x : Word, 263 ≤ (x - s.reg .rdi).toNat → 48 ≤ (s.reg .rsp - 1 - x).toNat →
        s'.mem x = s.mem x := by
  refine Program.Finishes.returns ((readLine_finishes_of_err hP hrun hnewline).mono ?_)
  rintro s' ⟨c, h⟩
  refine ⟨?_, h.rax, h.streams, fun x hx hx' => ?_⟩
  · exact h.read64_eq le_rfl fun x hx => storeChars_of_clear hclear (by norm_num) hlen hx
  · have hlower : 24 ≤ (s.reg .rsp - 24 - 1 - x).toNat := by
      clear hx
      bv_omega
    show s'.mem x = _
    rw [h.mem x hlower, storeChars_of_le (by omega) (by omega)]
    exact onlyBelow_pushed s x (by omega)

/-- What ends a line is not in it. -/
theorem EndsLine.not_inLine (h : EndsLine rest) : ¬ InLine (rest.headD 0) := by
  rcases h with rfl | ⟨more, rfl⟩
  · exact fun hb => hb.2 rfl
  · exact fun hb => hb.1 rfl

end LowLevel.Interface.Assembly
