import LowLevel.Interface.AssemblyInput
import LowLevel.Library.Scan

/-!
# `read_word`

White space is skipped, and the word is collected until white space, a NUL or the end of the
input. The character that was read last stays in `rax` until it is stored or ends the word.
-/

set_option autoImplicit false

namespace LowLevel.Interface.Assembly

open LowLevel.Library LowLevel.Library.X86 LowLevel.Library.X86.Memory
open LowLevel.Program.Assembly

/-- Space, tab and newline. -/
def White (b : Byte) : Prop := b = 0x20 ∨ b = 0x9 ∨ b = 0xA

instance (b : Byte) : Decidable (White b) := inferInstanceAs (Decidable (_ ∨ _))

/-- The characters of a word. -/
def InWord (b : Byte) : Prop := ¬ White b ∧ b ≠ 0

instance (b : Byte) : Decidable (InWord b) := inferInstanceAs (Decidable (_ ∧ _))

/-- The input without the white space that it begins with. -/
def skipWhite (stdin : List Byte) : List Byte := stdin.dropWhile fun b => White b

/-- The characters that `read_word` collects. -/
def firstWord (stdin : List Byte) : List Byte := (skipWhite stdin).takeWhile fun b => InWord b

theorem firstWord_spec (stdin : List Byte) :
    ∃ rest, skipWhite stdin = firstWord stdin ++ rest ∧ ¬ InWord (rest.headD 0) ∧
      ∀ b ∈ firstWord stdin, InWord b := by
  refine ⟨_, List.takeWhile_append_dropWhile.symm, ?_, ?_⟩
  · simpa using headD_dropWhile (p := fun b => decide (InWord b)) (skipWhite stdin) (d := 0)
      (by decide)
  · intro b hb
    simpa using List.mem_takeWhile_imp hb

variable {P : Program Label} {sym : Symbols} {A : Word × ℕ → Prop} {s s₀ : State} {i : ℕ}
  {st : Streams} {m : Memory} {b : Byte} {cs rest : List Byte}

/-! ## White space -/

/-- One turn over the white space. -/
theorem readWordSkippingLoop_turn (hP : P.block = blocks sym) (h : Reading s₀ 16 i st m s) :
    P.RunsIn A (s₀.reg .rsp) (.at .readWordSkippingLoop 0) s fun c s' =>
      c = (if White (st.stdin.headD 0) then .at .readWordSkippingLoop 0
        else .at .readWordMainLoop 0) ∧
      s'.reg .rax = (st.stdin.headD 0).setWidth 64 ∧
      Reading s₀ 16 i { st with stdin := st.stdin.tail } m s' := by
  apply h.nextChar hP rfl
  intro s₁ hrax h₁
  generalize st.stdin.headD 0 = b at hrax ⊢
  apply h₁.testChar (c := 0x20) hP rfl rfl hrax
  · intro hspace s₂ h₂ hrax₂
    exact RunsIn.done ⟨(if_pos (.inl hspace)).symm, hrax₂, h₂⟩
  intro hspace s₂ h₂ hrax₂
  apply h₂.testChar (c := 0x9) hP rfl rfl hrax₂
  · intro htab s₃ h₃ hrax₃
    exact RunsIn.done ⟨(if_pos (.inr (.inl htab))).symm, hrax₃, h₃⟩
  intro htab s₃ h₃ hrax₃
  apply h₃.testChar (c := 0xA) hP rfl rfl hrax₃
  · intro hnewline s₄ h₄ hrax₄
    exact RunsIn.done ⟨(if_pos (.inr (.inr hnewline))).symm, hrax₄, h₄⟩
  intro hnewline s₄ h₄ hrax₄
  have hnot : ¬ White b := not_or.mpr ⟨hspace, not_or.mpr ⟨htab, hnewline⟩⟩
  apply RunsIn.fall hP rfl rfl
  exact RunsIn.done ⟨(if_neg hnot).symm, hrax₄, h₄⟩

/-- **The white space** is skipped, and the character behind it is in `rax`. -/
theorem readWordSkippingLoop_skips (hP : P.block = blocks sym) (h : Reading s₀ 16 i st m s) :
    P.RunsIn A (s₀.reg .rsp) (.at .readWordSkippingLoop 0) s fun c s' =>
      c = .at .readWordMainLoop 0 ∧
      s'.reg .rax = ((skipWhite st.stdin).headD 0).setWidth 64 ∧
      Reading s₀ 16 i { st with stdin := (skipWhite st.stdin).tail } m s' := by
  generalize hstdin : st.stdin = stdin
  induction stdin generalizing s st with
  | nil =>
      refine RunsIn.mono (readWordSkippingLoop_turn hP h) ?_
      rw [hstdin]
      exact fun _ _ hturn => hturn
  | cons b rest ih =>
      have hturn := readWordSkippingLoop_turn (A := A) hP h
      rw [hstdin, List.headD_cons] at hturn
      by_cases hwhite : White b
      · rw [if_pos hwhite] at hturn
        refine RunsIn.bind hturn ?_
        rintro c s₁ ⟨rfl, -, hreading⟩
        rw [skipWhite, List.dropWhile_cons_of_pos (by simpa using hwhite)]
        have hrest := ih hreading rfl
        exact hrest
      · rw [if_neg hwhite] at hturn
        rw [skipWhite, List.dropWhile_cons_of_neg (by simpa using hwhite)]
        exact hturn

/-! ## The loop -/

section Tests

variable (hP : P.block = blocks sym) (h : Reading s₀ 16 i st m s)
  (hrax : s.reg .rax = b.setWidth 64)
include hP h hrax

/-- A character of the word passes the tests, any other ends the word. -/
theorem readWordMainLoop_tests :
    P.RunsIn A (s₀.reg .rsp) (.at .readWordMainLoop 0) s fun c s' =>
      c = (if InWord b then .at .readWordMainLoop 8 else .at .readWordSuccess 0) ∧
      s'.reg .rax = b.setWidth 64 ∧ Reading s₀ 16 i st m s' := by
  have hends : White b → ¬ InWord b := fun hwhite hb => hb.1 hwhite
  apply h.testChar (c := 0x20) hP rfl rfl hrax
  · intro hspace s₁ h₁ hrax₁
    exact RunsIn.done ⟨(if_neg (hends (.inl hspace))).symm, hrax₁, h₁⟩
  intro hspace s₁ h₁ hrax₁
  apply h₁.testChar (c := 0x9) hP rfl rfl hrax₁
  · intro htab s₂ h₂ hrax₂
    exact RunsIn.done ⟨(if_neg (hends (.inr (.inl htab)))).symm, hrax₂, h₂⟩
  intro htab s₂ h₂ hrax₂
  apply h₂.testChar (c := 0xA) hP rfl rfl hrax₂
  · intro hnewline s₃ h₃ hrax₃
    exact RunsIn.done ⟨(if_neg (hends (.inr (.inr hnewline)))).symm, hrax₃, h₃⟩
  intro hnewline s₃ h₃ hrax₃
  apply h₃.testNul hP rfl rfl hrax₃
  · intro hnul s₄ h₄ hrax₄
    exact RunsIn.done ⟨(if_neg fun hb => hb.2 hnul).symm, hrax₄, h₄⟩
  intro hnul s₄ h₄ hrax₄
  have hword : InWord b := ⟨not_or.mpr ⟨hspace, not_or.mpr ⟨htab, hnewline⟩⟩, hnul⟩
  exact RunsIn.done ⟨(if_pos hword).symm, hrax₄, h₄⟩

/-- The size is tested before the store. -/
theorem readWordMainLoop_sizes :
    P.RunsIn A (s₀.reg .rsp) (.at .readWordMainLoop 8) s fun c s' =>
      c = (if Exceeds (s₀.reg .rsi) i then .at .readWordErr 0 else .at .readWordMainLoop 10) ∧
      s'.reg .rax = b.setWidth 64 ∧ Reading s₀ 16 i st m s' := by
  apply h.testSize hP rfl rfl
  · intro hexceeds s₁ h₁ hrax₁
    exact RunsIn.done ⟨(if_pos hexceeds).symm, hrax₁.trans hrax, h₁⟩
  · intro hfits s₁ h₁ hrax₁
    exact RunsIn.done ⟨(if_neg hfits).symm, hrax₁.trans hrax, h₁⟩

/-- The character is stored and the next one read. -/
theorem readWordMainLoop_stores (hA : A (s₀.reg .rdi + BitVec.ofNat 64 i, 8)) :
    P.RunsIn A (s₀.reg .rsp) (.at .readWordMainLoop 10) s fun c s' =>
      c = .at .readWordMainLoop 0 ∧ s'.reg .rax = (st.stdin.headD 0).setWidth 64 ∧
      Reading s₀ 16 (i + 1) { st with stdin := st.stdin.tail }
        (m.write64 (s₀.reg .rdi + BitVec.ofNat 64 i) (b.setWidth 64)) s' := by
  apply storeChar_runsIn hP rfl rfl h hrax hA
  intro s₁ hreading
  apply hreading.nextChar hP rfl
  intro s₂ hrax₂ h₂
  apply RunsIn.jmp hP rfl
  exact RunsIn.done ⟨rfl, hrax₂, h₂⟩

end Tests

/-- **The loop** over characters that there is room for. -/
theorem readWordMainLoop_collects (hP : P.block = blocks sym)
    (h : Reading s₀ 16 i { st with stdin := (cs ++ rest).tail } m s)
    (hrax : s.reg .rax = ((cs ++ rest).headD 0).setWidth 64) (hcs : ∀ b ∈ cs, InWord b)
    (hfits : ∀ j < cs.length, ¬ Exceeds (s₀.reg .rsi) (i + j))
    (hA : ∀ j < cs.length, A (s₀.reg .rdi + BitVec.ofNat 64 (i + j), 8)) :
    P.RunsIn A (s₀.reg .rsp) (.at .readWordMainLoop 0) s fun c s' =>
      c = .at .readWordMainLoop 0 ∧ s'.reg .rax = (rest.headD 0).setWidth 64 ∧
      Reading s₀ 16 (i + cs.length) { st with stdin := rest.tail }
        (storeChars m (s₀.reg .rdi + BitVec.ofNat 64 i) cs) s' := by
  induction cs generalizing s i m with
  | nil => exact RunsIn.done ⟨rfl, hrax, h⟩
  | cons b cs ih =>
      refine RunsIn.bind (readWordMainLoop_tests hP h hrax) ?_
      rintro c s₁ ⟨rfl, hrax₁, h₁⟩
      rw [List.cons_append, List.headD_cons] at hrax₁ ⊢
      rw [if_pos (hcs b List.mem_cons_self)]
      refine RunsIn.bind (readWordMainLoop_sizes hP h₁ hrax₁) ?_
      rintro c s₂ ⟨rfl, hrax₂, h₂⟩
      have hfirst : ¬ Exceeds (s₀.reg .rsi) i := hfits 0 (Nat.succ_pos _)
      rw [if_neg hfirst]
      refine RunsIn.bind (readWordMainLoop_stores hP h₂ hrax₂ (hA 0 (Nat.succ_pos _))) ?_
      rintro c s₃ ⟨rfl, hrax₃, h₃⟩
      refine RunsIn.mono (ih h₃ hrax₃ (fun c hc => hcs c (List.mem_cons_of_mem b hc)) ?_ ?_) ?_
      · intro j hj
        rw [Nat.add_assoc, Nat.add_comm 1]
        exact hfits (j + 1) (Nat.succ_lt_succ hj)
      · intro j hj
        rw [Nat.add_assoc, Nat.add_comm 1]
        exact hA (j + 1) (Nat.succ_lt_succ hj)
      · rintro c s' ⟨rfl, hrax', hdone⟩
        refine ⟨rfl, hrax', ?_⟩
        rw [storeChars_cons, List.length_cons, Nat.add_comm cs.length, ← Nat.add_assoc]
        exact hdone

/-! ## The ends -/

/-- A word that is accepted. -/
theorem readWordSuccess_accepts (hP : P.block = blocks sym) (h : Reading s₀ 16 i st m s)
    (hne : BitVec.ofNat 64 i ≠ 0) (hA : A (s₀.reg .rdi + BitVec.ofNat 64 (i + 1), 1)) :
    P.RunsIn A (s₀.reg .rsp) (.at .readWordSuccess 0) s
      (Returned P s₀ 16 (s₀.reg .rdi) (BitVec.ofNat 64 i) st
        (m.store (s₀.reg .rdi + BitVec.ofNat 64 (i + 1)) [0])) := by
  apply h.testEmpty hP rfl rfl
  · intro hzero
    exact absurd hzero hne
  · intro _ s₁ h₁
    exact accept_runsIn hP rfl rfl (by norm_num) h₁ hA

/-- No character, or so many that the index is zero again. -/
theorem readWordSuccess_refuses (hP : P.block = blocks sym) (h : Reading s₀ 16 i st m s)
    (hzero : BitVec.ofNat 64 i = 0) :
    P.RunsIn A (s₀.reg .rsp) (.at .readWordSuccess 0) s (Returned P s₀ 16 0 0 st m) := by
  apply h.testEmpty hP rfl rfl
  · intro _ s₁ h₁
    exact refuse_runsIn hP rfl rfl rfl (by norm_num) h₁
  · intro hne
    exact absurd hzero hne

/-! ## The routine -/

section Routine

variable (hP : P.block = blocks sym) (hcs : ∀ b ∈ cs, InWord b)
  (hfits : ∀ j < cs.length, ¬ Exceeds (s.reg .rsi) j)
  (hA : ∀ j < cs.length, A (s.reg .rdi + BitVec.ofNat 64 j, 8))
include hP hcs hfits hA

/-- The beginning of a word, as long as there is room. -/
theorem readWord_collects (hstdin : skipWhite s.streams.stdin = cs ++ rest) :
    P.RunsIn A (s.reg .rsp) (.at .readWord 0) s fun c s' => c = .at .readWordMainLoop 0 ∧
      s'.reg .rax = (rest.headD 0).setWidth 64 ∧
      Reading s 16 cs.length { s.streams with stdin := rest.tail }
        (storeChars (pushed s) (s.reg .rdi) cs) s' := by
  refine RunsIn.bind (prologue_runsIn hP rfl rfl) ?_
  rintro c s₁ ⟨rfl, h⟩
  refine RunsIn.bind (readWordSkippingLoop_skips hP h) ?_
  rintro c s₂ ⟨rfl, hrax, h⟩
  rw [hstdin] at hrax h
  refine RunsIn.mono (readWordMainLoop_collects hP h hrax hcs ?_ ?_) ?_
  · intro j hj
    rw [Nat.zero_add]
    exact hfits j hj
  · intro j hj
    rw [Nat.zero_add]
    exact hA j hj
  · rintro c s' ⟨rfl, hrax', hreading⟩
    rw [Nat.zero_add, BitVec.add_zero] at hreading
    exact ⟨rfl, hrax', hreading⟩

/-- A whole word, with the end of it read. -/
theorem readWord_ends (hstdin : skipWhite s.streams.stdin = cs ++ rest)
    (hend : ¬ InWord (rest.headD 0)) :
    P.RunsIn A (s.reg .rsp) (.at .readWord 0) s fun c s' => c = .at .readWordSuccess 0 ∧
      Reading s 16 cs.length { s.streams with stdin := rest.tail }
        (storeChars (pushed s) (s.reg .rdi) cs) s' := by
  refine RunsIn.bind (readWord_collects hP hcs hfits hA hstdin) ?_
  rintro c s₁ ⟨rfl, hrax, h⟩
  refine RunsIn.mono (readWordMainLoop_tests hP h hrax) ?_
  rintro c s₂ ⟨rfl, -, h⟩
  exact ⟨if_neg hend, h⟩

/-- **A word that is accepted.** -/
theorem readWord_accepts (hstdin : skipWhite s.streams.stdin = cs ++ rest)
    (hend : ¬ InWord (rest.headD 0)) (hne : BitVec.ofNat 64 cs.length ≠ 0)
    (hA' : A (s.reg .rdi + BitVec.ofNat 64 (cs.length + 1), 1)) :
    P.RunsIn A (s.reg .rsp) (.at .readWord 0) s
      (Returned P s 16 (s.reg .rdi) (BitVec.ofNat 64 cs.length)
        { s.streams with stdin := rest.tail } (accepted s cs)) := by
  refine RunsIn.bind (readWord_ends hP hcs hfits hA hstdin hend) ?_
  rintro c s₁ ⟨rfl, h⟩
  exact readWordSuccess_accepts hP h hne hA'

/-- No word, or one so long that the index is zero again. -/
theorem readWord_refuses (hstdin : skipWhite s.streams.stdin = cs ++ rest)
    (hend : ¬ InWord (rest.headD 0)) (hzero : BitVec.ofNat 64 cs.length = 0) :
    P.RunsIn A (s.reg .rsp) (.at .readWord 0) s
      (Returned P s 16 0 0 { s.streams with stdin := rest.tail }
        (storeChars (pushed s) (s.reg .rdi) cs)) := by
  refine RunsIn.bind (readWord_ends hP hcs hfits hA hstdin hend) ?_
  rintro c s₁ ⟨rfl, h⟩
  exact readWordSuccess_refuses hP h hzero

/-- A character more than there is room for. -/
theorem readWord_overflows (hstdin : skipWhite s.streams.stdin = cs ++ b :: rest)
    (hb : InWord b) (hexceeds : Exceeds (s.reg .rsi) cs.length) :
    P.RunsIn A (s.reg .rsp) (.at .readWord 0) s
      (Returned P s 16 0 0 { s.streams with stdin := rest }
        (storeChars (pushed s) (s.reg .rdi) cs)) := by
  refine RunsIn.bind (readWord_collects hP hcs hfits hA hstdin) ?_
  rintro c s₁ ⟨rfl, hrax, h⟩
  refine RunsIn.bind (readWordMainLoop_tests hP h hrax) ?_
  rintro c s₂ ⟨rfl, hrax₂, h₂⟩
  rw [List.headD_cons] at hrax₂ ⊢
  rw [if_pos hb]
  refine RunsIn.bind (readWordMainLoop_sizes hP h₂ hrax₂) ?_
  rintro c s₃ ⟨rfl, -, h₃⟩
  rw [if_pos hexceeds]
  exact refuse_runsIn hP rfl rfl rfl (by norm_num) h₃

end Routine

/-- A word that the limit stops at character `k`. -/
theorem readWord_stops (hP : P.block = blocks sym) {k : ℕ}
    (hstdin : skipWhite s.streams.stdin = cs ++ rest) (hcs : ∀ b ∈ cs, InWord b)
    (hk : k < cs.length) (hfits : ∀ j < k, ¬ Exceeds (s.reg .rsi) j)
    (hexceeds : Exceeds (s.reg .rsi) k) :
    P.RunsIn (fun _ => True) (s.reg .rsp) (.at .readWord 0) s
      (Returned P s 16 0 0 { s.streams with stdin := cs.drop (k + 1) ++ rest }
        (storeChars (pushed s) (s.reg .rdi) (cs.take k))) := by
  obtain ⟨before, b, behind, rfl, rfl⟩ := exists_split hk
  have hdrop : (before ++ b :: behind).drop (before.length + 1) = behind := by
    rw [List.drop_length_add_append]
    rfl
  rw [hdrop, List.take_left]
  rw [List.append_assoc, List.cons_append] at hstdin
  exact readWord_overflows hP (fun c hc => hcs c (List.mem_append_left _ hc)) hfits
    (fun _ _ => trivial) hstdin (hcs b (by simp)) hexceeds

/-- No word before a NUL or the end of the input. -/
theorem readWord_refuses_empty (hP : P.block = blocks sym)
    (hend : ¬ InWord ((skipWhite s.streams.stdin).headD 0)) :
    P.RunsIn A (s.reg .rsp) (.at .readWord 0) s (Returned P s 16 0 0
      { s.streams with stdin := (skipWhite s.streams.stdin).tail } (pushed s)) :=
  readWord_refuses hP (List.forall_mem_nil InWord)
    (fun j hj => absurd hj j.not_lt_zero) (fun j hj => absurd hj j.not_lt_zero) rfl hend rfl

/-- A size for which the first character is one too many. -/
theorem readWord_overflows_first (hP : P.block = blocks sym)
    (hstdin : skipWhite s.streams.stdin = b :: rest) (hb : InWord b)
    (hexceeds : Exceeds (s.reg .rsi) 0) :
    P.RunsIn A (s.reg .rsp) (.at .readWord 0) s
      (Returned P s 16 0 0 { s.streams with stdin := rest } (pushed s)) :=
  readWord_overflows hP (List.forall_mem_nil InWord)
    (fun j hj => absurd hj j.not_lt_zero) (fun j hj => absurd hj j.not_lt_zero) hstdin hb hexceeds

end LowLevel.Interface.Assembly
