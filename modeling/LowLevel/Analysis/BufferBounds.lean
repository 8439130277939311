import LowLevel.Interface.AssemblyLines
import LowLevel.Interface.AssemblyWords

/-!
# Where the readers store

A character is stored as a quadword, so the last one that is stored needs seven bytes behind it
that the limit of the readers does not leave. Whether anything is out of the buffer depends on
the number of characters alone.
-/

set_option autoImplicit false

namespace LowLevel.Analysis

open LowLevel.Library LowLevel.Library.X86 LowLevel.Program.Assembly LowLevel.Interface.Assembly

/-- All that a reader stores through its pointer is in the buffer at `rdi` of the size `rsi`. -/
def StoresInBuffer (P : Program Label) (f : Label) (s : State) : Prop :=
  P.StaysIn (InBuffer (s.reg .rdi) (s.reg .rsi).toNat) (s.reg .rsp) (.at f 0, s)

/-- The quadwords of `len` characters are in a buffer of `n` bytes. A size over `2 ^ 63` is negative
to the readers, which store no character then or a single one. -/
def QuadwordsFit (len n : ℕ) : Prop := len = 0 ∨ len + 7 ≤ n ∨ 2 ^ 63 < n

instance (len n : ℕ) : Decidable (QuadwordsFit len n) := inferInstanceAs (Decidable (_ ∨ _))

variable {P : Program Label} {sym : Symbols} {s : State} {buf : Word} {k n : ℕ} {b : Byte}
  {cs rest : List Byte}

/-! ## Ranges -/

/-- The last quadword ends within the buffer. -/
theorem QuadwordsFit.add_le {len : ℕ} (h : QuadwordsFit len n) (hpos : 0 < len)
    (hneg : ¬ 2 ^ 63 < n) : len + 7 ≤ n := by
  rcases h with hzero | hlen | hlarge
  · exact absurd hzero hpos.ne'
  · exact hlen
  · exact absurd hlarge hneg

theorem inBuffer_quadword (buf : Word) (hk : k + 8 ≤ n) (hn : n < 2 ^ 64) :
    InBuffer buf n (buf + BitVec.ofNat 64 k, 8) := by
  intro x hx
  bv_omega

theorem inBuffer_byte (buf : Word) (hk : k < n) (hn : n < 2 ^ 64) :
    InBuffer buf n (buf + BitVec.ofNat 64 k, 1) := by
  intro x hx
  bv_omega

/-- A line or a word whose quadwords fit: the readers neither come to their limit nor leave the
buffer. -/
theorem inBuffer_of_add_le {len : ℕ} {size : Word} (buf : Word) (hneg : ¬ 2 ^ 63 < size.toNat)
    (hpos : 0 < len) (hlen : len + 7 ≤ size.toNat) :
    (∀ j ≤ len, ¬ Exceeds size j) ∧
      (∀ j < len, InBuffer buf size.toNat (buf + BitVec.ofNat 64 j, 8)) ∧
      BitVec.ofNat 64 len ≠ 0 ∧
      InBuffer buf size.toNat (buf + BitVec.ofNat 64 (len + 1), 1) := by
  have hsize := size.isLt
  refine ⟨fun j hj => not_exceeds (by omega) (by omega),
    fun j hj => inBuffer_quadword buf (by omega) hsize, ?_, inBuffer_byte buf (by omega) hsize⟩
  bv_omega

/-- A quadword over the end. -/
theorem not_inBuffer_quadword (buf : Word) (hk : k < n) (hn : n < k + 8) (hsize : n < 2 ^ 64) :
    ¬ InBuffer buf n (buf + BitVec.ofNat 64 k, 8) := by
  intro h
  have hlt := h (buf + BitVec.ofNat 64 n) (by bv_omega)
  rw [Memory.offset_add buf hsize] at hlt
  exact Nat.lt_irrefl n hlt

/-- The store of a character over the end. -/
theorem not_storesInBuffer {f : Label} {c : Control Label} {s' : State}
    (hpasses : P.Passes (s.reg .rsp) (.at f 0, s) (c, s'))
    (hfetch : P.fetch c = some (.mov (.mem ⟨.r12, some .r14, 0⟩) (.reg .rax)))
    {st : Streams} {m : Memory} (h : Reading s 16 k st m s') (hk : k < (s.reg .rsi).toNat)
    (hn : (s.reg .rsi).toNat < k + 8) : ¬ StoresInBuffer P f s := by
  intro hstores
  have hrange := hstores _ hpasses _ hfetch _ List.mem_cons_self
  have haddr : s'.addr ⟨.r12, some .r14, 0⟩ = s.reg .rdi + BitVec.ofNat 64 k := by
    simp [h.r12, h.r14]
  rw [haddr] at hrange
  exact not_inBuffer_quadword _ hk hn (s.reg .rsi).isLt hrange

/-! ## `read_line` -/

/-- `read_line` stays within a buffer that the quadwords fit. -/
theorem readLine_storesInBuffer (hP : P.block = blocks sym) (hsize : 0 < (s.reg .rsi).toNat)
    (hfit : QuadwordsFit (firstLine s.streams.stdin).length (s.reg .rsi).toNat) :
    StoresInBuffer P .readLine s := by
  obtain ⟨rest, hstdin, hend, hcs⟩ := firstLine_spec s.streams.stdin
  generalize firstLine s.streams.stdin = cs at *
  rcases cs with _ | ⟨b, cs⟩
  · rw [List.nil_append] at hstdin
    rw [← hstdin] at hend
    refine Program.RunsIn.staysIn (readLine_refuses_empty hP hend) ?_
    rintro c s' ⟨rfl, h⟩
    exact readLineErr_staysIn hP h
  · by_cases hneg : 2 ^ 63 < (s.reg .rsi).toNat
    · -- the first character is one too many
      have hfirst : InBuffer (s.reg .rdi) (s.reg .rsi).toNat (s.reg .rdi, 8) :=
        fun x hx => hx.trans (by omega)
      refine Program.RunsIn.staysIn (readLine_overflows_first hP hstdin
        (hcs b List.mem_cons_self) (exceeds_of_negative (.inr hneg) (by norm_num)) hfirst) ?_
      rintro c s' ⟨rfl, h⟩
      exact readLineErr_staysIn hP h
    · have hpos : 0 < (b :: cs).length := Nat.succ_pos _
      obtain ⟨hfits, hquad, hne, hlast⟩ :=
        inBuffer_of_add_le (s.reg .rdi) hneg hpos (hfit.add_le hpos hneg)
      exact Program.RunsIn.staysIn
        (readLine_accepts hP hcs (fun j hj => hfits (j + 1) hj) hquad hstdin hend hne hlast)
        fun _ _ hret => hret.atReturn.staysIn

theorem quadwordsFit_of_readLine (hP : P.block = blocks sym) (hsize : 0 < (s.reg .rsi).toNat)
    (h : StoresInBuffer P .readLine s) :
    QuadwordsFit (firstLine s.streams.stdin).length (s.reg .rsi).toNat := by
  by_contra hfit
  obtain ⟨hne, hlong, hsmall⟩ : _ ∧ _ ∧ _ := by simpa only [QuadwordsFit, not_or] using hfit
  obtain ⟨rest, hstdin, -, hcs⟩ := firstLine_spec s.streams.stdin
  -- the store that is over the end is the first one that could be
  obtain ⟨cs, b, behind, hsplit, hk⟩ :=
    exists_split (show (s.reg .rsi).toNat - 7 < (firstLine s.streams.stdin).length by omega)
  rw [hsplit] at hcs hstdin
  rw [List.append_assoc, List.cons_append] at hstdin
  have hrun : P.RunsIn (fun _ => True) (s.reg .rsp) (.at .readLine 0) s fun c s' =>
      c = .at .readLineCheck 0 ∧ Reading s 16 cs.length
        { s.streams with stdin := behind ++ rest }
        (Memory.storeChars (pushed s) (s.reg .rdi) cs) s' := by
    refine RunsIn.bind (readLine_collects hP (fun c hc => hcs c (List.mem_append_left _ hc))
      (fun j hj => not_exceeds (by omega) (by omega)) (fun _ _ => trivial) hstdin) ?_
    rintro c s₁ ⟨rfl, h₁⟩
    refine RunsIn.mono (readLineMainLoop_checks hP h₁ (hcs b (by simp))) ?_
    rintro c s₂ ⟨rfl, -, h₂⟩
    exact ⟨rfl, h₂⟩
  obtain ⟨c, s', hpasses, rfl, hreading⟩ := RunsIn.passes hrun
  refine not_storesInBuffer hpasses ?_ hreading (by omega) (by omega) h
  rw [Program.fetch, hP]
  rfl

/-! ## `read_word` -/

/-- `read_word` stays within a buffer that the quadwords fit. -/
theorem readWord_storesInBuffer (hP : P.block = blocks sym)
    (hfit : QuadwordsFit (firstWord s.streams.stdin).length (s.reg .rsi).toNat) :
    StoresInBuffer P .readWord s := by
  obtain ⟨rest, hstdin, hend, hcs⟩ := firstWord_spec s.streams.stdin
  generalize firstWord s.streams.stdin = cs at *
  rcases cs with _ | ⟨b, cs⟩
  · rw [List.nil_append] at hstdin
    rw [← hstdin] at hend
    exact Program.RunsIn.staysIn (readWord_refuses_empty hP hend)
      fun _ _ hret => hret.atReturn.staysIn
  · by_cases hneg : 2 ^ 63 < (s.reg .rsi).toNat
    · exact Program.RunsIn.staysIn (readWord_overflows_first hP hstdin (hcs b List.mem_cons_self)
        (exceeds_of_negative (.inr hneg) (by norm_num))) fun _ _ hret => hret.atReturn.staysIn
    · have hpos : 0 < (b :: cs).length := Nat.succ_pos _
      obtain ⟨hfits, hquad, hne, hlast⟩ :=
        inBuffer_of_add_le (s.reg .rdi) hneg hpos (hfit.add_le hpos hneg)
      exact Program.RunsIn.staysIn
        (readWord_accepts hP hcs (fun j hj => hfits j hj.le) hquad hstdin hend hne hlast)
        fun _ _ hret => hret.atReturn.staysIn

theorem quadwordsFit_of_readWord (hP : P.block = blocks sym) (hsize : 0 < (s.reg .rsi).toNat)
    (h : StoresInBuffer P .readWord s) :
    QuadwordsFit (firstWord s.streams.stdin).length (s.reg .rsi).toNat := by
  by_contra hfit
  obtain ⟨hne, hlong, hsmall⟩ : _ ∧ _ ∧ _ := by simpa only [QuadwordsFit, not_or] using hfit
  obtain ⟨rest, hstdin, -, hcs⟩ := firstWord_spec s.streams.stdin
  obtain ⟨cs, b, behind, hsplit, hk⟩ :=
    exists_split (show (s.reg .rsi).toNat - 7 < (firstWord s.streams.stdin).length by omega)
  rw [hsplit] at hcs hstdin
  rw [List.append_assoc, List.cons_append] at hstdin
  have hrun : P.RunsIn (fun _ => True) (s.reg .rsp) (.at .readWord 0) s fun c s' =>
      c = .at .readWordMainLoop 10 ∧ Reading s 16 cs.length
        { s.streams with stdin := behind ++ rest }
        (Memory.storeChars (pushed s) (s.reg .rdi) cs) s' := by
    refine RunsIn.bind (readWord_collects hP (fun c hc => hcs c (List.mem_append_left _ hc))
      (fun j hj => not_exceeds (by omega) (by omega)) (fun _ _ => trivial) hstdin) ?_
    rintro c s₁ ⟨rfl, hrax, h₁⟩
    refine RunsIn.bind (readWordMainLoop_tests hP h₁ hrax) ?_
    rintro c s₂ ⟨rfl, hrax₂, h₂⟩
    rw [List.headD_cons] at hrax₂ ⊢
    rw [if_pos (hcs b (by simp))]
    refine RunsIn.mono (readWordMainLoop_sizes hP h₂ hrax₂) ?_
    rintro c s₃ ⟨rfl, -, h₃⟩
    exact ⟨if_neg (not_exceeds (by omega) (by omega)), h₃⟩
  obtain ⟨c, s', hpasses, rfl, hreading⟩ := RunsIn.passes hrun
  refine not_storesInBuffer hpasses ?_ hreading (by omega) (by omega) h
  rw [Program.fetch, hP]
  rfl

/-! ## Both -/

/-- **When the readers stay in their buffers**: when the word, or the line, is empty or seven bytes
shorter than the buffer, or the size is negative. -/
theorem readers_storeInBuffer_iff (hP : P.block = blocks sym) (hsize : 1 ≤ (s.reg .rsi).toNat) :
    (StoresInBuffer P .readWord s ↔
      QuadwordsFit (firstWord s.streams.stdin).length (s.reg .rsi).toNat) ∧
    (StoresInBuffer P .readLine s ↔
      QuadwordsFit (firstLine s.streams.stdin).length (s.reg .rsi).toNat) :=
  ⟨⟨quadwordsFit_of_readWord hP hsize, readWord_storesInBuffer hP⟩,
    ⟨quadwordsFit_of_readLine hP hsize, readLine_storesInBuffer hP hsize⟩⟩

/-- A single character and a buffer of eight bytes. -/
theorem readers_storeInBuffer_eight :
    StoresInBuffer (inOrder ⟨0, 0, 0, 0⟩) .readWord (readerCall 0 8 (ascii "a\n")) ∧
      StoresInBuffer (inOrder ⟨0, 0, 0, 0⟩) .readLine (readerCall 0 8 (ascii "a\n")) := by
  have h := readers_storeInBuffer_iff (P := inOrder ⟨0, 0, 0, 0⟩)
    (s := readerCall 0 8 (ascii "a\n")) rfl (by decide)
  exact ⟨h.1.mpr (.inr (.inl (by decide))), h.2.mpr (.inr (.inl (by decide)))⟩

/-- The key of 255 characters that the dictionary has room for is stored up to 6 bytes behind its
buffer. -/
theorem not_readLine_storesInBuffer_255 : ¬ StoresInBuffer (inOrder ⟨0, 0, 0, 0⟩) .readLine
    (readerCall 0 256 (List.replicate 255 0x61 ++ [0xA])) := by
  intro h
  have hfit : QuadwordsFit (firstLine (List.replicate 255 0x61 ++ [0xA])).length 256 :=
    quadwordsFit_of_readLine rfl (by decide) h
  have hline : firstLine (List.replicate 255 0x61 ++ [0xA]) = List.replicate 255 0x61 := by
    apply takeWhile_append_of_head?
    · intro b hb
      rw [List.eq_of_mem_replicate hb]
      decide
    · decide
  rw [hline, List.length_replicate] at hfit
  exact absurd hfit (by decide)

end LowLevel.Analysis
