import LowLevel.Interface.AssemblyInput

/-!
# `string_copy`

The string is measured first, its length is compared with the size of the buffer less one, as
signed numbers, and then it is copied up to its NUL. The copy is right as long as it starts behind
the string: what is written has been read by then.
-/

set_option autoImplicit false

namespace LowLevel.Interface.Assembly

open LowLevel.Library LowLevel.Library.X86 LowLevel.Library.X86.Memory
open LowLevel.Program.Assembly

variable {P : Program Label} {sym : Symbols} {A : Word × ℕ → Prop} {s : State} {top : Word}
  {bs : List Byte} {m : Memory}

/-! ## Measuring -/

/-- The memory with the arguments saved, and the return address of `string_length`. -/
def copyPushed (P : Program Label) (s : State) : Memory :=
  (((s.mem.write64 (s.reg .rsp - 8#64) (s.reg .rdx)).write64 (s.reg .rsp - 16#64)
    (s.reg .rdi)).write64 (s.reg .rsp - 24#64) (s.reg .rsi)).write64 (s.reg .rsp - 32#64)
    (P.addr .stringCopy 5)

theorem onlyBelow_copyPushed (P : Program Label) (s : State) :
    OnlyBelow s.mem (copyPushed P s) (s.reg .rsp) 32 :=
  (((onlyBelow_write64 _ (by bv_omega) (by bv_omega)).trans
    (onlyBelow_write64 _ (by bv_omega) (by bv_omega))).trans
    (onlyBelow_write64 _ (by bv_omega) (by bv_omega))).trans
    (onlyBelow_write64 _ (by bv_omega) (by bv_omega))

/-- What the pops take from the stack. -/
theorem copyPushed_saved (P : Program Label) (s : State) :
    (copyPushed P s).read64 (s.reg .rsp - 24#64) = s.reg .rsi ∧
      (copyPushed P s).read64 (s.reg .rsp - 16#64) = s.reg .rdi ∧
      (copyPushed P s).read64 (s.reg .rsp - 8#64) = s.reg .rdx := by
  unfold copyPushed
  refine ⟨?_, ?_, ?_⟩
  · rw [read64_write64_of_le (by bv_omega) (by bv_omega), read64_write64]
  · rw [read64_write64_of_le (by bv_omega) (by bv_omega),
      read64_write64_of_le (by bv_omega) (by bv_omega), read64_write64]
  · rw [read64_write64_of_le (by bv_omega) (by bv_omega),
      read64_write64_of_le (by bv_omega) (by bv_omega),
      read64_write64_of_le (by bv_omega) (by bv_omega), read64_write64]

/-- `string_copy` has measured the string. -/
structure Measured (P : Program Label) (s₀ s : State) : Prop where
  rsp : s.reg .rsp = s₀.reg .rsp
  rdi : s.reg .rdi = s₀.reg .rdi
  rsi : s.reg .rsi = s₀.reg .rsi
  r8 : s.reg .r8 = 0
  mem : s.mem = copyPushed P s₀

/-- The string that is left behind the pushes is measured, and goes on to be copied if its length
does not exceed the size. -/
theorem stringCopy_measures (hP : P.block = blocks sym)
    (hstr : CString (copyPushed P s) (s.reg .rdi) bs) :
    P.RunsIn A (s.reg .rsp) (.at .stringCopy 0) s fun c s' =>
      c = (if Exceeds (s.reg .rdx) bs.length then .at .stringCopyErr 0
        else .at .stringCopyLoop 0) ∧ Measured P s s' := by
  obtain ⟨hrsi, hrdi, hrdx⟩ := copyPushed_saved P s
  have hdown := slot_down (s.reg .rsp)
  have hup := slot_up (s.reg .rsp)
  have hsub := hdown 8
  have hsub' := hdown 16
  have hsub'' := hdown 24
  have hadd := hup 8
  have hadd' := hup 16
  simp only [Nat.reduceAdd] at hsub hsub' hsub'' hadd hadd'
  apply RunsIn.instr hP rfl rfl rfl
  apply RunsIn.instr hP rfl rfl rfl
  apply RunsIn.instr hP rfl rfl rfl
  apply RunsIn.instr hP rfl rfl rfl
  apply RunsIn.callReturns hP rfl (stringLength_returnsIn hP
    (by simp [hsub, hsub', hsub''])
    (show CString _ _ bs by simpa [hsub, hsub', hsub'', copyPushed] using hstr))
  rintro s₁ hrsp ⟨hrax, -, hmem, -⟩
  have hmem₁ : s₁.mem = copyPushed P s := by
    rw [hmem]
    simp [hsub, hsub', hsub'', copyPushed]
  simp [hsub, hsub'] at hrsp
  -- the arguments are back, and the length has been compared
  have hcompared : P.RunsIn A (s.reg .rsp) (.at .stringCopy 5) s₁ fun c s' =>
      c = .at .stringCopy 12 ∧
        s'.flags = .ofSub (BitVec.ofNat 64 bs.length) (s.reg .rdx - 1) ∧ Measured P s s' := by
    apply RunsIn.instr hP rfl rfl rfl
    apply RunsIn.instr hP rfl rfl rfl
    apply RunsIn.instr hP rfl rfl rfl
    apply RunsIn.instr hP rfl rfl rfl
    apply RunsIn.instr hP rfl rfl rfl
    apply RunsIn.instr hP rfl rfl rfl
    apply RunsIn.instr hP rfl rfl rfl
    refine RunsIn.done ⟨rfl, ?_, ?_, ?_, ?_, ?_, ?_⟩
    · simp [hmem₁, hrsp, hadd, hadd', hrax, hrdx]
    · simp [hrsp, hadd, hadd']
    · simp [hmem₁, hrsp, hadd', hrdi]
    · simp [hmem₁, hrsp, hrsi]
    · simp
    · simpa using hmem₁
  refine RunsIn.bind hcompared ?_
  rintro c s₂ ⟨rfl, hflags, hmeasured⟩
  apply RunsIn.jcc hP rfl (by rw [hflags]; exact holds_g_ofSub _ _)
  · intro hexceeds
    exact RunsIn.done ⟨(if_pos hexceeds).symm, hmeasured⟩
  · intro hfits
    apply RunsIn.fall hP rfl rfl
    exact RunsIn.done ⟨(if_neg hfits).symm, hmeasured⟩

/-! ## Copying -/

/-- The characters still to be read have not been written over. -/
theorem store_take_of_behind {a b : Word} {i : ℕ} (hi : i ≤ bs.length) (hshort : bs.length < 2 ^ 64)
    (hbehind : bs.length < (b - a).toNat) :
    m.store b (bs.take i) (a + BitVec.ofNat 64 i) = m (a + BitVec.ofNat 64 i) := by
  apply store_of_le
  rw [List.length_take_of_le hi]
  bv_omega

/-- From `i` characters on, `k` before the end. -/
theorem stringCopyLoop_runsIn (hP : P.block = blocks sym) {k i : ℕ} (hk : i + k = bs.length)
    (hstr : CString m (s.reg .rdi) bs)
    (hbehind : bs.length < (s.reg .rsi - s.reg .rdi).toNat)
    (hmem : s.mem = m.store (s.reg .rsi) (bs.take i)) (hr8 : s.reg .r8 = BitVec.ofNat 64 i) :
    P.RunsIn (fun _ => True) top (.at .stringCopyLoop 0) s fun c s' =>
      c = .at .stringCopySuccess 0 ∧ s'.reg .r8 = BitVec.ofNat 64 bs.length ∧
        s'.mem = m.store (s.reg .rsi) bs ∧ Keeps [.r8, .r9] s s' := by
  have hshort := hstr.short
  have hnext := store_take_of_behind (m := m) (show i ≤ bs.length by omega) hshort hbehind
  rw [← hmem] at hnext
  induction k generalizing s i with
  | zero =>
      obtain rfl : i = bs.length := by omega
      rw [hstr.nul] at hnext
      rw [List.take_length] at hmem
      apply RunsIn.instr hP rfl rfl rfl
      apply RunsIn.instr hP rfl rfl rfl
      apply RunsIn.jcc hP rfl (holds_e_ofSub _ _)
      · intro _
        exact RunsIn.done ⟨rfl, by simpa using hr8, by simpa using hmem, by simp⟩
      · intro hne
        simp [hr8, hnext] at hne
  | succ k ih =>
      have hi : i < bs.length := by omega
      rw [hstr.getElem hi] at hnext
      apply RunsIn.instr hP rfl rfl rfl
      apply RunsIn.instr hP rfl rfl rfl
      apply RunsIn.jcc hP rfl (holds_e_ofSub _ _)
      · intro heq
        simp [hr8, hnext] at heq
        exact absurd heq (hstr.nonzero _ (List.getElem_mem hi))
      · intro _
        have hgrown : (m.store (s.reg .rsi) (bs.take i)).store (s.reg .rsi + BitVec.ofNat 64 i)
            [bs[i]] = m.store (s.reg .rsi) (bs.take (i + 1)) := by
          rw [List.take_succ_eq_append_getElem hi]
          have hconcat := store_concat (m := m) (a := s.reg .rsi) (b := bs[i])
            (show (bs.take i).length < 2 ^ 64 by rw [List.length_take_of_le hi.le]; omega)
          rwa [List.length_take_of_le hi.le] at hconcat
        refine RunsIn.store hP rfl rfl (fun _ _ => trivial) ?_
        apply RunsIn.instr hP rfl rfl rfl
        apply RunsIn.jmp hP rfl
        refine RunsIn.mono (ih (i := i + 1) (by omega) ?_ ?_ ?_ ?_ ?_) ?_
        · simpa using hstr
        · simpa using hbehind
        · simp [hr8, hnext, hmem, hgrown]
        · simp [hr8, ofNat_add_one]
        · simp [hr8, hnext, hmem, hgrown]
          exact store_take_of_behind hi hshort hbehind
        · rintro c s' ⟨rfl, hr8', hmem', hkeeps⟩
          exact ⟨rfl, hr8', by simpa using hmem', by simpa using hkeeps⟩

/-- A string that does not exceed the size is copied with its NUL. -/
theorem stringCopy_copies (hP : P.block = blocks sym)
    (hstr : CString (copyPushed P s) (s.reg .rdi) bs)
    (hbehind : bs.length < (s.reg .rsi - s.reg .rdi).toNat)
    (hfits : ¬ Exceeds (s.reg .rdx) bs.length) :
    P.Finishes .stringCopy s fun s' => s'.reg .rax = BitVec.ofNat 64 bs.length ∧
      s'.mem = (copyPushed P s).store (s.reg .rsi) (bs ++ [0]) := by
  apply RunsIn.finishes
  refine RunsIn.bind (A := fun _ => True) (stringCopy_measures hP hstr) ?_
  rintro c s₁ ⟨rfl, hmeasured⟩
  rw [if_neg hfits]
  refine RunsIn.bind (stringCopyLoop_runsIn (m := copyPushed P s) (i := 0) hP (Nat.zero_add _)
    (by rwa [hmeasured.rdi]) (by rwa [hmeasured.rsi, hmeasured.rdi])
    (by simpa using hmeasured.mem) (by simpa using hmeasured.r8)) ?_
  rintro c s₂ ⟨rfl, hr8, hmem, hkeeps⟩
  have hrsi : s₂.reg .rsi = s.reg .rsi := (hkeeps .rsi (by decide)).trans hmeasured.rsi
  have hrsp : s₂.reg .rsp = s.reg .rsp := (hkeeps .rsp (by decide)).trans hmeasured.rsp
  rw [hmeasured.rsi] at hmem
  apply RunsIn.instr hP rfl rfl rfl
  refine RunsIn.store hP rfl rfl (fun _ _ => trivial) ?_
  apply RunsIn.instr hP rfl rfl rfl
  apply RunsIn.jmp hP rfl
  refine RunsIn.done ⟨RunsIn.atReturn hP rfl (by simpa using hrsp), by simpa using hr8, ?_⟩
  simpa [hr8, hrsi, hmem] using store_concat hstr.short

/-- A string that exceeds the size is refused. -/
theorem stringCopy_refuses (hP : P.block = blocks sym)
    (hstr : CString (copyPushed P s) (s.reg .rdi) bs)
    (hexceeds : Exceeds (s.reg .rdx) bs.length) :
    P.Finishes .stringCopy s fun s' => s'.reg .rax = 0 ∧ s'.mem = copyPushed P s := by
  apply RunsIn.finishes
  refine RunsIn.bind (A := fun _ => True) (stringCopy_measures hP hstr) ?_
  rintro c s₁ ⟨rfl, hmeasured⟩
  rw [if_pos hexceeds]
  apply RunsIn.instr hP rfl rfl rfl
  apply RunsIn.fall hP rfl rfl
  exact RunsIn.done ⟨RunsIn.atReturn hP rfl (by simpa using hmeasured.rsp), by simp,
    by simpa using hmeasured.mem⟩

end LowLevel.Interface.Assembly
