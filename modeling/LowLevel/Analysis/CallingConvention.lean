import LowLevel.Interface.AssemblyConvention
import LowLevel.Interface.AssemblyDictionary
import LowLevel.Interface.AssemblyLines
import LowLevel.Interface.AssemblyWords
import LowLevel.Interface.SepiaLoop

/-!
# Which routines give the registers back

`find_word` and `simd_filter` use registers of their caller and do not save them, so there is a
caller whose registers they lose, wherever they come to their return. `read_line` and `read_word`
save theirs on the stack, where a buffer in the wrong place writes them over. The others use none.
-/

set_option autoImplicit false

namespace LowLevel.Analysis

open LowLevel.Library LowLevel.Library.X86 LowLevel.Library.X86.Memory
open LowLevel.Program.Assembly LowLevel.Interface.Assembly LowLevel.Interface.Sepia

/-- The routines that are called from other modules. -/
inductive Routine where
  | findWord | simdFilter | readLine | readWord | parseUint | parseInt | stringCopy | printUint
  | printInt
  deriving DecidableEq, Repr

/-- The registers that the readers save are in their places. -/
def SavedIn (s : State) (m : Memory) : Prop :=
  m.read64 (s.reg .rsp - 24) = s.reg .r12 ∧ m.read64 (s.reg .rsp - 16) = s.reg .r13 ∧
    m.read64 (s.reg .rsp - 8) = s.reg .r14

/-- The characters that `read_line` stores before it returns, and whether a NUL follows: those of a
line that is accepted, of a line that is refused at its end, or of a line that is too long, up to
the first character that is one too many. A line that is not accepted needs a newline to come:
without one `read_line` does not return. -/
inductive LineStores (s : State) : List Byte → Bool → Prop where
  | accepted
      (hfits : ∀ j < (firstLine s.streams.stdin).length, ¬ Exceeds (s.reg .rsi) (j + 1))
      (hne : BitVec.ofNat 64 (firstLine s.streams.stdin).length ≠ 0) :
      LineStores s (firstLine s.streams.stdin) true
  | refused
      (hfits : ∀ j < (firstLine s.streams.stdin).length, ¬ Exceeds (s.reg .rsi) (j + 1))
      (hzero : BitVec.ofNat 64 (firstLine s.streams.stdin).length = 0)
      (hnewline : 0xA ∈ s.streams.stdin.drop ((firstLine s.streams.stdin).length + 1)) :
      LineStores s (firstLine s.streams.stdin) false
  | stopped {k : ℕ} (hk : k < (firstLine s.streams.stdin).length)
      (hfits : ∀ j < k, ¬ Exceeds (s.reg .rsi) (j + 1)) (hexceeds : Exceeds (s.reg .rsi) (k + 1))
      (hnewline : 0xA ∈ s.streams.stdin.drop (k + 1)) :
      LineStores s ((firstLine s.streams.stdin).take (k + 1)) false

/-- The characters that `read_word` stores before it returns, and whether a NUL follows. -/
inductive WordStores (s : State) : List Byte → Bool → Prop where
  | accepted (hfits : ∀ j < (firstWord s.streams.stdin).length, ¬ Exceeds (s.reg .rsi) j)
      (hne : BitVec.ofNat 64 (firstWord s.streams.stdin).length ≠ 0) :
      WordStores s (firstWord s.streams.stdin) true
  | refused (hfits : ∀ j < (firstWord s.streams.stdin).length, ¬ Exceeds (s.reg .rsi) j)
      (hzero : BitVec.ofNat 64 (firstWord s.streams.stdin).length = 0) :
      WordStores s (firstWord s.streams.stdin) false
  | stopped {k : ℕ} (hk : k < (firstWord s.streams.stdin).length)
      (hfits : ∀ j < k, ¬ Exceeds (s.reg .rsi) j) (hexceeds : Exceeds (s.reg .rsi) k) :
      WordStores s ((firstWord s.streams.stdin).take k) false

/-- The memory with the registers saved and the characters stored. -/
def storedChars (s : State) (cs : List Byte) (nul : Bool) : Memory :=
  if nul then accepted s cs else storeChars (pushed s) (s.reg .rdi) cs

/-- The 24 bytes below the stack pointer, where the registers are saved, are not stored to: neither
a quadword of a character nor the NUL meets them. -/
def SparesSaved (s : State) (cs : List Byte) (nul : Bool) : Prop :=
  (∀ j < cs.length, Clear (s.reg .rdi + BitVec.ofNat 64 j) 8 (s.reg .rsp) 24) ∧
    (nul = true → Clear (s.reg .rdi + BitVec.ofNat 64 (cs.length + 1)) 1 (s.reg .rsp) 24)

variable {P : Program Label} {sym : Symbols} {s : State} {f : Label}

/-! ## The readers -/

section Reader

variable {c : Control Label} {s' : State} {d : ℕ} {rax rdx : Word} {st : Streams} {m : Memory}

theorem calleeSaved_iff_of_returned (h : Returned P s d rax rdx st m c s') :
    (∀ r ∈ calleeSaved, s'.reg r = s.reg r) ↔ SavedIn s m := by
  have hrbx : s'.reg .rbx = s.reg .rbx := h.keeps .rbx (by decide)
  have hrbp : s'.reg .rbp = s.reg .rbp := h.keeps .rbp (by decide)
  have hr15 : s'.reg .r15 = s.reg .r15 := h.keeps .r15 (by decide)
  have hrsp : s'.reg .rsp = s.reg .rsp := h.atReturn.2
  simp [calleeSaved, SavedIn, hrbx, hrbp, hr15, hrsp, h.r12, h.r13, h.r14]

theorem keepsCalleeSaved_iff_of_returned
    (h : P.Finishes f s fun s' => ∃ c, Returned P s d rax rdx st m c s') :
    KeepsCalleeSaved P f s ↔ SavedIn s m := by
  refine h.keepsCalleeSaved_iff ?_
  rintro s' - ⟨c, hret⟩
  exact calleeSaved_iff_of_returned hret

end Reader

/-- A routine of which it is known what it leaves behind when it returns. -/
theorem keepsCalleeSaved_iff_forall {α : Type} {leaves : α → Prop} {kept : α → Prop}
    (hleaves : ∀ a, leaves a → (KeepsCalleeSaved P f s ↔ kept a))
    (hnever : (¬ ∃ a, leaves a) → P.DivergesIn (fun _ => True) (s.reg .rsp) (.at f 0, s)) :
    KeepsCalleeSaved P f s ↔ ∀ a, leaves a → kept a := by
  constructor
  · intro hkeeps a ha
    exact (hleaves a ha).mp hkeeps
  · intro hkept
    by_cases hsome : ∃ a, leaves a
    · obtain ⟨a, ha⟩ := hsome
      exact (hleaves a ha).mpr (hkept a ha)
    · exact .inr (hnever hsome)

/-- What is left of the input behind a line and the character that ends it. -/
theorem drop_length_of_eq_append {stdin line rest : List Byte} (hstdin : stdin = line ++ rest) :
    stdin.drop (line.length + 1) = rest.tail := by
  rw [hstdin, List.drop_length_add_append, List.drop_one]

/-- What is left of it behind the first characters of a line. -/
theorem drop_of_eq_append {stdin line rest : List Byte} (hstdin : stdin = line ++ rest) {k : ℕ}
    (hk : k ≤ line.length) : stdin.drop k = line.drop k ++ rest := by
  rw [hstdin, List.drop_append_of_le_length hk]

/-- `read_line` gives the registers back when they are still where it saved them. -/
theorem readLine_keeps_iff (hP : P.block = blocks sym) (s : State) :
    KeepsCalleeSaved P .readLine s ↔
      ∀ a : List Byte × Bool, LineStores s a.1 a.2 → SavedIn s (storedChars s a.1 a.2) := by
  obtain ⟨rest, hstdin, hend, hline⟩ := firstLine_spec s.streams.stdin
  have hbehind := drop_length_of_eq_append hstdin
  apply keepsCalleeSaved_iff_forall
  · rintro ⟨cs, nul⟩ hstores
    cases hstores with
    | accepted hfits hne =>
        exact keepsCalleeSaved_iff_of_returned (Returned.finishes (readLine_accepts
          (A := fun _ => True) hP hline hfits (fun _ _ => trivial) hstdin hend hne trivial))
    | refused hfits hzero hnewline =>
        rw [hbehind] at hnewline
        exact keepsCalleeSaved_iff_of_returned (readLine_finishes_of_err hP
          (readLine_refuses (A := fun _ => True) hP hline hfits (fun _ _ => trivial) hstdin hend
            hzero) hnewline)
    | stopped hk hfits hexceeds hnewline =>
        rw [drop_of_eq_append hstdin hk] at hnewline
        exact keepsCalleeSaved_iff_of_returned (readLine_finishes_of_err hP
          (readLine_stops hP hstdin hline hk hfits hexceeds) hnewline)
  · intro hnone
    by_cases hstop : ∃ k, k < (firstLine s.streams.stdin).length ∧ Exceeds (s.reg .rsi) (k + 1)
    · -- the first character that is one too many
      have hfirst := Nat.find_spec hstop
      have hfits : ∀ j < Nat.find hstop, ¬ Exceeds (s.reg .rsi) (j + 1) :=
        fun j hj hexceeds => Nat.find_min hstop hj ⟨hj.trans hfirst.1, hexceeds⟩
      refine readLine_divergesIn_of_err hP
        (readLine_stops hP hstdin hline hfirst.1 hfits hfirst.2) fun hnewline => ?_
      rw [← drop_of_eq_append hstdin hfirst.1] at hnewline
      exact hnone ⟨(_, _), .stopped hfirst.1 hfits hfirst.2 hnewline⟩
    · have hfits : ∀ j < (firstLine s.streams.stdin).length, ¬ Exceeds (s.reg .rsi) (j + 1) :=
        fun j hj hexceeds => hstop ⟨j, hj, hexceeds⟩
      by_cases hzero : BitVec.ofNat 64 (firstLine s.streams.stdin).length = 0
      · refine readLine_divergesIn_of_err hP (readLine_refuses hP hline hfits
          (fun _ _ => trivial) hstdin hend hzero) fun hnewline => ?_
        rw [← hbehind] at hnewline
        exact hnone ⟨(_, _), .refused hfits hzero hnewline⟩
      · exact absurd ⟨(_, _), .accepted hfits hzero⟩ hnone

/-- `read_word` gives the registers back when they are still where it saved them. -/
theorem readWord_keeps_iff (hP : P.block = blocks sym) (s : State) :
    KeepsCalleeSaved P .readWord s ↔
      ∀ a : List Byte × Bool, WordStores s a.1 a.2 → SavedIn s (storedChars s a.1 a.2) := by
  obtain ⟨rest, hstdin, hend, hword⟩ := firstWord_spec s.streams.stdin
  apply keepsCalleeSaved_iff_forall
  · rintro ⟨cs, nul⟩ hstores
    cases hstores with
    | accepted hfits hne =>
        exact keepsCalleeSaved_iff_of_returned (Returned.finishes (readWord_accepts
          (A := fun _ => True) hP hword hfits (fun _ _ => trivial) hstdin hend hne trivial))
    | refused hfits hzero =>
        exact keepsCalleeSaved_iff_of_returned (Returned.finishes (readWord_refuses
          (A := fun _ => True) hP hword hfits (fun _ _ => trivial) hstdin hend hzero))
    | stopped hk hfits hexceeds =>
        exact keepsCalleeSaved_iff_of_returned
          (Returned.finishes (readWord_stops hP hstdin hword hk hfits hexceeds))
  · intro hnone
    by_cases hstop : ∃ k, k < (firstWord s.streams.stdin).length ∧ Exceeds (s.reg .rsi) k
    · have hfirst := Nat.find_spec hstop
      refine absurd ⟨(_, _), .stopped hfirst.1 (fun j hj hexceeds => ?_) hfirst.2⟩ hnone
      exact Nat.find_min hstop hj ⟨hj.trans hfirst.1, hexceeds⟩
    · have hfits : ∀ j < (firstWord s.streams.stdin).length, ¬ Exceeds (s.reg .rsi) j :=
        fun j hj hexceeds => hstop ⟨j, hj, hexceeds⟩
      by_cases hzero : BitVec.ofNat 64 (firstWord s.streams.stdin).length = 0
      · exact absurd ⟨(_, _), .refused hfits hzero⟩ hnone
      · exact absurd ⟨(_, _), .accepted hfits hzero⟩ hnone

/-! ## The saved registers -/

section Saved

variable {m : Memory} {cs : List Byte} {nul : Bool} {x : Word}

/-- The registers are where they were saved when nothing else was stored there. -/
theorem savedIn_of_pushed
    (hsame : ∀ x : Word, (x - (s.reg .rsp - 24)).toNat < 24 → m x = pushed s x) : SavedIn s m := by
  have hread : ∀ a : Word, (a - (s.reg .rsp - 24)).toNat ≤ 16 →
      m.read64 a = (pushed s).read64 a := by
    intro a ha
    apply read64_congr
    intro x hx
    apply hsame
    bv_omega
  unfold SavedIn
  rw [hread _ (by bv_omega), hread _ (by bv_omega), hread _ (by bv_omega)]
  unfold pushed
  refine ⟨read64_write64 _ _ _, ?_, ?_⟩
  · rw [read64_write64_of_le (by bv_omega) (by bv_omega), read64_write64]
  · rw [read64_write64_of_le (by bv_omega) (by bv_omega),
      read64_write64_of_le (by bv_omega) (by bv_omega), read64_write64]

/-- Spared bytes hold what was pushed. -/
theorem storedChars_of_spares (hspares : SparesSaved s cs nul)
    (hx : (x - (s.reg .rsp - 24)).toNat < 24) : storedChars s cs nul x = pushed s x := by
  obtain ⟨hchars, hnul⟩ := hspares
  have hnear : ¬ 24 ≤ (s.reg .rsp - 1 - x).toNat := by bv_omega
  have hstored : storeChars (pushed s) (s.reg .rdi) cs x = pushed s x :=
    storeChars_of_apart fun j hj => Nat.not_lt.mp fun hlt => hnear (hchars j hj x hlt)
  cases nul with
  | false => exact hstored
  | true =>
      refine (store_of_le ?_).trans hstored
      exact Nat.not_lt.mp fun hlt => hnear (hnul rfl x hlt)

/-- A byte that is stored to is the same for every caller. -/
theorem storedChars_withCaller (hmeets : (∃ j < cs.length,
      (x - (s.reg .rdi + BitVec.ofNat 64 j)).toNat < 8) ∨
      nul = true ∧ x = s.reg .rdi + BitVec.ofNat 64 (cs.length + 1)) (ρ ρ' : Reg → Word) :
    storedChars (s.withCaller ρ) cs nul x = storedChars (s.withCaller ρ') cs nul x := by
  unfold storedChars accepted
  rw [State.withCaller_rdi, State.withCaller_rdi]
  have hchars : (∃ j < cs.length, (x - (s.reg .rdi + BitVec.ofNat 64 j)).toNat < 8) →
      storeChars (pushed (s.withCaller ρ)) (s.reg .rdi) cs x =
        storeChars (pushed (s.withCaller ρ')) (s.reg .rdi) cs x := by
    rintro ⟨j, hj, hlt⟩
    exact storeChars_of_meets _ _ hj hlt
  by_cases hend : nul = true ∧ x = s.reg .rdi + BitVec.ofNat 64 (cs.length + 1)
  · obtain ⟨rfl, rfl⟩ := hend
    have hself : ∀ m : Memory, ∀ a : Word, m.store a [0] a = 0 := by
      intro m a
      rw [store_of_lt (by rw [BitVec.sub_self]; exact Nat.one_pos), BitVec.sub_self]
      rfl
    exact (hself _ _).trans (hself _ _).symm
  · have hbytes := hchars (hmeets.resolve_right hend)
    cases nul with
    | false => exact hbytes
    | true =>
        have hne : x ≠ s.reg .rdi + BitVec.ofNat 64 (cs.length + 1) := fun heq => hend ⟨rfl, heq⟩
        exact (store_of_ne hne).trans (hbytes.trans (store_of_ne hne).symm)

/-- A byte where the registers are saved, when all of them are made of the byte `b`. -/
theorem eq_of_savedIn {b : Byte} {v : Word} (hv : v = BitVec.ofNat 64 (leNat (List.replicate 8 b)))
    (hsaved : SavedIn (s.withCaller fun _ => v) m) (hx : (x - (s.reg .rsp - 24)).toNat < 24) :
    m x = b := by
  have hbyte : ∀ a, m.read64 a = v → (x - a).toNat < 8 → m x = b := by
    intro a hread hin
    exact eq_of_read64_eq (hread.trans (hv.trans (read64_const b a).symm)) hin
  unfold SavedIn at hsaved
  rw [State.withCaller_rsp, State.withCaller_of_mem _ _ (by decide) (by decide),
    State.withCaller_of_mem _ _ (by decide) (by decide),
    State.withCaller_of_mem _ _ (by decide) (by decide)] at hsaved
  obtain ⟨hr12, hr13, hr14⟩ := hsaved
  by_cases hlow : (x - (s.reg .rsp - 24)).toNat < 8
  · exact hbyte _ hr12 hlow
  by_cases hmid : (x - (s.reg .rsp - 16)).toNat < 8
  · exact hbyte _ hr13 hmid
  · exact hbyte _ hr14 (by bv_omega)

/-- **What is stored spares the registers of every caller** exactly when it is stored beside them:
a byte of theirs that is stored to is the same for callers whose bytes differ. -/
theorem savedIn_withCaller_iff :
    (∀ ρ, SavedIn (s.withCaller ρ) (storedChars (s.withCaller ρ) cs nul)) ↔
      SparesSaved s cs nul := by
  constructor
  · intro hsaved
    have hapart : ∀ x : Word, (x - (s.reg .rsp - 24)).toNat < 24 →
        ¬ ((∃ j < cs.length, (x - (s.reg .rdi + BitVec.ofNat 64 j)).toNat < 8) ∨
          nul = true ∧ x = s.reg .rdi + BitVec.ofNat 64 (cs.length + 1)) := by
      intro x hx hmeets
      have hzero := eq_of_savedIn (b := 0) (v := 0) (by decide) (hsaved _) hx
      have hones := eq_of_savedIn (b := 1) (v := 0x0101010101010101) (by decide) (hsaved _) hx
      rw [storedChars_withCaller hmeets _ fun _ => 0x0101010101010101, hones] at hzero
      exact absurd hzero (by decide)
    refine ⟨fun j hj x hx => Nat.not_lt.mp fun hnear => ?_,
      fun hnul x hx => Nat.not_lt.mp fun hnear => ?_⟩
    · exact hapart x (by clear hx; bv_omega) (.inl ⟨j, hj, hx⟩)
    · exact hapart x (by clear hx; bv_omega) (.inr ⟨hnul, by bv_omega⟩)
  · intro hspares ρ
    refine savedIn_of_pushed fun x hx => ?_
    rw [State.withCaller_rsp] at hx
    exact storedChars_of_spares (s := s.withCaller ρ) (by simpa [SparesSaved] using hspares)
      (by simpa using hx)

variable (hpos : 0 < (s.reg .rsi).toNat) (hsmall : (s.reg .rsi).toNat < 2 ^ 63)
  (hclear : Clear (s.reg .rdi) (s.reg .rsi).toNat (s.reg .rsp + 8) 48)
include hpos hsmall hclear

/-- A buffer apart from the stack: what is stored up to eight bytes behind it spares the
registers. -/
theorem sparesSaved_of_clear (hlength : cs.length ≤ (s.reg .rsi).toNat) :
    SparesSaved s cs nul := by
  have hwide : Clear (s.reg .rdi) ((s.reg .rsi).toNat + 8) (s.reg .rsp + 8) 40 :=
    hclear.widen hpos (by norm_num)
  have hbelow : Clear (s.reg .rdi) ((s.reg .rsi).toNat + 8) (s.reg .rsp) 24 :=
    hwide.of_lower (by bv_omega)
  refine ⟨fun j hj => ?_, fun _ => ?_⟩
  · exact Clear.append (hbelow.of_le (by omega)) (by omega)
  · exact Clear.append (hbelow.of_le (by omega)) (by omega)

/-- `read_line` stores no more characters than the size. -/
theorem sparesSaved_of_lineStores (h : LineStores s cs nul) : SparesSaved s cs nul := by
  have hlimit : ∀ k, (∀ j < k, ¬ Exceeds (s.reg .rsi) (j + 1)) → k < (s.reg .rsi).toNat := by
    intro k hfits
    by_contra hlong
    have hlast := hfits ((s.reg .rsi).toNat - 1) (by omega)
    rw [Nat.sub_add_cancel hpos] at hlast
    exact hlast (exceeds_size hpos hsmall)
  apply sparesSaved_of_clear hpos hsmall hclear
  cases h with
  | accepted hfits => exact (hlimit _ hfits).le
  | refused hfits => exact (hlimit _ hfits).le
  | stopped hk hfits =>
      rw [List.length_take_of_le hk]
      exact hlimit _ hfits

/-- Nor does `read_word`. -/
theorem sparesSaved_of_wordStores (h : WordStores s cs nul) : SparesSaved s cs nul := by
  have hlimit : ∀ k, (∀ j < k, ¬ Exceeds (s.reg .rsi) j) → k ≤ (s.reg .rsi).toNat := by
    intro k hfits
    by_contra hlong
    exact hfits _ (Nat.not_le.mp hlong) (exceeds_size hpos hsmall)
  apply sparesSaved_of_clear hpos hsmall hclear
  cases h with
  | accepted hfits => exact hlimit _ hfits
  | refused hfits => exact hlimit _ hfits
  | stopped hk hfits =>
      rw [List.length_take_of_le hk.le]
      exact hlimit _ hfits

end Saved

/-! ## find_word -/

theorem findWord_keeps_iff (hP : P.block = blocks sym) (s : State) :
    KeepsCalleeSaved P .findWord s ↔ ∀ r, Leads (searchPushed P s) (s.reg .rdi) (s.reg .rsi) r →
      s.reg .r12 = s.reg .rdi ∧ s.reg .r13 = r := by
  have hdeep : s.reg .rsp - 8 ≠ s.reg .rsp := by bv_omega
  apply keepsCalleeSaved_iff_forall
  · intro r hleads
    have hfinishes : P.Finishes .findWord s fun s' => s'.reg .r12 = s.reg .rdi ∧ s'.reg .r13 = r ∧
        Keeps (.r12 :: .r13 :: volatile) s s' := by
      refine RunsIn.finishes (RunsIn.mono (findWord_runsIn (A := fun _ => True) hP hleads hdeep) ?_)
      rintro c s' ⟨rfl, -, hr12, hr13, hkeeps, -, -⟩
      exact ⟨RunsIn.atReturn hP rfl (hkeeps .rsp (by decide)), hr12, hr13, hkeeps⟩
    refine hfinishes.keepsCalleeSaved_iff ?_
    rintro s' hrsp ⟨hr12, hr13, hkeeps⟩
    have hrbx : s'.reg .rbx = s.reg .rbx := hkeeps .rbx (by decide)
    have hrbp : s'.reg .rbp = s.reg .rbp := hkeeps .rbp (by decide)
    have hr14 : s'.reg .r14 = s.reg .r14 := hkeeps .r14 (by decide)
    have hr15 : s'.reg .r15 = s.reg .r15 := hkeeps .r15 (by decide)
    simp [calleeSaved, hrbx, hrbp, hr12, hr13, hr14, hr15, hrsp, eq_comm]
  · intro hnone
    exact findWord_divergesIn hP (fun r hleads => hnone ⟨r, hleads⟩) hdeep

/-! ## simd_filter -/

/-- What `simd_filter` leaves in the registers was there before: the arguments, the address behind
the pixels of all turns of the loop, and the counter after them. -/
structure HoldsFilterResult (s : State) : Prop where
  rbx : s.reg .rbx = s.reg .rdx + BitVec.ofNat 64 (3 * loopTurns (byteCount s))
  r12 : s.reg .r12 = s.reg .rdi
  r13 : s.reg .r13 = s.reg .rsi
  r14 : s.reg .r14 = s.reg .rdx
  r15 : s.reg .r15 =
    BitVec.ofNat 64 (byteCount s) - BitVec.ofNat 64 (3 * loopTurns (byteCount s))

theorem simdFilter_keeps_iff {P' : Program LowLevel.Program.SepiaFilter.Label}
    (hP' : P'.block = LowLevel.Program.SepiaFilter.blocks) (s : State) :
    KeepsCalleeSaved P' .simdFilter s ↔ HoldsFilterResult s := by
  refine (simdFilter_finishes hP' s).keepsCalleeSaved_iff ?_
  rintro s' hrsp ⟨hrbx, hrbp, hr12, hr13, hr14, hr15⟩
  constructor
  · intro hkeeps
    exact ⟨(hkeeps .rbx (by decide)).symm.trans hrbx, (hkeeps .r12 (by decide)).symm.trans hr12,
      (hkeeps .r13 (by decide)).symm.trans hr13, (hkeeps .r14 (by decide)).symm.trans hr14,
      (hkeeps .r15 (by decide)).symm.trans hr15⟩
  · intro h r hr
    simp only [calleeSaved, List.mem_cons, List.not_mem_nil, or_false] at hr
    rcases hr with rfl | rfl | rfl | rfl | rfl | rfl | rfl
    · exact hrbx.trans h.rbx.symm
    · exact hrbp
    · exact hr12.trans h.r12.symm
    · exact hr13.trans h.r13.symm
    · exact hr14.trans h.r14.symm
    · exact hr15.trans h.r15.symm
    · exact hrsp

/-! ## The nine routines -/

namespace Routine

/-- The routine, called in `s`, gives the registers back. -/
def KeepsRegisters (P : Program Label) (P' : Program LowLevel.Program.SepiaFilter.Label)
    (s : State) : Routine → Prop
  | .findWord => KeepsCalleeSaved P .findWord s
  | .simdFilter => KeepsCalleeSaved P' .simdFilter s
  | .readLine => KeepsCalleeSaved P .readLine s
  | .readWord => KeepsCalleeSaved P .readWord s
  | .parseUint => KeepsCalleeSaved P .parseUint s
  | .parseInt => KeepsCalleeSaved P .parseInt s
  | .stringCopy => KeepsCalleeSaved P .stringCopy s
  | .printUint => KeepsCalleeSaved P .printUint s
  | .printInt => KeepsCalleeSaved P .printInt s

/-- The routine gives the registers back to every caller, whatever they hold. -/
def KeepsForEveryCaller (P : Program Label) (P' : Program LowLevel.Program.SepiaFilter.Label)
    (s : State) (routine : Routine) : Prop :=
  ∀ ρ, routine.KeepsRegisters P P' (s.withCaller ρ)

/-- When the registers of the caller are spared: `find_word` uses them unless its search has no end,
and `simd_filter` always; the readers store over them unless the characters and the NUL are stored
beside the places where they are saved; the others do not use them. -/
def SparesCaller (P : Program Label) (s : State) : Routine → Prop
  | .findWord => ∀ r, ¬ Leads (searchPushed P s) (s.reg .rdi) (s.reg .rsi) r
  | .simdFilter => False
  | .readLine => ∀ cs nul, LineStores s cs nul → SparesSaved s cs nul
  | .readWord => ∀ cs nul, WordStores s cs nul → SparesSaved s cs nul
  | .parseUint | .parseInt | .stringCopy | .printUint | .printInt => True

end Routine

/-- A reader gives the registers back to every caller when it stores beside where it saved them. -/
theorem keepsForEveryCaller_reader {stores : State → List Byte → Bool → Prop}
    (hcaller : ∀ ρ cs nul, stores (s.withCaller ρ) cs nul ↔ stores s cs nul)
    (hkeeps : ∀ s, KeepsCalleeSaved P f s ↔
      ∀ a : List Byte × Bool, stores s a.1 a.2 → SavedIn s (storedChars s a.1 a.2)) :
    (∀ ρ, KeepsCalleeSaved P f (s.withCaller ρ)) ↔
      ∀ cs nul, stores s cs nul → SparesSaved s cs nul := by
  constructor
  · intro hevery cs nul hstores
    refine savedIn_withCaller_iff.mp fun ρ => ?_
    exact (hkeeps _).mp (hevery ρ) (cs, nul) ((hcaller ρ cs nul).mpr hstores)
  · intro hspares ρ
    refine (hkeeps _).mpr fun a hstores => ?_
    exact savedIn_withCaller_iff.mpr (hspares _ _ ((hcaller ρ _ _).mp hstores)) ρ

/-- What `read_line` stores depends on the input and the size only. -/
theorem lineStores_withCaller (ρ : Reg → Word) (cs : List Byte) (nul : Bool) :
    LineStores (s.withCaller ρ) cs nul ↔ LineStores s cs nul := by
  constructor
  · rintro (⟨hfits, hne⟩ | ⟨hfits, hzero, hnewline⟩ | ⟨hk, hfits, hexceeds, hnewline⟩)
    · exact .accepted hfits hne
    · exact .refused hfits hzero hnewline
    · exact .stopped hk hfits hexceeds hnewline
  · rintro (⟨hfits, hne⟩ | ⟨hfits, hzero, hnewline⟩ | ⟨hk, hfits, hexceeds, hnewline⟩)
    · exact .accepted (s := s.withCaller ρ) hfits hne
    · exact .refused (s := s.withCaller ρ) hfits hzero hnewline
    · exact .stopped (s := s.withCaller ρ) hk hfits hexceeds hnewline

/-- So does what `read_word` stores. -/
theorem wordStores_withCaller (ρ : Reg → Word) (cs : List Byte) (nul : Bool) :
    WordStores (s.withCaller ρ) cs nul ↔ WordStores s cs nul := by
  constructor
  · rintro (⟨hfits, hne⟩ | ⟨hfits, hzero⟩ | ⟨hk, hfits, hexceeds⟩)
    · exact .accepted hfits hne
    · exact .refused hfits hzero
    · exact .stopped hk hfits hexceeds
  · rintro (⟨hfits, hne⟩ | ⟨hfits, hzero⟩ | ⟨hk, hfits, hexceeds⟩)
    · exact .accepted (s := s.withCaller ρ) hfits hne
    · exact .refused (s := s.withCaller ρ) hfits hzero
    · exact .stopped (s := s.withCaller ρ) hk hfits hexceeds

/-- `find_word` gives the registers back to every caller only where it does not come to its
return: there it leaves the pointer to the key in `r12`. -/
theorem findWord_keepsForEveryCaller_iff (hP : P.block = blocks sym) (s : State) :
    (∀ ρ, KeepsCalleeSaved P .findWord (s.withCaller ρ)) ↔
      ∀ r, ¬ Leads (searchPushed P s) (s.reg .rdi) (s.reg .rsi) r := by
  have hpushed : ∀ ρ, searchPushed P (s.withCaller ρ) = searchPushed P s := by
    intro ρ
    rw [searchPushed, State.withCaller_mem, State.withCaller_rsp, searchPushed]
  simp only [findWord_keeps_iff hP, hpushed, State.withCaller_rdi, State.withCaller_rsi]
  constructor
  · intro hkeeps r hleads
    have hr12 := (hkeeps (fun _ => s.reg .rdi + 1) r hleads).1
    rw [State.withCaller_of_mem _ _ (by decide) (by decide)] at hr12
    bv_omega
  · intro hnone ρ r hleads
    exact absurd hleads (hnone r)

/-- **The calling convention**: when each routine gives the registers back to every caller. -/
theorem keepsRegisters_iff {P' : Program LowLevel.Program.SepiaFilter.Label}
    (hP : P.block = blocks sym) (hP' : P'.block = LowLevel.Program.SepiaFilter.blocks)
    (routine : Routine) (s : State) :
    routine.KeepsForEveryCaller P P' s ↔ routine.SparesCaller P s := by
  cases routine with
  | findWord => exact findWord_keepsForEveryCaller_iff hP s
  | simdFilter =>
      refine iff_of_false (fun hkeeps => ?_) not_false
      -- the height, which it leaves in `r12`, is not what this caller had there
      have hresult := (simdFilter_keeps_iff hP' _).mp (hkeeps fun _ => s.reg .rdi + 1)
      have hr12 := hresult.r12
      rw [State.withCaller_of_mem _ _ (by decide) (by decide), State.withCaller_rdi] at hr12
      bv_omega
  | readLine => exact keepsForEveryCaller_reader lineStores_withCaller (readLine_keeps_iff hP)
  | readWord => exact keepsForEveryCaller_reader wordStores_withCaller (readWord_keeps_iff hP)
  | parseUint => exact iff_of_true (fun _ => parseUint_keepsCalleeSaved hP) trivial
  | parseInt => exact iff_of_true (fun _ => parseInt_keepsCalleeSaved hP) trivial
  | stringCopy => exact iff_of_true (fun _ => stringCopy_keepsCalleeSaved hP) trivial
  | printUint => exact iff_of_true (fun _ => printUint_keepsCalleeSaved hP) trivial
  | printInt => exact iff_of_true (fun _ => printInt_keepsCalleeSaved hP) trivial

/-- A buffer of 256 bytes, far from the stack, and a line to read. -/
def callsReader : State :=
  ((State.fresh (fun _ => 0) (-16) [0x61, 0x62, 0xA]).setReg .rdi 4096).setReg .rsi 256

/-- A buffer apart from the stack. -/
theorem keepsRegisters_apart :
    Routine.readLine.KeepsForEveryCaller (inOrder ⟨0, 0, 0, 0⟩)
      LowLevel.Program.SepiaFilter.inOrder callsReader ∧
    Routine.readWord.KeepsForEveryCaller (inOrder ⟨0, 0, 0, 0⟩)
      LowLevel.Program.SepiaFilter.inOrder callsReader := by
  have hclear : Clear (callsReader.reg .rdi) (callsReader.reg .rsi).toNat
      (callsReader.reg .rsp + 8) 48 := by
    show Clear 4096 256 (-16 + 8) 48
    intro x hx
    bv_omega
  refine ⟨(keepsRegisters_iff rfl rfl .readLine callsReader).mpr fun cs nul hstores => ?_,
    (keepsRegisters_iff rfl rfl .readWord callsReader).mpr fun cs nul hstores => ?_⟩
  · exact sparesSaved_of_lineStores (by decide) (by decide) hclear hstores
  · exact sparesSaved_of_wordStores (by decide) (by decide) hclear hstores

/-- A key and the empty list, and an image of one pixel, with nothing in the other registers. -/
theorem not_keepsRegisters :
    ¬ Routine.findWord.KeepsRegisters (inOrder ⟨0, 0, 0, 0⟩)
        LowLevel.Program.SepiaFilter.inOrder
        ((State.fresh (fun _ => 0) 4088 []).setReg .rdi 4096) ∧
      ¬ Routine.simdFilter.KeepsRegisters (inOrder ⟨0, 0, 0, 0⟩)
        LowLevel.Program.SepiaFilter.inOrder
        ((((State.fresh (fun _ => 0) 4088 []).setReg .rdi 1).setReg .rsi 1).setReg .rdx 4096) := by
  constructor
  · intro hkeeps
    have hlost := (findWord_keeps_iff rfl _).mp hkeeps 0 .nil
    exact absurd hlost.1 (by decide)
  · intro hkeeps
    have hlost := (simdFilter_keeps_iff rfl _).mp hkeeps
    exact absurd hlost.r14 (by decide)

end LowLevel.Analysis
