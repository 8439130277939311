import LowLevel.Interface.BmpComparing
import Mathlib.Logic.Relation

/-!
# Comparing in chunks

A turn of the loop of `file_cmp` goes on only when both chunks fill the buffer, so what it
subtracts from the counter is never more than the counter. A chunk that does not fill the buffer
is the last one: either nothing is left to compare, or the file has ended.
-/

set_option autoImplicit false

namespace LowLevel.Analysis

open LowLevel.Library LowLevel.Interface LowLevel.Program.BmpComparison
open Relation (ReflTransGen)

/-- The turns that lead from one state of the loop to another. -/
def CmpTurns : CmpLoop → CmpLoop → Prop := ReflTransGen fun loop loop' => loop.turn = .inr loop'

variable {f f1 f2 : Stream} {m n sz : ℕ} {loop loop' : CmpLoop}

/-! ## Chunks -/

theorem slice_min (hm : m ≤ n) (f : Stream) : (slice n f).take m = slice m f := by
  rw [slice, slice, List.take_take, Nat.min_eq_left hm]

/-- Chunks that differ are in slices that differ. -/
theorem slice_ne_of_ne (hm : m ≤ n) (h : slice m f1 ≠ slice m f2) : slice n f1 ≠ slice n f2 := by
  intro heq
  apply h
  rw [← slice_min hm, ← slice_min hm, heq]

/-- A chunk that is cut short is all there is. -/
theorem slice_of_short (hshort : (slice m f).length < m) (hm : m ≤ n) : slice n f = slice m f := by
  have hend : (f.content.drop f.pos).length ≤ m := by
    rw [slice, List.length_take] at hshort
    omega
  rw [slice, slice, List.take_of_length_le hend, List.take_of_length_le (hend.trans hm)]

theorem slice_split (hm : m ≤ n) (f : Stream) :
    slice n f = slice m f ++ slice (n - m) (f.fseekCur m) := by
  rw [← slice_add, Nat.add_sub_cancel' hm]

/-- `cmp_chunk` goes on when the chunks are the same and fill the buffer. -/
theorem cmpChunk_eq (bs1 bs2 : List Byte) (size : ℕ) : cmpChunk bs1 bs2 size =
    if bs1 ≠ bs2 then .diff else if bs1.length = size then .undef else .eq := by
  unfold cmpChunk
  by_cases hlength : bs1.length = bs2.length
  · rw [if_pos hlength]
  · rw [if_neg hlength, if_pos]
    rintro rfl
    exact hlength rfl

/-! ## One turn -/

/-- The chunk that the next turn reads of a file. -/
def nextChunk (sz : ℕ) (f : Stream) : List Byte := slice (min cmpBufferSize sz) f

theorem length_nextChunk_le (sz : ℕ) (f : Stream) :
    (nextChunk sz f).length ≤ min cmpBufferSize sz := List.length_take_le _ _

theorem turn_eq (hne : loop.sz ≠ 0) : loop.turn =
    if nextChunk loop.sz loop.f1 ≠ nextChunk loop.sz loop.f2 then .inl .diff
    else if (nextChunk loop.sz loop.f1).length = cmpBufferSize then
      .inr ⟨(loop.sz + (2 ^ 64 - cmpBufferSize)) % 2 ^ 64,
        loop.f1.fseekCur (nextChunk loop.sz loop.f1).length,
        loop.f2.fseekCur (nextChunk loop.sz loop.f2).length⟩
    else .inl .eq := by
  unfold CmpLoop.turn
  rw [if_neg hne]
  dsimp only
  rw [fread_eq, fread_eq, cmpChunk_eq]
  unfold nextChunk
  dsimp only
  split_ifs <;> rfl

/-- **A turn that goes on**: both chunks are the same whole buffer, and the counter does not
wrap. -/
theorem turn_eq_inr (hsz : loop.sz < 2 ^ 64) (h : loop.turn = .inr loop') :
    cmpBufferSize ≤ loop.sz ∧
      slice cmpBufferSize loop.f1 = slice cmpBufferSize loop.f2 ∧
      loop' = ⟨loop.sz - cmpBufferSize, loop.f1.fseekCur cmpBufferSize,
        loop.f2.fseekCur cmpBufferSize⟩ := by
  have hne : loop.sz ≠ 0 := by
    intro hzero
    rw [CmpLoop.turn, if_pos hzero] at h
    cases h
  rw [turn_eq hne] at h
  split_ifs at h with hdiff hfull
  rw [not_not] at hdiff
  -- the buffer is full, so the chunk was as long as it
  have hlength := length_nextChunk_le loop.sz loop.f1
  have hle : cmpBufferSize ≤ loop.sz := by omega
  have hwrap : (loop.sz + (2 ^ 64 - cmpBufferSize)) % 2 ^ 64 = loop.sz - cmpBufferSize := by
    unfold cmpBufferSize at hle ⊢
    omega
  rw [hwrap, ← hdiff, hfull] at h
  unfold nextChunk at hdiff
  rw [Nat.min_eq_left hle] at hdiff
  exact ⟨hle, hdiff, (Sum.inr.inj h).symm⟩

/-- **A turn that returns** returns whether the slices are the same. -/
theorem turn_eq_inl {r : CmpResult} (h : loop.turn = .inl r) :
    r = if slice loop.sz loop.f1 = slice loop.sz loop.f2 then .eq else .diff := by
  by_cases hzero : loop.sz = 0
  · rw [CmpLoop.turn, if_pos hzero] at h
    rw [hzero, if_pos (show slice 0 loop.f1 = slice 0 loop.f2 from rfl)]
    exact (Sum.inl.inj h).symm
  rw [turn_eq hzero] at h
  have hmin : min cmpBufferSize loop.sz ≤ loop.sz := Nat.min_le_right _ _
  split_ifs at h with hdiff hfull
  · rw [if_neg (slice_ne_of_ne hmin hdiff)]
    exact (Sum.inl.inj h).symm
  · rw [not_not] at hdiff
    rw [if_pos]
    · exact (Sum.inl.inj h).symm
    by_cases hall : min cmpBufferSize loop.sz = loop.sz
    · rw [← hall]
      exact hdiff
    · -- the chunk was to fill the buffer and did not
      have hbuffer : min cmpBufferSize loop.sz = cmpBufferSize := by omega
      have hle := length_nextChunk_le loop.sz loop.f1
      have hshort : (nextChunk loop.sz loop.f1).length < min cmpBufferSize loop.sz := by omega
      have hshort' : (nextChunk loop.sz loop.f2).length < min cmpBufferSize loop.sz := by
        rw [← hdiff]
        exact hshort
      rw [slice_of_short hshort hmin, slice_of_short hshort' hmin]
      exact hdiff

/-! ## The loop -/

theorem sub_buffer_lt (hsz : sz < 2 ^ 64) : sz - cmpBufferSize < 2 ^ 64 :=
  (Nat.sub_le sz cmpBufferSize).trans_lt hsz

/-- The counter stays a `size_t`. -/
theorem sz_lt_of_turns (h : CmpTurns loop loop') (hsz : loop.sz < 2 ^ 64) :
    loop'.sz < 2 ^ 64 := by
  induction h with
  | refl => exact hsz
  | tail _ hturn ih =>
      obtain ⟨-, -, rfl⟩ := turn_eq_inr ih hturn
      exact sub_buffer_lt ih

/-- **The loop ends**, with the comparison of the slices. -/
theorem exists_turn_eq_inl (loop : CmpLoop) (hsz : loop.sz < 2 ^ 64) :
    ∃ loop', CmpTurns loop loop' ∧ loop'.turn =
      .inl (if slice loop.sz loop.f1 = slice loop.sz loop.f2 then .eq else .diff) := by
  induction hn : loop.sz using Nat.strong_induction_on generalizing loop with
  | _ n ih =>
      subst hn
      cases hturn : loop.turn with
      | inl r => exact ⟨loop, .refl, by rw [hturn, ← turn_eq_inl hturn]⟩
      | inr next =>
          obtain ⟨hle, hsame, hnext⟩ := turn_eq_inr hsz hturn
          have hcount : next.sz = loop.sz - cmpBufferSize := by rw [hnext]
          have hbuffer : 0 < cmpBufferSize := by decide
          obtain ⟨last, hturns, hlast⟩ := ih next.sz (by omega) next
            (by rw [hcount]; exact sub_buffer_lt hsz) rfl
          subst hnext
          refine ⟨last, .head hturn hturns, ?_⟩
          rw [hlast, slice_split hle loop.f1, slice_split hle loop.f2, hsame]
          simp only [List.append_cancel_left_eq]

theorem fileCmp_eq (hne : sz ≠ 0) : (fileCmp sz f1 f2).1 =
    if nextChunk sz f1 ≠ nextChunk sz f2 then .diff
    else if (nextChunk sz f1).length = cmpBufferSize then
      (fileCmp (sz - cmpBufferSize) (f1.fseekCur (nextChunk sz f1).length)
        (f2.fseekCur (nextChunk sz f2).length)).1
    else .eq := by
  rw [fileCmp, if_neg hne]
  dsimp only
  rw [fread_eq, fread_eq, cmpChunk_eq]
  unfold nextChunk
  dsimp only
  split_ifs <;> rfl

/-- `file_cmp` is this loop. -/
theorem fileCmp_turn (hsz : loop.sz < 2 ^ 64) : (fileCmp loop.sz loop.f1 loop.f2).1 =
    match loop.turn with
    | .inl r => r
    | .inr next => (fileCmp next.sz next.f1 next.f2).1 := by
  by_cases hzero : loop.sz = 0
  · rw [fileCmp, CmpLoop.turn, if_pos hzero, if_pos hzero]
  cases hturn : loop.turn with
  | inl r =>
      rw [turn_eq hzero] at hturn
      rw [fileCmp_eq hzero]
      split_ifs at hturn ⊢
      · exact Sum.inl.inj hturn
      · exact Sum.inl.inj hturn
  | inr next =>
      obtain ⟨-, -, hnext⟩ := turn_eq_inr hsz hturn
      rw [turn_eq hzero] at hturn
      rw [fileCmp_eq hzero]
      split_ifs at hturn ⊢
      have hcount : next.sz = loop.sz - cmpBufferSize := by rw [hnext]
      have hf1 := congrArg CmpLoop.f1 (Sum.inr.inj hturn)
      have hf2 := congrArg CmpLoop.f2 (Sum.inr.inj hturn)
      dsimp only at hf1 hf2 ⊢
      rw [hcount, hf1, hf2]

theorem fileCmp_of_turns (h : CmpTurns loop loop') (hsz : loop.sz < 2 ^ 64) :
    (fileCmp loop.sz loop.f1 loop.f2).1 = (fileCmp loop'.sz loop'.f1 loop'.f2).1 := by
  induction h with
  | refl => rfl
  | tail hturns hturn ih =>
      rw [ih, fileCmp_turn (sz_lt_of_turns hturns hsz), hturn]

/-- **`file_cmp`** compares the next `sz` bytes of the files, or what there is of them: its loop
ends with that answer, and no turn takes more from the counter than there is. -/
theorem fileCmp_compares (f1 f2 : Stream) (hsz : sz < 2 ^ 64) :
    (∃ loop, CmpTurns ⟨sz, f1, f2⟩ loop ∧ loop.turn = .inl (fileCmp sz f1 f2).1) ∧
      (∀ loop loop', CmpTurns ⟨sz, f1, f2⟩ loop → loop.turn = .inr loop' →
        loop'.sz + cmpBufferSize = loop.sz) ∧
      (fileCmp sz f1 f2).1 = if slice sz f1 = slice sz f2 then .eq else .diff := by
  obtain ⟨last, hturns, hlast⟩ := exists_turn_eq_inl ⟨sz, f1, f2⟩ hsz
  have hanswer : (fileCmp sz f1 f2).1 = if slice sz f1 = slice sz f2 then .eq else .diff := by
    rw [fileCmp_of_turns hturns hsz, fileCmp_turn (sz_lt_of_turns hturns hsz), hlast]
  refine ⟨⟨last, hturns, by rw [hlast, hanswer]⟩, fun loop loop' hturns' hturn => ?_, hanswer⟩
  obtain ⟨hle, -, rfl⟩ := turn_eq_inr (sz_lt_of_turns hturns' hsz) hturn
  exact Nat.sub_add_cancel hle

/-- Files that differ in the last byte of the third chunk. -/
theorem fileCmp_compares_chunks :
    (fileCmp 20001 ⟨List.replicate 20000 0 ++ [1], 0⟩ ⟨List.replicate 20000 0 ++ [2], 0⟩).1 =
      .diff := by
  have hanswer := (fileCmp_compares ⟨List.replicate 20000 0 ++ [1], 0⟩
    ⟨List.replicate 20000 0 ++ [2], 0⟩ (show 20001 < 2 ^ 64 by norm_num)).2.2
  have hslice : ∀ b : Byte, slice 20001 ⟨List.replicate 20000 0 ++ [b], 0⟩ =
      List.replicate 20000 0 ++ [b] := fun b =>
    List.take_of_length_le (by rw [List.drop_zero, List.length_append, List.length_replicate]; rfl)
  rw [hanswer, hslice, hslice, if_neg]
  exact fun hsame => absurd (List.append_cancel_left hsame) (by decide)

end LowLevel.Analysis
