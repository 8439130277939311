import LowLevel.Analysis.BlockOwnership

/-!
# What the printed heap tells

`heap_debug_info` prints two characters for each block. In every heap that a client reaches it
prints a line that tells where the handles stand and how big they are, and tells nothing else: two
heaps print the same line exactly when the same handles are live in both.
-/

set_option autoImplicit false

namespace LowLevel.Analysis

open LowLevel.Library LowLevel.Model LowLevel.Interface LowLevel.Program.FixedHeap

variable {h h' : ClientHeap} {n : ℕ} {request : ℕ → Prop} {segs : List Segment}

/-- Where the live handles stand, and what they were asked for. -/
def ClientHeap.handles (h : ClientHeap) : List (ℕ × ℕ) := h.live.map fun p => (p.1.value, p.2)

/-- No call changes the number of blocks. -/
theorem Reached.length_status (hrequest : ¬ request 0) (hreached : Reached n request h) :
    h.status.length = n := by
  induction hreached with
  | start => exact List.length_replicate
  | @allocate h size b status _ hsize hcall ih =>
      have hpos : 1 ≤ size := by
        refine Nat.one_le_iff_ne_zero.mpr ?_
        rintro rfl
        exact hrequest hsize
      rcases blockAllocate_spec hpos h.status with ⟨-, hsame⟩ | ⟨pre, post, hbetween, hnew⟩
      · rw [hsame] at hcall
        obtain ⟨-, rfl⟩ := Prod.mk.inj (Option.some.inj hcall)
        exact ih
      · rw [hnew] at hcall
        obtain ⟨-, rfl⟩ := Prod.mk.inj (Option.some.inj hcall)
        rw [hbetween.status_eq] at ih
        simpa [Segment.width_ofSize hpos] using ih
  | @free h b size status hreached hb hcall ih =>
      obtain ⟨segs, hcut⟩ := hreached.cutInto hrequest
      obtain ⟨seg, pre, post, -, hwidth, -, hstatus, hfreed⟩ := hcut.freesSegment hb
      rw [hfreed] at hcall
      obtain rfl := Option.some.inj hcall
      rw [hstatus] at ih
      simpa [hwidth] using ih

theorem CutInto.width_eq (hcut : CutInto h segs) : width segs = h.status.length := by
  rw [hcut.status_eq, length_statuses]

/-- The same statuses are left by the same handles. -/
theorem status_eq_iff (hrequest : ¬ request 0) (hreached : Reached n request h)
    (hreached' : Reached n request h') :
    h.status = h'.status ↔ h.handles.Perm h'.handles := by
  obtain ⟨segs, hcut⟩ := hreached.cutInto hrequest
  obtain ⟨segs', hcut'⟩ := hreached'.cutInto hrequest
  rw [hcut.status_eq, hcut'.status_eq, statuses_injective.eq_iff]
  constructor
  · rintro rfl
    exact hcut.live.trans hcut'.live.symm
  · intro hsame
    refine eq_of_owned_perm ((hcut.live.symm.trans hsame).trans hcut'.live) ?_
    rw [hcut.width_eq, hcut'.width_eq, hreached.length_status hrequest,
      hreached'.length_status hrequest]

/-- **The printed heap tells the handles** in every run that never asks for no block at all. -/
theorem printed_lines_tell_handles (hrequest : ¬ request 0) (hreached : Reached n request h)
    (hreached' : Reached n request h') :
    ∃ line line', heapDebugInfo h.status = some line ∧ heapDebugInfo h'.status = some line' ∧
      line.length = 2 * n + 1 ∧ (line = line' ↔ h.handles.Perm h'.handles) := by
  refine ⟨_, _, heapDebugInfo_eq h.status, heapDebugInfo_eq h'.status, ?_, ?_⟩
  · have hwords : (h.status.map fun s => (repr s).length) = h.status.map fun _ => 2 :=
      List.map_congr_left fun s _ => by cases s <;> rfl
    rw [List.length_append, List.length_flatMap, hwords]
    simp [hreached.length_status hrequest, Nat.mul_comm]
  · rw [List.append_cancel_right_eq, instantaneous_repr.flatMap_injective.eq_iff,
      status_eq_iff hrequest hreached hreached']

/-- Two blocks behind three that were freed, and two blocks in front: the lines differ. -/
theorem printed_lines_tell_handles_apart : ∃ line line',
    heapDebugInfo (.replicate 3 .free ++ [.first, .last] ++ .replicate 11 .free) = some line ∧
      heapDebugInfo ([.first, .last] ++ .replicate 14 .free) = some line' ∧ line ≠ line' := by
  have hstart : Reached 16 (0 < ·) ⟨.replicate 16 .free, []⟩ := .start
  have hthree : Reached 16 (0 < ·)
      ⟨[.first, .cont, .last] ++ .replicate 13 .free, [(⟨0, true⟩, 3)]⟩ :=
    .allocate (b := ⟨0, true⟩) hstart (show 0 < 3 by decide) rfl
  have hboth : Reached 16 (0 < ·) ⟨[.first, .cont, .last, .first, .last] ++ .replicate 11 .free,
      [(⟨3, true⟩, 2), (⟨0, true⟩, 3)]⟩ :=
    .allocate (b := ⟨3, true⟩) hthree (show 0 < 2 by decide) rfl
  have hmem : (⟨0, true⟩, 3) ∈ [((⟨3, true⟩ : BlockId), 2), (⟨0, true⟩, 3)] := by decide
  have hfreed : blockFree ([.first, .cont, .last, .first, .last] ++ .replicate 11 .free)
      ⟨0, true⟩ = some (.replicate 3 .free ++ [.first, .last] ++ .replicate 11 .free) := by
    simp [blockFree, freeUpToLast]
  have hbehind : Reached 16 (0 < ·) ⟨.replicate 3 .free ++ [.first, .last] ++ .replicate 11 .free,
      [(⟨3, true⟩, 2)]⟩ := .free hboth hmem hfreed
  have hfront : Reached 16 (0 < ·) ⟨[.first, .last] ++ .replicate 14 .free, [(⟨0, true⟩, 2)]⟩ :=
    .allocate (b := ⟨0, true⟩) hstart (show 0 < 2 by decide) rfl
  obtain ⟨line, line', hline, hline', -, hsame⟩ :=
    printed_lines_tell_handles (by decide) hbehind hfront
  refine ⟨line, line', hline, hline', fun heq => ?_⟩
  exact absurd (hsame.mp heq) (by decide)

end LowLevel.Analysis
