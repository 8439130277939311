import LowLevel.Interface.FixedHeapSteps

/-!
# First fit on fixed blocks

`block_allocate` refuses a request of one block or more only when there are not enough free
blocks in a row, and serves it from the first maximal free run that is long enough.
-/

set_option autoImplicit false

namespace LowLevel.Analysis

open LowLevel.Library LowLevel.Model LowLevel.Interface LowLevel.Program.FixedHeap

variable {size : ℕ}

/-- The blocks that become a segment are the ones whose status changes. -/
theorem changed_iff {seg : Segment} (hseg : seg ≠ .free) (pre post : List BlockStatus) (i : ℕ) :
    (pre ++ seg.statuses ++ post)[i]? ≠
        (pre ++ List.replicate seg.width .free ++ post)[i]? ↔
      pre.length ≤ i ∧ i < pre.length + seg.width := by
  rw [List.append_assoc, List.append_assoc]
  rcases Nat.lt_or_ge i pre.length with hbefore | hin
  · rw [List.getElem?_append_left hbefore, List.getElem?_append_left hbefore]
    exact iff_of_false (fun h => h rfl) (by omega)
  rw [List.getElem?_append_right hin, List.getElem?_append_right hin]
  rcases Nat.lt_or_ge (i - pre.length) seg.width with hlt | hbehind
  · refine iff_of_true ?_ (by omega)
    rw [List.getElem?_append_left (by rwa [Segment.length_statuses]),
      List.getElem?_append_left (by rwa [List.length_replicate]), List.getElem?_replicate,
      if_pos hlt]
    exact fun h => Segment.ne_free_of_mem hseg (List.mem_of_getElem? h) rfl
  · rw [List.getElem?_append_right (by rwa [Segment.length_statuses]),
      List.getElem?_append_right (by rwa [List.length_replicate]), Segment.length_statuses,
      List.length_replicate]
    exact iff_of_false (fun h => h rfl) (by omega)

/-- **`block_allocate` is a complete first fit.** -/
theorem blockAllocate_firstFit (hsize : 1 ≤ size) (status : List BlockStatus) :
    ((∃ b, blockAllocate status size = some (b, status) ∧ b.valid = false) ↔
        ¬ HasRun .free status size) ∧
      (HasRun .free status size → ∃ start status',
        blockAllocate status size = some (⟨start, true⟩, status') ∧
          FirstRun .free status size start ∧
          ∀ i, status'[i]? ≠ status[i]? ↔ start ≤ i ∧ i < start + size) := by
  rcases blockAllocate_spec hsize status with ⟨hnone, hrefused⟩ | ⟨pre, post, hfirst, hserved⟩
  · exact ⟨iff_of_true ⟨_, hrefused, rfl⟩ hnone, fun hrun => absurd hrun hnone⟩
  · have hstatus := hfirst.status_eq
    constructor
    · refine iff_of_false ?_ (not_not.mpr hfirst.hasRun)
      rintro ⟨b, hb, hinvalid⟩
      rw [hserved] at hb
      obtain ⟨rfl, -⟩ := Prod.mk.inj (Option.some.inj hb)
      cases hinvalid
    · intro _
      refine ⟨pre.length, _, hserved, ?_, fun i => ?_⟩
      · rw [hstatus]
        exact firstRun_append hsize hfirst.last hfirst.none
      · have hchanged := changed_iff (Segment.ofSize_ne_free size) pre post i
        rw [Segment.width_ofSize hsize] at hchanged
        rw [hstatus]
        exact hchanged

/-- A heap whose first free run is one block long. -/
def sixBlocks : List BlockStatus := [.free, .one, .free, .free, .free, .free]

/-- Three blocks come from the second run. -/
theorem blockAllocate_firstFit_sixBlocks :
    blockAllocate sixBlocks 3 = some (⟨2, true⟩, [.free, .one, .first, .cont, .last, .free]) ∧
      FirstRun .free sixBlocks 3 2 := by
  have hserved : blockAllocate sixBlocks 3 =
      some (⟨2, true⟩, [.free, .one, .first, .cont, .last, .free]) := by decide
  have hrun : HasRun .free sixBlocks 3 :=
    ⟨2, runAt_replicate BlockStatus.free [.free, .one] [.free] 3⟩
  obtain ⟨start, status', heq, hfirst, -⟩ :=
    (blockAllocate_firstFit (show 1 ≤ 3 by decide) sixBlocks).2 hrun
  rw [hserved] at heq
  obtain ⟨hb, -⟩ := Prod.mk.inj (Option.some.inj heq)
  obtain rfl : 2 = start := congrArg BlockId.value hb
  exact ⟨hserved, hfirst⟩

end LowLevel.Analysis
