import LowLevel.Interface.FixedHeapSteps

/-!
# Handles own their blocks

A client asks the heap of fixed blocks for blocks and gives back what it got, in any order. As
long as it asks for one block or more, the heap is cut into segments, one for each handle that
the client holds. A request of no block at all is served, too: with a handle to no segment, which
`block_free` takes for one of whatever stands at its block.
-/

set_option autoImplicit false

namespace LowLevel.Analysis

open LowLevel.Library LowLevel.Model LowLevel.Interface LowLevel.Program.FixedHeap

/-- A heap, and the valid handles that the client holds, each with the size it asked for. -/
structure ClientHeap where
  status : List BlockStatus
  live : List (BlockId × ℕ)

/-- The heaps that a client can reach who starts with `n` free blocks, asks for sizes that are a
`request`, and frees only handles that it holds. -/
inductive Reached (n : ℕ) (request : ℕ → Prop) : ClientHeap → Prop where
  | start : Reached n request ⟨List.replicate n .free, []⟩
  | allocate {h : ClientHeap} {size : ℕ} {b : BlockId} {status : List BlockStatus} :
      Reached n request h → request size → blockAllocate h.status size = some (b, status) →
      Reached n request ⟨status, if b.valid then (b, size) :: h.live else h.live⟩
  | free {h : ClientHeap} {b : BlockId} {size : ℕ} {status : List BlockStatus} :
      Reached n request h → (b, size) ∈ h.live → blockFree h.status b = some status →
      Reached n request ⟨status, h.live.erase (b, size)⟩

variable {h : ClientHeap} {n size : ℕ} {b : BlockId} {request : ℕ → Prop}
variable {segs : List Segment}

/-- The heap is cut into these segments, and the handles are those of the ones handed out. -/
structure CutInto (h : ClientHeap) (segs : List Segment) : Prop where
  status_eq : h.status = statuses segs
  live : (h.live.map fun p => (p.1.value, p.2)).Perm (owned 0 segs)
  valid : ∀ p ∈ h.live, p.1.valid = true

/-- A valid handle that is returned starts a segment of `size` blocks that were free. -/
def AllocatesSegment (h : ClientHeap) (size : ℕ) : Prop :=
  ∃ b status, blockAllocate h.status size = some (b, status) ∧
    (b.valid = true → ∃ (seg : Segment) (pre post : List BlockStatus), seg ≠ .free ∧
      seg.width = size ∧ pre.length = b.value ∧
      h.status = pre ++ List.replicate size .free ++ post ∧
      status = pre ++ seg.statuses ++ post)

/-- Freeing the handle stays inside of the array and frees the segment of the handle. -/
def FreesSegment (h : ClientHeap) (b : BlockId) (size : ℕ) : Prop :=
  ∃ (seg : Segment) (pre post : List BlockStatus), seg ≠ .free ∧ seg.width = size ∧
    pre.length = b.value ∧ h.status = pre ++ seg.statuses ++ post ∧
    blockFree h.status b = some (pre ++ List.replicate size .free ++ post)

/-- In every run with these requests, handles own their segments. -/
def HandlesOwnSegments (n : ℕ) (request : ℕ → Prop) : Prop :=
  ∀ h, Reached n request h → (∃ segs, CutInto h segs) ∧
    (∀ size, request size → AllocatesSegment h size) ∧
    ∀ b size, (b, size) ∈ h.live → FreesSegment h b size

/-! ## One call -/

/-- A request of no block is served with nothing. -/
theorem blockAllocate_zero (status : List BlockStatus) :
    ∃ start, blockAllocate status 0 = some (⟨start, true⟩, status) := ⟨_, rfl⟩

/-- No segment has no block. -/
theorem not_allocatesSegment_zero (h : ClientHeap) : ¬ AllocatesSegment h 0 := by
  rintro ⟨b, status, hcall, hvalid⟩
  obtain ⟨start, hserved⟩ := blockAllocate_zero h.status
  rw [hserved] at hcall
  obtain ⟨hb, -⟩ := Prod.mk.inj (Option.some.inj hcall)
  obtain ⟨seg, -, -, -, hwidth, -⟩ := hvalid (by rw [← hb])
  exact seg.width_pos.ne' hwidth

theorem allocatesSegment (hsize : 1 ≤ size) (h : ClientHeap) : AllocatesSegment h size := by
  rcases blockAllocate_spec hsize h.status with ⟨-, hrefused⟩ | ⟨pre, post, hfirst, hserved⟩
  · exact ⟨_, _, hrefused, fun hvalid => nomatch hvalid⟩
  · exact ⟨_, _, hserved, fun _ => ⟨_, pre, post, Segment.ofSize_ne_free size,
      Segment.width_ofSize hsize, rfl, hfirst.status_eq, rfl⟩⟩

/-- **A segment in the place of free blocks**, and a handle to it. -/
theorem CutInto.allocate (hcut : CutInto h segs) (hsize : 1 ≤ size) {status : List BlockStatus}
    (hcall : blockAllocate h.status size = some (b, status)) :
    ∃ segs', CutInto ⟨status, if b.valid then (b, size) :: h.live else h.live⟩ segs' := by
  obtain ⟨hstatus, hlive, hvalid⟩ := hcut
  rcases blockAllocate_spec hsize h.status with ⟨-, hrefused⟩ | ⟨before, behind, hfirst, hserved⟩
  · rw [hrefused] at hcall
    obtain ⟨rfl, rfl⟩ := Prod.mk.inj (Option.some.inj hcall)
    exact ⟨segs, hstatus, hlive, hvalid⟩
  · rw [hserved] at hcall
    obtain ⟨rfl, rfl⟩ := Prod.mk.inj (Option.some.inj hcall)
    obtain ⟨pre, post, rfl, rfl, rfl⟩ :=
      exists_of_statuses_append hsize (hstatus.symm.trans hfirst.status_eq)
    refine ⟨pre ++ Segment.ofSize size :: post, ?_, ?_, ?_⟩
    · rw [statuses_append, statuses_cons, List.append_assoc]
    · have hperm := owned_perm (Segment.ofSize_ne_free size) pre post
      rw [Segment.width_ofSize hsize] at hperm
      rw [if_pos rfl, List.map_cons, length_statuses]
      exact (hlive.cons _).trans hperm.symm
    · rw [if_pos rfl]
      intro p hp
      rcases List.mem_cons.mp hp with rfl | hp
      · rfl
      · exact hvalid p hp

/-- A handle that the client holds is that of a segment. -/
theorem CutInto.exists_segment (hcut : CutInto h segs) (hb : (b, size) ∈ h.live) :
    ∃ pre seg post, segs = pre ++ seg :: post ∧ seg ≠ .free ∧ width pre = b.value ∧
      seg.width = size := by
  have hmem : (b.value, size) ∈ owned 0 segs :=
    hcut.live.mem_iff.mp (List.mem_map_of_mem (f := fun p => (p.1.value, p.2)) hb)
  obtain ⟨pre, seg, post, hsegs, hseg, hstart, hwidth⟩ := exists_of_mem_owned hmem
  exact ⟨pre, seg, post, hsegs, hseg, by rw [← hstart, Nat.zero_add], hwidth⟩

theorem CutInto.freesSegment (hcut : CutInto h segs) (hb : (b, size) ∈ h.live) :
    FreesSegment h b size := by
  obtain ⟨pre, seg, post, rfl, hseg, hstart, rfl⟩ := hcut.exists_segment hb
  have hstatus : h.status = statuses pre ++ seg.statuses ++ statuses post := by
    rw [hcut.status_eq, statuses_append, statuses_cons, List.append_assoc]
  have hlength : b.value = (statuses pre).length := by rw [length_statuses, hstart]
  exact ⟨seg, statuses pre, statuses post, hseg, rfl, hlength.symm, hstatus,
    hstatus ▸ blockFree_spec hseg hlength⟩

/-- **Free blocks in the place of a segment**, and one handle fewer. -/
theorem CutInto.free (hcut : CutInto h segs) (hb : (b, size) ∈ h.live)
    {status : List BlockStatus} (hcall : blockFree h.status b = some status) :
    ∃ segs', CutInto ⟨status, h.live.erase (b, size)⟩ segs' := by
  obtain ⟨pre, seg, post, rfl, hseg, hstart, rfl⟩ := hcut.exists_segment hb
  obtain ⟨hstatus, hlive, hvalid⟩ := hcut
  have hlength : b.value = (statuses pre).length := by rw [length_statuses, hstart]
  rw [hstatus, statuses_append, statuses_cons, ← List.append_assoc,
    blockFree_spec hseg hlength] at hcall
  refine ⟨pre ++ List.replicate seg.width .free ++ post, ?_, ?_, ?_⟩
  · rw [statuses_append, statuses_append, statuses_free]
    exact (Option.some.inj hcall).symm
  · have herase := (List.perm_cons_erase hb).map fun p => (p.1.value, p.2)
    have hperm := (herase.symm.trans hlive).trans (owned_perm hseg pre post)
    rw [hstart] at hperm
    exact hperm.cons_inv
  · exact fun p hp => hvalid p (List.mem_of_mem_erase hp)

/-! ## Runs -/

theorem cutInto_start (n : ℕ) :
    CutInto ⟨List.replicate n .free, []⟩ (List.replicate n .free) where
  status_eq := (statuses_free n).symm
  live := by rw [owned_free]; exact List.Perm.nil
  valid := fun _ hp => absurd hp List.not_mem_nil

theorem Reached.cutInto (hrequest : ¬ request 0) (hreached : Reached n request h) :
    ∃ segs, CutInto h segs := by
  induction hreached with
  | start => exact ⟨_, cutInto_start n⟩
  | allocate _ hsize hcall ih =>
      obtain ⟨segs, hcut⟩ := ih
      refine hcut.allocate (Nat.one_le_iff_ne_zero.mpr ?_) hcall
      rintro rfl
      exact hrequest hsize
  | free _ hb hcall ih =>
      obtain ⟨segs, hcut⟩ := ih
      exact hcut.free hb hcall

/-- **Handles own their segments** in every run, exactly when no block at all is never what is
asked for. -/
theorem handlesOwnSegments_iff (n : ℕ) (request : ℕ → Prop) :
    HandlesOwnSegments n request ↔ ¬ request 0 := by
  constructor
  · intro howns hzero
    obtain ⟨-, hallocates, -⟩ := howns _ .start
    exact not_allocatesSegment_zero _ (hallocates 0 hzero)
  · intro hrequest h hreached
    obtain ⟨segs, hcut⟩ := hreached.cutInto hrequest
    refine ⟨⟨segs, hcut⟩, fun size hsize => allocatesSegment (Nat.one_le_iff_ne_zero.mpr ?_) h,
      fun b size hb => hcut.freesSegment hb⟩
    rintro rfl
    exact hrequest hsize

/-- In the heap of 16 blocks, `block_allocate(heap, 0)` returns the valid handle of block 0, and
`block_free` of it runs off the array. -/
theorem not_handlesOwnSegments_zero :
    blockAllocate (List.replicate 16 .free) 0 =
        some (⟨0, true⟩, List.replicate 16 .free) ∧
      blockFree (List.replicate 16 .free) ⟨0, true⟩ = none ∧
      ¬ HandlesOwnSegments 16 fun size => size < 2 ^ 64 := by
  refine ⟨rfl, ?_, ?_⟩
  · simp [blockFree, freeUpToLast]
  · intro howns
    obtain ⟨-, hallocates, -⟩ := howns _ .start
    exact not_allocatesSegment_zero _ (hallocates 0 (Nat.two_pow_pos 64))

end LowLevel.Analysis
