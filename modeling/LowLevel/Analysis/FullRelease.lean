import LowLevel.Interface.HeapRelease
import LowLevel.Interface.HeapRuns

/-!
# `heap_term` releases everything exactly once

The chain from `HEAP_START` runs through regions made of whole pages, the blocks of a region in
the order of their addresses. A segment may take in several regions, and starts and ends with a
region, so that rounding its size to pages changes nothing: what is unmapped is what the
regions hold, once.
-/

set_option autoImplicit false

namespace LowLevel.Analysis

open LowLevel.Library LowLevel.Model LowLevel.Interface LowLevel.Program.Allocator

variable {s s' : State} {bss : List (List Block)} {regions ranges : List Mapping}

/-- From `s` to `s'` the ranges were unmapped, and they are the regions: whole pages, no byte of
the regions left out, none unmapped twice, none of another mapping unmapped. -/
structure Released (regions ranges : List Mapping) (s s' : State) : Prop where
  unmaps_eq : s'.unmaps = s.unmaps ++ ranges
  aligned : ∀ r ∈ ranges, r.addr % getpagesize = 0 ∧ r.size % getpagesize = 0 ∧ 0 < r.size
  apart : ranges.Pairwise fun r r' => ∀ x, r.Holds x → ¬ r'.Holds x
  union : ∀ x, (∃ r ∈ ranges, r.Holds x) ↔ ∃ m ∈ regions, m.Holds x
  mapped_iff : ∀ x, Mapped s'.mapped x ↔ Mapped s.mapped x ∧ ¬ ∃ m ∈ regions, m.Holds x

/-- **`heap_term` releases everything exactly once**. For every heap whose chain from
`HEAP_START` fills regions made of whole pages, `heap_term` returns, and the ranges it passes to
`munmap` are page-aligned, apart and together the regions. It reads no header that is unmapped:
such a read would have stopped it. -/
theorem heapTerm_releases (hfills : List.Forall₂ Fills bss regions) (h : Stands s [bss.flatten])
    (hroot : headAddr bss.flatten 0 = heapStart) :
    ∃ s' ranges, Settles heapTerm s () s' ∧ Released regions ranges s s' := by
  have hseamless := seamless_flatten hfills
  have hanchored := hseamless.anchored
  have hsingle : ∀ x, depth Block.Holds bss.flatten x ≤ 1 := by simpa using h.sound.single
  obtain ⟨s', hrun, hunmaps, hmapped⟩ := settles_termLoop h hanchored hseamless.head
  have hpair := pairwise_pages hanchored hseamless.head hsingle
  have hunion : ∀ x, (∃ r ∈ segments bss.flatten, r.Holds x) ↔ ∃ m ∈ regions, m.Holds x := by
    intro x
    rw [← depth_pos_iff, ← depth_pos_iff, depth_segments, depth_fills hfills]
  rw [hroot] at hrun
  rw [hseamless.pages_segments] at hunmaps hmapped hpair
  refine ⟨s', segments bss.flatten, hrun, hunmaps, fun r hr => ?_, hpair, hunion, fun x => ?_⟩
  · obtain ⟨haddr, hsize⟩ := hanchored.segments hseamless.head r hr
    have hpages : pages r = r := List.map_inj_left.mp
      (hseamless.pages_segments.trans (List.map_id _).symm) r hr
    refine ⟨haddr, ?_, hsize⟩
    rw [← hpages]
    exact Nat.mul_mod_right _ _
  · rw [hmapped, ← hunion]
    push Not
    rfl

/-- A heap of two regions that are apart, with two blocks each. -/
theorem heapTerm_releases_two_regions : ∃ s s' ranges, Settles heapTerm s () s' ∧
    Released [⟨heapStart, 8192⟩, ⟨heapStart + 65536, 12288⟩] ranges s s' := by
  obtain ⟨s, -, h⟩ := run_twoRequests
  have hfirst : Fills [⟨heapStart, 24, false⟩, ⟨heapStart + 41, 8134, true⟩] ⟨heapStart, 8192⟩ :=
    ⟨⟨rfl, rfl, rfl⟩, rfl, rfl⟩
  have hsecond : Fills [⟨heapStart + 65536, 9000, false⟩, ⟨heapStart + 74553, 3254, true⟩]
      ⟨heapStart + 65536, 12288⟩ := ⟨⟨rfl, rfl, rfl⟩, rfl, rfl⟩
  obtain ⟨s', ranges, hrun, hreleased⟩ :=
    heapTerm_releases (.cons hfirst (.cons hsecond .nil)) h.refines.represents.stands.main rfl
  exact ⟨s, s', ranges, hrun, hreleased⟩

end LowLevel.Analysis
