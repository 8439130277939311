import LowLevel.Model.FreeRuns
import LowLevel.Analysis.FreeMemoryCuts

/-!
# Free undoes malloc up to coalescing

A request that is served without growing the heap merges runs on the way, splits the block it
hands out when enough is left, and marks it taken. `_free` marks it free and merges it forward.
What was merged stays merged and what was split is a run again, so the two calls together
leave the coalesced form of every chain as it was.
-/

set_option autoImplicit false

namespace LowLevel.Analysis

open LowLevel.Library LowLevel.Model LowLevel.Interface LowLevel.Program.Allocator

variable {s : State} {main : List Block} {det : List (List Block)} {q : ℕ}

/-- The first search of `memalloc` for `q` bytes finds a block: the heap need not grow. -/
def FirstSearchFinds (s : State) (q root : ℕ) : Prop :=
  ∃ r s₁, Settles (fun n => findGoodOrLast n root (max q 24)) s r s₁ ∧ r.type = .foundGoodBlock

/-- The first search finds a block when one is hit, and only then. -/
theorem firstSearchFinds_iff {root : ℕ} (hroot : headAddr main 0 = root) (hne : root ≠ 0)
    (h : Stands s (main :: det)) :
    FirstSearchFinds s q root ↔ (search (max q 24) main).hit ≠ none :=
  (findGoodOrLast_type_iff hroot hne h).trans searchResult_found_iff

/-- What `_malloc` returned in `s₁` was free in the chain `main`, and releasing it gives back a
chain with the same coalesced form and the same bytes. -/
structure Undone (main : List Block) (det : List (List Block)) (s₁ : State) (p : ℕ) : Prop where
  ne_zero : p ≠ 0
  freed : ∃ s₂ main', Settles (fun n => free n p) s₁ () s₂ ∧ Stands s₂ (main' :: det) ∧
    (∀ cs, RunsMerged main' cs ↔ RunsMerged main cs) ∧ totalSize main' = totalSize main

/-- **Free undoes malloc**. For every heap and every request that is served without growing it,
`_malloc` followed by `_free` of what it returned leaves the coalesced form of the chain from
`HEAP_START`, and every other chain, as they were. -/
theorem free_undoes_malloc (h : Stands s (main :: det)) (hroot : headAddr main 0 = heapStart)
    (hfinds : FirstSearchFinds s q heapStart) :
    ∃ p s₁, Settles (fun n => malloc n q) s p s₁ ∧ s₁.requests = s.requests ∧
      Undone main det s₁ p := by
  have hne : heapStart ≠ 0 := by decide
  obtain ⟨⟨b, rest⟩, hhit⟩ :=
    Option.ne_none_iff_exists'.mp ((firstSearchFinds_iff hroot hne h).mp hfinds)
  obtain ⟨s₁, hmemalloc, hwithin, hstands⟩ :=
    settles_memalloc_hit hroot hne rfl h hhit (add_lt_of_hit h.sound hroot hhit)
  have hmem : b.handed (max q 24) ∈
      ((search (max q 24) main).allocate (max q 24) :: det).flatten := by
    have htaken : b.handed (max q 24) ∈ taken ((search (max q 24) main).allocate (max q 24)) :=
      (taken_allocate_of_hit hhit).mem_iff.mpr List.mem_cons_self
    simp [(mem_taken.mp htaken).1]
  have hheld := hstands.held hmem
  have hcap := le_handed (search_hit hhit).2
  have hlow : b.addr ≠ 0 := hheld.addr_ne
  have hptr : b.addr + 17 < 2 ^ 64 := by
    have hhigh : b.addr + 17 + (b.handed (max q 24)).cap ≤ 2 ^ 64 := hheld.high
    omega
  have hmalloc := settles_malloc_of_memalloc hmemalloc
  rw [if_neg hlow, show (b.addr + 17) % SIZE = b.addr + 17 from Nat.mod_eq_of_lt hptr] at hmalloc
  obtain ⟨s₂, hfree, hstands₂, -⟩ := settles_free_stands hstands hmem hptr
  obtain ⟨main', hchains, hcoalesce⟩ := coalesce_releaseAt_allocate hhit hstands.sound
  rw [show (b.handed (max q 24)).addr = b.addr from rfl, hchains] at hstands₂
  refine ⟨_, s₁, hmalloc, hwithin.requests_eq, by omega, s₂, main', hfree, hstands₂, ?_, ?_⟩
  · intro cs
    rw [runsMerged_iff, runsMerged_iff, hcoalesce]
  · rw [← totalSize_coalesce, hcoalesce, totalSize_coalesce]

/-- A hundred bytes from a heap of two free blocks, which are merged on the way. -/
theorem free_undoes_malloc_split_heap :
    ∃ p s₁, Settles (fun n => malloc n 100) splitProcess p s₁ ∧
      Undone [⟨heapStart, 24, true⟩, ⟨heapStart + 41, 8134, true⟩] [] s₁ p := by
  have hstands := represents_splitProcess.stands
  have hfinds : FirstSearchFinds splitProcess 100 heapStart :=
    (firstSearchFinds_iff rfl (by decide) hstands).mpr (by
      simp [search, absorb, Block.Mergeable, Block.stop, Block.merge])
  obtain ⟨p, s₁, hrun, -, hundone⟩ := free_undoes_malloc hstands rfl hfinds
  exact ⟨p, s₁, hrun, hundone⟩

end LowLevel.Analysis
