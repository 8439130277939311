import LowLevel.Analysis.FreeMemoryCuts
import LowLevel.Analysis.GrowthSuffices

/-!
# A failed allocation only coalesces

When nothing fits and `mmap` refuses twice, `memalloc` returns a null pointer after a search
that has merged every maximal run of free neighbours. That is all that it has done, and a
second call that fails the same way has nothing left to merge: it stores nothing.
-/

set_option autoImplicit false

namespace LowLevel.Analysis

open LowLevel.Library LowLevel.Model LowLevel.Interface LowLevel.Program.Allocator

variable {s s₁ : State} {main : List Block} {det : List (List Block)} {q : ℕ}

/-- From `s` to `s'` the chain `main` was coalesced and nothing else happened to the heap. -/
structure OnlyCoalesced (main : List Block) (det : List (List Block)) (s s' : State) : Prop
    extends Spared (TakenContents (main :: det)) s s' where
  runs : RunsMerged main (coalesce main)
  stands : Stands s' (coalesce main :: det)
  taken_eq : taken (coalesce main) = taken main
  bytes_eq : ∀ x, depth Block.Holds (coalesce main) x = depth Block.Holds main x
  links : ∀ c ∈ coalesce main, ∃ next, HeaderAt s'.mem c next ∧
    (next = 0 ∨ ∃ b ∈ main, next = b.addr)
  mapped_eq : s'.mapped = s.mapped

/-- `memalloc` for `q` bytes from the start of `main` finds nothing and is refused both regions. -/
def AllocationFails (s : State) (main : List Block) (q : ℕ) : Prop :=
  FirstSearchFails s q (headAddr main 0) ∧ MapsRefused s (World.regionSize (max q 24))

/-- The links of a chain lead to its blocks. -/
theorem chain_links {m : Mem} {bs : List Block} {n : ℕ} (h : Chain m bs n) :
    ∀ b ∈ bs, ∃ next, HeaderAt m b next ∧ (next = n ∨ ∃ c ∈ bs, next = c.addr) := by
  induction bs with
  | nil => simp
  | cons c cs ih =>
      intro b hb
      rcases List.mem_cons.mp hb with rfl | hb
      · refine ⟨_, h.1, ?_⟩
        cases cs with
        | nil => exact .inl rfl
        | cons d ds => exact .inr ⟨d, by simp, rfl⟩
      · obtain ⟨next, hheader, hnext⟩ := ih h.2 b hb
        refine ⟨next, hheader, hnext.imp_right ?_⟩
        rintro ⟨d, hd, heq⟩
        exact ⟨d, List.mem_cons_of_mem c hd, heq⟩

section Failure

variable (hroot : headAddr main 0 ≠ 0)
include hroot

/-- A call that fails coalesces the chain. -/
theorem settles_memalloc_fails (h : Stands s (main :: det)) (hfails : AllocationFails s main q) :
    ∃ s', Settles (fun n => memalloc n q (headAddr main 0)) s 0 s' ∧
      OnlyCoalesced main det s s' := by
  obtain ⟨hfirst, hrefused⟩ := hfails
  have hhit := (firstSearchFails_iff rfl hroot h).mp hfirst
  obtain ⟨pre, last, post, hcut, hcoalesce, -⟩ := exists_last_of_miss rfl hroot hhit
  obtain ⟨s₁, hwithin, hstands, -, hrun⟩ := settles_memalloc_refused rfl hroot rfl h hhit hcut rfl
    (growth_region_eq_none_iff.mpr hrefused)
  rw [← hcoalesce] at hstands
  refine ⟨_, hrun, hwithin.toSpared.trans (Spared.of_eq rfl rfl), runsMerged_coalesce main,
    ⟨hstands.sound, hstands.linked⟩, taken_coalesce main, depth_coalesce main, ?_,
    hwithin.mapped_eq⟩
  intro c hc
  obtain ⟨next, hheader, hnext⟩ := chain_links (hstands.linked (coalesce main) (by simp)) c hc
  refine ⟨next, hheader, hnext.imp_right ?_⟩
  rintro ⟨d, hd, rfl⟩
  exact (runsMerged_coalesce main).mem d hd

/-- On a coalesced chain in which nothing fits, a call that is refused both regions stores
nothing. -/
theorem settles_memalloc_again (hchain : main.IsChain fun b c => ¬ b.Mergeable c)
    (hsmall : ∀ b ∈ main, b.free = true → b.cap < max q 24) (h : Stands s (main :: det))
    (hrefused : MapsRefused s (World.regionSize (max q 24))) :
    ∃ g, Settles (fun n => memalloc n q (headAddr main 0)) s 0 (asked s g) := by
  have hsearch : search (max q 24) main = ⟨main, none⟩ := search_of_chain hchain hsmall
  obtain ⟨pre, last, post, hcut, hmain, hresult⟩ :=
    exists_last_of_miss rfl hroot (congrArg Search.hit hsearch)
  have hpassed := (cutAtLast_eq_some hcut).1
  rw [hsearch] at hresult hpassed
  dsimp only at hpassed
  have hloop := settles_findLoop_fixed (max q 24) [] [] det main (headAddr main 0) hchain hsmall
    (by simpa [Place.fill] using h)
  have hlast : lastFree main (headAddr main 0) = last.addr := by
    simpa [searchResult] using hresult
  rw [hlast] at hloop
  have hfirst : Settles (fun n => tryMemallocExisting n (max q 24) (headAddr main 0)) s
      ⟨.reachedEndNotFound, last.addr⟩ s := by
    have hfind : Settles (fun n => findGoodOrLast n (headAddr main 0) (max q 24)) s
        ⟨.reachedEndNotFound, last.addr⟩ s := by
      refine hloop.congr fun n => ?_
      unfold findGoodOrLast
      rw [if_neg hroot]
    refine hfind.bind (Settles.of_run ?_)
    rw [if_pos (.inr rfl)]
    rfl
  have hstands : Stands s ((pre ++ last :: post) :: det) := by rwa [← hpassed]
  have hgrow := run_growHeap_refused (max q 24) hstands (growth_region_eq_none_iff.mpr hrefused)
  simp only [memalloc_eq hroot]
  exact ⟨_, hfirst.bind ⟨0, fun n _ => run_memallocTail hgrow⟩⟩

end Failure

/-- **A failed allocation only coalesces**. For every chain and every request, a `memalloc`
that fails because both calls of `mmap` fail leaves the chain with each maximal run of free
neighbours replaced by one free block, and a second one that fails changes neither the memory,
nor what is mapped, nor what was stored. -/
theorem failed_allocation (h : Stands s (main :: det)) (hne : main ≠ [])
    (hfails : AllocationFails s main q) :
    ∃ s', Settles (fun n => memalloc n q (headAddr main 0)) s 0 s' ∧
      OnlyCoalesced main det s s' ∧
      (MapsRefused s' (World.regionSize (max q 24)) →
        ∃ s'', Settles (fun n => memalloc n q (headAddr main 0)) s' 0 s'' ∧
          s''.mem = s'.mem ∧ s''.mapped = s'.mapped ∧ s''.written = s'.written) := by
  have hroot : headAddr main 0 ≠ 0 := by
    cases main with
    | nil => exact absurd rfl hne
    | cons b bs => exact (h.held (b := b) (by simp)).addr_ne
  have hhit := (firstSearchFails_iff rfl hroot h).mp hfails.1
  obtain ⟨s', hrun, hcoalesced⟩ := settles_memalloc_fails hroot h hfails
  refine ⟨s', hrun, hcoalesced, fun hrefused => ?_⟩
  have hpassed := coalesce_search (max q 24) main
  rw [hhit, List.append_nil] at hpassed
  have hhead : headAddr (coalesce main) 0 = headAddr main 0 := by
    have := headAddr_search (max q 24) main 0
    rwa [Search.chain, hhit, List.append_nil, ← hpassed] at this
  have hsmall : ∀ b ∈ coalesce main, b.free = true → b.cap < max q 24 := by
    intro b hb hfree
    rw [hpassed] at hb
    exact search_passed hb hfree
  obtain ⟨g, hagain⟩ := settles_memalloc_again (by rw [hhead]; exact hroot)
    (isChain_coalesce main) hsmall hcoalesced.stands hrefused
  rw [hhead] at hagain
  exact ⟨_, hagain, rfl, rfl, rfl⟩

/-- A heap of two free blocks that `mmap` does not let grow. -/
theorem failed_allocation_split_heap :
    ∃ s', Settles (fun n => memalloc n 9000 heapStart) splitProcess 0 s' ∧
      OnlyCoalesced [⟨heapStart, 24, true⟩, ⟨heapStart + 41, 8134, true⟩] [] splitProcess s' := by
  have hstands := represents_splitProcess.stands
  have hfirst : FirstSearchFails splitProcess 9000 heapStart :=
    (firstSearchFails_iff rfl (by decide) hstands).mpr (by
      simp [search, absorb, Block.Mergeable, Block.stop, Block.merge])
  obtain ⟨s', hrun, hcoalesced, -⟩ := failed_allocation hstands (List.cons_ne_nil _ _)
    ⟨hfirst, by decide, by decide⟩
  exact ⟨s', hrun, hcoalesced⟩

end LowLevel.Analysis
