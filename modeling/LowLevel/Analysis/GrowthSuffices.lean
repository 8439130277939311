import LowLevel.Model.FreeRuns
import LowLevel.Analysis.UnservedRequests

/-!
# Growth always suffices

`memalloc` uses the result of its second search unchecked. When the size of the region does
not wrap, the region holds two headers more than the request, the new block is the last one of
the chain that is searched again, and no block in front of it fits: the second search ends at
the new block, or at the last block merged with it. A null pointer is left to the case that
nothing fitted and `mmap` refused twice.
-/

set_option autoImplicit false

namespace LowLevel.Analysis

open LowLevel.Library LowLevel.Model LowLevel.Interface LowLevel.Program.Allocator

variable {s s₁ : State} {main : List Block} {det : List (List Block)} {q sz root a len : ℕ}

/-- One of the two calls of `mmap` for `len` bytes is granted, at `a`. -/
def MapGranted (s : State) (len a : ℕ) : Prop :=
  granted s.mapped s.answers len = some a ∨
    granted s.mapped s.answers len = none ∧ granted s.mapped s.answers.tail len = some a

theorem mapGranted_iff (addr : ℕ) :
    MapGranted s len a ↔ ∃ ext, (growth s.mapped s.answers addr len).region = some (a, ext) := by
  unfold MapGranted growth
  cases hfirst : granted s.mapped s.answers len with
  | some b => simp
  | none => simp

/-- The region granted at `a` for `sz` bytes, as a block. -/
def freshBlock (sz a : ℕ) : Block := ⟨a, World.regionSize sz - 17, true⟩

/-- What `memalloc` does after a first search that failed in the state `s₁`, when `mmap` grants
the region at `a`: `last` is the block called last, and `b` the block that is returned. -/
structure ServedByGrowth (sz root a : ℕ) (main : List Block) (det : List (List Block))
    (s₁ s' : State) (last b : Block) : Prop where
  last_mem : last ∈ coalesce main
  grown : ∃ p s₂, (growHeap last.addr ((sz + 17) % SIZE)).run s₁ = .ok (p, s₂) ∧ p ≠ 0 ∧
    Settles (fun n => tryMemallocExisting n sz root) s₂ ⟨.foundGoodBlock, b.addr⟩ s'
  fresh_or_merged : b = freshBlock sz a ∨
    last.Mergeable (freshBlock sz a) ∧ b = last.merge (freshBlock sz a)
  le_cap : sz ≤ b.cap
  stands : ∃ pre post, coalesce main = pre ++ last :: post ∧
    Stands s' ((servingPrefix pre last (freshBlock sz a) ++ b.carve sz) :: post :: det)

/-- Adding two headers and a minimal block to a request that does not wrap stays below
`2 ^ 64`. -/
theorem add_lt_of_nonWrapping (h : NonWrapping q) : max q 24 + 41 < 2 ^ 64 := by
  have := nonWrapping_max.mpr h
  unfold NonWrapping pagesCount getpagesize offsetofContents SIZE at this
  split_ifs at this <;> omega

section Request

variable (hroot : headAddr main 0 = root) (hne : root ≠ 0)
include hroot hne

/-- A first search that fails reaches the end of the coalesced chain. -/
theorem exists_last_of_miss (hhit : (search sz main).hit = none) :
    ∃ pre last post, cutAtLast (search sz main).passed = some (pre, last, post) ∧
      coalesce main = pre ++ last :: post ∧
      searchResult (search sz main) root = ⟨.reachedEndNotFound, last.addr⟩ := by
  obtain ⟨pre, last, post, hcut, hpassed, hresult⟩ :=
    cutAtLast_search (by rw [hroot]; exact hne) hhit
  have hcoalesce := coalesce_search sz main
  rw [hhit, List.append_nil, hpassed] at hcoalesce
  exact ⟨pre, last, post, hcut, hcoalesce, hroot ▸ hresult⟩

variable (hq : sz = max q 24)
include hq

/-- **The second search** ends at the fresh block or at the last block merged with it. -/
theorem served_of_granted (hfit : NonWrapping q) (h : Stands s (main :: det))
    (hhit : (search sz main).hit = none) (hgrant : MapGranted s (World.regionSize sz) a) :
    ∃ s₁ s' last b,
      Settles (fun n => tryMemallocExisting n sz root) s ⟨.reachedEndNotFound, last.addr⟩ s₁ ∧
      ServedByGrowth sz root a main det s₁ s' last b ∧
      Settles (fun n => memalloc n q root) s b.addr s' := by
  obtain ⟨pre, last, post, hcut, hcoalesce, -⟩ := exists_last_of_miss hroot hne hhit
  obtain ⟨ext, hregion⟩ := (mapGranted_iff (last.stop % SIZE)).mp hgrant
  have hroomy : sz + 34 ≤ World.regionSize sz :=
    World.roomy_of_nonWrapping (hq ▸ nonWrapping_max.mpr hfit)
  have hcap : sz ≤ (freshBlock sz a).cap := by
    show sz ≤ World.regionSize sz - 17
    omega
  have hsearch := search_extend_of_miss ext hhit hcut (show (freshBlock sz a).free = true from rfl)
    hcap
  obtain ⟨s₁, p, s₂, s', hfirst, hgrow, hp, hsecond, hmemalloc, hgrown⟩ :=
    settles_memalloc_granted hroot hne hq h hhit hcut rfl hregion rfl
      fun _ _ => hq ▸ add_lt_of_nonWrapping hfit
  have hfresh : freshBlock sz a = ⟨a, World.regionSize sz - 17, true⟩ := rfl
  rw [← hfresh, hsearch] at hsecond hmemalloc
  have hstands := hgrown.stands
  rw [← hfresh, hsearch] at hstands
  refine ⟨s₁, s', last, servingBlock last (freshBlock sz a), hfirst, ?_, hmemalloc⟩
  refine ⟨by simp [hcoalesce], ⟨p, s₂, hgrow, hp, hsecond⟩, ?_, ?_, pre, post, hcoalesce, ?_⟩
  · unfold servingBlock
    split_ifs with hm
    · exact .inr ⟨hm, rfl⟩
    · exact .inl rfl
  · unfold servingBlock
    split_ifs
    · simp only [Block.merge]
      omega
    · exact hcap
  · simpa [Search.allocate] using hstands

/-- `memalloc` returns, and returns a null pointer when nothing fits and both calls fail, and
only then. -/
theorem memalloc_null_iff (hfit : NonWrapping q) (h : Stands s (main :: det)) :
    ∃ r s', Settles (fun n => memalloc n q root) s r s' ∧
      (r = 0 ↔ (search sz main).hit = none ∧ MapsRefused s (World.regionSize sz)) := by
  cases hhit : (search sz main).hit with
  | some hit =>
      obtain ⟨b, rest⟩ := hit
      obtain ⟨s', hrun, -, hstands⟩ := settles_memalloc_hit hroot hne hq h hhit
        (hq ▸ add_lt_of_nonWrapping hfit)
      have hmem : b.handed sz ∈ taken ((search sz main).allocate sz) :=
        (taken_allocate_of_hit hhit).mem_iff.mpr List.mem_cons_self
      have hheld := hstands.held (b := b.handed sz) (by simp [(mem_taken.mp hmem).1])
      have haddr : b.addr ≠ 0 := hheld.addr_ne
      exact ⟨b.addr, s', hrun, by simp [haddr]⟩
  | none =>
      obtain ⟨pre, last, post, hcut, -, -⟩ := exists_last_of_miss hroot hne hhit
      cases hregion :
          (growth s.mapped s.answers (last.stop % SIZE) (World.regionSize sz)).region with
      | none =>
          obtain ⟨s₁, -, -, -, hrun⟩ :=
            settles_memalloc_refused hroot hne hq h hhit hcut rfl hregion
          exact ⟨0, _, hrun, by simp [growth_region_eq_none_iff.mp hregion]⟩
      | some region =>
          obtain ⟨a, ext⟩ := region
          have hgrant := (mapGranted_iff (last.stop % SIZE)).mpr ⟨ext, hregion⟩
          obtain ⟨s₁, s', last', b, -, hserved, hrun⟩ :=
            served_of_granted hroot hne hq hfit h hhit hgrant
          obtain ⟨pre', post', -, hstands⟩ := hserved.stands
          have hmem : b.handed sz ∈ taken (b.carve sz) := by
            rw [taken_carve]
            exact List.mem_singleton_self _
          have hheld := hstands.held (b := b.handed sz) (by simp [(mem_taken.mp hmem).1])
          have haddr : b.addr ≠ 0 := hheld.addr_ne
          refine ⟨b.addr, s', hrun, ?_⟩
          have hnot : ¬ MapsRefused s (World.regionSize sz) := by
            intro hrefused
            have hnone : (growth s.mapped s.answers (last.stop % SIZE)
              (World.regionSize sz)).region = none := growth_region_eq_none_iff.mpr hrefused
            rw [hregion] at hnone
            cases hnone
          simp [haddr, hnot]

end Request

/-- The first search of `memalloc` for `q` bytes finds no block. -/
def FirstSearchFails (s : State) (q root : ℕ) : Prop :=
  ∃ r s₁, Settles (fun n => findGoodOrLast n root (max q 24)) s r s₁ ∧
    r.type = .reachedEndNotFound

/-- The first search fails when no block is hit, and only then. -/
theorem firstSearchFails_iff (hroot : headAddr main 0 = root) (hne : root ≠ 0)
    (h : Stands s (main :: det)) :
    FirstSearchFails s q root ↔ (search (max q 24) main).hit = none :=
  (findGoodOrLast_type_iff hroot hne h).trans searchResult_missed_iff

/-- **Growth always suffices**. For every chain and every request whose size does not wrap: if
the first search fails and `mmap` grants one of its two calls, the second search finds the
fresh block or the last block merged with it, and `memalloc` returns that block; it returns a
null pointer exactly when the first search fails and both calls fail. -/
theorem growth_suffices (h : Stands s (main :: det)) (hne : main ≠ []) (hfit : NonWrapping q) :
    (FirstSearchFails s q (headAddr main 0) →
      ∀ a, MapGranted s (World.regionSize (max q 24)) a → ∃ s₁ s' last b,
        Settles (fun n => tryMemallocExisting n (max q 24) (headAddr main 0)) s
          ⟨.reachedEndNotFound, last.addr⟩ s₁ ∧
        ServedByGrowth (max q 24) (headAddr main 0) a main det s₁ s' last b ∧
        Settles (fun n => memalloc n q (headAddr main 0)) s b.addr s') ∧
      ∃ r s', Settles (fun n => memalloc n q (headAddr main 0)) s r s' ∧
        (r = 0 ↔ FirstSearchFails s q (headAddr main 0) ∧
          MapsRefused s (World.regionSize (max q 24))) := by
  have hroot : headAddr main 0 ≠ 0 := by
    cases main with
    | nil => exact absurd rfl hne
    | cons b bs => exact (h.held (b := b) (by simp)).addr_ne
  rw [firstSearchFails_iff rfl hroot h]
  exact ⟨fun hhit a hgrant => served_of_granted rfl hroot rfl hfit h hhit hgrant,
    memalloc_null_iff rfl hroot rfl hfit h⟩

/-- A request for ten thousand bytes on a fresh heap whose next pages are granted is served by
the only block of the heap, merged with the region. -/
theorem growth_suffices_next_pages :
    ∃ s₁ s' last b,
      Settles (fun n => tryMemallocExisting n 10000 heapStart)
        (startedProcess [some (heapStart + 8192)]) ⟨.reachedEndNotFound, last.addr⟩ s₁ ∧
      ServedByGrowth 10000 heapStart (heapStart + 8192) [⟨heapStart, 8175, true⟩] [] s₁ s' last
        b ∧
      Settles (fun n => memalloc n 10000 heapStart) (startedProcess [some (heapStart + 8192)])
        b.addr s' := by
  have hstands : Stands (startedProcess [some (heapStart + 8192)])
      ([⟨heapStart, 8175, true⟩] :: []) :=
    (refines_startedProcess [some (heapStart + 8192)]).represents.stands
  have hfirst : FirstSearchFails (startedProcess [some (heapStart + 8192)]) 10000 heapStart :=
    (firstSearchFails_iff rfl (by decide) hstands).mpr (by simp [search, absorb])
  exact (growth_suffices hstands (List.cons_ne_nil _ _) (by decide)).1 hfirst _
    (.inl (by decide))

end LowLevel.Analysis
