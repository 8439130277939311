import LowLevel.Model.FreeRuns
import LowLevel.Analysis.FreeMemoryCuts

/-!
# The search is a complete first fit

`find_good_or_last` works on any chain in memory, wherever its blocks are. It reports a block
exactly when a maximal run of free neighbours is big enough, the block is the first such run
merged into one, and merging the runs in front of it is all that it does to the chain.
-/

set_option autoImplicit false

namespace LowLevel.Analysis

open LowLevel.Library LowLevel.Model LowLevel.Interface LowLevel.Program.Allocator

variable {s s' : State} {main main' : List Block} {det : List (List Block)} {sz : ℕ}

/-- In the chain `main` the run `b :: bs` between `pre` and `post` is maximal and holds `sz`
bytes. -/
structure Fits (sz : ℕ) (main pre : List Block) (b : Block) (bs post : List Block) : Prop where
  eq : main = pre ++ (b :: bs ++ post)
  run : FreeRun pre b bs post
  le_cap : sz ≤ (mergeAll b bs).cap

/-- No run before it does. -/
structure FirstFit (sz : ℕ) (main pre : List Block) (b : Block) (bs post : List Block) : Prop
    extends Fits sz main pre b bs post where
  first : ∀ pre' b' bs' post', Fits sz main pre' b' bs' post' → pre.length ≤ pre'.length

/-- What a search for `sz` bytes along the chain `main` returns and leaves: the chain `main'`,
and nothing else changed. -/
structure Searched (sz : ℕ) (main main' : List Block) (det : List (List Block)) (s s' : State)
    (r : BlockSearchResult) : Prop where
  stands : Stands s' (main' :: det)
  found_iff : r.type = .foundGoodBlock ↔ ∃ pre b bs post, Fits sz main pre b bs post
  found : r.type = .foundGoodBlock → ∃ pre b bs post, FirstFit sz main pre b bs post ∧
    r.block = b.addr ∧ main' = coalesce pre ++ mergeAll b bs :: post
  missed : r.type ≠ .foundGoodBlock → r.type = .reachedEndNotFound ∧ main' = coalesce main
  runs_eq : coalesce main' = coalesce main
  taken_eq : taken main' = taken main
  bytes_eq : ∀ x, depth Block.Holds main' x = depth Block.Holds main x
  size_eq : totalSize main' = totalSize main
  within : Within (fun x => ∀ b ∈ main, b.free = true → ¬ b.Holds x) s s'

theorem fits_iff_of_hit : (∃ pre b bs post, Fits sz main pre b bs post) ↔
    (search sz main).hit.isSome := by
  constructor
  · rintro ⟨pre, b, bs, post, heq, hrun, hfit⟩
    rw [search_hit_isSome_iff, heq, coalesce_freeRun hrun]
    exact ⟨mergeAll b bs, by simp, by rw [mergeAll_free]; exact hrun.free, hfit⟩
  · intro hsome
    obtain ⟨⟨c, rest⟩, hhit⟩ := Option.isSome_iff_exists.mp hsome
    obtain ⟨pre, b, bs, heq, hrun, rfl, -⟩ := exists_freeRun_of_hit hhit
    exact ⟨pre, b, bs, rest, heq, hrun, (search_hit hhit).2⟩

/-- The block that is hit is the first run that fits. -/
theorem firstFit_of_hit {c : Block} {rest : List Block}
    (hhit : (search sz main).hit = some (c, rest)) :
    ∃ pre b bs, FirstFit sz main pre b bs rest ∧ c = mergeAll b bs ∧
      (search sz main).chain = coalesce pre ++ mergeAll b bs :: rest := by
  obtain ⟨pre, b, bs, heq, hrun, rfl, hpassed⟩ := exists_freeRun_of_hit hhit
  refine ⟨pre, b, bs, ⟨⟨heq, hrun, (search_hit hhit).2⟩, ?_⟩, rfl, ?_⟩
  · intro pre' b' bs' post' hfits
    exact first_of_hit heq hrun hpassed hfits.eq hfits.run hfits.le_cap
  · rw [Search.chain, hhit, hpassed]

/-- **`find_good_or_last`** is a complete first fit over coalesced memory. -/
theorem search_complete (h : Stands s (main :: det)) (hne : main ≠ []) (sz : ℕ) :
    ∃ r s' main', Settles (fun n => findGoodOrLast n (headAddr main 0) sz) s r s' ∧
      Searched sz main main' det s s' r := by
  have hroot : headAddr main 0 ≠ 0 := by
    cases main with
    | nil => exact absurd rfl hne
    | cons b bs => exact (h.held (b := b) (by simp)).addr_ne
  obtain ⟨s', hrun, hwithin, hstands⟩ := settles_findGoodOrLast sz
    (fun x => ∀ b ∈ main, b.free = true → ¬ b.Holds x) rfl hroot
    (fun c hc hfree x hx hkeep => hkeep c hc hfree hx) h
  have hruns := coalesce_chain sz main
  refine ⟨_, s', _, hrun, hstands, ?_, ?_, ?_, hruns, taken_search sz main, ?_, ?_, hwithin⟩
  · rw [fits_iff_of_hit, searchResult_found_iff, Option.isSome_iff_ne_none]
  · intro hfound
    cases hhit : (search sz main).hit with
    | none => simp [searchResult, hhit] at hfound
    | some hit =>
        obtain ⟨pre, b, bs, hfirst, hblock, hchain⟩ := firstFit_of_hit hhit
        refine ⟨pre, b, bs, hit.2, hfirst, ?_, hchain⟩
        simp only [searchResult, hhit]
        rw [hblock, mergeAll_addr]
  · intro hmissed
    cases hhit : (search sz main).hit with
    | none =>
        have hcoalesce := coalesce_search sz main
        rw [hhit] at hcoalesce
        exact ⟨by simp [searchResult, hhit], by rw [Search.chain, hhit, hcoalesce]⟩
    | some hit => simp [searchResult, hhit] at hmissed
  · intro x
    rw [← depth_coalesce, hruns, depth_coalesce]
  · rw [← totalSize_coalesce, hruns, totalSize_coalesce]

/-- The two free blocks of a split heap are found as one. -/
theorem search_complete_split_heap :
    ∃ r s' main', Settles (fun n => findGoodOrLast n heapStart 100) splitProcess r s' ∧
      Searched 100 [⟨heapStart, 24, true⟩, ⟨heapStart + 41, 8134, true⟩] main' [] splitProcess s'
        r ∧ r.type = .foundGoodBlock := by
  obtain ⟨r, s', main', hrun, hsearched⟩ :=
    search_complete represents_splitProcess.stands (List.cons_ne_nil _ _) 100
  refine ⟨r, s', main', hrun, hsearched, hsearched.found_iff.mpr ?_⟩
  refine ⟨[], ⟨heapStart, 24, true⟩, [⟨heapStart + 41, 8134, true⟩], [], rfl, ⟨rfl, ?_, ?_, ?_⟩, ?_⟩
  · exact List.isChain_pair.mpr ⟨rfl, rfl, rfl⟩
  · simp
  · simp
  · simp [mergeAll, Block.merge]

end LowLevel.Analysis
