import LowLevel.Model.BlockList

/-!
# The search, on block lists

`absorb b bs` is what the inner loop of `find_good_or_last` makes of the free block `b`
and the blocks behind it; `search` is the outer loop. `coalesce` merges every maximal run
of free neighbours: it is the normal form of a chain, the search reaches it on all it has
passed (`coalesce_search`), and it does not depend on how the runs were divided.
-/

set_option autoImplicit false

namespace LowLevel.Model

open LowLevel.Library
open LowLevel.Program.Allocator (BlockSearchResult)

/-- A free block with the free blocks that directly follow it taken in, and the blocks
behind those. -/
def absorb : Block → List Block → Block × List Block
  | b, [] => (b, [])
  | b, c :: cs => if b.Mergeable c then absorb (b.merge c) cs else (b, c :: cs)

theorem absorb_length (b : Block) (bs : List Block) :
    (absorb b bs).2.length ≤ bs.length := by
  induction bs generalizing b with
  | nil => simp [absorb]
  | cons c cs ih =>
      unfold absorb
      split_ifs
      · have := ih (b.merge c)
        simp only [List.length_cons]
        omega
      · simp

@[simp] theorem absorb_addr (b : Block) (bs : List Block) : (absorb b bs).1.addr = b.addr := by
  induction bs generalizing b with
  | nil => rfl
  | cons c cs ih =>
      unfold absorb
      split_ifs
      · rw [ih]; rfl
      · rfl

@[simp] theorem absorb_free (b : Block) (bs : List Block) : (absorb b bs).1.free = b.free := by
  induction bs generalizing b with
  | nil => rfl
  | cons c cs ih =>
      unfold absorb
      split_ifs
      · rw [ih]; rfl
      · rfl

/-- What a search leaves behind: the blocks it passed, and the block it stopped at with
the blocks behind it. -/
@[ext] structure Search where
  passed : List Block
  hit : Option (Block × List Block)

namespace Search

/-- The chain after the search. -/
def chain (r : Search) : List Block :=
  r.passed ++ match r.hit with
    | none => []
    | some (b, rest) => b :: rest

/-- The search one block further up the chain. -/
def pass (b : Block) (r : Search) : Search := { r with passed := b :: r.passed }

@[simp] theorem chain_pass (b : Block) (r : Search) : (r.pass b).chain = b :: r.chain := rfl

@[simp] theorem passed_pass (b : Block) (r : Search) :
    (r.pass b).passed = b :: r.passed := rfl

@[simp] theorem hit_pass (b : Block) (r : Search) : (r.pass b).hit = r.hit := rfl

end Search

/-- First fit with lazy merging. -/
def search (sz : ℕ) : List Block → Search
  | [] => ⟨[], none⟩
  | b :: bs =>
      if b.free then
        if sz ≤ (absorb b bs).1.cap then ⟨[], some (absorb b bs)⟩
        else (search sz (absorb b bs).2).pass (absorb b bs).1
      else (search sz bs).pass b
termination_by bs => bs.length
decreasing_by
  · have := absorb_length b bs
    simp only [List.length_cons]
    omega
  · simp

/-- The address `find_good_or_last` calls last: the last free block it passed, `l` when
it passed none. -/
def lastFree : List Block → ℕ → ℕ
  | [], l => l
  | b :: bs, l => lastFree bs (if b.free then b.addr else l)

/-- What `find_good_or_last` returns after the search `r`. -/
def searchResult (r : Search) (last : ℕ) : BlockSearchResult :=
  match r.hit with
  | some (b, _) => ⟨.foundGoodBlock, b.addr⟩
  | none => ⟨.reachedEndNotFound, lastFree r.passed last⟩

theorem searchResult_found_iff {r : Search} {last : ℕ} :
    (searchResult r last).type = .foundGoodBlock ↔ r.hit ≠ none := by
  unfold searchResult
  cases r.hit with
  | none => simp
  | some hit => simp

theorem searchResult_missed_iff {r : Search} {last : ℕ} :
    (searchResult r last).type = .reachedEndNotFound ↔ r.hit = none := by
  unfold searchResult
  cases r.hit with
  | none => simp
  | some hit => simp

theorem searchResult_pass (r : Search) (b : Block) (last : ℕ) :
    searchResult (r.pass b) last =
      searchResult r (if b.free then b.addr else last) := by
  unfold searchResult
  cases hr : r.hit with
  | none => simp [hr, lastFree]
  | some d => simp [hr]

/-! ## The normal form of a chain -/

/-- Put a block in front of a coalesced chain. -/
def consRun (b : Block) : List Block → List Block
  | [] => [b]
  | c :: cs => if b.Mergeable c then b.merge c :: cs else b :: c :: cs

/-- Every maximal run of free neighbours as one block. -/
def coalesce : List Block → List Block
  | [] => []
  | b :: bs => consRun b (coalesce bs)

/-- A coalesced chain starts where the chain starts, with the same status. -/
theorem consRun_eq_cons (b : Block) (bs : List Block) :
    ∃ c cs, consRun b bs = c :: cs ∧ c.addr = b.addr ∧ c.free = b.free := by
  cases bs with
  | nil => exact ⟨b, [], rfl, rfl, rfl⟩
  | cons c cs =>
      simp only [consRun]
      split_ifs
      · exact ⟨b.merge c, cs, rfl, rfl, rfl⟩
      · exact ⟨b, c :: cs, rfl, rfl, rfl⟩

/-- A block that cannot merge with the next one is its own run. -/
theorem consRun_consRun_of_not_mergeable {b c : Block} (h : ¬ b.Mergeable c)
    (bs : List Block) : consRun b (consRun c bs) = b :: consRun c bs := by
  obtain ⟨d, ds, heq, haddr, hfree⟩ := consRun_eq_cons c bs
  rw [heq]
  simp only [consRun]
  rw [if_neg]
  unfold Block.Mergeable at h ⊢
  rw [haddr, hfree]
  exact h

/-- Merging first and coalescing then is coalescing at once. -/
theorem consRun_consRun_of_mergeable {b c : Block} (h : b.Mergeable c) (bs : List Block) :
    consRun b (consRun c bs) = consRun (b.merge c) bs := by
  obtain ⟨hb, hc, hadj⟩ := h
  have hstop : (b.merge c).stop = c.stop := by
    unfold Block.stop at hadj ⊢
    unfold Block.merge
    dsimp only
    omega
  cases bs with
  | nil => simp [consRun, Block.Mergeable, hb, hc, hadj]
  | cons d ds =>
      by_cases hd : c.Mergeable d
      · have hbd : (b.merge c).Mergeable d := ⟨hb, hd.2.1, hstop ▸ hd.2.2⟩
        have hbcd : b.Mergeable (c.merge d) := ⟨hb, hc, hadj⟩
        have hassoc : b.merge (c.merge d) = (b.merge c).merge d := by
          simp only [Block.merge, Block.mk.injEq, true_and, and_true]
          omega
        simp only [consRun, if_pos hd, if_pos hbd, if_pos hbcd, hassoc]
      · have hbd : ¬ (b.merge c).Mergeable d := fun h => hd ⟨hc, h.2.1, hstop ▸ h.2.2⟩
        have hbc : b.Mergeable c := ⟨hb, hc, hadj⟩
        simp only [consRun, if_neg hd, if_neg hbd, if_pos hbc]

/-- A run that was absorbed is a run of the normal form. -/
theorem coalesce_absorb (b : Block) (bs : List Block) :
    coalesce (b :: bs) = (absorb b bs).1 :: coalesce (absorb b bs).2 := by
  induction bs generalizing b with
  | nil => rfl
  | cons c cs ih =>
      unfold absorb
      split_ifs with hm
      · rw [← ih]
        exact consRun_consRun_of_mergeable hm _
      · exact consRun_consRun_of_not_mergeable hm _

/-- A taken block is a block of the normal form. -/
theorem coalesce_cons_of_taken {b : Block} (h : b.free = false) (bs : List Block) :
    coalesce (b :: bs) = b :: coalesce bs := by
  have hno : ∀ c, ¬ b.Mergeable c := by
    intro c hc
    rw [hc.1] at h
    exact Bool.noConfusion h
  cases hbs : coalesce bs with
  | nil => simp [coalesce, hbs, consRun]
  | cons c cs => simp [coalesce, hbs, consRun, hno c]

/-- The search changes nothing but how free runs are divided, and what it passed is in
normal form. -/
theorem coalesce_search (sz : ℕ) (bs : List Block) :
    coalesce bs = (search sz bs).passed ++ match (search sz bs).hit with
      | none => []
      | some (b, rest) => b :: coalesce rest := by
  induction bs using search.induct sz with
  | case1 => simp [search, coalesce]
  | case2 b bs hfree hfit =>
      rw [search, if_pos hfree, if_pos hfit, coalesce_absorb]
      rfl
  | case3 b bs hfree hfit ih =>
      rw [search, if_pos hfree, if_neg hfit, coalesce_absorb, ih]
      rfl
  | case4 b bs hfree ih =>
      rw [search, if_neg hfree, coalesce_cons_of_taken (by simpa using hfree), ih]
      rfl

/-- The block a search stops at is free and big enough. -/
theorem search_hit {sz : ℕ} {bs rest : List Block} {b : Block}
    (h : (search sz bs).hit = some (b, rest)) : b.free = true ∧ sz ≤ b.cap := by
  induction bs using search.induct sz with
  | case1 => simp [search] at h
  | case2 c bs hfree hfit =>
      rw [search, if_pos hfree, if_pos hfit] at h
      obtain ⟨rfl, -⟩ := Prod.ext_iff.mp (Option.some.inj h)
      exact ⟨by rw [absorb_free]; exact hfree, hfit⟩
  | case3 c bs hfree hfit ih =>
      rw [search, if_pos hfree, if_neg hfit] at h
      exact ih h
  | case4 c bs hfree ih =>
      rw [search, if_neg hfree] at h
      exact ih h

/-- Every free block a search passed is too small. -/
theorem search_passed {sz : ℕ} {bs : List Block} {b : Block}
    (h : b ∈ (search sz bs).passed) (hb : b.free = true) : b.cap < sz := by
  induction bs using search.induct sz with
  | case1 => simp [search] at h
  | case2 c bs hfree hfit => simp [search, if_pos hfree, if_pos hfit] at h
  | case3 c bs hfree hfit ih =>
      rw [search, if_pos hfree, if_neg hfit, Search.passed_pass, List.mem_cons] at h
      rcases h with rfl | h
      · omega
      · exact ih h
  | case4 c bs hfree ih =>
      rw [search, if_neg hfree, Search.passed_pass, List.mem_cons] at h
      rcases h with rfl | h
      · exact absurd hb hfree
      · exact ih h

/-! ## What a search does not touch -/

@[simp] theorem taken_absorb {b : Block} (hb : b.free = true) (bs : List Block) :
    taken ((absorb b bs).1 :: (absorb b bs).2) = taken bs := by
  rw [taken_cons_of_free (by rw [absorb_free]; exact hb)]
  induction bs generalizing b with
  | nil => rfl
  | cons c cs ih =>
      unfold absorb
      split_ifs with hm
      · rw [ih (b := b.merge c) hb, taken_cons_of_free hm.2.1]
      · rfl

/-- A search leaves the taken blocks as they are, in the same order. -/
theorem taken_search (sz : ℕ) (bs : List Block) : taken (search sz bs).chain = taken bs := by
  induction bs using search.induct sz with
  | case1 => simp [search, Search.chain]
  | case2 b bs hfree hfit =>
      rw [search, if_pos hfree, if_pos hfit, taken_cons_of_free hfree, ← taken_absorb hfree bs]
      rfl
  | case3 b bs hfree hfit ih =>
      rw [search, if_pos hfree, if_neg hfit, Search.chain_pass, taken_cons_of_free hfree,
        ← taken_absorb hfree bs, taken_cons_of_free (by rw [absorb_free]; exact hfree),
        taken_cons_of_free (by rw [absorb_free]; exact hfree), ih]
  | case4 b bs hfree ih =>
      have htaken : b.free = false := by simpa using hfree
      rw [search, if_neg hfree, Search.chain_pass, taken_cons_of_taken htaken,
        taken_cons_of_taken htaken, ih]

/-- A search keeps the start of the chain. -/
theorem headAddr_search (sz : ℕ) (bs : List Block) (n : ℕ) :
    headAddr (search sz bs).chain n = headAddr bs n := by
  cases bs with
  | nil => simp [search, Search.chain]
  | cons b bs =>
      rw [search]
      split_ifs
      · simp [Search.chain]
      · simp
      · simp

/-! ## What merging keeps, a search keeps -/

section

variable {I : List (List Block) → Prop} {before after : List (List Block)} {pre : List Block}
variable (hmerge : ∀ {p : Place} {b c : Block}, b.Mergeable c → I (p.fill [b, c]) →
  I (p.fill [b.merge c]))
include hmerge

theorem absorb_preserves {b : Block} {bs : List Block}
    (h : I ((⟨before, pre, bs, after⟩ : Place).fill [b])) :
    I ((⟨before, pre, (absorb b bs).2, after⟩ : Place).fill [(absorb b bs).1]) := by
  induction bs generalizing b with
  | nil => exact h
  | cons c cs ih =>
      unfold absorb
      split_ifs with hm
      · have hpair : I ((⟨before, pre, cs, after⟩ : Place).fill [b, c]) := by
          simpa [Place.fill] using h
        exact ih (hmerge hm hpair)
      · exact h

theorem search_preserves (sz : ℕ) {bs : List Block}
    (h : I ((⟨before, pre, [], after⟩ : Place).fill bs)) :
    I ((⟨before, pre, [], after⟩ : Place).fill (search sz bs).chain) := by
  induction bs using search.induct sz generalizing pre with
  | case1 => simpa [search, Search.chain] using h
  | case2 b bs hfree hfit =>
      rw [Place.fill_cons] at h
      rw [search, if_pos hfree, if_pos hfit]
      simpa [Search.chain, Place.fill_cons] using absorb_preserves hmerge h
  | case3 b bs hfree hfit ih =>
      rw [Place.fill_cons] at h
      have hbehind := absorb_preserves hmerge h
      rw [Place.fill_behind] at hbehind
      have hrest := ih hbehind
      rw [← Place.fill_behind, ← Place.fill_cons] at hrest
      rw [search, if_pos hfree, if_neg hfit]
      exact hrest
  | case4 b bs hfree ih =>
      rw [Place.fill_cons, Place.fill_behind] at h
      have hrest := ih h
      rw [← Place.fill_behind, ← Place.fill_cons] at hrest
      rw [search, if_neg hfree]
      exact hrest

/-- The search from the start of the first chain. -/
theorem search_preserves_main (sz : ℕ) {main : List Block} {det : List (List Block)}
    (h : I (main :: det)) : I ((search sz main).chain :: det) := by
  have hsearch := search_preserves hmerge sz
    (show I ((⟨[], [], [], det⟩ : Place).fill main) by simpa [Place.fill] using h)
  simpa [Place.fill] using hsearch

end

end LowLevel.Model
