import Mathlib.Data.List.Chain
import LowLevel.Model.FirstFit
import LowLevel.Interface.HeapEdits

/-!
# The loops of the allocator compute the search on block lists

`whileMerging` settles in the heap that `absorb` describes and `findLoop` in the heap and
the result that `search` describes. Both are inductions along the chain: a block's header
is read where `Stands` puts it, and the rest of the chain is the induction
hypothesis at the next place.
-/

set_option autoImplicit false

namespace LowLevel.Interface

open LowLevel.Library LowLevel.Model LowLevel.Program.Allocator

variable {s : State} {keep : ℕ → Prop} {sz : ℕ}

/-- No byte of `b` is in `keep`. -/
def Spares (keep : ℕ → Prop) (b : Block) : Prop := ∀ x, b.Holds x → ¬ keep x

theorem Spares.merge {b c : Block} (hb : Spares keep b) (hc : Spares keep c)
    (hadj : c.addr = b.stop) : Spares keep (b.merge c) := by
  intro x hx
  unfold Block.stop at hadj
  rcases Nat.lt_or_ge x c.addr with hlt | hge
  · exact hb x ⟨hx.1, by omega⟩
  · exact hc x ⟨hge, by have := hx.2; simp only [Block.merge] at this; omega⟩

/-- The state that differs in no byte holds the same chains. -/
theorem Stands.of_within {s' : State} {chains : List (List Block)}
    (h : Stands s chains) (hw : Within (fun _ => True) s s') : Stands s' chains := by
  have hmem : s'.mem = s.mem := funext fun x => hw.mem_eq x trivial
  exact ⟨by rw [hw.mapped_eq]; exact h.sound, by rw [hmem]; exact h.linked⟩

/-- **The inner loop**: it takes in the free blocks that directly follow. -/
theorem settles_whileMerging (body : Heap Unit)
    (hbody : ∀ s, ∃ s', body.run s = .ok ((), s') ∧ Within (fun _ => True) s s')
    (before : List (List Block)) (pre : List Block) (after : List (List Block))
    (b : Block) (bs : List Block) (hb : Spares keep b)
    (hbs : ∀ c ∈ bs, c.free = true → Spares keep c)
    (h : Stands s ((⟨before, pre, bs, after⟩ : Place).fill [b])) :
    ∃ s', Settles (fun n => whileMerging body n b.addr) s () s' ∧ Within keep s s' ∧
      Stands s'
        ((⟨before, pre, (absorb b bs).2, after⟩ : Place).fill [(absorb b bs).1]) := by
  induction bs generalizing b s with
  | nil =>
      refine ⟨s, Settles.of_succ fun n => ?_, Within.refl keep s, h⟩
      rw [whileMerging, run_bind_of_ok (run_tryMerge_last h rfl)]
      rfl
  | cons c cs ih =>
      have h' : Stands s ((⟨before, pre, cs, after⟩ : Place).fill [b, c]) := by
        simpa [Place.fill] using h
      unfold absorb
      by_cases hm : b.Mergeable c
      · -- one turn of the loop, then the induction hypothesis at the merged block
        rw [if_pos hm]
        have hmerged := h'.merge hm
        obtain ⟨s₁, hrun, hquiet⟩ := hbody (initialized s (b.merge c) (headAddr cs 0))
        have hc := hbs c (by simp) hm.2.1
        obtain ⟨s', hloop, hwithin, hrep⟩ := ih (s := s₁) (b.merge c) (hb.merge hc hm.2.2)
          (fun d hd => hbs d (by simp [hd])) (hmerged.of_within hquiet)
        refine ⟨s', Settles.step hloop fun n => ?_, ?_, hrep⟩
        · rw [whileMerging, run_bind_of_ok (run_tryMerge_yes h' hm)]
          simp only [if_true]
          rw [run_bind_of_ok hrun]
          rfl
        · have hinit : Within keep s (initialized s (b.merge c) (headAddr cs 0)) :=
            within_initialized fun x hlo hhi => hb.merge hc hm.2.2 x ⟨hlo, by
              simp only [Block.merge] at hhi ⊢
              omega⟩
          exact hinit.trans ((hquiet.mono fun _ _ => trivial).trans hwithin)
      · rw [if_neg hm]
        refine ⟨s, Settles.of_succ fun n => ?_, Within.refl keep s, h⟩
        rw [whileMerging, run_bind_of_ok (run_tryMerge_no h' hm)]
        rfl

/-- The inner loop stops at once at a block that cannot be merged with the next. -/
theorem run_whileMerging_stop (body : Heap Unit) {p : Place} {b : Block}
    (h : Stands s (p.fill [b])) (hstop : ∀ c ∈ p.post.head?, ¬ b.Mergeable c) (n : ℕ) :
    (whileMerging body (n + 1) b.addr).run s = .ok ((), s) := by
  have hmerge : (tryMergeWithNext b.addr).run s = .ok (false, s) := by
    cases hpost : p.post with
    | nil => exact run_tryMerge_last h hpost
    | cons c cs =>
        have hpair : Stands s ((⟨p.before, p.pre, cs, p.after⟩ : Place).fill [b, c]) := by
          simpa [Place.fill, hpost] using h
        exact run_tryMerge_no hpair (hstop c (by simp [hpost]))
  rw [whileMerging, run_bind_of_ok hmerge]
  rfl

theorem spares_of_absorb {b : Block} {bs : List Block}
    (hbs : ∀ c ∈ bs, c.free = true → Spares keep c) :
    ∀ c ∈ (absorb b bs).2, c.free = true → Spares keep c := by
  induction bs generalizing b with
  | nil => simp [absorb]
  | cons c cs ih =>
      unfold absorb
      split_ifs
      · exact ih fun d hd => hbs d (by simp [hd])
      · exact hbs

/-- The block a walk along a chain stands at, with the rest of the chain behind it. -/
theorem Stands.first {before after : List (List Block)} {pre bs : List Block} {b : Block}
    (h : Stands s ((⟨before, pre, [], after⟩ : Place).fill (b :: bs))) :
    Stands s ((⟨before, pre, bs, after⟩ : Place).fill [b]) ∧ Held s b ∧
      HeaderAt s.mem b (headAddr bs 0) := by
  have hrep : Stands s ((⟨before, pre, bs, after⟩ : Place).fill [b]) := by
    rwa [← Place.fill_cons]
  exact ⟨hrep, hrep.held_mid (by simp), hrep.chain_fill.2.1.1⟩

/-- The rest of one turn of the search at a free block, after the merging. -/
def findTail (n block sz : ℕ) : Heap BlockSearchResult := do
  if ← blockIsBigEnough sz block then return ⟨.foundGoodBlock, block⟩
  let next ← loadNext block
  findLoop n next block sz

theorem run_findLoop_free {b : Block} {next last n : ℕ} (ho : Held s b)
    (hh : HeaderAt s.mem b next) (hfree : b.free = true) :
    (findLoop (n + 1) b.addr last sz).run s =
      (whileMerging (return ()) n b.addr >>= fun _ => findTail n b.addr sz).run s := by
  have hne := ho.addr_ne
  rw [findLoop, if_neg hne, run_bind_of_ok (run_loadIsFree ho hh), hfree]
  rfl

theorem run_findLoop_taken {b : Block} {next last n : ℕ} (ho : Held s b)
    (hh : HeaderAt s.mem b next) (htaken : b.free = false) :
    (findLoop (n + 1) b.addr last sz).run s = (findLoop n next last sz).run s := by
  have hne := ho.addr_ne
  rw [findLoop, if_neg hne, run_bind_of_ok (run_loadIsFree ho hh), htaken]
  simp only [Bool.not_false, if_true]
  rw [run_bind_of_ok (run_loadNext ho hh)]

theorem run_findTail_fits {b : Block} {next n : ℕ} (ho : Held s b)
    (hh : HeaderAt s.mem b next) (hfit : sz ≤ b.cap) :
    (findTail n b.addr sz).run s = .ok (⟨.foundGoodBlock, b.addr⟩, s) := by
  unfold findTail
  rw [run_bind_of_ok (run_blockIsBigEnough ho hh sz), decide_eq_true hfit]
  rfl

theorem run_findTail_small {b : Block} {next n : ℕ} (ho : Held s b)
    (hh : HeaderAt s.mem b next) (hsmall : ¬ sz ≤ b.cap) :
    (findTail n b.addr sz).run s = (findLoop n next b.addr sz).run s := by
  unfold findTail
  rw [run_bind_of_ok (run_blockIsBigEnough ho hh sz), decide_eq_false hsmall]
  simp only [Bool.false_eq_true, if_false]
  rw [run_bind_of_ok (run_loadNext ho hh)]

/-- **The outer loop**: it settles in the search on the block list. -/
theorem settles_findLoop (sz : ℕ) (before : List (List Block)) (pre : List Block)
    (after : List (List Block)) (bs : List Block) (last : ℕ)
    (hbs : ∀ c ∈ bs, c.free = true → Spares keep c)
    (h : Stands s ((⟨before, pre, [], after⟩ : Place).fill bs)) :
    ∃ s', Settles (fun n => findLoop n (headAddr bs 0) last sz) s
        (searchResult (search sz bs) last) s' ∧ Within keep s s' ∧
      Stands s' ((⟨before, pre, [], after⟩ : Place).fill (search sz bs).chain) := by
  induction bs using search.induct sz generalizing s pre last with
  | case1 =>
      refine ⟨s, Settles.of_succ fun n => ?_, Within.refl keep s, ?_⟩
      · simp only [search, headAddr_nil, findLoop, if_true]
        rfl
      · simpa [search, Search.chain] using h
  | case2 b bs hfree hfit =>
      obtain ⟨hrep, hheld, hheader⟩ := h.first
      obtain ⟨s₁, hmerge, hwithin, hrep₁⟩ := settles_whileMerging (pure ())
        (fun s => ⟨s, rfl, Within.refl _ s⟩) before pre after b bs (hbs b (by simp) hfree)
        (fun c hc => hbs c (by simp [hc])) hrep
      have htail : ∀ n, (findTail n b.addr sz).run s₁ = .ok (⟨.foundGoodBlock, b.addr⟩, s₁) := by
        intro n
        rw [← absorb_addr b bs]
        exact run_findTail_fits (hrep₁.held_mid (by simp)) hrep₁.chain_fill.2.1.1 hfit
      rw [search, if_pos hfree, if_pos hfit]
      refine ⟨s₁, ?_, hwithin, ?_⟩
      · have hres : searchResult ⟨[], some (absorb b bs)⟩ last = ⟨.foundGoodBlock, b.addr⟩ := by
          simp [searchResult]
        rw [hres]
        exact Settles.step (hmerge.bind ⟨0, fun n _ => htail n⟩)
          fun n => run_findLoop_free hheld hheader hfree
      · simpa [Search.chain, Place.fill] using hrep₁
  | case3 b bs hfree hfit ih =>
      obtain ⟨hrep, hheld, hheader⟩ := h.first
      obtain ⟨s₁, hmerge, hwithin, hrep₁⟩ := settles_whileMerging (pure ())
        (fun s => ⟨s, rfl, Within.refl _ s⟩) before pre after b bs (hbs b (by simp) hfree)
        (fun c hc => hbs c (by simp [hc])) hrep
      have htail : ∀ n, (findTail n b.addr sz).run s₁ =
          (findLoop n (headAddr (absorb b bs).2 0) b.addr sz).run s₁ := by
        intro n
        have := run_findTail_small (n := n) (hrep₁.held_mid (by simp))
          hrep₁.chain_fill.2.1.1 hfit
        rwa [absorb_addr] at this
      obtain ⟨s₂, hloop, hwithin₂, hrep₂⟩ := ih (s := s₁) (pre ++ [(absorb b bs).1]) b.addr
        (spares_of_absorb fun c hc => hbs c (by simp [hc])) (by simpa [Place.fill] using hrep₁)
      rw [search, if_pos hfree, if_neg hfit]
      refine ⟨s₂, ?_, hwithin.trans hwithin₂, by simpa [Place.fill] using hrep₂⟩
      rw [searchResult_pass, absorb_free, if_pos hfree, absorb_addr]
      exact Settles.step (hmerge.bind (hloop.congr htail))
        fun n => run_findLoop_free hheld hheader hfree
  | case4 b bs hfree ih =>
      have htaken : b.free = false := by simpa using hfree
      obtain ⟨hrep, hheld, hheader⟩ := h.first
      obtain ⟨s₁, hloop, hwithin, hrep₁⟩ := ih (s := s) (pre ++ [b]) last
        (fun c hc => hbs c (by simp [hc])) (by simpa [Place.fill] using h)
      rw [search, if_neg hfree]
      refine ⟨s₁, ?_, hwithin, by simpa [Place.fill] using hrep₁⟩
      rw [searchResult_pass, if_neg hfree]
      exact Settles.step hloop fun n => run_findLoop_taken hheld hheader htaken

/-- Along a coalesced chain in which nothing fits the outer loop stores nothing. -/
theorem settles_findLoop_fixed (sz : ℕ) (before : List (List Block)) (pre : List Block)
    (after : List (List Block)) (bs : List Block) (last : ℕ)
    (hchain : bs.IsChain fun b c => ¬ b.Mergeable c)
    (hsmall : ∀ b ∈ bs, b.free = true → b.cap < sz)
    (h : Stands s ((⟨before, pre, [], after⟩ : Place).fill bs)) :
    Settles (fun n => findLoop n (headAddr bs 0) last sz) s
      ⟨.reachedEndNotFound, lastFree bs last⟩ s := by
  induction bs generalizing pre last with
  | nil =>
      refine Settles.of_succ fun n => ?_
      simp only [headAddr_nil, findLoop, if_true]
      rfl
  | cons b bs ih =>
      obtain ⟨hrep, hheld, hheader⟩ := h.first
      have hloop := fun last => ih (pre ++ [b]) last hchain.tail
        (fun c hc => hsmall c (List.mem_cons_of_mem b hc)) (by simpa [Place.fill] using h)
      have hstop : ∀ c ∈ bs.head?, ¬ b.Mergeable c := (List.isChain_cons.mp hchain).1
      rw [lastFree]
      cases hfree : b.free with
      | false =>
          simp only [Bool.false_eq_true, if_false]
          exact Settles.step (hloop last) fun n => run_findLoop_taken hheld hheader hfree
      | true =>
          simp only [if_true]
          have hmiss : ¬ sz ≤ b.cap := Nat.not_le.mpr (hsmall b List.mem_cons_self hfree)
          have hmerge : Settles (fun n => whileMerging (return ()) n b.addr) s () s :=
            Settles.of_succ fun n => run_whileMerging_stop _ hrep hstop n
          exact Settles.step
            (hmerge.bind ((hloop b.addr).congr fun n => run_findTail_small hheld hheader hmiss))
            fun n => run_findLoop_free hheld hheader hfree

/-- **`find_good_or_last`** from the start of a chain computes the search on the chain. -/
theorem settles_findGoodOrLast (sz : ℕ) (keep : ℕ → Prop) {main : List Block}
    {det : List (List Block)} {root : ℕ} (hroot : headAddr main 0 = root) (hne : root ≠ 0)
    (hbs : ∀ c ∈ main, c.free = true → Spares keep c) (h : Stands s (main :: det)) :
    ∃ s', Settles (fun n => findGoodOrLast n root sz) s
        (searchResult (search sz main) root) s' ∧ Within keep s s' ∧
      Stands s' ((search sz main).chain :: det) := by
  have hfill : ∀ bs, (⟨[], [], [], det⟩ : Place).fill bs = bs :: det := fun bs => by
    simp [Place.fill]
  obtain ⟨s', hloop, hwithin, hrep⟩ := settles_findLoop sz [] [] det main root hbs
    (by rw [hfill]; exact h)
  rw [hfill] at hrep
  rw [hroot] at hloop
  refine ⟨s', hloop.congr fun n => ?_, hwithin, hrep⟩
  unfold findGoodOrLast
  rw [if_neg hne]

/-- The result type of `find_good_or_last`. -/
theorem findGoodOrLast_type_iff {main : List Block} {det : List (List Block)} {root : ℕ}
    {t : SearchType} (hroot : headAddr main 0 = root) (hne : root ≠ 0)
    (h : Stands s (main :: det)) :
    (∃ r s₁, Settles (fun n => findGoodOrLast n root sz) s r s₁ ∧ r.type = t) ↔
      (searchResult (search sz main) root).type = t := by
  obtain ⟨s', hrun, -, -⟩ := settles_findGoodOrLast sz (fun _ => False) hroot hne
    (fun _ _ _ _ _ hkeep => hkeep) h
  constructor
  · rintro ⟨r, s₁, hrun₁, hr⟩
    rw [(hrun.unique hrun₁).1]
    exact hr
  · exact fun hr => ⟨_, s', hrun, hr⟩

end LowLevel.Interface
