import LowLevel.Model.Recut
import Mathlib.Data.List.Chain

/-!
# Maximal free runs

`FreeRun pre b bs post` says that in the chain `pre ++ (b :: bs) ++ post` the blocks `b :: bs`
are free, each directly behind the one before it in the chain and in memory, and that no
block can be added at either end. `coalesce` makes each such run one block and leaves the
other blocks as they are, and `search` finds the first run that is big enough.
-/

set_option autoImplicit false

namespace LowLevel.Model

open LowLevel.Program.Allocator (Mapping)

variable {pre bs post rest : List Block} {b c : Block} {sz : ℕ}

/-- The blocks `b :: bs`, between `pre` and `post`, are a maximal run of free neighbours. -/
structure FreeRun (pre : List Block) (b : Block) (bs post : List Block) : Prop where
  free : b.free = true
  linked : (b :: bs).IsChain Block.Mergeable
  left : ∀ c ∈ pre.getLast?, ¬ c.Mergeable b
  right : ∀ l ∈ (b :: bs).getLast?, ∀ c ∈ post.head?, ¬ l.Mergeable c

/-- A block with the blocks behind it taken in. -/
def mergeAll (b : Block) (bs : List Block) : Block := bs.foldl Block.merge b

@[simp] theorem mergeAll_addr (b : Block) (bs : List Block) : (mergeAll b bs).addr = b.addr := by
  induction bs generalizing b with
  | nil => rfl
  | cons c cs ih => exact ih (b.merge c)

@[simp] theorem mergeAll_free (b : Block) (bs : List Block) : (mergeAll b bs).free = b.free := by
  induction bs generalizing b with
  | nil => rfl
  | cons c cs ih => exact ih (b.merge c)

/-- What can be merged with the last of two blocks can be merged with their merge. -/
theorem mergeable_merge_iff {d : Block} (h : b.Mergeable c) :
    (b.merge c).Mergeable d ↔ c.Mergeable d := by
  obtain ⟨hb, hc, hadj⟩ := h
  unfold Block.stop at hadj
  unfold Block.Mergeable Block.stop Block.merge
  dsimp only
  rw [hb, hc]
  constructor
  · rintro ⟨-, hd, haddr⟩
    exact ⟨rfl, hd, by omega⟩
  · rintro ⟨-, hd, haddr⟩
    exact ⟨rfl, hd, by omega⟩

/-- Every free block starts a run that is maximal to the right. -/
theorem exists_run (hb : b.free = true) (bs : List Block) :
    ∃ run post, bs = run ++ post ∧ FreeRun [] b run post := by
  induction bs generalizing b with
  | nil => exact ⟨[], [], rfl, hb, .singleton b, by simp, by simp⟩
  | cons c cs ih =>
      by_cases hm : b.Mergeable c
      · obtain ⟨run, post, rfl, hrun⟩ := ih hm.2.1
        refine ⟨c :: run, post, rfl, hb, hrun.linked.cons_cons hm, by simp, ?_⟩
        rw [List.getLast?_cons_cons]
        exact hrun.right
      · refine ⟨[], c :: cs, rfl, hb, .singleton b, by simp, ?_⟩
        simpa using hm

/-- `absorb` takes in the run and nothing else. -/
theorem absorb_run (h : FreeRun pre b bs post) : absorb b (bs ++ post) = (mergeAll b bs, post) := by
  obtain ⟨-, hlinked, -, hright⟩ := h
  induction bs generalizing b with
  | nil =>
      cases post with
      | nil => rfl
      | cons c cs =>
          rw [List.nil_append, absorb, if_neg (by simpa using hright)]
          rfl
  | cons c cs ih =>
      obtain ⟨hm, hlinked⟩ := List.isChain_cons_cons.mp hlinked
      rw [List.cons_append, absorb, if_pos hm]
      refine ih ?_ ?_
      · cases cs with
        | nil => exact .singleton _
        | cons d ds =>
            obtain ⟨hd, hlinked⟩ := List.isChain_cons_cons.mp hlinked
            exact hlinked.cons_cons ((mergeable_merge_iff hm).mpr hd)
      · intro l hl d hd hmerge
        cases cs with
        | nil =>
            obtain rfl : b.merge c = l := by simpa using hl
            exact hright c (by simp) d hd ((mergeable_merge_iff hm).mp hmerge)
        | cons e es =>
            rw [List.getLast?_cons_cons] at hl
            exact hright l (by rwa [List.getLast?_cons_cons, List.getLast?_cons_cons]) d hd hmerge

/-- A run at the start of a chain is one block of the normal form. -/
theorem coalesce_run (h : FreeRun pre b bs post) :
    coalesce (b :: bs ++ post) = mergeAll b bs :: coalesce post := by
  rw [List.cons_append, coalesce_absorb, absorb_run h]

/-- A block in front of a run that does not belong to it. -/
theorem FreeRun.of_cons {a : Block} (h : FreeRun (a :: pre) b bs post) :
    FreeRun pre b bs post where
  free := h.free
  linked := h.linked
  left c hc := by
    have hne : pre ≠ [] := by
      rintro rfl
      simp at hc
    exact h.left c (by rwa [List.getLast?_cons_of_ne_nil hne])
  right := h.right

/-- Blocks in front of a run, none of which belongs to it. -/
theorem FreeRun.behind {l : List Block} (h : FreeRun pre b bs post)
    (hl : ∀ a ∈ l.getLast?, ∀ d ∈ (pre ++ (b :: bs ++ post)).head?, ¬ a.Mergeable d) :
    FreeRun (l ++ pre) b bs post where
  free := h.free
  linked := h.linked
  left a ha := by
    by_cases hpre : pre = []
    · subst hpre
      exact hl a (by simpa using ha) b (by simp)
    · rw [List.getLast?_append_of_ne_nil _ hpre] at ha
      exact h.left a ha
  right := h.right

theorem consRun_append {a : Block} {l : List Block} (hl : l ≠ []) (l' : List Block) :
    consRun a (l ++ l') = consRun a l ++ l' := by
  cases l with
  | nil => exact absurd rfl hl
  | cons c cs =>
      simp only [List.cons_append, consRun]
      split_ifs <;> rfl

theorem coalesce_ne_nil {l : List Block} (hl : l ≠ []) : coalesce l ≠ [] := by
  cases l with
  | nil => exact absurd rfl hl
  | cons c cs =>
      obtain ⟨d, ds, heq, -⟩ := consRun_eq_cons c (coalesce cs)
      rw [coalesce, heq]
      exact List.cons_ne_nil d ds

/-- **The normal form** has one block for each maximal run. -/
theorem coalesce_freeRun (h : FreeRun pre b bs post) :
    coalesce (pre ++ (b :: bs ++ post)) = coalesce pre ++ mergeAll b bs :: coalesce post := by
  induction pre with
  | nil => exact coalesce_run h
  | cons a pre ih =>
      rw [List.cons_append, coalesce, ih h.of_cons]
      by_cases hpre : pre = []
      · subst hpre
        have hno : ¬ a.Mergeable (mergeAll b bs) := by
          have hleft := h.left a (by simp)
          unfold Block.Mergeable at hleft ⊢
          rwa [mergeAll_addr, mergeAll_free]
        simp [coalesce, consRun, hno]
      · rw [consRun_append (coalesce_ne_nil hpre)]
        rfl

/-- The run that a search hits is the first that is big enough, and the blocks in front of it
are coalesced. -/
theorem exists_freeRun_of_hit {bs : List Block} (h : (search sz bs).hit = some (c, rest)) :
    ∃ pre b run, bs = pre ++ (b :: run ++ rest) ∧ FreeRun pre b run rest ∧ c = mergeAll b run ∧
      (search sz bs).passed = coalesce pre := by
  induction bs using search.induct sz with
  | case1 => simp [search] at h
  | case2 b bs hfree hfit =>
      obtain ⟨run, post, rfl, hrun⟩ := exists_run hfree bs
      rw [search, if_pos hfree, if_pos hfit] at h ⊢
      rw [absorb_run hrun, Option.some.injEq, Prod.mk.injEq] at h
      obtain ⟨rfl, rfl⟩ := h
      exact ⟨[], b, run, rfl, hrun, rfl, rfl⟩
  | case3 b bs hfree hfit ih =>
      obtain ⟨run, post, rfl, hrun⟩ := exists_run hfree bs
      rw [search, if_pos hfree, if_neg hfit] at h ⊢
      rw [absorb_run hrun] at h ih ⊢
      obtain ⟨pre, d, ds, rfl, hnext, rfl, hpassed⟩ := ih h
      refine ⟨b :: run ++ pre, d, ds, by simp, hnext.behind hrun.right, rfl, ?_⟩
      have hfront : FreeRun [] b run pre := by
        refine ⟨hrun.free, hrun.linked, by simp, fun l hl e he => hrun.right l hl e ?_⟩
        exact List.mem_head?_append_of_mem_head? he
      rw [Search.passed_pass, hpassed, coalesce_run hfront]
  | case4 b bs hfree ih =>
      rw [search, if_neg hfree] at h ⊢
      obtain ⟨pre, d, ds, rfl, hnext, rfl, hpassed⟩ := ih h
      refine ⟨b :: pre, d, ds, rfl, ?_, rfl, ?_⟩
      · rw [← List.singleton_append]
        exact hnext.behind fun a ha e _ hm => hfree (by
          obtain rfl : b = a := by simpa using ha
          exact hm.1)
      · rw [Search.passed_pass, hpassed, coalesce_cons_of_taken (by simpa using hfree)]

/-- A run inside the blocks that a search passed is too small. -/
theorem cap_lt_of_passed {main : List Block} (hpassed : (search sz main).passed =
    coalesce (pre ++ (b :: bs ++ post))) (h : FreeRun pre b bs post) :
    (mergeAll b bs).cap < sz := by
  rw [coalesce_freeRun h] at hpassed
  have hmem : mergeAll b bs ∈ (search sz main).passed := by
    rw [hpassed]
    exact List.mem_append_right _ List.mem_cons_self
  exact search_passed hmem (by rw [mergeAll_free]; exact h.free)

/-- Before the run that a search hits no run is big enough. -/
theorem first_of_hit {main pre' bs' post' : List Block} {b' : Block}
    (hmain : main = pre ++ (b :: bs ++ rest)) (hrun : FreeRun pre b bs rest)
    (hpassed : (search sz main).passed = coalesce pre)
    (hmain' : main = pre' ++ (b' :: bs' ++ post')) (hrun' : FreeRun pre' b' bs' post')
    (hfit : sz ≤ (mergeAll b' bs').cap) : pre.length ≤ pre'.length := by
  by_contra hlt
  rw [hmain] at hmain'
  have hinside : ∀ as, pre = pre' ++ (b' :: bs' ++ as) → (∀ d ∈ as.head?, d ∈ post'.head?) →
      False := by
    intro as hpre has
    rw [hpre] at hpassed
    have hcap := cap_lt_of_passed hpassed ⟨hrun'.free, hrun'.linked, hrun'.left,
      fun l hl d hd => hrun'.right l hl d (has d hd)⟩
    omega
  rcases List.append_eq_append_iff.mp hmain' with ⟨x, rfl, hx⟩ | ⟨x, rfl, hx⟩
  · rw [List.length_append] at hlt
    omega
  · have hne : x ≠ [] := by
      rintro rfl
      simp at hlt
    rcases List.append_eq_append_iff.mp hx with ⟨as, rfl, hpost⟩ | ⟨ys, hys, hpost⟩
    · refine hinside as rfl fun d hd => ?_
      rw [hpost]
      exact List.mem_head?_append_of_mem_head? hd
    · cases ys with
      | nil =>
          rw [List.append_nil] at hys
          exact hinside [] (by rw [hys, List.append_nil]) (by simp)
      | cons e es =>
          -- the run would go on into the run that is hit
          obtain rfl : b = e := by simpa using (List.cons.inj hpost).1
          have hlinked := hrun'.linked
          rw [hys, List.isChain_append] at hlinked
          obtain ⟨l, hl⟩ := Option.isSome_iff_exists.mp (List.getLast?_isSome.mpr hne)
          refine hrun.left l ?_ (hlinked.2.2 l hl b (by simp))
          rw [List.getLast?_append_of_ne_nil _ hne]
          exact hl

/-! ## What coalescing keeps -/

/-- The bytes of the blocks of a chain, headers included. -/
def totalSize (bs : List Block) : ℕ := (bs.map fun b => 17 + b.cap).sum

theorem totalSize_coalesce (bs : List Block) : totalSize (coalesce bs) = totalSize bs := by
  induction bs with
  | nil => rfl
  | cons b bs ih =>
      have hcons : ∀ (b : Block) (bs : List Block),
          totalSize (consRun b bs) = 17 + b.cap + totalSize bs := by
        intro b bs
        cases bs with
        | nil => simp [consRun, totalSize]
        | cons c cs =>
            simp only [consRun]
            split_ifs
            · simp only [totalSize, List.map_cons, List.sum_cons, Block.merge]
              omega
            · simp only [totalSize, List.map_cons, List.sum_cons]
      rw [coalesce, hcons, ih]
      simp [totalSize]

theorem totalSize_mergeAll (b : Block) (bs : List Block) :
    17 + (mergeAll b bs).cap = totalSize (b :: bs) := by
  induction bs generalizing b with
  | nil => simp [mergeAll, totalSize]
  | cons c cs ih =>
      have hmerge : totalSize (b.merge c :: cs) = totalSize (b :: c :: cs) := by
        simp only [totalSize, List.map_cons, List.sum_cons, Block.merge]
        omega
      exact (ih (b.merge c)).trans hmerge

/-- The second chain is the first with each maximal run of free neighbours replaced by one free
block of the same size. In front of a run there is a taken block or the end of a run, so the
run is maximal to the left as well. -/
inductive RunsMerged : List Block → List Block → Prop
  | nil : RunsMerged [] []
  | taken {b : Block} {bs cs : List Block} (htaken : b.free = false) (hrest : RunsMerged bs cs) :
      RunsMerged (b :: bs) (b :: cs)
  | run {b c : Block} {bs post cs : List Block} (hrun : FreeRun [] b bs post)
      (haddr : c.addr = b.addr) (hfree : c.free = true) (hsize : 17 + c.cap = totalSize (b :: bs))
      (hrest : RunsMerged post cs) : RunsMerged (b :: bs ++ post) (c :: cs)

/-- Coalescing replaces the runs and nothing else. -/
theorem runsMerged_coalesce (bs : List Block) : RunsMerged bs (coalesce bs) := by
  induction hlen : bs.length using Nat.strong_induction_on generalizing bs with
  | _ n ih =>
      cases bs with
      | nil => exact .nil
      | cons b bs =>
          cases hfree : b.free with
          | false =>
              rw [coalesce_cons_of_taken hfree]
              exact .taken hfree (ih _ (by rw [← hlen]; simp) bs rfl)
          | true =>
              obtain ⟨run, post, rfl, hrun⟩ := exists_run hfree bs
              rw [← List.cons_append, coalesce_run hrun]
              refine .run hrun (mergeAll_addr b run) (by rw [mergeAll_free, hfree])
                (totalSize_mergeAll b run) (ih _ ?_ post rfl)
              rw [← hlen]
              simp only [List.length_cons, List.length_append]
              omega

/-- There is one way to replace the runs. -/
theorem runsMerged_iff {bs cs : List Block} : RunsMerged bs cs ↔ cs = coalesce bs := by
  constructor
  · intro h
    induction h with
    | nil => rfl
    | taken htaken hrest ih => rw [coalesce_cons_of_taken htaken, ih]
    | @run b c bs post cs hrun haddr hfree hsize hrest ih =>
        have hcap := totalSize_mergeAll b bs
        have hfree' : (mergeAll b bs).free = true := by rw [mergeAll_free, hrun.free]
        have hblock : c = mergeAll b bs := by
          rcases c with ⟨addr, cap, free⟩
          dsimp only at haddr hfree hsize
          rw [← mergeAll_addr b bs] at haddr
          rw [haddr, hfree, ← hfree', show cap = (mergeAll b bs).cap by omega]
        rw [coalesce_run hrun, hblock, ih]
  · rintro rfl
    exact runsMerged_coalesce bs

/-- The blocks that replace the runs start at blocks of the chain. -/
theorem RunsMerged.mem {bs cs : List Block} (h : RunsMerged bs cs) :
    ∀ c ∈ cs, ∃ b ∈ bs, c.addr = b.addr := by
  induction h with
  | nil => simp
  | @taken b bs cs htaken hrest ih =>
      intro c hc
      rcases List.mem_cons.mp hc with rfl | hc
      · exact ⟨c, List.mem_cons_self, rfl⟩
      · obtain ⟨d, hd, haddr⟩ := ih c hc
        exact ⟨d, List.mem_cons_of_mem b hd, haddr⟩
  | @run b c bs post cs hrun haddr hfree hsize hrest ih =>
      intro d hd
      rcases List.mem_cons.mp hd with rfl | hd
      · exact ⟨b, by simp, haddr⟩
      · obtain ⟨e, he, haddr'⟩ := ih d hd
        exact ⟨e, List.mem_append_right _ he, haddr'⟩

/-- A merge does not show in the normal form. -/
theorem coalesce_merge {p : Place} (h : b.Mergeable c) :
    (p.fill [b.merge c]).map coalesce = (p.fill [b, c]).map coalesce := by
  have hmid : coalesce (p.pre ++ [b.merge c] ++ p.post) = coalesce (p.pre ++ [b, c] ++ p.post) := by
    rw [List.append_assoc, List.append_assoc]
    exact coalesce_append_congr p.pre (consRun_consRun_of_mergeable h _).symm
  simp only [Place.fill, List.map_append, List.map_cons, hmid]

/-- A search does not show in the normal form. -/
theorem coalesce_chain (sz : ℕ) (bs : List Block) :
    coalesce (search sz bs).chain = coalesce bs := by
  have hsearch := search_preserves_main (I := fun chains => chains.map coalesce = [coalesce bs])
    (fun hm h => (coalesce_merge hm).trans h) sz (show [bs].map coalesce = [coalesce bs] from rfl)
  simpa using hsearch

/-- In the normal form no block can be merged with the next. -/
theorem isChain_coalesce (bs : List Block) :
    (coalesce bs).IsChain fun b c => ¬ b.Mergeable c := by
  induction bs with
  | nil => exact .nil
  | cons b bs ih =>
      rw [coalesce]
      cases hbs : coalesce bs with
      | nil => exact .singleton b
      | cons c cs =>
          rw [hbs] at ih
          simp only [consRun]
          split_ifs with hm
          · cases cs with
            | nil => exact .singleton _
            | cons d ds =>
                obtain ⟨hd, hds⟩ := List.isChain_cons_cons.mp ih
                exact hds.cons_cons (mt (mergeable_merge_iff hm).mp hd)
          · exact ih.cons_cons hm

/-! ## Handing a block out and releasing it -/

theorem carve_eq_cons (sz : ℕ) (b : Block) :
    b.carve sz = b.handed sz :: (b.carve sz).tail := by
  unfold Block.carve Block.handed
  split_ifs
  · rfl
  · rfl

/-- A block that is carved and released again differs from what it was by a merge at most. -/
theorem coalesce_release_carve (hfree : b.free = true) (sz : ℕ) (rest : List Block) :
    coalesce ((b.handed sz).release :: ((b.carve sz).tail ++ rest)) = coalesce (b :: rest) := by
  unfold Block.carve Block.handed
  split_ifs with hsplit
  · -- the two parts are neighbours, and their merge is the block
    have hmerge : (⟨b.addr, sz, true⟩ : Block).Mergeable
        ⟨b.addr + 17 + sz, b.cap - sz - 17, true⟩ := ⟨rfl, rfl, rfl⟩
    have hblock : (⟨b.addr, sz, true⟩ : Block).merge ⟨b.addr + 17 + sz, b.cap - sz - 17, true⟩ =
        b := by
      obtain ⟨addr, cap, free⟩ := b
      simp only [Block.merge, Block.mk.injEq, true_and] at hfree hsplit ⊢
      exact ⟨by omega, hfree.symm⟩
    calc coalesce (⟨b.addr, sz, true⟩ :: ⟨b.addr + 17 + sz, b.cap - sz - 17, true⟩ :: rest)
        = coalesce ((⟨b.addr, sz, true⟩ : Block).merge
            ⟨b.addr + 17 + sz, b.cap - sz - 17, true⟩ :: rest) :=
          consRun_consRun_of_mergeable hmerge _
      _ = coalesce (b :: rest) := by rw [hblock]
  · have hblock : (⟨b.addr, b.cap, false⟩ : Block).release = b := by
      unfold Block.release
      rw [← hfree]
    rw [hblock]
    rfl

/-- **Releasing what a search handed out** restores the normal form. -/
theorem coalesce_releaseAt_allocate {main : List Block} {det : List (List Block)}
    {mapped : List Mapping} (hhit : (search sz main).hit = some (b, rest))
    (h : Sound ((search sz main).allocate sz :: det) mapped) :
    ∃ main', ((search sz main).allocate sz :: det).map (World.releaseAt b.addr) = main' :: det ∧
      coalesce main' = coalesce main := by
  have hchain := coalesce_chain sz main
  have hplace : (search sz main).allocate sz :: det =
      (⟨[], (search sz main).passed, (b.carve sz).tail ++ rest, det⟩ : Place).fill
        [b.handed sz] := by
    rw [Search.allocate, hhit]
    dsimp only
    rw [carve_eq_cons]
    simp [Place.fill]
  rw [hplace] at h ⊢
  have hrelease := World.releaseAt_fill h
  rw [show (b.handed sz).addr = b.addr from rfl] at hrelease
  refine ⟨_, hrelease, ?_⟩
  rw [Search.chain, hhit] at hchain
  rw [List.append_assoc, List.singleton_append, ← hchain]
  refine coalesce_append_congr _ ?_
  rw [coalesce_absorb_cons]
  exact coalesce_release_carve (search_hit hhit).1 sz rest

/-! ## The search after the heap has grown -/

/-- A search passes blocks that are too small and that cannot be merged. -/
theorem search_append {l l' : List Block} (hl : l.IsChain fun b c => ¬ b.Mergeable c)
    (hend : ∀ b ∈ l.getLast?, ∀ c ∈ l'.head?, ¬ b.Mergeable c)
    (hsmall : ∀ b ∈ l, b.free = true → b.cap < sz) :
    (search sz (l ++ l')).hit = (search sz l').hit ∧
      (search sz (l ++ l')).passed = l ++ (search sz l').passed := by
  induction l with
  | nil => exact ⟨rfl, rfl⟩
  | cons b l ih =>
      have hnext : ∀ c ∈ (l ++ l').head?, ¬ b.Mergeable c := by
        intro c hc
        cases l with
        | nil => exact hend b (by simp) c hc
        | cons d ds =>
            obtain rfl : d = c := by simpa using hc
            exact (List.isChain_cons_cons.mp hl).1
      obtain ⟨hhit, hpassed⟩ := ih hl.tail
        (fun c hc => hend c (by
          have hne : l ≠ [] := by
            rintro rfl
            simp at hc
          rwa [List.getLast?_cons_of_ne_nil hne]))
        fun c hc => hsmall c (List.mem_cons_of_mem b hc)
      have habsorb : absorb b (l ++ l') = (b, l ++ l') := by
        cases hll : l ++ l' with
        | nil => rfl
        | cons c cs => rw [absorb, if_neg (hnext c (by rw [hll]; rfl))]
      rw [List.cons_append, search]
      split_ifs with hfree hfit
      · have := hsmall b List.mem_cons_self hfree
        rw [habsorb] at hfit
        dsimp only at hfit
        omega
      · rw [habsorb]
        exact ⟨hhit, by rw [Search.passed_pass, hpassed]; rfl⟩
      · exact ⟨hhit, by rw [Search.passed_pass, hpassed]; rfl⟩

/-- A search along a coalesced chain that finds nothing passes it as it is. -/
theorem search_of_chain {l : List Block} (hl : l.IsChain fun b c => ¬ b.Mergeable c)
    (hsmall : ∀ b ∈ l, b.free = true → b.cap < sz) : search sz l = ⟨l, none⟩ := by
  have hnil : ∀ b ∈ l.getLast?, ∀ c ∈ ([] : List Block).head?, ¬ b.Mergeable c := by simp
  obtain ⟨hhit, hpassed⟩ := search_append hl hnil hsmall
  rw [List.append_nil] at hhit hpassed
  exact Search.ext (by rw [hpassed]; simp [search]) (by rw [hhit]; simp [search])

/-- The block that serves a request after the heap has grown: the new one, with the last block
in front of it if the two can be merged. -/
def servingBlock (last new : Block) : Block :=
  if last.Mergeable new then last.merge new else new

/-- The blocks in front of it. -/
def servingPrefix (pre : List Block) (last new : Block) : List Block :=
  if last.Mergeable new then pre else pre ++ [last]

/-- **The second search** hits the new block, or the last block merged with it. -/
theorem search_extend {last new : Block} (ext : Bool)
    (hchain : (pre ++ [last]).IsChain fun b c => ¬ b.Mergeable c)
    (hsmall : ∀ b ∈ pre ++ [last], b.free = true → b.cap < sz) (hnew : new.free = true)
    (hcap : sz ≤ new.cap) :
    search sz (World.extend pre last new ext) =
      ⟨servingPrefix pre last new, some (servingBlock last new, [])⟩ := by
  rw [List.isChain_append] at hchain
  obtain ⟨hpre, -, hlast⟩ := hchain
  have hone : ∀ c : Block, c.free = true → sz ≤ c.cap → search sz [c] = ⟨[], some (c, [])⟩ := by
    intro c hfree hfit
    rw [search, if_pos hfree, if_pos (by simpa [absorb] using hfit)]
    rfl
  by_cases hm : last.Mergeable new
  · have hmerged : sz ≤ (last.merge new).cap := by
      simp only [Block.merge]
      omega
    have hfit : search sz (if ext = true then [last.merge new] else [last, new]) =
        ⟨[], some (last.merge new, [])⟩ := by
      split_ifs
      · exact hone _ hm.1 hmerged
      · rw [search, if_pos hm.1]
        simp only [absorb, if_pos hm]
        rw [if_pos hmerged]
    have hend : ∀ b ∈ pre.getLast?, ∀ c ∈ (if ext = true then [last.merge new]
        else [last, new]).head?, ¬ b.Mergeable c := by
      intro b hb c hc hbc
      refine hlast b hb last (by simp) ?_
      split_ifs at hc
      · obtain rfl : last.merge new = c := by simpa using hc
        exact hbc
      · obtain rfl : last = c := by simpa using hc
        exact hbc
    obtain ⟨hhit, hpassed⟩ := search_append hpre hend fun b hb => hsmall b (by simp [hb])
    rw [hfit] at hhit hpassed
    have hextend : World.extend pre last new ext =
        pre ++ if ext = true then [last.merge new] else [last, new] := by
      simp [World.extend, hm]
    rw [hextend, servingPrefix, servingBlock, if_pos hm, if_pos hm]
    exact Search.ext (by simpa using hpassed) hhit
  · have hend : ∀ b ∈ (pre ++ [last]).getLast?, ∀ c ∈ [new].head?, ¬ b.Mergeable c := by
      intro b hb c hc
      obtain rfl : last = b := by simpa using hb
      obtain rfl : new = c := by simpa using hc
      exact hm
    obtain ⟨hhit, hpassed⟩ := search_append (List.isChain_append.mpr ⟨hpre, .singleton _, hlast⟩)
      hend hsmall
    rw [hone new hnew hcap] at hhit hpassed
    have hextend : World.extend pre last new ext = pre ++ [last] ++ [new] := by
      simp [World.extend, hm]
    rw [hextend, servingPrefix, servingBlock, if_neg hm, if_neg hm]
    exact Search.ext (by simpa using hpassed) hhit

/-- After a search that failed, the next one ends there: nothing in front of the new block fits
or can be merged. -/
theorem search_extend_of_miss {main post : List Block} {last new : Block} (ext : Bool)
    (hhit : (search sz main).hit = none)
    (hcut : cutAtLast (search sz main).passed = some (pre, last, post)) (hnew : new.free = true)
    (hcap : sz ≤ new.cap) :
    search sz (World.extend pre last new ext) =
      ⟨servingPrefix pre last new, some (servingBlock last new, [])⟩ := by
  have hpassed : (search sz main).passed = (pre ++ [last]) ++ post := by
    rw [(cutAtLast_eq_some hcut).1, List.append_cons]
  have hcoalesce := coalesce_search sz main
  rw [hhit, List.append_nil, hpassed] at hcoalesce
  have hchain := isChain_coalesce main
  rw [hcoalesce] at hchain
  refine search_extend ext (List.isChain_append.mp hchain).1 (fun b hb hfree => ?_) hnew hcap
  have hmem : b ∈ (search sz main).passed := by
    rw [hpassed]
    exact List.mem_append_left post hb
  exact search_passed hmem hfree

end LowLevel.Model
