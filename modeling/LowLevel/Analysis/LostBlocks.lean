import LowLevel.Interface.HeapRuns

/-!
# When a block is lost

`find_good_or_last` moves its `last` only when it passes a free block. When nothing fits
and taken blocks follow the last free one, or none is free at all, the block handed to
`grow_heap` is not the tail of the chain, and `last->next = new` drops what followed it.
A run in which every failing search ends at a free tail, or at the only block of the heap,
loses nothing.
-/

set_option autoImplicit false

namespace LowLevel.Analysis

open LowLevel.Library LowLevel.Model LowLevel.Interface LowLevel.Program.Allocator

variable {s s' : State} {bs bs' : List Block} {w : World}

/-- The blocks reached from `HEAP_START` through `next`. -/
structure HeapChain (s : State) (bs : List Block) : Prop where
  head_eq : headAddr bs 0 = heapStart
  linked : Chain s.mem bs 0
  addr_ne : ∀ b ∈ bs, b.addr ≠ 0

/-- The chain from `HEAP_START` tiles the mapped memory. -/
def NothingLost (s : State) : Prop :=
  ∃ bs, HeapChain s bs ∧
    ∀ x, depth Block.Holds bs x = if Mapped s.mapped x then 1 else 0

/-- The call is one after which the heap is still in one piece: a request finds a free
run, or a free tail, or a single block; a pointer to free has its header on the chain. -/
def KeepsBlocks (s : State) : Call → Prop
  | .malloc query => ∃ bs, HeapChain s bs ∧
      ((∃ c ∈ coalesce bs, c.free = true ∧ max query blockMinCapacity ≤ c.cap) ∨
        (∃ b, bs.getLast? = some b ∧ b.free = true) ∨ bs.length = 1)
  | .free ptr => ∃ bs, HeapChain s bs ∧ ∃ b ∈ bs, ptr = b.addr + offsetofContents

/-! ## The chain is determined by the memory -/

theorem chain_unique {m : Mem} (h : Chain m bs 0) (h' : Chain m bs' 0)
    (hne : ∀ b ∈ bs, b.addr ≠ 0) (hne' : ∀ b ∈ bs', b.addr ≠ 0)
    (hhead : headAddr bs 0 = headAddr bs' 0) : bs = bs' := by
  induction bs generalizing bs' with
  | nil =>
      cases bs' with
      | nil => rfl
      | cons b' bs' => exact absurd hhead.symm (hne' b' (by simp))
  | cons b bs ih =>
      cases bs' with
      | nil => exact absurd hhead (hne b (by simp))
      | cons b' bs' =>
          obtain ⟨hb, hbs⟩ := h
          obtain ⟨hb', hbs'⟩ := h'
          have haddr : b.addr = b'.addr := hhead
          have hcap : b.cap = b'.cap := by
            rw [← hb.capacity_eq, haddr, hb'.capacity_eq]
          have hfree : b.free = b'.free := by
            rw [← hb.isFree_eq, haddr, hb'.isFree_eq]
          have hnext : headAddr bs 0 = headAddr bs' 0 := by
            rw [← hb.next_eq, haddr, hb'.next_eq]
          rw [ih hbs hbs' (fun c hc => hne c (by simp [hc])) (fun c hc => hne' c (by simp [hc]))
            hnext]
          obtain ⟨addr, cap, free⟩ := b
          obtain ⟨addr', cap', free'⟩ := b'
          dsimp only at haddr hcap hfree
          rw [haddr, hcap, hfree]

theorem HeapChain.unique (h : HeapChain s bs) (h' : HeapChain s bs') : bs = bs' :=
  chain_unique h.linked h'.linked h.addr_ne h'.addr_ne (h.head_eq.trans h'.head_eq.symm)

theorem heapChain_of_stands {main : List Block} {det : List (List Block)}
    (h : Stands s (main :: det)) (hroot : headAddr main 0 = heapStart) : HeapChain s main :=
  ⟨hroot, h.linked main (by simp), fun b hb => (h.held (by simp [hb])).addr_ne⟩

/-- The first chain of a heap is the chain from `HEAP_START`. -/
theorem heapChain_of_refines (h : Refines s w) : HeapChain s w.main :=
  heapChain_of_stands h.represents.stands h.represents.layout.root

/-! ## Heaps in one piece -/

/-- Every block is on the chain from `HEAP_START`. -/
def OnePiece (s : State) : Prop := ∃ w, Refines s w ∧ w.det.flatten = []

theorem nothingLost_of_onePiece (h : OnePiece s) : NothingLost s := by
  obtain ⟨w, h, hdet⟩ := h
  refine ⟨w.main, heapChain_of_refines h, fun x => ?_⟩
  have hdepth := h.represents.layout.depth_eq x
  rwa [World.chains, List.flatten_cons, hdet, List.append_nil] at hdepth

theorem onePiece_started (h : Started s) : OnePiece s := by
  obtain ⟨s₀, initial, hmapped, -, hrun⟩ := h
  obtain ⟨len, answers, -, hrefines⟩ := refines_heapInit hmapped hrun
  exact ⟨_, hrefines, rfl⟩

/-- Coalescing keeps the status of the tail. -/
theorem getLast?_coalesce (bs : List Block) :
    (coalesce bs).getLast?.map Block.free = bs.getLast?.map Block.free := by
  induction bs with
  | nil => rfl
  | cons b bs ih =>
      cases bs with
      | nil => rfl
      | cons c cs =>
          obtain ⟨d, ds, hd, -, -⟩ := consRun_eq_cons c (coalesce cs)
          rw [List.getLast?_cons_cons, ← ih]
          show (consRun b (coalesce (c :: cs))).getLast?.map Block.free = _
          rw [show coalesce (c :: cs) = d :: ds from hd]
          simp only [consRun]
          split_ifs with hm
          · cases ds with
            | nil => simp [Block.merge, hm.1, hm.2.1]
            | cons e es => rw [List.getLast?_cons_cons, List.getLast?_cons_cons]
          · rw [List.getLast?_cons_cons]

/-- A failing search with a free tail, or with a single block, ends at the tail. -/
theorem cut_at_tail {sz : ℕ} {main pre post : List Block} {last : Block}
    (hmiss : (search sz main).hit = none)
    (hcut : cutAtLast (search sz main).passed = some (pre, last, post))
    (htail : (∃ b, main.getLast? = some b ∧ b.free = true) ∨ main.length = 1) : post = [] := by
  obtain ⟨hpassed, htaken, -⟩ := cutAtLast_eq_some hcut
  have hcoalesce : coalesce main = pre ++ last :: post := by
    rw [coalesce_search sz main, hmiss, List.append_nil, hpassed]
  rcases htail with ⟨b, hb, hfree⟩ | hone
  · by_contra hne
    -- behind the cut everything is taken, but the tail is free
    have hlast := getLast?_coalesce main
    obtain ⟨c, hc⟩ := Option.ne_none_iff_exists'.mp (mt List.getLast?_eq_none_iff.mp hne)
    have hclast : (pre ++ last :: post).getLast? = some c := by
      rw [show pre ++ last :: post = (pre ++ [last]) ++ post by simp, List.getLast?_append, hc]
      rfl
    rw [hcoalesce, hclast, hb, Option.map_some, Option.map_some, hfree,
      htaken c (List.mem_of_getLast? hc)] at hlast
    cases hlast
  · obtain ⟨b, rfl⟩ := List.length_eq_one_iff.mp hone
    have hlen := congrArg List.length hcoalesce
    simp only [coalesce, consRun, List.length_append, List.length_cons, List.length_nil] at hlen
    exact List.length_eq_zero_iff.mp (by omega)

/-- What the condition says of a heap in one piece. -/
theorem keepsBlocks_malloc {q : ℕ} (h : Refines s w) (hkeep : KeepsBlocks s (.malloc q))
    (hmiss : (search (max q 24) w.main).hit = none) :
    (∃ b, w.main.getLast? = some b ∧ b.free = true) ∨ w.main.length = 1 := by
  obtain ⟨bs, hbs, hcase⟩ := hkeep
  obtain rfl := hbs.unique (heapChain_of_refines h)
  refine hcase.resolve_left fun hrun => ?_
  have hsome := search_hit_isSome_iff.mpr hrun
  rw [show max q blockMinCapacity = max q 24 from rfl, hmiss] at hsome
  cases hsome

/-- A request that keeps the heap in one piece. -/
theorem onePiece_malloc {q : ℕ} (h : Refines s w) (hdet : w.det.flatten = [])
    (hkeep : KeepsBlocks s (.malloc q)) : (w.malloc q).world.det.flatten = [] := by
  rw [show (w.malloc q).world = (w.serve (max q 24)).world from rfl]
  cases hhit : (search (max q 24) w.main).hit with
  | some hit =>
      obtain ⟨b, rest⟩ := hit
      rw [World.serve_of_hit hhit]
      exact hdet
  | none =>
      obtain ⟨pre, last, post, hcut, -, -⟩ := cutAtLast_search h.represents.layout.root_ne hhit
      have hpost := cut_at_tail hhit hcut (keepsBlocks_malloc h hkeep hhit)
      cases hregion : (growth w.mapped w.answers (last.stop % SIZE)
          (World.regionSize (max q 24))).region with
      | none =>
          rw [World.serve_of_refused hhit hcut rfl hregion]
          exact hdet
      | some region =>
          rw [World.serve_of_granted hhit hcut rfl hregion rfl]
          show (post :: w.det).flatten = []
          rw [hpost, List.flatten_cons, hdet, List.append_nil]

/-- **One call** that meets the condition keeps the heap in one piece. -/
theorem OnePiece.step {c : Call} {r : ℕ} (h : OnePiece s) (hkeep : KeepsBlocks s c)
    (hrun : Settles (fun n => c.perform n) s r s') : OnePiece s' := by
  obtain ⟨w, h, hdet⟩ := h
  cases c with
  | malloc q =>
      obtain ⟨s₁, hrun₁, hserves⟩ := settles_malloc q h
      obtain ⟨-, rfl⟩ := hrun.unique hrun₁
      exact ⟨_, hserves.refines, onePiece_malloc h hdet hkeep⟩
  | free p =>
      obtain ⟨bs, hbs, b, hb, rfl⟩ := hkeep
      obtain rfl := hbs.unique (heapChain_of_refines h)
      obtain ⟨s₁, hrun₁, hrefines, -, -⟩ := settles_free (b := b) h (by simp [World.chains, hb])
      have hfree : Settles (fun n => (Call.free (b.addr + 17)).perform n) s 0 s₁ :=
        hrun₁.bind (g := fun _ _ => pure 0) (Settles.of_run rfl)
      obtain ⟨-, rfl⟩ := hrun.unique hfree
      refine ⟨_, hrefines, ?_⟩
      have hnil : ∀ c ∈ w.det, c = [] := List.flatten_eq_nil_iff.mp hdet
      refine List.flatten_eq_nil_iff.mpr fun c hc => ?_
      obtain ⟨d, hd, rfl⟩ := List.mem_map.mp hc
      rw [hnil d hd]
      rfl

/-- A single taken block is not the merge of others. -/
theorem eq_of_coalesce_eq {b : Block} (h : coalesce bs = [b]) (hb : b.free = false) :
    bs = [b] := by
  cases bs with
  | nil => cases h
  | cons c cs =>
      cases hcs : coalesce cs with
      | nil =>
          have hnil : cs = [] := by
            cases cs with
            | nil => rfl
            | cons d ds =>
                obtain ⟨e, es, he, -, -⟩ := consRun_eq_cons d (coalesce ds)
                rw [show coalesce (d :: ds) = e :: es from he] at hcs
                cases hcs
          rw [hnil] at h ⊢
          exact h
      | cons d ds =>
          rw [coalesce, hcs] at h
          simp only [consRun] at h
          split_ifs at h with hm
          · obtain ⟨rfl, -⟩ := List.cons.inj h
            rw [show (c.merge d).free = c.free from rfl, hm.1] at hb
            cases hb
          · cases h

/-- The search for a request ends at the tail of the chain when it fails. -/
def EndsAtTail (s : State) (query : ℕ) : Prop :=
  ∀ b s', Settles (fun n => findGoodOrLast n heapStart (max query blockMinCapacity)) s
      ⟨.reachedEndNotFound, b⟩ s' →
    ∃ bs t, HeapChain s' bs ∧ bs.getLast? = some t ∧ b = t.addr

/-- **The search** of a request ends at the tail, or finds a block, exactly under the
condition. -/
theorem endsAtTail_iff {q : ℕ} (h : OnePiece s) : EndsAtTail s q ↔ KeepsBlocks s (.malloc q) := by
  obtain ⟨w, h, -⟩ := h
  have hmax : max q blockMinCapacity = max q 24 := rfl
  have hroot : headAddr w.main 0 = heapStart := h.layout.root
  obtain ⟨s₁, hrun₁, -, hrep⟩ := settles_findGoodOrLast (max q 24) (fun _ => False) hroot
    (by decide) (fun c _ _ x _ hx => hx) h.represents.stands
  cases hhit : (search (max q 24) w.main).hit with
  | some hit =>
      -- the search succeeds, and the condition says that it does
      refine ⟨fun _ => ⟨w.main, heapChain_of_refines h, .inl ?_⟩, fun _ b s' hrun => ?_⟩
      · exact search_hit_isSome_iff.mp (by rw [hmax, hhit]; rfl)
      · rw [hmax] at hrun
        have hresult := (hrun.unique hrun₁).1
        simp [searchResult, hhit] at hresult
  | none =>
      obtain ⟨pre, last, post, hcut, hpassed, hlast⟩ := cutAtLast_search h.layout.root_ne hhit
      rw [hroot] at hlast
      have hchain : (search (max q 24) w.main).chain = pre ++ last :: post := by
        simp [Search.chain, hhit, hpassed]
      have hcoalesce : coalesce w.main = pre ++ last :: post := by
        rw [coalesce_search (max q 24) w.main, hhit, List.append_nil, hpassed]
      rw [hchain] at hrep
      rw [hlast] at hrun₁
      have hheap : HeapChain s₁ (pre ++ last :: post) :=
        heapChain_of_stands hrep (by rw [← hchain, headAddr_search, hroot])
      constructor
      · intro htail
        obtain ⟨bs, t, hbs, ht, haddr⟩ := htail last.addr s₁ (by rw [hmax]; exact hrun₁)
        obtain rfl := hbs.unique hheap
        -- addresses on a chain differ, so the block called last is the tail
        have hpost : post = [] := by
          by_contra hne
          have hmem : t ∈ post := by
            rw [show pre ++ last :: post = (pre ++ [last]) ++ post by simp,
              List.getLast?_append_of_ne_nil _ hne] at ht
            exact List.mem_of_getLast? ht
          have hnodup := hrep.sound.nodup_addr
          simp only [List.flatten_cons, List.map_append, List.map_cons, List.append_assoc] at hnodup
          have hin : last.addr ∈ (post.map Block.addr) := haddr ▸ List.mem_map_of_mem hmem
          have hcons := (List.nodup_append.mp hnodup).2.1
          exact (List.nodup_cons.mp hcons).1 (List.mem_append_left _ hin)
        subst hpost
        refine ⟨w.main, heapChain_of_refines h, .inr ?_⟩
        rcases hfree : last.free with _ | _
        · have hpre : pre = [] := (cutAtLast_free_or_first hcut).resolve_left (by simp [hfree])
          rw [hpre, List.nil_append] at hcoalesce
          rw [eq_of_coalesce_eq hcoalesce hfree]
          exact .inr rfl
        · have hstatus := getLast?_coalesce w.main
          rw [hcoalesce, List.getLast?_append_cons, List.getLast?_singleton, Option.map_some, hfree]
            at hstatus
          obtain ⟨b, hb, hbfree⟩ := Option.map_eq_some_iff.mp hstatus.symm
          exact .inl ⟨b, hb, hbfree⟩
      · intro hkeep b s' hrun
        rw [hmax] at hrun
        obtain ⟨hresult, rfl⟩ := hrun.unique hrun₁
        have hpost := cut_at_tail hhit hcut (keepsBlocks_malloc h hkeep hhit)
        rw [hpost] at hheap
        exact ⟨pre ++ [last], last, hheap, by simp, (BlockSearchResult.mk.inj hresult).2⟩

/-- **No block is lost** in a run whose calls all meet the condition: in every state
reached the chain from `HEAP_START` tiles the mapped memory, and the block that a failing
search hands to `grow_heap` is the tail of the chain, for a request that meets the
condition and for no other. -/
theorem nothing_lost {s₀ s : State} {live : List Allocation} {trace : List Event}
    (hstart : Started s₀) (hrun : Run KeepsBlocks s₀ [] trace s live) :
    NothingLost s ∧ ∀ query, EndsAtTail s query ↔ KeepsBlocks s (.malloc query) := by
  have hpiece : OnePiece s := by
    refine hrun.preserves (I := fun s _ => OnePiece s) ?_ (onePiece_started hstart)
    intro s live e s₁ h _ hkeep htakes
    exact h.step hkeep htakes.settles
  exact ⟨nothingLost_of_onePiece hpiece, fun _ => endsAtTail_iff hpiece⟩

/-- A fresh heap after one request. -/
theorem nothing_lost_one_request : ∃ s live, NothingLost s ∧ live ≠ [] ∧
    ∃ e, Run KeepsBlocks (startedProcess []) [] [e] s live := by
  have h := tracks_startedProcess []
  obtain ⟨s, htakes, -, -⟩ := settles_call h (c := .malloc 100)
    (by unfold Call.Admissible; decide) (by unfold FitsSize; decide)
  have hkeep : KeepsBlocks (startedProcess []) (.malloc 100) :=
    ⟨_, heapChain_of_refines h.refines, .inr (.inr rfl)⟩
  have hrun : Run KeepsBlocks (startedProcess []) [] _ s _ :=
    .step (by unfold Call.Admissible; decide) hkeep htakes (.done _ _)
  refine ⟨s, _, (nothing_lost (started_startedProcess []) hrun).1, ?_, _, hrun⟩
  simp [doCall, World.malloc, World.serve, startedWorld, search, absorb, regionMinSize, SIZE,
    heapStart, Call.after]

/-! ## A run that loses a block -/

/-- The kernel puts the second region behind the first. -/
def secondRegion : List (Option ℕ) := [some (heapStart + regionMinSize)]

/-- Two requests that fill the heap, and a third. -/
def fillingTrace : List Event :=
  [⟨.malloc 24, heapStart + 17, []⟩, ⟨.malloc 8134, heapStart + 58, []⟩,
    ⟨.malloc 100, heapStart + 8209, [⟨heapStart + 41, 8192, true⟩]⟩]

/-- The heap after the first request. -/
def halfFilled : World := ⟨[⟨heapStart, 24, false⟩, ⟨heapStart + 41, 8134, true⟩], [],
  [⟨heapStart, 8192⟩], secondRegion⟩

/-- The heap after the second request. -/
def filled : World := ⟨[⟨heapStart, 24, false⟩, ⟨heapStart + 41, 8134, false⟩], [],
  [⟨heapStart, 8192⟩], secondRegion⟩

/-- The heap after the third request: the second block is on a chain of its own. -/
def cutOff : World := ⟨[⟨heapStart, 24, false⟩, ⟨heapStart + 8192, 100, false⟩,
  ⟨heapStart + 8309, 8058, true⟩], [[⟨heapStart + 41, 8134, false⟩]],
  [⟨heapStart + 8192, 8192⟩, ⟨heapStart, 8192⟩], []⟩

/-- **A taken tail is lost**: both blocks of the heap are taken when it grows, the new
region is linked behind the first, and the second is no longer reached. -/
theorem taken_tail_lost : Started (startedProcess secondRegion) ∧
    ∃ s live, Run (fun _ _ => True) (startedProcess secondRegion) [] fillingTrace s live ∧
      ¬ NothingLost s := by
  refine ⟨started_startedProcess _, ?_⟩
  have h₁ : (startedWorld secondRegion).malloc 24 = ⟨heapStart + 17, halfFilled, []⟩ := by
    simp [halfFilled, World.malloc, World.serve, startedWorld, search, absorb, regionMinSize, SIZE,
      heapStart, Search.allocate, Block.carve]
  have h₂ : halfFilled.malloc 8134 = ⟨heapStart + 58, filled, []⟩ := by
    simp [halfFilled, filled, World.malloc, World.serve, search, absorb, SIZE, heapStart,
      Search.allocate, Block.carve, Search.pass, Block.take]
  have h₃ : filled.malloc 100 = ⟨heapStart + 8209, cutOff, [⟨heapStart + 41, 8192, true⟩]⟩ := by
    simp [filled, cutOff, secondRegion, World.malloc, World.serve, search, absorb, regionMinSize,
      SIZE, heapStart, Search.allocate, Block.carve, Search.pass, cutAtLast, cutAtFree, growth,
      granted, World.extend, World.regionSize, regionActualSize, roundPages, pagesCount,
      getpagesize, sizeMax, Grantable, Block.stop, Block.Mergeable, searchResult]
  obtain ⟨s₁, hrun₁, hserves₁⟩ := settles_malloc 24 (refines_startedProcess secondRegion)
  rw [h₁] at hrun₁ hserves₁
  obtain ⟨s₂, hrun₂, hserves₂⟩ := settles_malloc 8134 hserves₁.refines
  rw [h₂] at hrun₂ hserves₂
  obtain ⟨s₃, hrun₃, hserves₃⟩ := settles_malloc 100 hserves₂.refines
  rw [h₃] at hrun₃ hserves₃
  refine ⟨s₃, _, .step (by unfold Call.Admissible; decide) trivial ⟨hrun₁, hserves₁.requests_eq⟩
    (.step (by unfold Call.Admissible; decide) trivial ⟨hrun₂, hserves₂.requests_eq⟩
    (.step (by unfold Call.Admissible; decide) trivial ⟨hrun₃, hserves₃.requests_eq⟩
    (.done _ _))), ?_⟩
  rintro ⟨bs, hbs, htiles⟩
  obtain rfl := hbs.unique (heapChain_of_refines hserves₃.refines)
  -- the first byte of the second block is mapped and on no block of the chain
  have hbyte := htiles (heapStart + 41)
  rw [hserves₃.refines.mapped_eq, if_pos (by decide)] at hbyte
  exact absurd hbyte (by decide)

end LowLevel.Analysis
