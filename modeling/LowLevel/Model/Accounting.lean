import LowLevel.Model.Memalloc

/-!
# Which blocks are taken

`_malloc` adds one block to the taken ones and `_free` removes one, whatever happens to
the free blocks and the chains. A request is served when a maximal free run is big
enough, or when the region that is asked for is, which it is unless its size wraps.
-/

set_option autoImplicit false

namespace LowLevel.Model

open LowLevel.Library
open LowLevel.Program.Allocator (Mapping Request Grantable SIZE regionActualSize heapStart
  getpagesize pagesCount offsetofContents roundPages regionMinSize sizeMax)

/-! ## Sizes that wrap -/

/-- The request with two headers, rounded up to pages, is below `2 ^ 64`. -/
def NonWrapping (query : ℕ) : Prop :=
  getpagesize * pagesCount (query + 2 * offsetofContents) < SIZE

instance (query : ℕ) : Decidable (NonWrapping query) := inferInstanceAs (Decidable (_ < _))

/-- A minimal request does not wrap. -/
theorem nonWrapping_max {query : ℕ} : NonWrapping (max query 24) ↔ NonWrapping query := by
  unfold NonWrapping pagesCount getpagesize offsetofContents SIZE
  split_ifs <;> omega

/-- No block of a heap holds a request whose size wraps. -/
theorem cap_lt_of_wrapping {query : ℕ} {chains : List (List Block)} {mapped : List Mapping}
    {b : Block} (h : ¬ NonWrapping query) (hlayout : Layout chains mapped)
    (hb : b ∈ chains.flatten) : b.cap < query := by
  have hcap := hlayout.cap_le hb
  unfold NonWrapping pagesCount getpagesize offsetofContents SIZE at h
  unfold heapStart at hcap
  split_ifs at h <;> omega

/-! ## When a search succeeds -/

/-- Putting a block in front makes no run smaller. -/
theorem exists_consRun_ge (b : Block) {c : Block} {bs : List Block}
    (hc : c = b ∨ c ∈ bs) (hfree : c.free = true) :
    ∃ d ∈ consRun b bs, d.free = true ∧ c.cap ≤ d.cap := by
  cases bs with
  | nil =>
      obtain rfl : c = b := by simpa using hc
      exact ⟨c, by simp [consRun], hfree, le_rfl⟩
  | cons e es =>
      simp only [consRun]
      split_ifs with hm
      · have hmerge : b.cap ≤ (b.merge e).cap ∧ e.cap ≤ (b.merge e).cap := by
          simp only [Block.merge]
          omega
        rcases hc with rfl | hc
        · exact ⟨c.merge e, by simp, hfree, hmerge.1⟩
        rcases List.mem_cons.mp hc with rfl | hc
        · exact ⟨b.merge c, by simp, hm.1, hmerge.2⟩
        · exact ⟨c, by simp [hc], hfree, le_rfl⟩
      · exact ⟨c, by simpa using hc, hfree, le_rfl⟩

/-- A free block lies in a maximal run at least as big. -/
theorem exists_coalesce_ge {b : Block} {bs : List Block} (hb : b ∈ bs) (hfree : b.free = true) :
    ∃ c ∈ coalesce bs, c.free = true ∧ b.cap ≤ c.cap := by
  induction bs with
  | nil => cases hb
  | cons d ds ih =>
      rcases List.mem_cons.mp hb with rfl | hb
      · exact exists_consRun_ge b (.inl rfl) hfree
      · obtain ⟨c, hc, hcfree, hcap⟩ := ih hb
        obtain ⟨e, he, hefree, hecap⟩ := exists_consRun_ge d (.inr hc) hcfree
        exact ⟨e, he, hefree, hcap.trans hecap⟩

/-- **A search succeeds** exactly when a maximal free run is big enough. -/
theorem search_hit_isSome_iff {sz : ℕ} {bs : List Block} :
    (search sz bs).hit.isSome ↔ ∃ c ∈ coalesce bs, c.free = true ∧ sz ≤ c.cap := by
  rw [coalesce_search sz bs]
  constructor
  · intro h
    obtain ⟨⟨b, rest⟩, hhit⟩ := Option.isSome_iff_exists.mp h
    obtain ⟨hfree, hfit⟩ := search_hit hhit
    exact ⟨b, by simp [hhit], hfree, hfit⟩
  · rintro ⟨c, hc, hfree, hfit⟩
    by_contra hno
    have hhit : (search sz bs).hit = none := by simpa using hno
    rw [hhit, List.append_nil] at hc
    have := search_passed hc hfree
    omega

/-! ## What a request takes -/

/-- The block that a request takes of the free block `b`. -/
def Block.handed (query : ℕ) (b : Block) : Block :=
  ⟨b.addr, if query + 17 + 24 ≤ b.cap then query else b.cap, false⟩

theorem taken_carve (query : ℕ) (b : Block) : taken (b.carve query) = [b.handed query] := by
  unfold Block.carve Block.handed
  split_ifs <;> rfl

theorem le_handed {query : ℕ} {b : Block} (h : query ≤ b.cap) :
    query ≤ (b.handed query).cap := by
  unfold Block.handed
  dsimp only
  split_ifs <;> omega

/-- A search that succeeds takes one block. -/
theorem taken_allocate_of_hit {sz : ℕ} {bs rest : List Block} {b : Block}
    (hhit : (search sz bs).hit = some (b, rest)) :
    (taken ((search sz bs).allocate sz)).Perm (b.handed sz :: taken bs) := by
  have hchain := taken_search sz bs
  simp only [Search.chain, Search.allocate, hhit, taken_append, taken_carve,
    taken_cons_of_free (search_hit hhit).1] at hchain ⊢
  rw [← hchain]
  exact List.perm_middle

/-- A search that fails takes no block. -/
theorem taken_allocate_of_miss {sz : ℕ} {bs : List Block} (hhit : (search sz bs).hit = none) :
    taken ((search sz bs).allocate sz) = taken bs := by
  have hchain := taken_search sz bs
  simpa only [Search.chain, Search.allocate, hhit] using hchain

namespace World

/-- The request `query` was served: the pointer is the address of a block that is now
taken besides the blocks taken before, and it is big enough. -/
structure Allocated (w : World) (query : ℕ) (o : Outcome) (b : Block) : Prop where
  ptr_eq : o.ptr = b.addr
  taken_perm : (taken o.world.chains.flatten).Perm (b :: taken w.chains.flatten)
  le_cap : query ≤ b.cap

/-- The request was refused: a null pointer, and the same blocks taken. -/
structure Refused (w : World) (o : Outcome) : Prop where
  ptr_eq : o.ptr = 0
  taken_eq : taken o.world.chains.flatten = taken w.chains.flatten

/-- The region that `memalloc` asks for holds the request and two headers. -/
def Roomy (query : ℕ) : Prop := query + 34 ≤ regionSize query

/-- The outcome of a request that finds room. -/
theorem allocated_of_hit {w : World} {query : ℕ} {b : Block} {rest : List Block}
    (hhit : (search query w.main).hit = some (b, rest)) :
    Allocated w query (w.serve query) (b.handed query) := by
  rw [serve_of_hit hhit]
  refine ⟨rfl, ?_, le_handed (search_hit hhit).2⟩
  simp only [chains, List.flatten_cons, taken_append]
  exact (taken_allocate_of_hit hhit).append_right _

section Growing

variable {w : World} {query a : ℕ} {ext : Bool} {last : Block} {pre post : List Block}

/-- Growing the heap takes and releases nothing, and neither does a search. -/
theorem taken_grown (hhit : (search query w.main).hit = none)
    (hpassed : (search query w.main).passed = pre ++ last :: post) (a len : ℕ) (ext : Bool) :
    taken (extend pre last ⟨a, len, true⟩ ext :: post :: w.det).flatten =
      taken w.chains.flatten := by
  have hmain : taken w.main = taken (pre ++ last :: post) := by
    have hchain := taken_search query w.main
    rw [← hchain, Search.chain, hhit, List.append_nil, hpassed]
  simp only [chains, List.flatten_cons, taken_append w.main, hmain]
  rw [taken_append, taken_append, ← List.append_assoc, taken_extend _ _ _ rfl]

/-- A region that is big enough serves the request. -/
theorem allocated_of_granted (hhit : (search query w.main).hit = none)
    (hcut : cutAtLast (search query w.main).passed = some (pre, last, post)) {g : Growth}
    (hg : g = growth w.mapped w.answers (last.stop % SIZE) (regionSize query))
    (hregion : g.region = some (a, ext)) (hroomy : Roomy query) :
    ∃ b, Allocated w query (w.serve query) b := by
  obtain ⟨hpassed, -⟩ := cutAtLast_eq_some hcut
  set bs := extend pre last ⟨a, regionSize query - 17, true⟩ ext with hbs
  unfold Roomy at hroomy
  -- the new block, or the merge of the last block with it, is big enough
  have hbig : ∃ c ∈ bs, c.free = true ∧ query ≤ c.cap := by
    rw [hbs]
    unfold extend
    split_ifs with hm
    · exact ⟨last.merge ⟨a, regionSize query - 17, true⟩, by simp, hm.2.1, by
        simp only [Block.merge]
        omega⟩
    · exact ⟨⟨a, regionSize query - 17, true⟩, by simp, rfl, by dsimp only; omega⟩
  have hsome : (search query bs).hit.isSome := by
    obtain ⟨c, hc, hfree, hcap⟩ := hbig
    obtain ⟨d, hd, hdfree, hdcap⟩ := exists_coalesce_ge hc hfree
    exact search_hit_isSome_iff.mpr ⟨d, hd, hdfree, hcap.trans hdcap⟩
  obtain ⟨⟨b, rest⟩, hhit'⟩ := Option.isSome_iff_exists.mp hsome
  rw [serve_of_granted hhit hcut hg hregion (by rw [← hbs])]
  refine ⟨b.handed query, ?_, ?_, le_handed (search_hit hhit').2⟩
  · simp only [searchResult, hhit']
    rfl
  · rw [← taken_grown hhit hpassed a (regionSize query - 17) ext, ← hbs]
    simp only [chains, List.flatten_cons, taken_append]
    exact (taken_allocate_of_hit hhit').append_right _

/-- A request for which no region is granted is refused. -/
theorem refused_of_refused (hhit : (search query w.main).hit = none)
    (hcut : cutAtLast (search query w.main).passed = some (pre, last, post)) {g : Growth}
    (hg : g = growth w.mapped w.answers (last.stop % SIZE) (regionSize query))
    (hregion : g.region = none) : Refused w (w.serve query) := by
  obtain ⟨hpassed, -⟩ := cutAtLast_eq_some hcut
  rw [serve_of_refused hhit hcut hg hregion]
  refine ⟨rfl, ?_⟩
  have hchain := taken_search query w.main
  rw [Search.chain, hhit, List.append_nil, hpassed] at hchain
  simp only [chains, List.flatten_cons, taken_append w.main, ← hchain, ← taken_append]

end Growing

/-- **A request** is refused or served, when the region asked for would hold it. -/
theorem serve_spec {w : World} {query : ℕ} (h : Layout w.chains w.mapped)
    (hroomy : Roomy query) :
    Refused w (w.serve query) ∨ ∃ b, Allocated w query (w.serve query) b := by
  cases hhit : (search query w.main).hit with
  | some hit =>
      obtain ⟨b, rest⟩ := hit
      exact .inr ⟨_, allocated_of_hit hhit⟩
  | none =>
      obtain ⟨pre, last, post, hcut, -, -⟩ := cutAtLast_search h.root_ne hhit
      cases hregion : (growth w.mapped w.answers (last.stop % SIZE) (regionSize query)).region with
      | none => exact .inl (refused_of_refused hhit hcut rfl hregion)
      | some region => exact .inr (allocated_of_granted hhit hcut rfl hregion hroomy)

/-! ## The size of the region -/

/-- The region asked for holds the request unless its size wraps. -/
theorem roomy_of_nonWrapping {query : ℕ} (h : NonWrapping query) : Roomy query := by
  unfold NonWrapping pagesCount getpagesize offsetofContents SIZE at h
  unfold Roomy regionSize regionActualSize sizeMax roundPages pagesCount getpagesize SIZE
  unfold regionMinSize
  split_ifs at h ⊢ <;> omega

/-- A size that wraps asks for the smallest region. -/
theorem regionSize_of_wrapping {query : ℕ} (hq : query < SIZE) (h : ¬ NonWrapping query) :
    regionSize query = regionMinSize := by
  unfold NonWrapping pagesCount getpagesize offsetofContents SIZE at h
  unfold SIZE at hq
  unfold regionSize regionActualSize sizeMax roundPages pagesCount getpagesize SIZE
  unfold regionMinSize
  split_ifs at h ⊢ <;> omega

/-! ## Releasing -/

theorem taken_releaseAt {addr : ℕ} {bs : List Block} (h : (bs.map Block.addr).Nodup) :
    taken (releaseAt addr bs) = (taken bs).filter (·.addr ≠ addr) := by
  induction bs with
  | nil => rfl
  | cons b bs ih =>
      rw [List.map_cons, List.nodup_cons] at h
      unfold releaseAt
      split_ifs with hb
      · -- no other block of the chain has this address
        have hrest : ∀ c ∈ taken bs, decide (c.addr ≠ addr) = true := by
          intro c hc
          refine decide_eq_true fun heq => h.1 ?_
          rw [hb, ← heq]
          exact List.mem_map_of_mem (mem_taken.mp hc).1
        have hself :
            (taken (b :: bs)).filter (·.addr ≠ addr) = (taken bs).filter (·.addr ≠ addr) := by
          cases hfree : b.free with
          | true => rw [taken_cons_of_free hfree]
          | false =>
              rw [taken_cons_of_taken hfree, List.filter_cons_of_neg (by simpa using hb)]
        rw [taken_absorb (b := b.release) rfl, hself, List.filter_eq_self.mpr hrest]
      · cases hfree : b.free with
        | true => rw [taken_cons_of_free hfree, taken_cons_of_free hfree, ih h.2]
        | false =>
            rw [taken_cons_of_taken hfree, taken_cons_of_taken hfree, ih h.2,
              List.filter_cons_of_pos (by simpa using hb)]

/-- Releasing a block of sound chains takes it out of the taken ones. -/
theorem taken_map_releaseAt {chains : List (List Block)} {addr : ℕ}
    (h : (chains.flatten.map Block.addr).Nodup) :
    taken (chains.map (releaseAt addr)).flatten =
      (taken chains.flatten).filter (·.addr ≠ addr) := by
  induction chains with
  | nil => rfl
  | cons c cs ih =>
      rw [List.flatten_cons, List.map_append, List.nodup_append] at h
      rw [List.map_cons, List.flatten_cons, List.flatten_cons, taken_append, taken_append,
        List.filter_append, taken_releaseAt h.1, ih h.2.1]

/-- **Releasing** a block takes it out of the taken ones. -/
theorem taken_release {w : World} {addr : ℕ} (h : Layout w.chains w.mapped) :
    taken (w.release addr).chains.flatten =
      (taken w.chains.flatten).filter (·.addr ≠ addr) :=
  taken_map_releaseAt h.sound.nodup_addr

end World

end LowLevel.Model
