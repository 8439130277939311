import LowLevel.Model.FirstFit

/-!
# `_malloc` and `_free` on block lists

The allocator as a state machine over block lists: a `World` is the chain from
`HEAP_START`, the chains cut off from it, what is mapped and what `mmap` will answer.
`World.memalloc` searches, and when nothing fits asks for a region behind the block that
`find_good_or_last` calls last, links the region behind that block and searches again.
-/

set_option autoImplicit false

namespace LowLevel.Model

open LowLevel.Library
open LowLevel.Program.Allocator (Mapping Request Grantable SIZE regionActualSize heapStart
  sizeMax regionMinSize)

/-- The answer of the next call of `mmap`. -/
def granted (mapped : List Mapping) (answers : List (Option ℕ)) (len : ℕ) : Option ℕ :=
  match answers.head? with
  | some (some a) => if Grantable mapped a len then some a else none
  | _ => none

/-- What asking for a region gives: its address and whether it was the first answer, the
calls made, and the answers left. -/
structure Growth where
  region : Option (ℕ × Bool)
  requests : List Request
  answers : List (Option ℕ)

/-- Ask for `len` bytes at `addr`, then anywhere. -/
def growth (mapped : List Mapping) (answers : List (Option ℕ)) (addr len : ℕ) : Growth :=
  match granted mapped answers len with
  | some a => ⟨some (a, true), [⟨addr, len, true⟩], answers.tail⟩
  | none =>
      ⟨(granted mapped answers.tail len).map (·, false),
        [⟨addr, len, true⟩, ⟨addr, len, false⟩], answers.tail.tail⟩

/-- What the kernel hands out was free to grant. -/
theorem grantable_of_granted {mapped : List Mapping} {answers : List (Option ℕ)} {len a : ℕ}
    (h : granted mapped answers len = some a) : Grantable mapped a len := by
  unfold granted at h
  split at h
  · split_ifs at h with hg
    exact Option.some.inj h ▸ hg
  · cases h

/-- A region that was granted was free to grant. -/
theorem grantable_of_growth {mapped : List Mapping} {answers : List (Option ℕ)}
    {addr len a : ℕ} {ext : Bool} (h : (growth mapped answers addr len).region = some (a, ext)) :
    Grantable mapped a len := by
  unfold growth at h
  split at h
  · rename_i hfirst
    obtain ⟨rfl, -⟩ := Prod.ext_iff.mp (Option.some.inj h)
    exact grantable_of_granted hfirst
  · obtain ⟨a', ha', heq⟩ := Option.map_eq_some_iff.mp h
    obtain ⟨rfl, -⟩ := Prod.ext_iff.mp heq
    exact grantable_of_granted ha'

/-- A region takes at least two pages. -/
theorem regionMinSize_le (query : ℕ) : 8192 ≤ regionActualSize query := by
  unfold regionActualSize sizeMax regionMinSize
  split_ifs <;> omega

/-- A region is covered by the one block that is made of it. -/
theorem holds_region_iff {a len : ℕ} (hlen : 17 ≤ len) (x : ℕ) :
    (⟨a, len - 17, true⟩ : Block).Holds x ↔ (⟨a, len⟩ : Mapping).Holds x := by
  unfold Block.Holds Mapping.Holds
  dsimp only
  omega

/-- The blocks after a region was linked: the one of the region, and those there were. -/
theorem mem_linked {pre post : List Block} {det : List (List Block)} {last new b : Block}
    (hb : b ∈ ((pre ++ [last, new]) :: post :: det).flatten) :
    b = new ∨ b ∈ ((pre ++ last :: post) :: det).flatten := by
  simp only [List.flatten_cons, List.mem_append, List.mem_cons, List.not_mem_nil,
    or_false] at hb ⊢
  tauto

/-- What a free range of memory holds is not mapped. -/
theorem not_mapped_of_grantable {mapped : List Mapping} {a len x : ℕ}
    (hg : Grantable mapped a len) (hlo : a ≤ x) (hhi : x < a + len) :
    ¬ Program.Allocator.Mapped mapped x := by
  rintro ⟨m, hm, hmx⟩
  have hapart := hg.2.2.2 m hm
  unfold Mapping.Holds at hmx
  omega

/-- One block on the first mapping. -/
theorem Layout.start {len : ℕ} (hlen : 41 ≤ len) (hhigh : heapStart + len ≤ 2 ^ 64) :
    Layout [[⟨heapStart, len - 17, true⟩]] [⟨heapStart, len⟩] := by
  have hone := fun x => holds_region_iff (a := heapStart) (show 17 ≤ len by omega) x
  refine ⟨fun x => ?_, fun x => ?_, ?_, ?_, ?_, ?_, rfl⟩
  · simp only [List.flatten_cons, List.flatten_nil, List.append_nil, depth_cons, depth_nil, hone]
  · rw [depth_cons, depth_nil]
    split_ifs <;> omega
  · simp only [List.mem_singleton, forall_eq]
    omega
  · simp [heapStart]
  · simp only [List.flatten_cons, List.flatten_nil, List.append_nil, List.mem_singleton,
      forall_eq]
    omega
  · simp only [List.flatten_cons, List.flatten_nil, List.append_nil, List.mem_singleton,
      forall_eq]
    omega

/-- A new mapping that meets no old one, with one block on it linked behind `last`; what
followed `last` becomes a chain of its own. -/
theorem Layout.grow {pre post : List Block} {det : List (List Block)} {last : Block}
    {mapped : List Mapping} {a len : ℕ} (h : Layout ((pre ++ last :: post) :: det) mapped)
    (hg : Grantable mapped a len) (hlen : 41 ≤ len) :
    Layout ((pre ++ [last, ⟨a, len - 17, true⟩]) :: post :: det) (⟨a, len⟩ :: mapped) := by
  have hpos := hg.1
  have hpage := hg.2.1
  have hhigh := hg.2.2.1
  unfold Program.Allocator.getpagesize at hpage
  unfold SIZE at hhigh
  have hnew := fun x => holds_region_iff (a := a) (show 17 ≤ len by omega) x
  refine ⟨fun x => ?_, fun x => ?_, fun m hm => ?_, fun b hb => ?_, fun b hb => ?_,
    fun b hb => ?_, ?_⟩
  · have htiling := h.tiling x
    simp only [List.flatten_cons, depth_append, depth_cons, depth_nil, hnew] at htiling ⊢
    omega
  · rw [depth_cons]
    have hsingle := h.single x
    by_cases hx : (⟨a, len⟩ : Mapping).Holds x
    · -- no old mapping holds a byte of the new one
      have hzero : ¬ 0 < depth Mapping.Holds mapped x := fun hlt =>
        not_mapped_of_grantable hg hx.1 hx.2 (depth_pos_iff.mp hlt)
      rw [if_pos hx]
      omega
    · rw [if_neg hx]
      omega
  · rcases List.mem_cons.mp hm with rfl | hm
    · dsimp only
      omega
    · exact h.sized m hm
  · rcases mem_linked hb with rfl | hb
    · dsimp only
      omega
    · exact h.low b hb
  · rcases mem_linked hb with rfl | hb
    · dsimp only
      omega
    · exact h.cap b hb
  · rcases mem_linked hb with rfl | hb
    · dsimp only
      omega
    · exact h.high b hb
  · have hroot := h.root
    simp only [List.headD_cons, headAddr_append, headAddr_cons] at hroot ⊢
    exact hroot

/-- A region linked behind `last` is sound; what followed `last` becomes a chain of its own. -/
theorem Sound.grow {pre post : List Block} {det : List (List Block)} {last : Block}
    {mapped : List Mapping} {a len : ℕ} (h : Sound ((pre ++ last :: post) :: det) mapped)
    (hg : Grantable mapped a len) (hlen : 17 ≤ len) :
    Sound ((pre ++ [last, ⟨a, len - 17, true⟩]) :: post :: det) (⟨a, len⟩ :: mapped) := by
  have hhigh := hg.2.2.1
  unfold SIZE at hhigh
  have hnew := fun x => holds_region_iff (a := a) hlen x
  refine ⟨fun x => ?_, fun b hb x hx => ?_, fun b hb => ?_, fun b hb => ?_⟩
  · have hsingle := h.single x
    simp only [List.flatten_cons, depth_append, depth_cons, depth_nil] at hsingle ⊢
    by_cases hx : (⟨a, len - 17, true⟩ : Block).Holds x
    · -- no old block holds a byte of the new one
      have hzero : ¬ 0 < depth Block.Holds ((pre ++ last :: post) :: det).flatten x := by
        intro hpos
        obtain ⟨b, hb, hbx⟩ := depth_pos_iff.mp hpos
        obtain ⟨hlo, hhi⟩ := (hnew x).mp hx
        exact not_mapped_of_grantable hg hlo hhi (h.mapped b hb x hbx)
      simp only [List.flatten_cons, depth_append, depth_cons] at hzero
      rw [if_pos hx]
      omega
    · rw [if_neg hx]
      omega
  · rcases mem_linked hb with rfl | hb
    · exact ⟨⟨a, len⟩, by simp, (hnew x).mp hx⟩
    · obtain ⟨m, hm, hmx⟩ := h.mapped b hb x hx
      exact ⟨m, List.mem_cons_of_mem _ hm, hmx⟩
  · rcases mem_linked hb with rfl | hb
    · exact hg.1
    · exact h.low b hb
  · rcases mem_linked hb with rfl | hb
    · dsimp only
      omega
    · exact h.high b hb

/-- The chain cut at its last free block. -/
def cutAtFree : List Block → Option (List Block × Block × List Block)
  | [] => none
  | b :: bs =>
      match cutAtFree bs with
      | some (pre, l, post) => some (b :: pre, l, post)
      | none => if b.free then some ([], b, bs) else none

/-- The chain cut at the block `find_good_or_last` calls last: its last free block, or
its first block when none is free. -/
def cutAtLast (bs : List Block) : Option (List Block × Block × List Block) :=
  match cutAtFree bs, bs with
  | some c, _ => some c
  | none, b :: bs => some ([], b, bs)
  | none, [] => none

theorem cutAtFree_eq_none {bs : List Block} (h : cutAtFree bs = none) :
    (∀ b ∈ bs, b.free = false) ∧ ∀ l, lastFree bs l = l := by
  induction bs with
  | nil => simp [lastFree]
  | cons b bs ih =>
      unfold cutAtFree at h
      split at h
      · cases h
      · rename_i hnone
        split_ifs at h with hb
        have hbf : b.free = false := by simpa using hb
        obtain ⟨htaken, hlast⟩ := ih hnone
        exact ⟨by simpa [hbf] using htaken, fun l => by simp [lastFree, hbf, hlast]⟩

theorem cutAtFree_eq_some {bs pre post : List Block} {l : Block}
    (h : cutAtFree bs = some (pre, l, post)) :
    bs = pre ++ l :: post ∧ l.free = true ∧ (∀ b ∈ post, b.free = false) ∧
      ∀ d, lastFree bs d = l.addr := by
  induction bs generalizing pre with
  | nil => simp [cutAtFree] at h
  | cons b bs ih =>
      unfold cutAtFree at h
      split at h
      · rename_i pre' l' post' hsome
        cases h
        obtain ⟨hbs, hfree, hpost, hlast⟩ := ih hsome
        exact ⟨by rw [hbs]; rfl, hfree, hpost, fun d => hlast _⟩
      · rename_i hnone
        split_ifs at h with hb
        cases h
        obtain ⟨htaken, hlast⟩ := cutAtFree_eq_none hnone
        exact ⟨rfl, hb, htaken, fun d => by simp [lastFree, hb, hlast]⟩

/-- Cutting a chain at its last block gives the chain back, and names the block that
`find_good_or_last` hands to `grow_heap`. Behind the cut everything is taken. -/
theorem cutAtLast_eq_some {bs pre post : List Block} {l : Block}
    (h : cutAtLast bs = some (pre, l, post)) :
    bs = pre ++ l :: post ∧ (∀ b ∈ post, b.free = false) ∧
      lastFree bs (headAddr bs 0) = l.addr := by
  unfold cutAtLast at h
  split at h
  · rename_i c hc
    cases h
    obtain ⟨hbs, -, hpost, hlast⟩ := cutAtFree_eq_some hc
    exact ⟨hbs, hpost, hlast _⟩
  · rename_i b bs' hnone
    cases h
    obtain ⟨htaken, hlast⟩ := cutAtFree_eq_none hnone
    exact ⟨rfl, fun b hb => htaken b (by simp [hb]), hlast _⟩
  · cases h

/-- The block a chain is cut at is free, or the first one. -/
theorem cutAtLast_free_or_first {bs pre post : List Block} {l : Block}
    (h : cutAtLast bs = some (pre, l, post)) : l.free = true ∨ pre = [] := by
  unfold cutAtLast at h
  split at h
  · rename_i c hc
    cases h
    exact .inl (cutAtFree_eq_some hc).2.1
  · cases h
    exact .inr rfl
  · cases h

/-- A chain that is not empty can be cut. -/
theorem cutAtLast_isSome {bs : List Block} (h : bs ≠ []) :
    ∃ pre l post, cutAtLast bs = some (pre, l, post) := by
  unfold cutAtLast
  split
  · exact ⟨_, _, _, rfl⟩
  · exact ⟨_, _, _, rfl⟩
  · exact absurd rfl h

/-- The block that a failed search calls last is a block of the chain. -/
theorem cutAtLast_search {sz : ℕ} {main : List Block} (hne : headAddr main 0 ≠ 0)
    (hhit : (search sz main).hit = none) :
    ∃ pre last post, cutAtLast (search sz main).passed = some (pre, last, post) ∧
      (search sz main).passed = pre ++ last :: post ∧
      searchResult (search sz main) (headAddr main 0) = ⟨.reachedEndNotFound, last.addr⟩ := by
  have hchain : (search sz main).chain = (search sz main).passed := by
    simp [Search.chain, hhit]
  have hhead : headAddr (search sz main).passed 0 = headAddr main 0 := by
    rw [← hchain, headAddr_search]
  have hpassed : (search sz main).passed ≠ [] := by
    intro hnil
    rw [hnil] at hhead
    exact hne hhead.symm
  obtain ⟨pre, last, post, hcut⟩ := cutAtLast_isSome hpassed
  obtain ⟨heq, -, hlast⟩ := cutAtLast_eq_some hcut
  rw [hhead] at hlast
  refine ⟨pre, last, post, hcut, heq, ?_⟩
  simp [searchResult, hhit, hlast]

/-- The chain after a search whose block is handed out. -/
def Search.allocate (sz : ℕ) (r : Search) : List Block :=
  r.passed ++ match r.hit with
    | none => []
    | some (b, rest) => b.carve sz ++ rest

/-- A search that fails leaves the start of the chain. -/
theorem headAddr_missed {sz : ℕ} {main pre post : List Block} {last : Block}
    (hhit : (search sz main).hit = none)
    (hcut : cutAtLast (search sz main).passed = some (pre, last, post)) (n : ℕ) :
    headAddr (pre ++ last :: post) n = headAddr main n := by
  have hsearch := headAddr_search sz main n
  rwa [Search.chain, hhit, List.append_nil, (cutAtLast_eq_some hcut).1] at hsearch

/-- What merging and carving keep, handing a block out keeps. -/
theorem allocate_preserves {I : List (List Block) → Prop} {main : List Block}
    {det : List (List Block)} {sz : ℕ}
    (hmerge : ∀ {p : Place} {b c : Block}, b.Mergeable c → I (p.fill [b, c]) →
      I (p.fill [b.merge c]))
    (hcarve : ∀ {p : Place} {b : Block}, I (p.fill [b]) → I (p.fill (b.carve sz)))
    (h : I (main :: det)) : I ((search sz main).allocate sz :: det) := by
  have hsearch := search_preserves_main hmerge sz h
  cases hhit : (search sz main).hit with
  | none => simpa [Search.chain, Search.allocate, hhit] using hsearch
  | some hit =>
      have hplace : I ((⟨[], (search sz main).passed, hit.2, det⟩ : Place).fill [hit.1]) := by
        simpa [Place.fill, Search.chain, hhit] using hsearch
      simpa [Place.fill, Search.allocate, hhit] using hcarve hplace

theorem headAddr_carve (sz : ℕ) (b : Block) (n : ℕ) : headAddr (b.carve sz) n = b.addr := by
  unfold Block.carve
  split_ifs
  · rfl
  · rfl

/-- Handing a block out leaves the start of the chain. -/
theorem headAddr_allocate (sz : ℕ) (main : List Block) (n : ℕ) :
    headAddr ((search sz main).allocate sz) n = headAddr main n := by
  rw [← headAddr_search sz main n, Search.allocate, Search.chain]
  cases (search sz main).hit with
  | none => rfl
  | some hit => simp only [headAddr_append, headAddr_carve, headAddr_cons]

/-- Handing a block out keeps the layout. -/
theorem layout_allocate {main : List Block} {det : List (List Block)} {mapped : List Mapping}
    {sz : ℕ} (h : Layout (main :: det) mapped) (hsz : 24 ≤ sz) :
    Layout ((search sz main).allocate sz :: det) mapped :=
  allocate_preserves (I := fun chains => Layout chains mapped) (fun hm h => h.merge hm.2.2)
    (fun h => h.carve hsz) h

/-- A request that fits a block of a heap does not wrap. -/
theorem add_lt_of_hit {main : List Block} {det : List (List Block)} {mapped : List Mapping}
    {sz : ℕ} (h : Sound (main :: det) mapped) (hroot : headAddr main 0 = heapStart)
    {hit : Block × List Block} (hhit : (search sz main).hit = some hit) : sz + 41 < 2 ^ 64 := by
  have hsearch := search_preserves_main (I := fun chains => Sound chains mapped)
    (fun hm h => h.merge hm.2.2) sz h
  have hmem : hit.1 ∈ ((search sz main).chain :: det).flatten := by
    simp [Search.chain, hhit]
  have hcap := hsearch.cap_le (by rw [headAddr_search, hroot]) hmem
  have hfit := (search_hit hhit).2
  unfold heapStart at hcap
  omega

/-- The allocator's state, on block lists. -/
structure World where
  main : List Block
  det : List (List Block)
  mapped : List Mapping
  answers : List (Option ℕ)

namespace World

/-- All chains. -/
def chains (w : World) : List (List Block) := w.main :: w.det

/-- The outcome of a call: the pointer returned, the new state, the calls of `mmap`. -/
structure Outcome where
  ptr : ℕ
  world : World
  requests : List Request

/-- The size of the region `memalloc` asks for when nothing fits `query`. -/
def regionSize (query : ℕ) : ℕ := regionActualSize (((query + 17) % SIZE + 17) % SIZE)

/-- The chain with a new region linked behind `last`, merged with it when `ext` says that
the region was granted where it was asked for. -/
def extend (pre : List Block) (last new : Block) (ext : Bool) : List Block :=
  pre ++ if ext = true ∧ last.Mergeable new then [last.merge new] else [last, new]

/-- What merging keeps, linking a region keeps. -/
theorem extend_preserves {I : List (List Block) → Prop} {pre post : List Block}
    {det : List (List Block)} {last new : Block}
    (hmerge : ∀ {p : Place} {b c : Block}, b.Mergeable c → I (p.fill [b, c]) →
      I (p.fill [b.merge c]))
    (h : I ((pre ++ [last, new]) :: post :: det)) (ext : Bool) :
    I (extend pre last new ext :: post :: det) := by
  unfold extend
  split_ifs with hm
  · have hpair : I ((⟨[], pre, [], post :: det⟩ : Place).fill [last, new]) := by
      simpa [Place.fill] using h
    simpa [Place.fill] using hmerge hm.2 hpair
  · exact h

theorem headAddr_extend (pre post : List Block) (last new : Block) (ext : Bool) (n : ℕ) :
    headAddr (extend pre last new ext) n = headAddr (pre ++ last :: post) n := by
  unfold extend
  rw [headAddr_append, headAddr_append]
  split_ifs
  · rfl
  · rfl

/-- Linking a region behind `last` changes no taken block, once what followed `last` is
counted with the chain that it becomes. -/
theorem taken_extend (pre post : List Block) (last : Block) {new : Block}
    (hnew : new.free = true) (ext : Bool) :
    taken (extend pre last new ext) ++ taken post = taken (pre ++ last :: post) := by
  have hone : taken (extend pre last new ext) = taken pre ++ taken [last] := by
    unfold extend
    rw [taken_append]
    split_ifs with hm
    · have hmerge : (last.merge new).free = true := hm.2.1
      rw [taken_cons_of_free hmerge, taken_cons_of_free hm.2.1]
    · have hnone : taken [new] = [] := taken_cons_of_free hnew []
      rw [show [last, new] = [last] ++ [new] from rfl, taken_append, hnone, List.append_nil]
  rw [hone, List.append_assoc, ← taken_append, ← taken_append]
  rfl

/-- `memalloc` from `HEAP_START` for a request of at least the minimal capacity. -/
def serve (query : ℕ) (w : World) : Outcome :=
  let r := search query w.main
  match r.hit, cutAtLast r.passed with
  | some (b, _), _ => ⟨b.addr, { w with main := r.allocate query }, []⟩
  | none, none => ⟨0, w, []⟩
  | none, some (pre, last, post) =>
      let len := regionSize query
      let g := growth w.mapped w.answers (last.stop % SIZE) len
      match g.region with
      | none => ⟨0, { w with main := r.passed, answers := g.answers }, g.requests⟩
      | some (a, ext) =>
          let r' := search query (extend pre last ⟨a, len - 17, true⟩ ext)
          ⟨(searchResult r' heapStart).block,
            ⟨r'.allocate query, post :: w.det, ⟨a, len⟩ :: w.mapped, g.answers⟩, g.requests⟩

/-- Linking a region behind a block is sound. -/
theorem sound_extend {pre post : List Block} {det : List (List Block)} {last : Block}
    {mapped : List Mapping} {a len : ℕ} (h : Sound ((pre ++ last :: post) :: det) mapped)
    (hg : Grantable mapped a len) (hlen : 17 ≤ len) (ext : Bool) :
    Sound (extend pre last ⟨a, len - 17, true⟩ ext :: post :: det) (⟨a, len⟩ :: mapped) :=
  extend_preserves (I := fun chains => Sound chains (⟨a, len⟩ :: mapped))
    (fun hm h => h.merge hm.2.2) (h.grow hg hlen) ext

section Serve

variable {w : World} {query a : ℕ} {ext : Bool} {b last : Block} {rest pre post : List Block}

/-- `serve` when a block fits. -/
theorem serve_of_hit (hhit : (search query w.main).hit = some (b, rest)) :
    w.serve query =
      ⟨b.addr, { w with main := (search query w.main).allocate query }, []⟩ := by
  simp only [serve, hhit]

/-- `serve` when nothing fits and `mmap` refuses. -/
theorem serve_of_refused (hhit : (search query w.main).hit = none)
    (hcut : cutAtLast (search query w.main).passed = some (pre, last, post)) {g : Growth}
    (hg : g = growth w.mapped w.answers (last.stop % SIZE) (regionSize query))
    (hregion : g.region = none) :
    w.serve query = ⟨0, { w with main := pre ++ last :: post, answers := g.answers },
      g.requests⟩ := by
  obtain ⟨hpassed, -⟩ := cutAtLast_eq_some hcut
  simp only [serve, hhit, hcut, ← hg, hregion, ← hpassed]

/-- `serve` when nothing fits and a region is granted. -/
theorem serve_of_granted (hhit : (search query w.main).hit = none)
    (hcut : cutAtLast (search query w.main).passed = some (pre, last, post)) {g : Growth}
    (hg : g = growth w.mapped w.answers (last.stop % SIZE) (regionSize query))
    (hregion : g.region = some (a, ext)) {r : Search}
    (hr : r = search query (extend pre last ⟨a, regionSize query - 17, true⟩ ext)) :
    w.serve query = ⟨(searchResult r heapStart).block,
      ⟨r.allocate query, post :: w.det, ⟨a, regionSize query⟩ :: w.mapped, g.answers⟩,
      g.requests⟩ := by
  simp only [serve, hhit, hcut, ← hg, hregion, ← hr]

end Serve

/-- Linking a region behind a block keeps the layout. -/
theorem layout_extend {pre post : List Block} {det : List (List Block)} {last : Block}
    {mapped : List Mapping} {a len : ℕ} (h : Layout ((pre ++ last :: post) :: det) mapped)
    (hg : Grantable mapped a len) (hlen : 41 ≤ len) (ext : Bool) :
    Layout (extend pre last ⟨a, len - 17, true⟩ ext :: post :: det) (⟨a, len⟩ :: mapped) :=
  extend_preserves (I := fun chains => Layout chains (⟨a, len⟩ :: mapped))
    (fun hm h => h.merge hm.2.2) (h.grow hg hlen) ext

/-- **A request** keeps the layout. -/
theorem layout_serve {w : World} {query : ℕ} (h : Layout w.chains w.mapped)
    (hquery : 24 ≤ query) :
    Layout (w.serve query).world.chains (w.serve query).world.mapped := by
  have hfirst : Layout ((search query w.main).allocate query :: w.det) w.mapped :=
    layout_allocate h hquery
  cases hhit : (search query w.main).hit with
  | some hit =>
      rw [serve_of_hit hhit]
      exact hfirst
  | none =>
      obtain ⟨pre, last, post, hcut, hpassed, -⟩ := cutAtLast_search h.root_ne hhit
      simp only [Search.allocate, hhit, List.append_nil, hpassed] at hfirst
      cases hregion : (growth w.mapped w.answers (last.stop % SIZE) (regionSize query)).region with
      | none =>
          rw [serve_of_refused hhit hcut rfl hregion]
          exact hfirst
      | some region =>
          rw [serve_of_granted hhit hcut rfl hregion rfl]
          exact layout_allocate (layout_extend hfirst (grantable_of_growth hregion)
            (le_trans (by norm_num) (regionMinSize_le _)) region.2) hquery

/-- `_malloc`. -/
def malloc (query : ℕ) (w : World) : Outcome :=
  let o := w.serve (max query 24)
  { o with ptr := if o.ptr = 0 then 0 else (o.ptr + 17) % SIZE }

/-- A chain with the block at `addr` marked free and merged forward. -/
def releaseAt (addr : ℕ) : List Block → List Block
  | [] => []
  | b :: bs =>
      if b.addr = addr then (absorb b.release bs).1 :: (absorb b.release bs).2
      else b :: releaseAt addr bs

theorem headAddr_releaseAt (addr : ℕ) (bs : List Block) (n : ℕ) :
    headAddr (releaseAt addr bs) n = headAddr bs n := by
  cases bs with
  | nil => rfl
  | cons b bs =>
      rw [releaseAt]
      split_ifs
      · exact absorb_addr b.release bs
      · rfl

/-- A chain without a block at `addr` stays as it is. -/
theorem releaseAt_of_forall_ne {addr : ℕ} {bs : List Block} (h : ∀ b ∈ bs, b.addr ≠ addr) :
    releaseAt addr bs = bs := by
  induction bs with
  | nil => rfl
  | cons b bs ih =>
      rw [releaseAt, if_neg (h b (by simp)), ih fun c hc => h c (by simp [hc])]

/-- Releasing the block at a place edits that place. -/
theorem releaseAt_fill {p : Place} {b : Block} {mapped : List Mapping}
    (h : Sound (p.fill [b]) mapped) :
    (p.fill [b]).map (releaseAt b.addr) =
      (⟨p.before, p.pre, (absorb b.release p.post).2, p.after⟩ : Place).fill
        [(absorb b.release p.post).1] := by
  have hne : ∀ c ∈ (p.fill []).flatten, c.addr ≠ b.addr := by
    intro c hc heq
    refine h.apart (b := b) (by simp) hc (x := b.addr) ⟨le_rfl, by omega⟩ ?_
    exact ⟨heq.le, by omega⟩
  have hother : ∀ cs : List (List Block), (∀ c ∈ cs, ∀ d ∈ c, d ∈ (p.fill []).flatten) →
      cs.map (releaseAt b.addr) = cs := by
    intro cs hcs
    calc cs.map (releaseAt b.addr) = cs.map id :=
          List.map_congr_left fun c hc => releaseAt_of_forall_ne fun d hd => hne d (hcs c hc d hd)
      _ = cs := List.map_id cs
  have hhere : ∀ pre : List Block, (∀ d ∈ pre, d.addr ≠ b.addr) →
      releaseAt b.addr (pre ++ b :: p.post) =
        pre ++ (absorb b.release p.post).1 :: (absorb b.release p.post).2 := by
    intro pre hpre
    induction pre with
    | nil => simp [releaseAt]
    | cons d pre ih =>
        rw [List.cons_append, releaseAt, if_neg (hpre d (by simp)),
          ih fun c hc => hpre c (by simp [hc])]
        rfl
  simp only [Place.fill, List.map_append, List.map_cons, List.append_assoc,
    List.singleton_append]
  rw [hother p.before, hother p.after, hhere p.pre]
  · exact fun d hd => hne d (by simp [Place.fill, hd])
  · exact fun c hc d hd => by
      simp only [Place.fill, List.flatten_append, List.flatten_cons, List.mem_append]
      exact .inr (.inr (List.mem_flatten.mpr ⟨c, hc, hd⟩))
  · exact fun c hc d hd => by
      simp only [Place.fill, List.flatten_append, List.mem_append]
      exact .inl (List.mem_flatten.mpr ⟨c, hc, hd⟩)

/-- `_free` of the contents of the block at `addr`. -/
def release (addr : ℕ) (w : World) : World :=
  { w with main := releaseAt addr w.main, det := w.det.map (releaseAt addr) }

/-- Releasing a block keeps the layout. -/
theorem layout_release {w : World} {b : Block} (h : Layout w.chains w.mapped)
    (hb : b ∈ w.chains.flatten) : Layout (w.release b.addr).chains w.mapped := by
  obtain ⟨p, hp⟩ := Place.exists_fill hb
  rw [hp] at h
  rw [show (w.release b.addr).chains = w.chains.map (releaseAt b.addr) from rfl, hp,
    releaseAt_fill h.sound]
  exact absorb_preserves (I := fun chains => Layout chains w.mapped) (fun hm h => h.merge hm.2.2)
    (h.status true)

end World

end LowLevel.Model
