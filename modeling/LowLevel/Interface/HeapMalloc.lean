import LowLevel.Interface.HeapGrowth

/-!
# `_malloc` and `_free` refine the state machine on block lists

`Refines s w` relates the process to a `World`: the memory represents its chains, and the
mappings and the answers to come are the same. Both functions keep it, return what the
state machine returns, make the calls of `mmap` it makes, and store nothing in the
contents of a taken block.
-/

set_option autoImplicit false

namespace LowLevel.Interface

open LowLevel.Library LowLevel.Model LowLevel.Program.Allocator

variable {s : State} {main : List Block} {det : List (List Block)} {sz : ℕ}

/-! ## Free blocks hold no allocation -/

/-- No byte of a free block is in the contents of a taken one. -/
theorem spares_takenContents {chains : List (List Block)} {mapped : List Mapping} {b : Block}
    (h : Sound chains mapped) (hb : b ∈ chains.flatten) (hfree : b.free = true) :
    Spares (TakenContents chains) b := by
  rintro x hx ⟨c, hc, htaken, hcx⟩
  have hne : b ≠ c := by
    rintro rfl
    rw [hfree] at htaken
    cases htaken
  exact h.apart_of_ne hb hc hne hx ⟨by have := hcx.1; omega, hcx.2⟩

/-- No byte of a header is in the contents of a taken block. -/
theorem takenContents_not_inHeader {chains : List (List Block)} {mapped : List Mapping}
    {b : Block} (h : Sound chains mapped) (hb : b ∈ chains.flatten) {x : ℕ}
    (hx : b.InHeader x) : ¬ TakenContents chains x := by
  rintro ⟨c, hc, -, hcx⟩
  have hbx : b.Holds x := ⟨hx.1, by have := hx.2; omega⟩
  have hcx' : c.Holds x := ⟨by have := hcx.1; omega, hcx.2⟩
  by_cases hne : b = c
  · subst hne
    have := hx.2
    have := hcx.1
    omega
  · exact h.apart_of_ne hb hc hne hbx hcx'

/-- Heaps with the same taken blocks have the same contents taken. -/
theorem takenContents_congr {chains chains' : List (List Block)}
    (h : taken chains'.flatten = taken chains.flatten) {x : ℕ} :
    TakenContents chains' x ↔ TakenContents chains x := by
  have hmem : ∀ b, (b ∈ chains'.flatten ∧ b.free = false) ↔
      (b ∈ chains.flatten ∧ b.free = false) := by
    intro b
    rw [← mem_taken, ← mem_taken, h]
  constructor
  · rintro ⟨b, hb, hfree, hx⟩
    exact ⟨b, ((hmem b).mp ⟨hb, hfree⟩).1, hfree, hx⟩
  · rintro ⟨b, hb, hfree, hx⟩
    exact ⟨b, ((hmem b).mpr ⟨hb, hfree⟩).1, hfree, hx⟩

/-- Every block's contents are mapped. -/
theorem mapped_of_takenContents {chains : List (List Block)} {mapped : List Mapping}
    (h : Sound chains mapped) {x : ℕ} (hx : TakenContents chains x) : Mapped mapped x := by
  obtain ⟨b, hb, -, hbx⟩ := hx
  exact h.mapped b hb x ⟨by have := hbx.1; omega, hbx.2⟩

/-! ## `try_memalloc_existing` -/

/-- Splitting a free block and taking the first part. -/
theorem settles_carve {keep : ℕ → Prop} {p : Place} {b : Block}
    (h : Stands s (p.fill [b])) (hb : b.free = true) (hspare : Spares keep b)
    (hsz : 24 ≤ sz) (hfit : sz ≤ b.cap) (hwrap : sz + 41 < 2 ^ 64) :
    ∃ split s₁ s₂, (splitIfTooBig b.addr sz).run s = .ok (split, s₁) ∧
      (storeIsFree b.addr false).run s₁ = .ok ((), s₂) ∧ Within keep s s₂ ∧
      Stands s₂ (p.fill (b.carve sz)) := by
  have hheld := h.held_mid (b := b) (by simp)
  have hheader := h.chain_fill.2.1.1
  unfold Block.carve
  split_ifs with hsplit
  · have hrep := h.split hsz hsplit
    rw [Place.fill_pair] at hrep
    obtain ⟨s₂, hrun, hrep₂, hwithin⟩ := hrep.setStatus false
    refine ⟨true, _, s₂, run_splitIfTooBig_yes hheld hheader hb (max_eq_left hsz) hsplit,
      hrun, ?_, ?_⟩
    · refine (Within.trans (within_initialized ?_) (within_initialized ?_)).trans
        (hwithin keep ?_)
      · exact fun x hlo hhi => hspare x ⟨hlo, by dsimp only at hhi; omega⟩
      · exact fun x hlo hhi => hspare x ⟨by dsimp only at hlo; omega, by
          dsimp only at hhi; omega⟩
      · exact fun x hx => hspare x ⟨hx.1, by have := hx.2; dsimp only at this; omega⟩
    · rwa [Place.fill_pair]
  · obtain ⟨s₂, hrun, hrep₂, hwithin⟩ := h.setStatus false
    refine ⟨false, s, s₂, run_splitIfTooBig_no hheld hheader hwrap hsplit, hrun, ?_, hrep₂⟩
    exact hwithin keep fun x hx => hspare x ⟨hx.1, by have := hx.2; omega⟩

section Root

variable {root : ℕ} (hroot : headAddr main 0 = root) (hne : root ≠ 0)
include hroot hne

/-- **`try_memalloc_existing`** computes the search and hands out the block it hit. -/
theorem settles_tryMemallocExisting (hsz : 24 ≤ sz) (h : Stands s (main :: det))
    (hwrap : ∀ hit, (search sz main).hit = some hit → sz + 41 < 2 ^ 64) :
    ∃ s', Settles (fun n => tryMemallocExisting n sz root) s
        (searchResult (search sz main) root) s' ∧
      Within (TakenContents (main :: det)) s s' ∧
      Stands s' ((search sz main).allocate sz :: det) := by
  obtain ⟨s₁, hfind, hwithin, hrep⟩ := settles_findGoodOrLast sz (TakenContents (main :: det))
    hroot hne (fun c hc hfree => spares_takenContents h.sound (by simp [hc]) hfree) h
  cases hhit : (search sz main).hit with
  | none =>
      refine ⟨s₁, ?_, hwithin, ?_⟩
      · refine hfind.bind (Settles.of_run ?_)
        simp [searchResult, hhit]
        rfl
      · simpa [Search.chain, Search.allocate, hhit] using hrep
  | some hit =>
      have hwrap' := hwrap hit hhit
      obtain ⟨b, rest⟩ := hit
      obtain ⟨hfree, hfit⟩ := search_hit hhit
      have hchain : (search sz main).chain = (search sz main).passed ++ b :: rest := by
        simp [Search.chain, hhit]
      have hplace : Stands s₁ ((⟨[], (search sz main).passed, rest, det⟩ : Place).fill
          [b]) := by
        simpa [hchain, Place.fill] using hrep
      -- the block found is free, so it holds no contents taken before the search
      have hspare : Spares (TakenContents (main :: det)) b := by
        intro x hx htaken
        refine spares_takenContents hplace.sound (b := b) ?_ hfree x hx
          ((takenContents_congr ?_).mpr htaken)
        · simp [Place.fill]
        · have := taken_search sz main
          rw [hchain] at this
          simp only [Place.fill, List.nil_append, List.flatten_cons, List.append_assoc,
            List.singleton_append, taken_append] at this ⊢
          rw [← this, List.append_assoc, ← taken_append, ← taken_append, List.cons_append]
      obtain ⟨split, s₂, s₃, hsplit, hstatus, hwithin', hrep'⟩ :=
        settles_carve hplace hfree hspare hsz hfit hwrap'
      refine ⟨s₃, ?_, hwithin.trans hwithin', ?_⟩
      · refine hfind.bind (Settles.of_run ?_)
        simp only [searchResult, hhit]
        rw [if_neg (by simp)]
        rw [run_bind_of_ok hsplit, run_bind_of_ok hstatus]
        rfl
      · simpa [Search.allocate, hhit, Place.fill] using hrep'

/-! ## `memalloc` -/

omit hroot hne in
/-- What `memalloc` does with the result of the first search. -/
def memallocTail (n query root : ℕ) (result : BlockSearchResult) : Heap ℕ := do
  if result.type = .corrupted then return 0
  if result.type = .foundGoodBlock then return result.block
  if (← growHeap result.block (sizeFromCapacity ⟨query⟩).bytes) = 0 then return 0
  return (← tryMemallocExisting n query root).block

omit hroot in
theorem memalloc_eq (n q : ℕ) : memalloc n q root =
    tryMemallocExisting n (max q 24) root >>= memallocTail n (max q 24) root := by
  have hquery : (if q < blockMinCapacity then blockMinCapacity else q) = max q 24 := by
    unfold blockMinCapacity
    split_ifs <;> omega
  unfold memalloc
  rw [if_neg hne, hquery]
  rfl

omit hroot hne in
/-- After a search that reached the end. -/
theorem run_memallocTail {n last : ℕ} {p : ℕ} {s' : State}
    (hgrow : (growHeap last ((sz + 17) % SIZE)).run s = .ok (p, s')) :
    (memallocTail n sz root ⟨.reachedEndNotFound, last⟩).run s =
      (if p = 0 then return 0
        else return (← tryMemallocExisting n sz root).block : Heap ℕ).run s' := by
  unfold memallocTail
  rw [if_neg nofun, if_neg nofun]
  exact run_bind_of_ok hgrow

/-- `memalloc` when a block fits. -/
theorem settles_memalloc_hit {q : ℕ} {b : Block} {rest : List Block} (hq : sz = max q 24)
    (h : Stands s (main :: det)) (hhit : (search sz main).hit = some (b, rest))
    (hwrap : sz + 41 < 2 ^ 64) :
    ∃ s', Settles (fun n => memalloc n q root) s b.addr s' ∧
      Within (TakenContents (main :: det)) s s' ∧
      Stands s' ((search sz main).allocate sz :: det) := by
  obtain ⟨s', hfirst, hwithin, hstands⟩ := settles_tryMemallocExisting hroot hne
    (by rw [hq]; exact le_max_right q 24) h fun _ _ => hwrap
  have hresult : searchResult (search sz main) root = ⟨.foundGoodBlock, b.addr⟩ := by
    simp only [searchResult, hhit]
  rw [hresult] at hfirst
  simp only [memalloc_eq hne, ← hq]
  exact ⟨s', hfirst.bind (Settles.of_run rfl), hwithin, hstands⟩

section Miss

variable {pre post : List Block} {last : Block} {g : Growth}

/-- The first search of `memalloc`, when nothing fits. -/
theorem settles_firstSearch (hsz : 24 ≤ sz) (h : Stands s (main :: det))
    (hhit : (search sz main).hit = none)
    (hcut : cutAtLast (search sz main).passed = some (pre, last, post)) :
    ∃ s₁, Settles (fun n => tryMemallocExisting n sz root) s ⟨.reachedEndNotFound, last.addr⟩ s₁ ∧
      Within (TakenContents (main :: det)) s s₁ ∧ Stands s₁ ((pre ++ last :: post) :: det) := by
  obtain ⟨pre', last', post', hcut', hpassed, hresult⟩ :=
    cutAtLast_search (by rw [hroot]; exact hne) hhit
  rw [hcut, Option.some.injEq, Prod.mk.injEq, Prod.mk.injEq] at hcut'
  obtain ⟨rfl, rfl, rfl⟩ := hcut'
  obtain ⟨s₁, hfirst, hwithin, hstands⟩ := settles_tryMemallocExisting hroot hne hsz h
    fun hit hsome => by rw [hhit] at hsome; cases hsome
  rw [hroot] at hresult
  rw [hresult] at hfirst
  refine ⟨s₁, hfirst, hwithin, ?_⟩
  simpa [Search.allocate, hhit, hpassed] using hstands

/-- `memalloc` when nothing fits and `mmap` refuses. -/
theorem settles_memalloc_refused {q : ℕ} (hq : sz = max q 24) (h : Stands s (main :: det))
    (hhit : (search sz main).hit = none)
    (hcut : cutAtLast (search sz main).passed = some (pre, last, post))
    (hg : g = growth s.mapped s.answers (last.stop % SIZE) (World.regionSize sz))
    (hregion : g.region = none) :
    ∃ s₁, Within (TakenContents (main :: det)) s s₁ ∧
      Stands s₁ ((pre ++ last :: post) :: det) ∧
      Settles (fun n => tryMemallocExisting n sz root) s ⟨.reachedEndNotFound, last.addr⟩ s₁ ∧
      Settles (fun n => memalloc n q root) s 0 (asked s₁ g) := by
  obtain ⟨s₁, hfirst, hwithin, hstands⟩ := settles_firstSearch hroot hne
    (by rw [hq]; exact le_max_right q 24) h hhit hcut
  have hg₁ : g = growth s₁.mapped s₁.answers (last.stop % SIZE) (World.regionSize sz) := by
    rw [hg, hwithin.mapped_eq, hwithin.answers_eq]
  have hgrow := run_growHeap_refused sz hstands (by rw [← hg₁]; exact hregion)
  rw [← hg₁] at hgrow
  refine ⟨s₁, hwithin, hstands, hfirst, ?_⟩
  simp only [memalloc_eq hne, ← hq]
  exact hfirst.bind ⟨0, fun n _ => run_memallocTail hgrow⟩

omit hroot hne in
/-- A search that fails leaves the taken blocks. -/
theorem taken_missed (hhit : (search sz main).hit = none)
    (hcut : cutAtLast (search sz main).passed = some (pre, last, post)) :
    taken ((pre ++ last :: post) :: det).flatten = taken (main :: det).flatten := by
  have hpassed := (cutAtLast_eq_some hcut).1
  have hsearch := taken_search sz main
  rw [show (search sz main).chain = pre ++ last :: post by
    simpa [Search.chain, hhit] using hpassed] at hsearch
  simp only [List.flatten_cons]
  rw [taken_append, taken_append main, hsearch]

omit hroot hne in
/-- Growing the heap leaves the taken blocks. -/
theorem taken_grown {new : Block} (hnew : new.free = true) (ext : Bool) :
    taken (World.extend pre last new ext :: post :: det).flatten =
      taken ((pre ++ last :: post) :: det).flatten := by
  simp only [List.flatten_cons]
  rw [taken_append, taken_append, taken_append, ← List.append_assoc,
    World.taken_extend _ _ _ hnew]

/-- `memalloc` when nothing fits and a region is granted: the region is linked behind the last
block, and the result of the second search is returned. -/
theorem settles_memalloc_granted {q a : ℕ} {ext : Bool} {r : Search} (hq : sz = max q 24)
    (h : Stands s (main :: det)) (hhit : (search sz main).hit = none)
    (hcut : cutAtLast (search sz main).passed = some (pre, last, post))
    (hg : g = growth s.mapped s.answers (last.stop % SIZE) (World.regionSize sz))
    (hregion : g.region = some (a, ext))
    (hr : r = search sz (World.extend pre last ⟨a, World.regionSize sz - 17, true⟩ ext))
    (hwrap : ∀ hit, r.hit = some hit → sz + 41 < 2 ^ 64) :
    ∃ s₁ p s₂ s',
      Settles (fun n => tryMemallocExisting n sz root) s ⟨.reachedEndNotFound, last.addr⟩ s₁ ∧
      (growHeap last.addr ((sz + 17) % SIZE)).run s₁ = .ok (p, s₂) ∧ p ≠ 0 ∧
      Settles (fun n => tryMemallocExisting n sz root) s₂ (searchResult r root) s' ∧
      Settles (fun n => memalloc n q root) s (searchResult r root).block s' ∧
      Grown (TakenContents (main :: det)) s s' g a (World.regionSize sz)
        (r.allocate sz :: post :: det) := by
  have hsz : 24 ≤ sz := by rw [hq]; exact le_max_right q 24
  obtain ⟨s₁, hfirst, hwithin, hstands⟩ := settles_firstSearch hroot hne hsz h hhit hcut
  have hg₁ : g = growth s₁.mapped s₁.answers (last.stop % SIZE) (World.regionSize sz) := by
    rw [hg, hwithin.mapped_eq, hwithin.answers_eq]
  have hlast : last ∈ ((pre ++ last :: post) :: det).flatten := by simp
  obtain ⟨p, s₂, hgrow, hp, hgrown⟩ := run_growHeap_granted
    (TakenContents ((pre ++ last :: post) :: det)) hstands hg₁ hregion
    (fun x hx => mapped_of_takenContents hstands.sound hx)
    (fun x hx => takenContents_not_inHeader hstands.sound hlast hx)
    (fun hfree => spares_takenContents hstands.sound hlast hfree)
  have hroot₂ : headAddr (World.extend pre last ⟨a, World.regionSize sz - 17, true⟩ ext) 0 =
      root := by
    rw [World.headAddr_extend pre post, headAddr_missed hhit hcut, hroot]
  obtain ⟨s', hsecond, hwithin', hstands'⟩ := settles_tryMemallocExisting hroot₂ hne hsz
    hgrown.stands (by rw [← hr]; exact hwrap)
  rw [← hr] at hsecond hstands'
  refine ⟨s₁, p, s₂, s', hfirst, hgrow, hp, hsecond, ?_, ?_, hstands', ?_, ?_, ?_⟩
  · simp only [memalloc_eq hne, ← hq]
    refine hfirst.bind ?_
    obtain ⟨n₀, hn₀⟩ := hsecond
    refine ⟨n₀, fun n hn => (run_memallocTail hgrow).trans ?_⟩
    rw [if_neg hp, run_bind_of_ok (hn₀ n hn)]
    rfl
  · -- neither search stores to a block that was taken before the first
    have hmissed : taken ((pre ++ last :: post) :: det).flatten = taken (main :: det).flatten :=
      taken_missed hhit hcut
    refine hwithin.toSpared.trans (Spared.trans ?_ (hwithin'.toSpared.mono ?_))
    · exact hgrown.toSpared.mono fun x hx => (takenContents_congr hmissed).mpr hx
    · exact fun x hx => (takenContents_congr ((taken_grown rfl ext).trans hmissed)).mpr hx
  · rw [hwithin'.mapped_eq, hgrown.mapped_eq, hwithin.mapped_eq]
  · rw [hwithin'.answers_eq, hgrown.answers_eq]
  · rw [hwithin'.requests_eq, hgrown.requests_eq, hwithin.requests_eq]

end Miss

end Root

/-! ## The state machine -/

/-- The process is in a state of the machine on block lists. -/
structure Refines (s : State) (w : World) : Prop where
  represents : Represents s w.chains
  mapped_eq : s.mapped = w.mapped
  answers_eq : s.answers = w.answers

/-- A heap has a chain from `HEAP_START`. -/
theorem exists_world {chains : List (List Block)} (h : Represents s chains) :
    ∃ w : World, w.chains = chains ∧ Refines s w ∧ w.mapped = s.mapped ∧
      w.answers = s.answers := by
  cases chains with
  | nil => exact absurd h.layout.root (by decide)
  | cons main det => exact ⟨⟨main, det, s.mapped, s.answers⟩, rfl, ⟨h, rfl, rfl⟩, rfl, rfl⟩

/-- A call that took the process from `s` to `s'` did what the state machine did. -/
structure Serves (s : State) (w : World) (o : World.Outcome) (s' : State) : Prop
    extends Spared (TakenContents w.chains) s s' where
  refines : Refines s' o.world
  requests_eq : s'.requests = s.requests ++ o.requests

theorem Refines.layout {w : World} (h : Refines s w) : Layout w.chains w.mapped := by
  rw [← h.mapped_eq]
  exact h.represents.layout

/-- A state that holds the chains of a world with a layout refines it. -/
theorem refines_of_stands {w : World} (h : Stands s w.chains) (hlayout : Layout w.chains w.mapped)
    (hmapped : s.mapped = w.mapped) (hanswers : s.answers = w.answers) : Refines s w :=
  ⟨h.represents (by rw [hmapped]; exact hlayout), hmapped, hanswers⟩

/-- **`memalloc`** does what the state machine does. -/
theorem settles_memalloc {w : World} (q : ℕ) (h : Refines s w) :
    ∃ s', Settles (fun n => memalloc n q heapStart) s (w.serve (max q 24)).ptr s' ∧
      Serves s w (w.serve (max q 24)) s' := by
  have hlayout := h.layout
  have hstands : Stands s (w.main :: w.det) := h.represents.stands
  have hroot : headAddr w.main 0 = heapStart := hlayout.root
  have hne : heapStart ≠ 0 := by decide
  have hserved := World.layout_serve hlayout (le_max_right q 24)
  obtain ⟨sz, hq⟩ : ∃ sz, sz = max q 24 := ⟨_, rfl⟩
  rw [← hq] at hserved ⊢
  cases hhit : (search sz w.main).hit with
  | some hit =>
      obtain ⟨b, rest⟩ := hit
      obtain ⟨s', hrun, hwithin, hstands'⟩ := settles_memalloc_hit hroot hne hq hstands hhit
        (add_lt_of_hit hlayout.sound hroot hhit)
      rw [World.serve_of_hit hhit] at hserved ⊢
      exact ⟨s', hrun, hwithin.toSpared, refines_of_stands hstands' hserved
        (hwithin.mapped_eq.trans h.mapped_eq) (hwithin.answers_eq.trans h.answers_eq),
        by simpa using hwithin.requests_eq⟩
  | none =>
      obtain ⟨pre, last, post, hcut, -, -⟩ := cutAtLast_search hlayout.root_ne hhit
      set g := growth w.mapped w.answers (last.stop % SIZE) (World.regionSize sz) with hgdef
      have hg : g = growth s.mapped s.answers (last.stop % SIZE) (World.regionSize sz) := by
        rw [h.mapped_eq, h.answers_eq]
      cases hregion : g.region with
      | none =>
          obtain ⟨s₁, hwithin, hstands₁, -, hrun⟩ := settles_memalloc_refused hroot hne hq hstands
            hhit hcut hg hregion
          rw [World.serve_of_refused hhit hcut hgdef hregion] at hserved ⊢
          refine ⟨_, hrun, hwithin.toSpared.trans (Spared.of_eq rfl rfl), refines_of_stands
            ⟨hstands₁.sound, hstands₁.linked⟩ hserved (hwithin.mapped_eq.trans h.mapped_eq) rfl, ?_⟩
          show s₁.requests ++ g.requests = _
          rw [hwithin.requests_eq]
      | some region =>
          obtain ⟨a, ext⟩ := region
          have hgrownLayout : Layout (World.extend pre last ⟨a, World.regionSize sz - 17, true⟩ ext
              :: post :: w.det) (⟨a, World.regionSize sz⟩ :: w.mapped) := by
            have hfirst := layout_allocate (show Layout (w.main :: w.det) w.mapped from hlayout)
              (show 24 ≤ sz by rw [hq]; exact le_max_right q 24)
            simp only [Search.allocate, hhit, List.append_nil, (cutAtLast_eq_some hcut).1] at hfirst
            exact World.layout_extend hfirst (grantable_of_growth hregion)
              (le_trans (by norm_num) (regionMinSize_le _)) ext
          obtain ⟨s₁, p, s₂, s', -, -, -, -, hrun, hgrown⟩ := settles_memalloc_granted hroot hne hq
            hstands hhit hcut hg hregion rfl
            fun hit hsome => add_lt_of_hit hgrownLayout.sound hgrownLayout.root hsome
          rw [World.serve_of_granted hhit hcut hgdef hregion rfl] at hserved ⊢
          exact ⟨s', hrun, hgrown.toSpared, refines_of_stands hgrown.stands hserved
            (by rw [hgrown.mapped_eq, h.mapped_eq]) hgrown.answers_eq, hgrown.requests_eq⟩

/-- `_malloc` returns the contents of the block that `memalloc` returns. -/
theorem settles_malloc_of_memalloc {q r : ℕ} {s' : State}
    (h : Settles (fun n => memalloc n q heapStart) s r s') :
    Settles (fun n => malloc n q) s (if r = 0 then 0 else (r + 17) % SIZE) s' := by
  refine h.bind (Settles.of_run ?_)
  by_cases hnull : r = 0
  · simp only [hnull, ne_eq, not_true, if_false, if_true]
    rfl
  · simp only [hnull, ne_eq, not_false_iff, if_false, if_true]
    rfl

/-- **`_malloc`** does what the state machine does. -/
theorem settles_malloc {w : World} (q : ℕ) (h : Refines s w) :
    ∃ s', Settles (fun n => malloc n q) s (w.malloc q).ptr s' ∧ Serves s w (w.malloc q) s' := by
  obtain ⟨s', hrun, hserves⟩ := settles_memalloc q h
  exact ⟨s', settles_malloc_of_memalloc hrun, hserves.toSpared, hserves.refines,
    hserves.requests_eq⟩

/-! ## `heap_init` -/

/-- **`heap_init`**: what it returns and the state it leaves. -/
theorem run_heapInit (initial : ℕ) :
    let len := regionActualSize ((initial + 17) % SIZE)
    let g := growth s.mapped s.answers heapStart len
    match g.region with
    | none => (heapInit initial).run s = .ok (0, asked s g)
    | some (a, _) => (heapInit initial).run s = .ok (a, regionState s g a len) := by
  intro len g
  have halloc := run_allocRegion (s := s) heapStart initial
  simp only at halloc
  cases hg : g.region with
  | none =>
      rw [hg] at halloc
      unfold heapInit
      rw [run_bind_of_ok halloc]
      rfl
  | some region =>
      obtain ⟨a, ext⟩ := region
      have ha : a ≠ 0 := by
        have := (grantable_of_growth hg).1
        omega
      rw [hg] at halloc
      unfold heapInit
      rw [run_bind_of_ok halloc]
      simp only [regionIsInvalid, beq_iff_eq, ha, if_false]
      rfl

/-- A heap started at `HEAP_START` is one free block. -/
theorem refines_heapInit {s' : State} {initial : ℕ} (hs : s.mapped = [])
    (hrun : (heapInit initial).run s = .ok (heapStart, s')) :
    ∃ (len : ℕ) (answers : List (Option ℕ)), len = regionActualSize ((initial + 17) % SIZE) ∧
      Refines s' ⟨[⟨heapStart, len - 17, true⟩], [], [⟨heapStart, len⟩], answers⟩ := by
  have hinit := run_heapInit (s := s) initial
  set len := regionActualSize ((initial + 17) % SIZE) with hlen
  set g := growth s.mapped s.answers heapStart len with hgdef
  simp only at hinit
  cases hg : g.region with
  | none =>
      rw [hg, hrun, Except.ok.injEq, Prod.mk.injEq] at hinit
      exact absurd hinit.1 (by decide)
  | some region =>
      obtain ⟨a, ext⟩ := region
      rw [hg, hrun, Except.ok.injEq, Prod.mk.injEq] at hinit
      obtain ⟨rfl, rfl⟩ := hinit
      have hhigh := (grantable_of_growth hg).2.2.1
      have hlow : 8192 ≤ len := regionMinSize_le _
      unfold SIZE at hhigh
      have hmapped : (regionState s g heapStart len).mapped = [⟨heapStart, len⟩] := by
        show _ :: s.mapped = _
        rw [hs]
      refine ⟨len, g.answers, rfl, ⟨?_, ?_⟩, hmapped, rfl⟩
      · rw [hmapped]
        exact Layout.start (by omega) (by omega)
      · intro c hc
        obtain rfl := List.mem_singleton.mp hc
        exact ⟨headerAt_initialized rfl (by simp) (by dsimp only; omega), trivial⟩

/-! ## `_free` -/

/-- **`_free`** of the contents of a block marks it free and merges it forward, and
stores to no other allocation. -/
theorem settles_free_stands {chains : List (List Block)} {b : Block} (h : Stands s chains)
    (hb : b ∈ chains.flatten) (hptr : b.addr + 17 < 2 ^ 64) :
    ∃ s', Settles (fun n => free n (b.addr + 17)) s () s' ∧
      Stands s' (chains.map (World.releaseAt b.addr)) ∧
      Within (fun x => TakenContents chains x ∧ ¬ b.InContents x) s s' := by
  obtain ⟨p, hp⟩ := Place.exists_fill hb
  have hrep : Stands s (p.fill [b]) := hp ▸ h
  have hheld := h.held hb
  have hheader : blockGetHeader (b.addr + 17) = b.addr := by
    have := hheld.low
    unfold blockGetHeader SIZE offsetofContents
    omega
  set keep := fun x => TakenContents chains x ∧ ¬ b.InContents x with hkeep
  have hfree : ∀ c ∈ chains.flatten, c.free = true → Spares keep c :=
    fun c hc hcf x hx hk => spares_takenContents h.sound hc hcf x hx hk.1
  have hspare : Spares keep b := by
    rintro x hx ⟨htaken, hout⟩
    by_cases hin : b.InHeader x
    · exact takenContents_not_inHeader h.sound hb hin htaken
    · unfold Block.InHeader Block.InContents at *
      unfold Block.Holds at hx
      omega
  obtain ⟨s₁, hstatus, hrep₁, hwithin⟩ := hrep.setStatus true
  obtain ⟨s₂, hloop, hwithin₂, hrep₂⟩ := settles_whileMerging (printf "a")
    (fun s => ⟨_, rfl, Spared.of_eq rfl rfl, rfl, rfl, rfl, rfl⟩) p.before p.pre p.after
    b.release p.post hspare
    (fun c hc => hfree c (by rw [hp]; simp [Place.fill, hc])) hrep₁
  have hwithin₁ : Within keep s s₁ := hwithin keep fun x hx => hspare x ⟨hx.1, by
    have := hx.2
    omega⟩
  refine ⟨s₂, ?_, ?_, hwithin₁.trans hwithin₂⟩
  · refine Settles.congr (Settles.bind_run (g := fun n _ => whileMerging (printf "a") n b.addr)
      hstatus hloop) fun n => ?_
    unfold free
    rw [if_neg (by omega), hheader]
  · rw [hp, World.releaseAt_fill hrep.sound]
    exact hrep₂

/-- **`_free`** does what the state machine does. -/
theorem settles_free {w : World} {b : Block} (h : Refines s w) (hb : b ∈ w.chains.flatten) :
    ∃ s', Settles (fun n => free n (b.addr + 17)) s () s' ∧ Refines s' (w.release b.addr) ∧
      s'.requests = s.requests ∧
      Spared (fun x => TakenContents w.chains x ∧ ¬ b.InContents x) s s' := by
  have hcap := h.layout.cap b hb
  have hhigh := h.layout.high b hb
  obtain ⟨s', hrun, hstands, hwithin⟩ := settles_free_stands h.represents.stands hb (by omega)
  exact ⟨s', hrun, refines_of_stands hstands (World.layout_release h.layout hb)
    (hwithin.mapped_eq.trans h.mapped_eq) (hwithin.answers_eq.trans h.answers_eq),
    hwithin.requests_eq, hwithin.toSpared⟩

end LowLevel.Interface
