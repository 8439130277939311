import LowLevel.Interface.HeapRuns

/-!
# Requests whose size wraps

`memalloc` returns the block of its second search without looking at the result type.
That is sound as long as the region it asked for holds the request; near `SIZE_MAX` the
size of that region wraps to `REGION_MIN_SIZE`, the second search fails, and the block it
calls last is returned: free, too small, not marked taken. `heap_init` wraps alike.
-/

set_option autoImplicit false

namespace LowLevel.Analysis

open LowLevel.Library LowLevel.Model LowLevel.Interface LowLevel.Program.Allocator

variable {s : State} {chains : List (List Block)} {q initial : ℕ}

/-- `_malloc` returns a null pointer, or the contents of a block that was free before, is
taken now and holds the request. -/
def RequestMet (s : State) (chains : List (List Block)) (query : ℕ) : Prop :=
  ∃ r s', Settles (fun n => malloc n query) s r s' ∧
    (r ≠ 0 → ∃ chains', Represents s' chains' ∧ ∃ b ∈ chains'.flatten,
      r = b.addr + offsetofContents ∧ b.free = false ∧ max query blockMinCapacity ≤ b.cap ∧
        ∀ c ∈ chains.flatten, c.free = false → ∀ x, b.Holds x → ¬ c.Holds x)

/-- `heap_init` returns a null pointer or a free block that holds what was asked for. -/
def InitMet (s : State) (initial : ℕ) : Prop :=
  ∃ r s', (heapInit initial).run s = .ok (r, s') ∧
    (r ≠ 0 → ∃ cap, HeaderAt s'.mem ⟨r, cap, true⟩ 0 ∧ initial ≤ cap)

/-- Both calls of `mmap` for `len` bytes would fail. -/
def MapsRefused (s : State) (len : ℕ) : Prop :=
  granted s.mapped s.answers len = none ∧ granted s.mapped s.answers.tail len = none

/-- The argument of `heap_init` with its header, rounded up to pages, is below `2 ^ 64`. -/
def InitFits (initial : ℕ) : Prop :=
  getpagesize * pagesCount (initial + offsetofContents) < SIZE

/-- No region is granted when both calls fail, and only then. -/
theorem growth_region_eq_none_iff {len addr : ℕ} :
    (growth s.mapped s.answers addr len).region = none ↔ MapsRefused s len := by
  unfold growth MapsRefused
  cases hfirst : granted s.mapped s.answers len with
  | some a => simp
  | none => simp

/-- The block that a failed search calls last is where it started or in the chain. -/
theorem lastFree_mem (bs : List Block) (l : ℕ) :
    lastFree bs l = l ∨ ∃ b ∈ bs, lastFree bs l = b.addr := by
  induction bs generalizing l with
  | nil => exact .inl rfl
  | cons b bs ih =>
      rcases ih (if b.free then b.addr else l) with heq | ⟨c, hc, heq⟩
      · unfold lastFree
        rw [heq]
        split_ifs
        · exact .inr ⟨b, by simp, rfl⟩
        · exact .inl rfl
      · exact .inr ⟨c, by simp [hc], heq⟩

/-! ## `_malloc` -/

/-- A request that was served or refused is met. -/
theorem requestMet_of_outcome {w : World} {s' : State} (hs : Settles (fun n => malloc n q) s
    (w.malloc q).ptr s') (h' : Refines s' (w.malloc q).world)
    (hout : World.Refused w (w.serve (max q 24)) ∨
      ∃ b, World.Allocated w (max q 24) (w.serve (max q 24)) b) :
    RequestMet s w.chains q := by
  refine ⟨_, s', hs, fun hne => ?_⟩
  rcases hout with hrefused | ⟨b, hserved⟩
  · exact absurd (by simp only [World.malloc, hrefused.ptr_eq, if_true]) hne
  · have hlayout := h'.represents.layout
    have htaken := hserved.taken_perm
    have hb := mem_taken.mp (htaken.mem_iff.mpr List.mem_cons_self)
    have hlow := hlayout.low b hb.1
    have hcap := hlayout.cap b hb.1
    have hhigh := hlayout.high b hb.1
    refine ⟨_, h'.represents, b, hb.1, ?_, hb.2, hserved.le_cap, fun c hc hcfree => ?_⟩
    · simp only [World.malloc, hserved.ptr_eq]
      unfold SIZE offsetofContents
      rw [if_neg (by omega)]
      omega
    · -- the blocks taken now are `b` and the blocks taken before
      have hpair := (htaken.pairwise_iff fun {b c} hbc x hc hb => hbc x hb hc).mp
        (hlayout.sound.pairwise.filter fun b => !b.free)
      exact (List.pairwise_cons.mp hpair).1 c (mem_taken.mpr ⟨hc, hcfree⟩)

/-- A request whose size wraps is not served. -/
theorem not_allocated_of_wrapping {w : World} (hwrap : ¬ NonWrapping q)
    (h' : Layout (w.serve (max q 24)).world.chains (w.serve (max q 24)).world.mapped)
    (b : Block) : ¬ World.Allocated w (max q 24) (w.serve (max q 24)) b := by
  intro hserved
  have hb := mem_taken.mp (hserved.taken_perm.mem_iff.mpr List.mem_cons_self)
  have hlt := cap_lt_of_wrapping (mt nonWrapping_max.mp hwrap) h' hb.1
  have hle := hserved.le_cap
  omega

/-- What a search returns is the address of a block, whatever its result type. -/
theorem searchResult_pos {sz : ℕ} {bs : List Block} {rest : List (List Block)}
    {mapped : List Mapping} (h : Layout ((search sz bs).allocate sz :: rest) mapped) :
    0 < (searchResult (search sz bs) heapStart).block ∧
      (searchResult (search sz bs) heapStart).block + 17 < SIZE := by
  have hblock : ∀ b ∈ (search sz bs).allocate sz, 0 < b.addr ∧ b.addr + 17 < SIZE := by
    intro b hb
    have hmem : b ∈ ((search sz bs).allocate sz :: rest).flatten := by simp [hb]
    have hlow := h.low b hmem
    have hcap := h.cap b hmem
    have hhigh := h.high b hmem
    unfold SIZE
    omega
  cases hhit : (search sz bs).hit with
  | some hit =>
      obtain ⟨b, tail⟩ := hit
      have hmem : b.handed sz ∈ taken ((search sz bs).allocate sz) :=
        (taken_allocate_of_hit hhit).mem_iff.mpr List.mem_cons_self
      simp only [searchResult, hhit]
      show 0 < (b.handed sz).addr ∧ (b.handed sz).addr + 17 < SIZE
      exact hblock _ (mem_taken.mp hmem).1
  | none =>
      simp only [searchResult, hhit]
      rcases lastFree_mem (search sz bs).passed heapStart with heq | ⟨b, hb, heq⟩
      · rw [heq]
        decide
      · rw [heq]
        exact hblock b (by simp [Search.allocate, hhit, hb])

/-- **A size that wraps**: `_malloc` keeps its promise only when no region is granted. -/
theorem requestMet_iff_of_wrapping (h : Represents s chains) (hq : q < SIZE)
    (hwrap : ¬ NonWrapping q) : RequestMet s chains q ↔ MapsRefused s regionMinSize := by
  obtain ⟨w, rfl, href, hmapped, hanswers⟩ := exists_world h
  obtain ⟨s', hrun, hserves⟩ := settles_malloc q href
  have hlayout' := hserves.refines.represents.layout
  rw [hserves.refines.mapped_eq] at hlayout'
  have hmiss : (search (max q 24) w.main).hit = none := by
    by_contra hne
    obtain ⟨⟨b, rest⟩, hhit⟩ := Option.ne_none_iff_exists'.mp hne
    exact not_allocated_of_wrapping hwrap hlayout' _ (World.allocated_of_hit hhit)
  obtain ⟨pre, last, post, hcut, -, -⟩ := cutAtLast_search h.layout.root_ne hmiss
  have hsize : World.regionSize (max q 24) = regionMinSize :=
    World.regionSize_of_wrapping (max_lt hq (by decide)) (mt nonWrapping_max.mp hwrap)
  set g := growth w.mapped w.answers (last.stop % SIZE) (World.regionSize (max q 24)) with hg
  have hiff : g.region = none ↔ MapsRefused s regionMinSize := by
    rw [hg, hsize, hmapped, hanswers]
    exact growth_region_eq_none_iff
  rw [← hiff]
  constructor
  · rintro ⟨r, s₁, hrun₁, hmet⟩
    obtain ⟨rfl, rfl⟩ := hrun.unique hrun₁
    by_contra hregion
    obtain ⟨⟨a, ext⟩, hregion⟩ := Option.ne_none_iff_exists'.mp hregion
    have hserve := World.serve_of_granted hmiss hcut hg hregion rfl
    -- the pointer is not null, but no block of any heap is that big
    have hne : (w.malloc q).ptr ≠ 0 := by
      have hpos := searchResult_pos (show Layout (_ :: _) _ by
        simpa only [World.malloc, hserve, World.chains] using hlayout')
      simp only [World.malloc, hserve]
      unfold SIZE at *
      rw [if_neg (by omega)]
      omega
    obtain ⟨chains', hrep', b, hb, -, -, hcap, -⟩ := hmet hne
    have hlt := cap_lt_of_wrapping hwrap hrep'.layout hb
    have := (le_max_left q blockMinCapacity).trans hcap
    omega
  · intro hregion
    exact requestMet_of_outcome hrun hserves.refines
      (.inl (World.refused_of_refused hmiss hcut hg hregion))

/-- **`_malloc`** keeps its promise exactly when the size does not wrap or no region is
granted. -/
theorem requestMet_iff (h : Represents s chains) (hq : q < SIZE) :
    RequestMet s chains q ↔ NonWrapping q ∨ MapsRefused s regionMinSize := by
  by_cases hfit : NonWrapping q
  · refine ⟨fun _ => .inl hfit, fun _ => ?_⟩
    obtain ⟨w, rfl, href, hmapped, -⟩ := exists_world h
    obtain ⟨s', hrun, hserves⟩ := settles_malloc q href
    have hlayout := h.layout
    rw [← hmapped] at hlayout
    exact requestMet_of_outcome hrun hserves.refines
      (World.serve_spec hlayout (World.roomy_of_nonWrapping (nonWrapping_max.mpr hfit)))
  · rw [requestMet_iff_of_wrapping h hq hfit]
    exact ⟨.inr, fun h => h.resolve_left hfit⟩

/-! ## `heap_init` -/

/-- The region `heap_init` asks for: it holds the header and the contents unless the size wraps,
and is then of the least length. -/
theorem initLength_spec (hi : initial < SIZE) :
    (InitFits initial → initial + 17 ≤ regionActualSize ((initial + 17) % SIZE)) ∧
      (¬ InitFits initial → regionActualSize ((initial + 17) % SIZE) = regionMinSize ∧
        regionMinSize < initial) := by
  unfold SIZE at hi
  unfold InitFits regionActualSize sizeMax roundPages pagesCount getpagesize offsetofContents
    SIZE regionMinSize
  constructor <;> intro h <;> split_ifs at h ⊢ <;> omega

/-- **`heap_init`** keeps its promise exactly when the size does not wrap or no region is
granted. -/
theorem initMet_iff (hi : initial < SIZE) :
    InitMet s initial ↔ InitFits initial ∨ MapsRefused s regionMinSize := by
  set len := regionActualSize ((initial + 17) % SIZE) with hlen
  obtain ⟨hfits, hwraps⟩ := initLength_spec hi
  rw [← hlen] at hfits hwraps
  have hrun := run_heapInit (s := s) initial
  simp only [← hlen] at hrun
  cases hg : (growth s.mapped s.answers heapStart len).region with
  | none =>
      simp only [hg] at hrun
      refine ⟨fun _ => ?_, fun _ => ⟨_, _, hrun, fun hne => absurd rfl hne⟩⟩
      by_cases hfit : InitFits initial
      · exact .inl hfit
      · rw [(hwraps hfit).1] at hg
        exact .inr (growth_region_eq_none_iff.mp hg)
  | some region =>
      obtain ⟨a, ext⟩ := region
      simp only [hg] at hrun
      have hgrant := grantable_of_growth hg
      have hhigh := hgrant.2.2.1
      unfold SIZE at hhigh
      have hheader : HeaderAt (regionState s (growth s.mapped s.answers heapStart len) a len).mem
          ⟨a, len - 17, true⟩ 0 :=
        headerAt_initialized rfl (by simp) (by dsimp only; omega)
      constructor
      · rintro ⟨r, s', hrun', hmet⟩
        rw [hrun, Except.ok.injEq, Prod.mk.injEq] at hrun'
        obtain ⟨rfl, rfl⟩ := hrun'
        obtain ⟨cap, hcap, hle⟩ := hmet (by have := hgrant.1; omega)
        have heq : cap = len - 17 := hcap.capacity_eq.symm.trans hheader.capacity_eq
        by_contra hno
        push Not at hno
        have := hwraps hno.1
        omega
      · rintro (hfit | hrefused)
        · have := hfits hfit
          exact ⟨_, _, hrun, fun _ => ⟨len - 17, hheader, by omega⟩⟩
        · by_cases hfit : InitFits initial
          · have := hfits hfit
            exact ⟨_, _, hrun, fun _ => ⟨len - 17, hheader, by omega⟩⟩
          · rw [← (hwraps hfit).1] at hrefused
            rw [growth_region_eq_none_iff.mpr hrefused] at hg
            cases hg

/-- **Unserved requests**. For every heap, every `size_t` and every behaviour of `mmap`,
`_malloc` returns a null pointer or a block that holds the request exactly when the size
of the region asked for does not wrap or is refused, and `heap_init` likewise. -/
theorem unserved_requests {p : State} {i : ℕ} (h : Represents s chains) (hq : q < SIZE)
    (hi : i < SIZE) :
    (RequestMet s chains q ↔ NonWrapping q ∨ MapsRefused s regionMinSize) ∧
      (InitMet p i ↔ InitFits i ∨ MapsRefused p regionMinSize) :=
  ⟨requestMet_iff h hq, initMet_iff hi⟩

/-- A request and a heap of a hundred bytes. -/
theorem unserved_requests_hundred :
    RequestMet (startedProcess []) (startedWorld []).chains 100 ∧
      InitMet (blankProcess [some heapStart]) 100 := by
  have hboth := unserved_requests (p := blankProcess [some heapStart]) (q := 100) (i := 100)
    (refines_startedProcess []).represents (by decide) (by decide)
  exact ⟨hboth.1.mpr (.inl (by decide)), hboth.2.mpr (.inl (by unfold InitFits; decide))⟩

/-- `_malloc(SIZE_MAX)` on a fresh heap that `mmap` lets grow by `REGION_MIN_SIZE` returns
the one free block of the heap. -/
theorem size_max_not_met :
    ¬ RequestMet (startedProcess [some (heapStart + regionMinSize)])
      (startedWorld [some (heapStart + regionMinSize)]).chains (SIZE - 1) := by
  intro hmet
  have hrefused := (requestMet_iff_of_wrapping
    (refines_startedProcess [some (heapStart + regionMinSize)]).represents (by decide)
    (by decide)).mp hmet
  exact absurd hrefused.1 (by decide)

end LowLevel.Analysis
