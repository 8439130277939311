import LowLevel.Model.Memalloc
import LowLevel.Interface.HeapSearch

/-!
# Growing the heap

`alloc_region` makes one or two calls of `mmap` and turns what it gets into one free
block. `grow_heap` links that block behind the block it was handed, so whatever followed
that block in its chain becomes a chain of its own.
-/

set_option autoImplicit false

namespace LowLevel.Interface

open LowLevel.Library LowLevel.Model LowLevel.Program.Allocator

variable {s : State}

/-! ## Calls of `mmap` -/

/-- The state after one call of `mmap`. -/
def called (s : State) (r : Request) : State :=
  { s with requests := s.requests ++ [r], answers := s.answers.tail }

/-- The state with a new mapping. -/
def withMapping (s : State) (a len : ℕ) : State := { s with mapped := ⟨a, len⟩ :: s.mapped }

/-- One call of `mmap`. -/
theorem run_mapPages (addr len : ℕ) (noreplace : Bool) :
    (mapPages addr len noreplace).run s = .ok (granted s.mapped s.answers len,
      match granted s.mapped s.answers len with
      | some a => withMapping (called s ⟨addr, len, noreplace⟩) a len
      | none => called s ⟨addr, len, noreplace⟩) := by
  show mapPages addr len noreplace s = _
  rcases hans : s.answers.head? with _ | _ | a
  · simp only [mapPages, granted, hans]
    rfl
  · simp only [mapPages, granted, hans]
    rfl
  · by_cases hg : Grantable s.mapped a len
    · simp only [mapPages, granted, hans, if_pos hg]
      rfl
    · simp only [mapPages, granted, hans, if_neg hg]
      rfl

/-- The state after the calls of `mmap` that `g` records. -/
def asked (s : State) (g : Growth) : State :=
  { s with requests := s.requests ++ g.requests, answers := g.answers }

theorem called_called (r₁ r₂ : Request) (region : Option (ℕ × Bool)) :
    called (called s r₁) r₂ = asked s ⟨region, [r₁, r₂], s.answers.tail.tail⟩ := by
  simp [called, asked]

/-- The state after `alloc_region` settled on a region: the calls made, the region
mapped, one free block on it. -/
def regionState (s : State) (g : Growth) (a len : ℕ) : State :=
  initialized (withMapping (asked s g) a len) ⟨a, len - 17, true⟩ 0

theorem mapped_withMapping {a len : ℕ} (hlen : 24 ≤ len) :
    ∀ i < 24, Mapped (withMapping s a len).mapped (a + i) :=
  fun i hi => ⟨⟨a, len⟩, by simp [withMapping], by unfold Mapping.Holds; dsimp only; omega⟩

/-- **`alloc_region`**: what it returns and the state it leaves. -/
theorem run_allocRegion (addr query : ℕ) :
    let len := regionActualSize ((query + 17) % SIZE)
    let g := growth s.mapped s.answers addr len
    match g.region with
    | none => (allocRegion addr query).run s = .ok (regionInvalid, asked s g)
    | some (a, ext) =>
        (allocRegion addr query).run s = .ok (⟨a, len, ext⟩, regionState s g a len) := by
  intro len g
  have hlen : 8192 ≤ len := regionMinSize_le _
  have hinit : ∀ (s' : State) (a : ℕ), len ≤ 2 ^ 64 →
      (blockInit a ⟨len⟩ 0).run (withMapping s' a len) =
        .ok ((), initialized (withMapping s' a len) ⟨a, len - 17, true⟩ 0) := fun s' a hhi =>
    run_blockInit (mapped_withMapping (by omega)) (by omega) hhi
  have hrun : (allocRegion addr query).run s = (mapPages addr len true >>= _).run s := rfl
  have hquery : regionActualSize ((query + offsetofContents) % SIZE) = len := rfl
  rw [hrun, run_bind_of_ok (run_mapPages addr len true), hquery]
  cases hfirst : granted s.mapped s.answers len with
  | some a =>
      have hg : g = ⟨some (a, true), [⟨addr, len, true⟩], s.answers.tail⟩ := by
        simp only [g, growth, hfirst]
      have hgrant := grantable_of_granted hfirst
      rw [hg]
      dsimp only
      rw [run_bind_of_ok (hinit _ a (by have := hgrant.2.2.1; unfold SIZE at this; omega))]
      rfl
  | none =>
      dsimp only
      rw [run_bind_of_ok (run_mapPages addr len false)]
      have hg : g = ⟨(granted s.mapped s.answers.tail len).map (·, false),
          [⟨addr, len, true⟩, ⟨addr, len, false⟩], s.answers.tail.tail⟩ := by
        simp only [g, growth, hfirst]
      have hcalled : granted (called s ⟨addr, len, true⟩).mapped
          (called s ⟨addr, len, true⟩).answers len = granted s.mapped s.answers.tail len := rfl
      rw [hcalled]
      cases hsecond : granted s.mapped s.answers.tail len with
      | none =>
          rw [hsecond] at hg
          rw [hg]
          dsimp only [Option.map_none]
          rw [← called_called]
          rfl
      | some a =>
          rw [hsecond] at hg
          have hgrant := grantable_of_granted hsecond
          rw [hg]
          dsimp only [Option.map_some]
          rw [called_called _ _ (some (a, false)),
            run_bind_of_ok (hinit _ a (by have := hgrant.2.2.1; unfold SIZE at this; omega))]
          rfl

/-! ## Linking a region into the heap -/

variable {pre post : List Block} {det : List (List Block)} {last : Block} {a len : ℕ}

/-- Storing to `next` gives a header with the new link. -/
theorem headerAt_next {m : Mem} {b : Block} {next next' : ℕ} (h : HeaderAt m b next)
    (hlt : next' < 2 ^ 64) : HeaderAt (writeBytes m b.addr (leBytes 8 next')) b next' := by
  have hread : ∀ k n, 8 ≤ k → readNat (writeBytes m b.addr (leBytes 8 next')) (b.addr + k) n =
      readNat m (b.addr + k) n := by
    intro k n hk
    exact readNat_congr fun i hi => writeBytes_of_outside (by rw [length_leBytes]; omega)
  refine ⟨?_, (hread 8 8 le_rfl).trans h.capacity_eq,
    by rw [hread 16 1 (by omega)]; exact h.isFree_eq⟩
  have := readNat_writeBytes (m := m) (a := b.addr) (v := next') (n := 8) (p := [])
    (q := []) (by omega)
  simpa using this

/-- The heap after `alloc_region` and the assignment `last->next = new`. -/
theorem Stands.grow (h : Stands s ((pre ++ last :: post) :: det)) (g : Growth)
    (hg : Grantable s.mapped a len) (hlen : 8192 ≤ len) :
    Stands (stored (regionState s g a len) last.addr (leBytes 8 a))
      ((pre ++ [last, ⟨a, len - 17, true⟩]) :: post :: det) := by
  have hplace : Stands s ((⟨[], pre, post, det⟩ : Place).fill [last]) := by
    simpa [Place.fill] using h
  have hsound := h.sound.grow hg (by omega)
  have hlast := hplace.held_mid (b := last) (by simp)
  obtain ⟨hpre, hmid, hpost⟩ := hplace.chain_fill
  obtain ⟨hpos, -, hhigh, hapart⟩ := hg
  unfold SIZE at hhigh
  -- a mapped byte outside `last->next` is not stored to
  have hsame : ∀ x, Mapped s.mapped x → (x < last.addr ∨ last.addr + 8 ≤ x) →
      (stored (regionState s g a len) last.addr (leBytes 8 a)).mem x = s.mem x := by
    intro x hx hnext
    refine (writeBytes_of_outside (by rw [length_leBytes]; exact hnext)).trans
      (writeBytes_of_outside ?_)
    obtain ⟨m, hm, hmx⟩ := hx
    have := hapart m hm
    unfold Mapping.Holds at hmx
    simp only [length_headerBytes]
    omega
  have hother : ∀ b ∈ ((⟨[], pre, post, det⟩ : Place).fill []).flatten, ∀ x, b.InHeader x →
      (stored (regionState s g a len) last.addr (leBytes 8 a)).mem x = s.mem x := by
    intro b hb x hx
    have hbx : b.Holds x := ⟨hx.1, by have := hx.2; omega⟩
    refine hsame x (hplace.sound.mapped b (Place.mem_fill.mpr (.inr hb)) x hbx) ?_
    by_contra hin
    push Not at hin
    exact hplace.sound.apart (b := last) (by simp) hb (x := x) ⟨hin.1, by omega⟩ hbx
  have hnew : HeaderAt (stored (regionState s g a len) last.addr (leBytes 8 a)).mem
      ⟨a, len - 17, true⟩ 0 := by
    refine (headerAt_initialized (s := withMapping (asked s g) a len) rfl (by omega)
      (by dsimp only; omega)).congr fun x hx => writeBytes_of_outside ?_
    obtain ⟨m, hm, hmx⟩ := hlast.mapped last.addr ⟨le_rfl, by omega⟩
    obtain ⟨m', hm', hmx'⟩ := hlast.mapped (last.addr + 7) ⟨by omega, by omega⟩
    have h₁ := hapart m hm
    have h₂ := hapart m' hm'
    have hx₁ := hx.1
    have hx₂ := hx.2
    unfold Mapping.Holds at hmx hmx'
    dsimp only at hx₁ hx₂
    rw [length_leBytes]
    omega
  have hlastHeader : HeaderAt (stored (regionState s g a len) last.addr (leBytes 8 a)).mem
      last a := by
    have hkept : HeaderAt (regionState s g a len).mem last (headAddr post 0) := by
      refine hmid.1.congr fun x hx => writeBytes_of_outside ?_
      obtain ⟨m, hm, hmx⟩ := hlast.mapped x ⟨hx.1, by have := hx.2; omega⟩
      have := hapart m hm
      unfold Mapping.Holds at hmx
      simp only [length_headerBytes]
      omega
    exact headerAt_next hkept (by omega)
  have hin : ∀ c, c = pre ∨ c = post ∨ c ∈ det →
      ∀ b ∈ c, b ∈ ((⟨[], pre, post, det⟩ : Place).fill []).flatten := by
    intro c hc b hb
    simp only [Place.fill, List.nil_append, List.append_nil, List.flatten_cons, List.mem_append]
    rcases hc with rfl | rfl | hc
    · exact .inl (.inl hb)
    · exact .inl (.inr hb)
    · exact .inr (List.mem_flatten.mpr ⟨c, hc, hb⟩)
  refine ⟨hsound, fun c hc => ?_⟩
  rcases List.mem_cons.mp hc with rfl | hc
  · rw [chain_append]
    exact ⟨hpre.congr fun b hb => hother b (hin pre (.inl rfl) b hb), hlastHeader, hnew, trivial⟩
  rcases List.mem_cons.mp hc with rfl | hc
  · exact hpost.congr fun b hb => hother b (hin c (.inr (.inl rfl)) b hb)
  · exact (h.linked c (by simp [hc])).congr
      fun b hb => hother b (hin c (.inr (.inr hc)) b hb)

/-- What growing the heap stores to: the header of `last`, its contents too when it is
free, and bytes that were not mapped. -/
theorem spared_grow {keep : ℕ → Prop} {g : Growth} (hg : Grantable s.mapped a len)
    (hlen : 8192 ≤ len) (hkeep : ∀ x, keep x → Mapped s.mapped x)
    (hlast : ∀ x, last.InHeader x → ¬ keep x) :
    Spared keep s (stored (regionState s g a len) last.addr (leBytes 8 a)) := by
  have hfree : ∀ x, a ≤ x → x < a + 24 → ¬ keep x := fun x hlo hhi hx =>
    not_mapped_of_grantable hg hlo (by omega) (hkeep x hx)
  have hasked : Spared keep s (withMapping (asked s g) a len) := Spared.of_eq rfl rfl
  have hinit : Within keep (withMapping (asked s g) a len) (regionState s g a len) :=
    within_initialized hfree
  have hstore : Within keep (regionState s g a len)
      (stored (regionState s g a len) last.addr (leBytes 8 a)) :=
    within_stored fun x hlo hhi => hlast x ⟨hlo, by rw [length_leBytes] at hhi; omega⟩
  exact hasked.trans (hinit.toSpared.trans hstore.toSpared)

/-- What `grow_heap` leaves when it obtained the `len` bytes at `a`. -/
structure Grown (keep : ℕ → Prop) (s s' : State) (g : Growth) (a len : ℕ)
    (chains : List (List Block)) : Prop extends Spared keep s s' where
  stands : Stands s' chains
  mapped_eq : s'.mapped = ⟨a, len⟩ :: s.mapped
  answers_eq : s'.answers = g.answers
  requests_eq : s'.requests = s.requests ++ g.requests

/-- `grow_heap` when both calls of `mmap` fail. -/
theorem run_growHeap_refused (query : ℕ) (h : Stands s ((pre ++ last :: post) :: det))
    (hg : (growth s.mapped s.answers (last.stop % SIZE) (World.regionSize query)).region =
      none) :
    (growHeap last.addr ((query + 17) % SIZE)).run s =
      .ok (0, asked s (growth s.mapped s.answers (last.stop % SIZE)
        (World.regionSize query))) := by
  have hplace : Stands s ((⟨[], pre, post, det⟩ : Place).fill [last]) := by
    simpa [Place.fill] using h
  have hlast := hplace.held_mid (b := last) (by simp)
  have hne := hlast.addr_ne
  have halloc := run_allocRegion (s := s) (last.stop % SIZE) ((query + 17) % SIZE)
  simp only [World.regionSize] at hg ⊢
  simp only [hg] at halloc
  unfold growHeap
  rw [if_neg hne, run_bind_of_ok (run_blockAfter hlast hplace.chain_fill.2.1.1),
    run_bind_of_ok halloc]
  rfl

/-- **`grow_heap`** when a mapping was granted: the region is linked behind the block
handed in, and what followed that block is no longer reached from it. -/
theorem run_growHeap_granted (keep : ℕ → Prop) {query : ℕ} {ext : Bool}
    (h : Stands s ((pre ++ last :: post) :: det)) {g : Growth}
    (hgrowth : g = growth s.mapped s.answers (last.stop % SIZE) (World.regionSize query))
    (hg : g.region = some (a, ext)) (hkeep : ∀ x, keep x → Mapped s.mapped x)
    (hlast : ∀ x, last.InHeader x → ¬ keep x) (hfree : last.free = true → Spares keep last) :
    ∃ p s', (growHeap last.addr ((query + 17) % SIZE)).run s = .ok (p, s') ∧ p ≠ 0 ∧
      Grown keep s s' g a (World.regionSize query) (World.extend pre last
        ⟨a, World.regionSize query - 17, true⟩ ext :: post :: det) := by
  have hgrant : Grantable s.mapped a (World.regionSize query) :=
    grantable_of_growth (by rw [← hgrowth]; exact hg)
  have hlen : 8192 ≤ World.regionSize query := regionMinSize_le _
  have hplace : Stands s ((⟨[], pre, post, det⟩ : Place).fill [last]) := by
    simpa [Place.fill] using h
  have hheld := hplace.held_mid (b := last) (by simp)
  have hne := hheld.addr_ne
  have ha : a ≠ 0 := by have := hgrant.1; omega
  have hrep := h.grow g hgrant hlen
  have hspared : Spared keep s _ := spared_grow (g := g) hgrant hlen hkeep hlast
  set len := World.regionSize query with hlendef
  set s₁ := stored (regionState s g a len) last.addr (leBytes 8 a) with hs₁
  have halloc : (allocRegion (last.stop % SIZE) ((query + 17) % SIZE)).run s =
      .ok (⟨a, len, ext⟩, regionState s g a len) := by
    have := run_allocRegion (s := s) (last.stop % SIZE) ((query + 17) % SIZE)
    simp only [← World.regionSize.eq_1, ← hlendef, ← hgrowth, hg] at this
    exact this
  have hstore : (storeNext last.addr a).run (regionState s g a len) = .ok ((), s₁) := by
    refine run_store fun i hi => ?_
    rw [length_leBytes] at hi
    obtain ⟨m, hm, hmx⟩ := hheld.range (k := 0) (n := 8) (by omega) i hi
    exact ⟨m, List.mem_cons_of_mem _ hm, hmx⟩
  have hpair : Stands s₁ ((⟨[], pre, [], post :: det⟩ : Place).fill
      [last, ⟨a, len - 17, true⟩]) := by
    simpa [Place.fill] using hrep
  have hnext : (loadNext last.addr).run s₁ = .ok (a, s₁) :=
    run_loadNext (hpair.held_mid (by simp)) hpair.chain_fill.2.1.1
  -- up to the assignment of `last->next` both cases run alike
  have hrun : (growHeap last.addr ((query + 17) % SIZE)).run s =
      (if ext = true then do
        if ← tryMergeWithNext last.addr then return last.addr
        loadNext last.addr
      else loadNext last.addr : Heap ℕ).run s₁ := by
    unfold growHeap
    rw [if_neg hne, run_bind_of_ok (run_blockAfter hheld hplace.chain_fill.2.1.1),
      run_bind_of_ok halloc]
    simp only [ha, if_false]
    rw [run_bind_of_ok hstore]
  have hgrown : Grown keep s s₁ g a len ((pre ++ [last, ⟨a, len - 17, true⟩]) :: post :: det) :=
    ⟨hspared, hrep, rfl, rfl, rfl⟩
  rw [hrun]
  unfold World.extend
  cases ext with
  | false => exact ⟨a, s₁, hnext, ha, by simpa using hgrown⟩
  | true =>
      simp only [if_true, true_and]
      by_cases hm : last.Mergeable ⟨a, len - 17, true⟩
      · have hmerged := hpair.merge hm
        have hnew : Spares keep ⟨a, len - 17, true⟩ := fun x hx hkx =>
          not_mapped_of_grantable hgrant hx.1 (by
            have := hx.2
            dsimp only at this
            omega) (hkeep x hkx)
        have hinit : Within keep s₁ (initialized s₁ (last.merge ⟨a, len - 17, true⟩) 0) :=
          within_initialized fun x hlo hhi => (hfree hm.1).merge hnew hm.2.2 x ⟨hlo, by
            simp only [Block.merge] at hhi ⊢
            omega⟩
        refine ⟨last.addr, _, ?_, hne, hspared.trans hinit.toSpared, ?_, rfl, rfl, rfl⟩
        · rw [run_bind_of_ok (run_tryMerge_yes hpair hm)]
          rfl
        · simpa [hm, Place.fill] using hmerged
      · refine ⟨a, s₁, ?_, ha, by simpa [hm] using hgrown⟩
        rw [run_bind_of_ok (run_tryMerge_no hpair hm)]
        exact hnext

end LowLevel.Interface
