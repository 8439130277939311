import LowLevel.Interface.HeapLifetime
import LowLevel.Interface.HeapRuns

/-!
# A heap that is not at `HEAP_START`

`heap_init` asks for its region at `HEAP_START` and takes what it is given, but `_malloc` and
`heap_term` start at `HEAP_START` whatever it returned. When the fallback region does not hold
that address, the next of these calls stops with a segmentation fault. Otherwise no call before
`heap_term` and not `heap_term` itself reads or stores a header that is not mapped, whatever
`mmap` answers.
-/

set_option autoImplicit false

namespace LowLevel.Analysis

open LowLevel.Library LowLevel.Model LowLevel.Interface LowLevel.Program.Allocator

variable {s₀ s s' : State} {live live' : Option (List Allocation)} {initial r : ℕ}

/-! ## The calls after `heap_init` -/

/-- The call may be made: only live pointers are freed, and only those returned for a request
whose size does not wrap; after `heap_term` nothing is left to call. -/
def Meets : Option (List Allocation) → HeapCall → Prop
  | some _, .client (.malloc _) => True
  | some live, .client (.free ptr) => ptr = 0 ∨ ∃ a ∈ live, a.ptr = ptr ∧ NonWrapping a.size
  | some _, .term => True
  | none, c => c = .client (.free 0)

/-- A sequence of such calls, each of which returns. -/
inductive Lifetime (s : State) : State → Option (List Allocation) → Prop
  | start : Lifetime s s (some [])
  | step {s₁ s₂ : State} {live : Option (List Allocation)} {c : HeapCall} {a : ℕ}
      (before : Lifetime s s₁ live) (meets : Meets live c)
      (returns : Settles (fun n => c.perform n) s₁ a s₂) : Lifetime s s₂ (c.after live a)

/-- What the calls keep: a usable heap, and after `heap_term` nothing mapped at `HEAP_START`. -/
def Alive (s : State) : Option (List Allocation) → Prop
  | some live => Usable s live
  | none => ∀ i < getpagesize, ¬ Mapped s.mapped (heapStart + i)

/-- **One call** returns and keeps this. -/
theorem Alive.call (h : Alive s live) {c : HeapCall} (hmeets : Meets live c) :
    ∃ a s', Settles (fun n => c.perform n) s a s' ∧ Alive s' (c.after live a) := by
  have hnull : Settles (fun n => (HeapCall.client (.free 0)).perform n) s 0 s :=
    settles_free_null.bind (Settles.of_run rfl)
  cases live with
  | none =>
      obtain rfl : c = .client (.free 0) := hmeets
      exact ⟨0, s, hnull, h⟩
  | some live =>
      cases c with
      | term =>
          obtain ⟨s', hrun, hunmapped⟩ := Usable.term h
          exact ⟨0, s', hrun.bind (Settles.of_run rfl), hunmapped⟩
      | client call =>
          cases call with
          | malloc q =>
              obtain ⟨a, s', hrun, husable⟩ := Usable.malloc h q
              exact ⟨a, s', hrun, husable⟩
          | free ptr =>
              rcases hmeets with rfl | ⟨a, ha, rfl, hfit⟩
              · exact ⟨0, s, hnull, Usable.free_null h⟩
              · obtain ⟨s', hrun, husable⟩ := Usable.free h ha hfit
                exact ⟨0, s', hrun.bind (Settles.of_run rfl), husable⟩

/-- **Every run** keeps it. -/
theorem Alive.run (h : Usable s []) (hrun : Lifetime s s' live) : Alive s' live := by
  induction hrun with
  | start => exact h
  | step before meets returns ih =>
      obtain ⟨a, s', hcall, halive⟩ := ih.call meets
      obtain ⟨rfl, rfl⟩ := returns.unique hcall
      exact halive

/-! ## What `heap_init` leaves -/

/-- A region is made of whole pages. -/
theorem regionActualSize_aligned (query : ℕ) : regionActualSize query % getpagesize = 0 := by
  unfold regionActualSize sizeMax roundPages pagesCount getpagesize SIZE regionMinSize
  split_ifs <;> omega

/-- The state after `heap_init` returned a region, in a process without mappings. -/
theorem exists_region (hmapped : s₀.mapped = [])
    (hinit : (heapInit initial).run s₀ = .ok (r, s)) (hr : r ≠ 0) :
    ∃ g len, s = regionState s₀ g r len ∧ s.mapped = [⟨r, len⟩] ∧
      r % getpagesize = 0 ∧ len % getpagesize = 0 ∧ 24 ≤ len ∧ r + len ≤ 2 ^ 64 := by
  have hrun := run_heapInit (s := s₀) initial
  simp only at hrun
  cases hg : (growth s₀.mapped s₀.answers heapStart
      (regionActualSize ((initial + 17) % SIZE))).region with
  | none =>
      rw [hg, hinit, Except.ok.injEq, Prod.mk.injEq] at hrun
      exact absurd hrun.1 hr
  | some region =>
      obtain ⟨a, ext⟩ := region
      rw [hg, hinit, Except.ok.injEq, Prod.mk.injEq] at hrun
      obtain ⟨rfl, rfl⟩ := hrun
      have hgrant := grantable_of_growth hg
      have hlen : 8192 ≤ regionActualSize ((initial + 17) % SIZE) := regionMinSize_le _
      refine ⟨_, _, rfl, ?_, hgrant.2.1, regionActualSize_aligned _, by omega, hgrant.2.2.1⟩
      show _ :: s₀.mapped = _
      rw [hmapped]

/-- A header of zeros: a taken block without contents, the last of its chain. -/
theorem headerAt_zero {m : Mem} {addr : ℕ} (h : ∀ i < 17, m (addr + i) = 0) :
    HeaderAt m ⟨addr, 0, false⟩ 0 := by
  have hread : ∀ k n, k + n ≤ 17 → readNat m (addr + k) n = 0 := by
    intro k n hk
    refine readNat_eq_zero fun i hi => ?_
    rw [Nat.add_assoc]
    exact h (k + i) (by omega)
  exact ⟨hread 0 8 (by norm_num), hread 8 8 (by norm_num), by
    show (readNat m (addr + 16) 1 != 0) = false
    rw [hread 16 1 (by norm_num)]
    rfl⟩

/-- **`heap_init`** leaves a usable heap when its region holds `HEAP_START`. If the region does
not start there, `HEAP_START` lies in its untouched pages, which read as a block without
contents. -/
theorem usable_heapInit (hmapped : s₀.mapped = []) (hzero : ∀ x, s₀.mem x = 0)
    (hinit : (heapInit initial).run s₀ = .ok (r, s)) (hr : r ≠ 0)
    (hroot : Mapped s.mapped heapStart) : Usable s [] := by
  by_cases hstart : r = heapStart
  · subst hstart
    obtain ⟨len, answers, -, hrefines⟩ := refines_heapInit hmapped hinit
    refine ⟨_, [], hrefines.represents.stands, rfl, fun bs hbs => ?_, nofun⟩
    obtain rfl := List.mem_singleton.mp hbs
    exact .singleton _
  · obtain ⟨g, len, hs, hregion, halign, hpages, hlow, hhigh⟩ := exists_region hmapped hinit hr
    -- the region starts and ends with a page, and so does `HEAP_START`
    have hin : r + 4096 ≤ heapStart ∧ heapStart + 4096 ≤ r + len := by
      rw [hregion] at hroot
      obtain ⟨m, hm, hmx⟩ := hroot
      obtain rfl := List.mem_singleton.mp hm
      unfold Mapping.Holds at hmx
      unfold getpagesize at halign hpages
      unfold heapStart at *
      dsimp only at hmx
      omega
    have hheader : HeaderAt s.mem ⟨heapStart, 0, false⟩ 0 := by
      refine headerAt_zero fun i hi => ?_
      rw [hs]
      refine (writeBytes_of_outside ?_).trans (hzero _)
      rw [length_headerBytes]
      dsimp only
      omega
    have hsound : Sound [[⟨heapStart, 0, false⟩]] s.mapped := by
      refine ⟨fun x => ?_, fun b hb x hx => ?_, fun b hb => ?_, fun b hb => ?_⟩
      · simp only [List.flatten_cons, List.flatten_nil, List.append_nil, depth_cons, depth_nil]
        split_ifs <;> omega
      · obtain rfl : b = ⟨heapStart, 0, false⟩ := by simpa using hb
        rw [hregion]
        refine ⟨⟨r, len⟩, List.mem_singleton_self _, ?_⟩
        unfold Block.Holds at hx
        unfold Mapping.Holds
        dsimp only at hx ⊢
        omega
      · obtain rfl : b = ⟨heapStart, 0, false⟩ := by simpa using hb
        decide
      · obtain rfl : b = ⟨heapStart, 0, false⟩ := by simpa using hb
        decide
    refine ⟨[⟨heapStart, 0, false⟩], [], ⟨hsound, fun c hc => ?_⟩, rfl, fun bs hbs => ?_, nofun⟩
    · obtain rfl := List.mem_singleton.mp hc
      exact ⟨hheader, trivial⟩
    · obtain rfl := List.mem_singleton.mp hbs
      exact .singleton _

/-- Where the region of `heap_init` does not hold `HEAP_START`, it holds no byte of that page. -/
theorem not_mapped_page (hmapped : s₀.mapped = [])
    (hinit : (heapInit initial).run s₀ = .ok (r, s)) (hr : r ≠ 0)
    (hroot : ¬ Mapped s.mapped heapStart) :
    ∀ i < getpagesize, ¬ Mapped s.mapped (heapStart + i) := by
  obtain ⟨g, len, -, hregion, halign, hpages, -, -⟩ := exists_region hmapped hinit hr
  rintro i hi ⟨m, hm, hmx⟩
  rw [hregion] at hm hroot
  obtain rfl := List.mem_singleton.mp hm
  refine hroot ⟨⟨r, len⟩, List.mem_singleton_self _, ?_⟩
  unfold Mapping.Holds at hmx ⊢
  unfold getpagesize at *
  unfold heapStart at *
  dsimp only at hmx ⊢
  omega

/-! ## Every header that is accessed is mapped -/

/-- No call of any sequence accesses a header that is not mapped: each returns. -/
def AccessesMapped (s : State) : Prop :=
  ∀ s' live, Lifetime s s' live → ∀ c, Meets live c →
    ∃ a s'', Settles (fun n => c.perform n) s' a s''

/-- `_malloc` and `heap_term` stop with a segmentation fault at the header at `HEAP_START`. -/
def FaultsAtRoot (s : State) : Prop :=
  (∀ n q, (malloc (n + 1) q).run s = .error (.segv (heapStart + 16))) ∧
    ∀ n, (heapTerm (n + 2)).run s = .error (.segv heapStart)

theorem faultsAtRoot (h : ∀ i < getpagesize, ¬ Mapped s.mapped (heapStart + i)) :
    FaultsAtRoot s :=
  ⟨fun n q => run_malloc_unmapped (h 16 (by decide)) n q,
    fun n => run_heapTerm_unmapped (h 0 (by decide)) n⟩

/-- **A heap that is not at `HEAP_START`**. For every behaviour of `mmap`, in a process without
mappings whose fresh pages read as zero: after `heap_init` returned a region, every call of every
sequence of calls returns, so that every header that is read or stored to is mapped, if and only
if the region holds `HEAP_START`. If it does not, and after `heap_term`, `_malloc` and
`heap_term` stop at `HEAP_START`. -/
theorem accessesMapped_iff (hmapped : s₀.mapped = []) (hzero : ∀ x, s₀.mem x = 0)
    (hinit : (heapInit initial).run s₀ = .ok (r, s)) (hr : r ≠ 0) :
    (AccessesMapped s ↔ Mapped s.mapped heapStart) ∧
      (¬ Mapped s.mapped heapStart → FaultsAtRoot s) ∧
      (Mapped s.mapped heapStart → ∀ s', Lifetime s s' none → FaultsAtRoot s') := by
  have hfaults : ¬ Mapped s.mapped heapStart → FaultsAtRoot s := fun hroot =>
    faultsAtRoot (not_mapped_page hmapped hinit hr hroot)
  refine ⟨⟨fun hsafe => ?_, fun hroot s' live hrun c hmeets => ?_⟩, hfaults,
    fun hroot s' hrun => ?_⟩
  · by_contra hroot
    obtain ⟨a, s', n₀, hn₀⟩ := hsafe s (some []) .start (.client (.malloc 0)) trivial
    have hboth := ((hfaults hroot).1 n₀ 0).symm.trans (hn₀ (n₀ + 1) (by omega))
    cases hboth
  · have halive := Alive.run (usable_heapInit hmapped hzero hinit hr hroot) hrun
    obtain ⟨a, s'', hcall, -⟩ := halive.call hmeets
    exact ⟨a, s'', hcall⟩
  · exact faultsAtRoot (Alive.run (usable_heapInit hmapped hzero hinit hr hroot) hrun)

/-- The kernel refuses `HEAP_START` and hands out the pages at `0x10000000`. -/
theorem fallback_faults :
    ∃ s, (heapInit 100).run (blankProcess [none, some 0x10000000]) = .ok (0x10000000, s) ∧
      ¬ AccessesMapped s ∧ FaultsAtRoot s := by
  have hgrowth : growth [] [none, some 0x10000000] heapStart regionMinSize =
      ⟨some (0x10000000, false), [⟨heapStart, regionMinSize, true⟩,
        ⟨heapStart, regionMinSize, false⟩], []⟩ := rfl
  have hrun := run_heapInit (s := blankProcess [none, some 0x10000000]) 100
  rw [show regionActualSize ((100 + 17) % SIZE) = regionMinSize from rfl] at hrun
  simp only [blankProcess, hgrowth] at hrun
  have hroot : ¬ Mapped [⟨0x10000000, regionMinSize⟩] heapStart := by decide
  obtain ⟨hiff, hfaults, -⟩ := accessesMapped_iff rfl (fun _ => rfl) hrun (by decide)
  exact ⟨_, hrun, fun hsafe => hroot (hiff.mp hsafe), hfaults hroot⟩

/-- On a heap that was placed at `HEAP_START` every access is mapped. -/
theorem accessesMapped_started : AccessesMapped (startedProcess []) := by
  have hroot : Mapped (startedProcess []).mapped heapStart := by decide
  exact (accessesMapped_iff rfl (fun _ => rfl) (run_heapInit_blank []) (by decide)).1.mpr hroot

end LowLevel.Analysis
