import LowLevel.Model.Recut
import LowLevel.Interface.HeapRuns

/-!
# How free memory is cut cannot be seen

Two heaps whose chains coalesce to the same chains answer every later sequence of calls
alike: the same pointers, the same null pointers, the same calls of `mmap`. Freeing a set
of live blocks in two orders leaves two such heaps.
-/

set_option autoImplicit false

namespace LowLevel.Analysis

open LowLevel.Library LowLevel.Model LowLevel.Interface LowLevel.Program.Allocator

variable {s s₁ s₂ : State} {live : List Allocation} {w w₁ w₂ : World}

/-- The live allocations in two heaps that are tracked at once. -/
structure Twins (s₁ s₂ : State) (live : List Allocation) (w₁ w₂ : World) : Prop where
  left : Tracks s₁ live w₁
  right : Tracks s₂ live w₂
  alike : World.Alike w₁ w₂

/-- A tracked world has a sound layout. -/
theorem layout_of_tracks (h : Tracks s live w) : Layout w.chains w.mapped := by
  rw [← h.refines.mapped_eq]
  exact h.refines.represents.layout

/-- The state machine does the same in alike worlds. -/
theorem Twins.sameOutcome (h : Twins s₁ s₂ live w₁ w₂) {c : Call} (hc : c.Admissible live) :
    World.SameOutcome (doCall w₁ c) (doCall w₂ c) := by
  have h₁ := layout_of_tracks h.left
  have h₂ := layout_of_tracks h.right
  cases c with
  | malloc q => exact h.alike.malloc h₁ h₂
  | free p =>
      obtain ⟨a, ha, rfl⟩ := hc
      obtain ⟨b, hb, hfree, hab⟩ := h.left.backed.exists_block ha
      have haddr : a.ptr - 17 = b.addr := by have := hab.1; omega
      refine ⟨rfl, rfl, ?_⟩
      simp only [doCall, haddr]
      exact h.alike.release h₁ h₂ (mem_taken.mpr ⟨hb, hfree⟩)

/-- **One call**: what it does in one heap it does in the other. -/
theorem Twins.step (h : Twins s₁ s₂ live w₁ w₂) {e : Event} {s₁' : State}
    (he : e.call.Admissible live) (hfit : FitsSize e.call) (htakes : e.Takes s₁ s₁') :
    ∃ s₂' w₁' w₂', e.Takes s₂ s₂' ∧ Twins s₁' s₂' (e.call.after live e.result) w₁' w₂' := by
  obtain ⟨heq, h₁', -⟩ := h.left.step he hfit htakes
  obtain ⟨s₂', htakes₂, h₂', -⟩ := settles_call h.right he hfit
  have hsame := h.sameOutcome he
  have hevent : (⟨e.call, (doCall w₂ e.call).ptr, (doCall w₂ e.call).requests⟩ : Event) = e := by
    rw [← hsame.ptr_eq, ← hsame.requests_eq, ← heq]
  rw [hevent] at htakes₂
  rw [show (doCall w₂ e.call).ptr = e.result by rw [← hsame.ptr_eq]; rw [heq]] at h₂'
  exact ⟨s₂', _, _, htakes₂, h₁', h₂', hsame.alike⟩

/-- Every run of `_malloc` and `_free` from `s₁` is a run from `s₂`, event for event, and
every call to come returns in both with the same event. -/
def Indistinguishable (s₁ s₂ : State) (live : List Allocation) : Prop :=
  ∀ (trace : List Event) (s₁' : State) (live' : List Allocation),
    Run (fun _ c => FitsSize c) s₁ live trace s₁' live' →
    ∃ s₂', Run (fun _ c => FitsSize c) s₂ live trace s₂' live' ∧
      ∀ c : Call, c.Admissible live' → FitsSize c →
        ∃ (e : Event) (t₁ t₂ : State), e.call = c ∧ e.Takes s₁' t₁ ∧ e.Takes s₂' t₂

/-- **Runs** of two alike heaps look the same. -/
theorem Twins.indistinguishable (h : Twins s₁ s₂ live w₁ w₂) : Indistinguishable s₁ s₂ live := by
  intro trace s₁' live' hrun
  induction hrun generalizing s₂ w₁ w₂ with
  | done s₁ live =>
      refine ⟨s₂, .done s₂ live, fun c hc hfit => ?_⟩
      obtain ⟨t₁, htakes, -, -⟩ := settles_call h.left hc hfit
      obtain ⟨t₂, -, -, htakes₂, -⟩ := h.step hc hfit htakes
      exact ⟨_, t₁, t₂, rfl, htakes, htakes₂⟩
  | step admissible allowed takes rest ih =>
      obtain ⟨s₂', w₁', w₂', htakes, hnext⟩ := h.step admissible allowed takes
      obtain ⟨s₂'', hrest, hcalls⟩ := ih hnext
      exact ⟨s₂'', .step admissible allowed htakes hrest, hcalls⟩

/-! ## Heaps that are alike -/

/-- Chains that coalesce alike hold the same bytes. -/
theorem depth_flatten_coalesce (chains : List (List Block)) (x : ℕ) :
    depth Block.Holds (chains.map coalesce).flatten x = depth Block.Holds chains.flatten x := by
  induction chains with
  | nil => rfl
  | cons c cs ih =>
      simp only [List.map_cons, List.flatten_cons, depth_append, depth_coalesce, ih]

/-- Tracked heaps whose chains coalesce alike are twins. -/
theorem twins_of_tracks (h₁ : Tracks s₁ live w₁) (h₂ : Tracks s₂ live w₂)
    (hcuts : w₁.chains.map coalesce = w₂.chains.map coalesce)
    (hanswers : w₁.answers = w₂.answers) : Twins s₁ s₂ live w₁ w₂ := by
  have hmain := List.cons.inj hcuts
  refine ⟨h₁, h₂, hmain.1, hmain.2, fun x => ?_, hanswers⟩
  have htiling₁ := (layout_of_tracks h₁).tiling x
  have htiling₂ := (layout_of_tracks h₂).tiling x
  have hdepth : depth Block.Holds w₁.chains.flatten x = depth Block.Holds w₂.chains.flatten x := by
    rw [← depth_flatten_coalesce, hcuts, depth_flatten_coalesce]
  have hiff : ∀ ms : List Mapping, Mapped ms x ↔ 0 < depth Mapping.Holds ms x :=
    fun ms => depth_pos_iff.symm
  rw [hiff, hiff, ← htiling₁, ← htiling₂, hdepth]

/-- Heaps with the same live allocations whose chains coalesce alike are twins. -/
theorem exists_twins {chains₁ chains₂ : List (List Block)} (h₁ : Represents s₁ chains₁)
    (h₂ : Represents s₂ chains₂) (hcuts : chains₁.map coalesce = chains₂.map coalesce)
    (hanswers : s₁.answers = s₂.answers) (hlive : Backed live chains₁) :
    ∃ w₁ w₂, Twins s₁ s₂ live w₁ w₂ := by
  obtain ⟨w₁, rfl, href₁, -, hans₁⟩ := exists_world h₁
  obtain ⟨w₂, rfl, href₂, -, hans₂⟩ := exists_world h₂
  have htaken : taken w₂.chains.flatten = taken w₁.chains.flatten := by
    rw [← taken_flatten_coalesce, ← hcuts, taken_flatten_coalesce]
  obtain ⟨bs, hbs, hbacks⟩ := hlive
  exact ⟨w₁, w₂, twins_of_tracks ⟨href₁, bs, hbs, hbacks⟩ ⟨href₂, bs, htaken ▸ hbs, hbacks⟩
    hcuts (by rw [hans₁, hans₂, hanswers])⟩

/-! ## Freeing in any order -/

/-- Freeing live pointers one after the other coalesces like marking them all. -/
theorem tracks_frees {ps : List ℕ} {trace : List Event} {s' : State} {live' : List Allocation}
    (h : Tracks s live w) (hrun : Run (fun _ c => FitsSize c) s live trace s' live')
    (hcalls : trace.map Event.call = ps.map Call.free) :
    (∀ p ∈ ps, ∃ b ∈ taken w.chains.flatten, b.addr + 17 = p) ∧
      live' = live.filter (·.ptr ∉ ps) ∧ ∃ w', Tracks s' live' w' ∧ w'.answers = w.answers ∧
        w'.chains.map coalesce = w.chains.map fun c => coalesce (mark (ps.map (· - 17)) c) := by
  induction ps generalizing s live w trace with
  | nil =>
      obtain rfl : trace = [] := List.map_eq_nil_iff.mp hcalls
      cases hrun
      refine ⟨by simp, by simp, w, h, rfl, ?_⟩
      refine List.map_congr_left fun c _ => ?_
      simp [mark]
  | cons p ps ih =>
      obtain ⟨e, rest, rfl, hcall, hrest⟩ := List.map_eq_cons_iff.mp hcalls
      cases hrun with
      | step admissible allowed takes rest =>
          obtain ⟨-, hnext, -⟩ := h.step admissible allowed takes
          rw [hcall] at hnext admissible
          obtain ⟨a, ha, haptr⟩ := admissible
          obtain ⟨b, hb, hfree, hab⟩ := h.backed.exists_block ha
          have hp : p = b.addr + 17 := haptr.symm.trans hab.1
          have hworld : (doCall w (.free p)).world = w.release b.addr := by
            rw [hp]
            rfl
          have hlayout := layout_of_tracks h
          rw [hworld] at hnext
          obtain ⟨htaken, hlive, w', htracks, hanswers, hchains⟩ := ih hnext (hcall ▸ rest) hrest
          rw [World.taken_release hlayout] at htaken
          -- the pointers still to be freed are those of other taken blocks
          have hothers : ∀ a ∈ ps.map (· - 17), ∃ c ∈ taken w.chains.flatten,
              c.addr = a ∧ c.addr ≠ b.addr := by
            intro a ha
            obtain ⟨p', hp', rfl⟩ := List.mem_map.mp ha
            obtain ⟨c, hc, hcp⟩ := htaken p' hp'
            rw [List.mem_filter] at hc
            exact ⟨c, hc.1, by omega, by simpa using hc.2⟩
          refine ⟨?_, ?_, w', htracks, hanswers, ?_⟩
          · rintro p' hp'
            rcases List.mem_cons.mp hp' with rfl | hp'
            · exact ⟨b, mem_taken.mpr ⟨hb, hfree⟩, hp.symm⟩
            · obtain ⟨c, hc, hcp⟩ := htaken p' hp'
              exact ⟨c, (List.mem_filter.mp hc).1, hcp⟩
          · rw [hlive, Call.after, List.filter_filter]
            refine List.filter_congr fun a _ => ?_
            simp only [List.mem_cons, not_or, ne_eq, Bool.decide_and]
            rw [Bool.and_comm]
          · have htakenAt : ∀ c ∈ w.chains, TakenAt (ps.map (· - 17)) c := fun c hc =>
              World.takenAt_of_mem hlayout
                (fun a ha => (hothers a ha).imp fun c hc => ⟨hc.1, hc.2.1⟩) hc
            have hnotin : b.addr ∉ ps.map (· - 17) := fun hmem => by
              obtain ⟨c, -, hca, hne⟩ := hothers b.addr hmem
              exact hne hca
            rw [hchains, World.coalesce_mark_release hlayout htakenAt hnotin]
            refine List.map_congr_left fun c _ => ?_
            rw [List.map_cons, hp, Nat.add_sub_cancel]

/-- Live pointers can be freed in any order. -/
theorem exists_frees {ps : List ℕ} (h : Tracks s live w) (hnodup : ps.Nodup)
    (hlive : ∀ p ∈ ps, ∃ a ∈ live, a.ptr = p) :
    ∃ trace s' live', Run (fun _ c => FitsSize c) s live trace s' live' ∧
      trace.map Event.call = ps.map Call.free := by
  induction ps generalizing s live w with
  | nil => exact ⟨[], s, live, .done s live, rfl⟩
  | cons p ps ih =>
      rw [List.nodup_cons] at hnodup
      have hadmissible : (Call.free p).Admissible live := hlive p (by simp)
      have hfits : FitsSize (.free p) := trivial
      obtain ⟨s₁, htakes, htracks, -⟩ := settles_call h hadmissible hfits
      obtain ⟨trace, s', live', hrun, hcalls⟩ := ih htracks hnodup.2 fun p' hp' => by
        obtain ⟨a, ha, rfl⟩ := hlive p' (by simp [hp'])
        refine ⟨a, List.mem_filter.mpr ⟨ha, ?_⟩, rfl⟩
        simpa using fun heq : a.ptr = p => hnodup.1 (heq ▸ hp')
      exact ⟨_, s', live', .step hadmissible hfits htakes hrun, by
        rw [List.map_cons, hcalls, List.map_cons]⟩

/-- **The order of frees** cannot be seen. -/
theorem frees_indistinguishable {ps ps' : List ℕ} {trace trace' : List Event}
    {live₁ live₂ : List Allocation} (h : Tracks s live w) (hperm : ps.Perm ps')
    (hrun : Run (fun _ c => FitsSize c) s live trace s₁ live₁)
    (hcalls : trace.map Event.call = ps.map Call.free)
    (hrun' : Run (fun _ c => FitsSize c) s live trace' s₂ live₂)
    (hcalls' : trace'.map Event.call = ps'.map Call.free) :
    live₁ = live₂ ∧ Indistinguishable s₁ s₂ live₁ := by
  obtain ⟨-, hlive₁, w₁, htracks₁, hanswers₁, hchains₁⟩ := tracks_frees h hrun hcalls
  obtain ⟨-, hlive₂, w₂, htracks₂, hanswers₂, hchains₂⟩ := tracks_frees h hrun' hcalls'
  have hlive : live₁ = live₂ := by
    rw [hlive₁, hlive₂]
    refine List.filter_congr fun a _ => ?_
    simp only [hperm.mem_iff]
  have hcuts : w₁.chains.map coalesce = w₂.chains.map coalesce := by
    rw [hchains₁, hchains₂]
    refine List.map_congr_left fun c _ => ?_
    rw [mark_congr (fun a => (hperm.map (· - 17)).mem_iff) c]
  subst hlive
  exact ⟨rfl, (twins_of_tracks htracks₁ htracks₂ hcuts
    (hanswers₁.trans hanswers₂.symm)).indistinguishable⟩

/-- **Cuts of free memory are unobservable**. Two heaps with the same live allocations,
whose chains coalesce to the same chains, cannot be told apart by later calls in which no
size wraps; and freeing live pointers in two orders leaves two such heaps. -/
theorem cuts_unobservable :
    (∀ (s₁ s₂ : State) (chains₁ chains₂ : List (List Block)) (live : List Allocation),
      Represents s₁ chains₁ → Represents s₂ chains₂ →
      chains₁.map coalesce = chains₂.map coalesce → s₁.answers = s₂.answers →
      Backed live chains₁ → Indistinguishable s₁ s₂ live) ∧
    (∀ (s : State) (chains : List (List Block)) (live : List Allocation) (ps ps' : List ℕ),
      Represents s chains → Backed live chains → ps.Nodup → ps.Perm ps' →
      (∀ p ∈ ps, ∃ a ∈ live, a.ptr = p) →
      ∃ trace trace' s₁ s₂ live',
        Run (fun _ c => FitsSize c) s live trace s₁ live' ∧
        trace.map Event.call = ps.map Call.free ∧
        Run (fun _ c => FitsSize c) s live trace' s₂ live' ∧
        trace'.map Event.call = ps'.map Call.free ∧ Indistinguishable s₁ s₂ live') := by
  constructor
  · intro s₁ s₂ chains₁ chains₂ live h₁ h₂ hcuts hanswers hlive
    obtain ⟨w₁, w₂, htwins⟩ := exists_twins h₁ h₂ hcuts hanswers hlive
    exact htwins.indistinguishable
  · intro s chains live ps ps' h hbacked hnodup hperm hlive
    obtain ⟨w, rfl, href, -, -⟩ := exists_world h
    obtain ⟨trace, s₁, live₁, hrun, hcalls⟩ := exists_frees ⟨href, hbacked⟩ hnodup hlive
    obtain ⟨trace', s₂, live₂, hrun', hcalls'⟩ := exists_frees ⟨href, hbacked⟩
      (hperm.nodup_iff.mp hnodup) fun p hp => hlive p (hperm.mem_iff.mpr hp)
    obtain ⟨rfl, hsame⟩ :=
      frees_indistinguishable ⟨href, hbacked⟩ hperm hrun hcalls hrun' hcalls'
    exact ⟨trace, trace', s₁, s₂, live₁, hrun, hcalls, hrun', hcalls', hsame⟩

/-- The fresh heap with its one block cut in two. -/
def splitProcess : State :=
  initialized (initialized (startedProcess []) ⟨heapStart, 24, true⟩ (heapStart + 41))
    ⟨heapStart + 41, 8134, true⟩ 0

theorem represents_splitProcess :
    Represents splitProcess [[⟨heapStart, 24, true⟩, ⟨heapStart + 41, 8134, true⟩]] :=
  have h := (refines_startedProcess []).represents
  (Stands.split (p := ⟨[], [], [], []⟩) (b := ⟨heapStart, 8175, true⟩) h.stands (by decide)
    (by decide)).represents
    (Layout.split (p := ⟨[], [], [], []⟩) (b := ⟨heapStart, 8175, true⟩) h.layout (by decide)
      (by decide) true)

/-- A fresh heap and the same heap cut in two; and two requests freed in two orders. -/
theorem cuts_unobservable_fresh_heap :
    Indistinguishable (startedProcess []) splitProcess [] ∧
    ∃ (s : State) (live live' : List Allocation) (ps : List ℕ) (s₁ s₂ : State)
      (trace trace' : List Event), ps.length = 2 ∧
      Run (fun _ c => FitsSize c) s live trace s₁ live' ∧
      trace.map Event.call = ps.map Call.free ∧
      Run (fun _ c => FitsSize c) s live trace' s₂ live' ∧
      trace'.map Event.call = ps.reverse.map Call.free ∧ Indistinguishable s₁ s₂ live' := by
  refine ⟨cuts_unobservable.1 _ _ _ _ [] (refines_startedProcess []).represents
    represents_splitProcess (by decide) rfl (tracks_startedProcess []).backed, ?_⟩
  obtain ⟨s₁, -, h₁, -⟩ := settles_call (tracks_startedProcess []) (c := .malloc 24)
    (by unfold Call.Admissible; decide) (by unfold FitsSize; decide)
  obtain ⟨s₂, -, h₂, -⟩ := settles_call h₁ (c := .malloc 24)
    (by unfold Call.Admissible; decide) (by unfold FitsSize; decide)
  have hfirst : doCall (startedWorld []) (.malloc 24) = ⟨heapStart + 17,
      ⟨[⟨heapStart, 24, false⟩, ⟨heapStart + 41, 8134, true⟩], [], [⟨heapStart, 8192⟩], []⟩,
      []⟩ := by
    simp [doCall, World.malloc, World.serve, startedWorld, search, absorb, regionMinSize, SIZE,
      heapStart, Search.allocate, Block.carve]
  rw [hfirst] at h₂
  have hptr : (doCall ⟨[⟨heapStart, 24, false⟩, ⟨heapStart + 41, 8134, true⟩], [],
      [⟨heapStart, 8192⟩], []⟩ (.malloc 24)).ptr = heapStart + 58 := by
    simp [doCall, World.malloc, World.serve, search, absorb, SIZE, heapStart, Search.pass]
  have hlive := h₂.backed
  simp only [hptr] at hlive
  obtain ⟨trace, trace', t₁, t₂, live', hrun, hcalls, hrun', hcalls', hsame⟩ :=
    cuts_unobservable.2 s₂ _ _ [heapStart + 17, heapStart + 58] [heapStart + 58, heapStart + 17]
      h₂.refines.represents hlive (by decide) (List.Perm.swap _ _ _) (by decide)
  exact ⟨s₂, _, live', _, t₁, t₂, trace, trace', rfl, hrun, hcalls, hrun', hcalls', hsame⟩

end LowLevel.Analysis
