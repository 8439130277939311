import Mathlib.Data.List.Forall2
import LowLevel.Model.Accounting
import LowLevel.Program.AllocatorRuns
import LowLevel.Interface.HeapMalloc

/-!
# Runs of the allocator follow runs of the state machine

`Tracks s live w` is the invariant of a run in which no size wraps: the process refines
the world `w`, and the live allocations are the taken blocks of `w`, each block big enough
for its request. Every admissible call returns, keeps the invariant, does what the state
machine does and stores to no payload but the one it frees (`settles_call`).
-/

set_option autoImplicit false

namespace LowLevel.Interface

open LowLevel.Library LowLevel.Model LowLevel.Program.Allocator

/-! ## Live allocations and taken blocks -/

/-- The block `b` was handed out for the allocation `a`. -/
def Backs (a : Allocation) (b : Block) : Prop := a.ptr = b.addr + 17 ∧ a.size ≤ b.cap

/-- The live allocations are the taken blocks, each counted once. -/
def Backed (live : List Allocation) (chains : List (List Block)) : Prop :=
  ∃ bs : List Block, bs.Perm (taken chains.flatten) ∧ List.Forall₂ Backs live bs

section Backed

variable {chains chains' : List (List Block)} {mapped : List Mapping}
variable {live : List Allocation} {a : Allocation} {b : Block}

/-- The block of a live allocation. -/
theorem Backed.exists_block (h : Backed live chains) (ha : a ∈ live) :
    ∃ b ∈ chains.flatten, b.free = false ∧ Backs a b := by
  obtain ⟨bs, hperm, hbacks⟩ := h
  obtain ⟨i, hi, rfl⟩ := List.getElem_of_mem ha
  have hi' : i < bs.length := by rw [← hbacks.length_eq]; exact hi
  have hmem := mem_taken.mp (hperm.mem_iff.mp (List.getElem_mem hi'))
  exact ⟨bs[i], hmem.1, hmem.2, hbacks.get hi hi'⟩

/-- The payload of an allocation is in the contents of its block. -/
theorem Backs.inContents (h : Backs a b) {x : ℕ} (hx : a.Holds x) : b.InContents x := by
  obtain ⟨hptr, hsize⟩ := h
  unfold Allocation.Holds at hx
  unfold Block.InContents
  omega

/-- A new taken block backs a new allocation. -/
theorem Backed.cons (h : Backed live chains) (hab : Backs a b)
    (hperm : (taken chains'.flatten).Perm (b :: taken chains.flatten)) :
    Backed (a :: live) chains' := by
  obtain ⟨bs, hbs, hbacks⟩ := h
  exact ⟨b :: bs, (hbs.cons b).trans hperm.symm, hbacks.cons hab⟩

/-- Removing a taken block removes its allocation. -/
theorem Backed.filter (h : Backed live chains) (addr : ℕ)
    (htaken : taken chains'.flatten = (taken chains.flatten).filter (·.addr ≠ addr)) :
    Backed (live.filter (·.ptr ≠ addr + 17)) chains' := by
  obtain ⟨bs, hbs, hbacks⟩ := h
  refine ⟨bs.filter (·.addr ≠ addr), by rw [htaken]; exact hbs.filter _, ?_⟩
  refine List.rel_filter (fun {a b} hab => ?_) hbacks
  have := hab.1
  simp only [ne_eq, decide_eq_true_eq]
  omega

/-- Payloads of different live allocations share no byte. -/
theorem Backed.pairwise (h : Backed live chains) (hlayout : Layout chains mapped) :
    live.Pairwise fun a a' => ∀ x, a.Holds x → ¬ a'.Holds x := by
  obtain ⟨bs, hbs, hbacks⟩ := h
  have hpair : bs.Pairwise fun b c => ∀ x, b.Holds x → ¬ c.Holds x := by
    refine (hbs.pairwise_iff fun {b c} hbc x hc hb => hbc x hb hc).mpr ?_
    exact hlayout.sound.pairwise.filter _
  clear hbs
  induction hbacks with
  | nil => exact List.Pairwise.nil
  | @cons a b live bs hab hrest ih =>
      rw [List.pairwise_cons] at hpair ⊢
      refine ⟨fun a' ha' x hx hx' => ?_, ih hpair.2⟩
      obtain ⟨i, hi, rfl⟩ := List.getElem_of_mem ha'
      have hi' : i < bs.length := by rw [← hrest.length_eq]; exact hi
      have hholds : ∀ {c : Block}, c.InContents x → c.Holds x := fun hc =>
        ⟨by have := hc.1; omega, hc.2⟩
      exact hpair.1 bs[i] (List.getElem_mem hi') x (hholds (hab.inContents hx))
        (hholds ((hrest.get hi hi').inContents hx'))

end Backed

/-! ## One call -/

/-- What the state machine does at a call. -/
def doCall (w : World) : Call → World.Outcome
  | .malloc query => w.malloc query
  | .free ptr => ⟨0, w.release (ptr - 17), []⟩

/-- The size of the request does not wrap. -/
def FitsSize : Call → Prop
  | .malloc query => NonWrapping query
  | .free _ => True

/-- The byte at `x` is in a live payload that the call does not free. -/
def Protected (live : List Allocation) (c : Call) (x : ℕ) : Prop :=
  ∃ a ∈ live, c ≠ .free a.ptr ∧ a.Holds x

/-- The process is in the state `w` of the machine, whose taken blocks are the live
allocations. -/
structure Tracks (s : State) (live : List Allocation) (w : World) : Prop where
  refines : Refines s w
  backed : Backed live w.chains

variable {s s' : State} {live live' : List Allocation} {w : World}

/-- A heap that was just started has no live allocation. -/
theorem tracks_started (h : Started s) : ∃ w, Tracks s [] w := by
  obtain ⟨s₀, initial, hmapped, -, hrun⟩ := h
  obtain ⟨len, answers, -, hrefines⟩ := refines_heapInit hmapped hrun
  exact ⟨_, hrefines, [], by simp [taken, World.chains], List.Forall₂.nil⟩

/-- The allocations after `_malloc` did what the state machine does. -/
theorem backed_malloc {q : ℕ} (hback : Backed live w.chains) (h : Layout w.chains w.mapped)
    (h' : Layout (w.malloc q).world.chains (w.malloc q).world.mapped) (hfit : NonWrapping q) :
    Backed ((Call.malloc q).after live (w.malloc q).ptr) (w.malloc q).world.chains := by
  have hroomy := World.roomy_of_nonWrapping (nonWrapping_max.mpr hfit)
  have hworld : (w.malloc q).world = (w.serve (max q 24)).world := rfl
  rcases World.serve_spec h hroomy with hrefused | ⟨b, hserved⟩
  · have hptr : (w.malloc q).ptr = 0 := by simp only [World.malloc, hrefused.ptr_eq, if_true]
    obtain ⟨bs, hbs, hbacks⟩ := hback
    rw [hptr, hworld]
    exact ⟨bs, by rw [hrefused.taken_eq]; exact hbs, hbacks⟩
  · have hb : b ∈ (w.malloc q).world.chains.flatten := by
      have := hserved.taken_perm.mem_iff (a := b)
      exact (mem_taken.mp (this.mpr (by simp))).1
    have hlow := h'.low b hb
    have hcap := h'.cap b hb
    have hhigh := h'.high b hb
    have hptr : (w.malloc q).ptr = b.addr + 17 := by
      simp only [World.malloc, hserved.ptr_eq]
      unfold SIZE
      rw [if_neg (by omega)]
      omega
    rw [hptr, Call.after, if_neg (show b.addr + 17 ≠ 0 by omega)]
    exact hback.cons ⟨rfl, (le_max_left q 24).trans hserved.le_cap⟩ hserved.taken_perm

/-- **One call** of a run in which no size wraps: it returns, the process follows the
state machine, and no live payload is stored to but the one that is freed. -/
theorem settles_call (h : Tracks s live w) {c : Call} (hc : c.Admissible live)
    (hfit : FitsSize c) :
    ∃ s', Event.Takes ⟨c, (doCall w c).ptr, (doCall w c).requests⟩ s s' ∧
      Tracks s' (c.after live (doCall w c).ptr) (doCall w c).world ∧
      Spared (Protected live c) s s' := by
  have hlayout := h.refines.represents.layout
  have hprotected : ∀ x, Protected live c x → TakenContents w.chains x := by
    rintro x ⟨a, ha, -, hx⟩
    obtain ⟨b, hb, hfree, hab⟩ := h.backed.exists_block ha
    exact ⟨b, hb, hfree, hab.inContents hx⟩
  cases c with
  | malloc q =>
      obtain ⟨s', hrun, hserves⟩ := settles_malloc q h.refines
      refine ⟨s', ⟨hrun, hserves.requests_eq⟩, ⟨hserves.refines, ?_⟩,
        hserves.toSpared.mono hprotected⟩
      have hlayout' := hserves.refines.represents.layout
      rw [hserves.refines.mapped_eq] at hlayout'
      rw [h.refines.mapped_eq] at hlayout
      exact backed_malloc h.backed hlayout hlayout' hfit
  | free p =>
      obtain ⟨a, ha, rfl⟩ := hc
      obtain ⟨b, hb, hfree, hab⟩ := h.backed.exists_block ha
      obtain ⟨s', hrun, hrefines, hrequests, hspared⟩ := settles_free h.refines hb
      have haddr : a.ptr - 17 = b.addr := by have := hab.1; omega
      refine ⟨s', ⟨?_, by simpa [doCall] using hrequests⟩, ⟨?_, ?_⟩, hspared.mono ?_⟩
      · rw [← hab.1] at hrun
        exact hrun.bind (g := fun _ _ => pure 0) (Settles.of_run rfl)
      · simp only [doCall, haddr]
        exact hrefines
      · simp only [doCall, Call.after, hab.1]
        refine h.backed.filter b.addr (World.taken_release ?_)
        rw [← h.refines.mapped_eq]
        exact hlayout
      · rintro x ⟨a', ha', hne, hx⟩
        refine ⟨hprotected x ⟨a', ha', hne, hx⟩, fun hbx => hne ?_⟩
        -- a block that holds a byte of both payloads backs both allocations
        obtain ⟨b', hb', -, hab'⟩ := h.backed.exists_block ha'
        have hbx' := hab'.inContents hx
        have heq : b = b' := by
          by_contra hno
          exact hlayout.sound.apart_of_ne hb hb' hno (x := x) ⟨by have := hbx.1; omega, hbx.2⟩
            ⟨by have := hbx'.1; omega, hbx'.2⟩
        rw [hab.1, hab'.1, heq]

/-- A call that a run makes does what the state machine does. -/
theorem Tracks.step (h : Tracks s live w) {e : Event} (he : e.call.Admissible live)
    (hfit : FitsSize e.call) (htakes : e.Takes s s') :
    e = ⟨e.call, (doCall w e.call).ptr, (doCall w e.call).requests⟩ ∧
      Tracks s' (e.call.after live e.result) (doCall w e.call).world ∧
      Spared (Protected live e.call) s s' := by
  obtain ⟨s₁, htakes₁, htracks, hspared⟩ := settles_call h he hfit
  obtain ⟨heq, rfl⟩ := htakes.unique htakes₁ rfl
  refine ⟨heq, ?_, hspared⟩
  rw [show e.result = (doCall w e.call).ptr by rw [heq]]
  exact htracks

/-- **Runs** in which no size wraps keep the invariant. -/
theorem Tracks.run {trace : List Event}
    (hrun : Run (fun _ c => FitsSize c) s live trace s' live') (h : Tracks s live w) :
    ∃ w', Tracks s' live' w' := by
  refine hrun.preserves (I := fun s live => ∃ w, Tracks s live w) ?_ ⟨w, h⟩
  rintro s live e s₁ ⟨w, h⟩ he hfit htakes
  obtain ⟨-, htracks, -⟩ := h.step he hfit htakes
  exact ⟨_, htracks⟩

/-! ## A process to run on -/

/-- A process without a heap, with `answers` to come from `mmap`. -/
def blankProcess (answers : List (Option ℕ)) : State :=
  ⟨fun _ => 0, [], answers, fun _ => 0, [], [], [], []⟩

/-- The process in which the kernel granted `HEAP_START` to `heap_init`. -/
def startedProcess (answers : List (Option ℕ)) : State :=
  regionState (blankProcess (some heapStart :: answers))
    ⟨some (heapStart, true), [⟨heapStart, regionMinSize, true⟩], answers⟩ heapStart regionMinSize

/-- The world of that process. -/
def startedWorld (answers : List (Option ℕ)) : World :=
  ⟨[⟨heapStart, regionMinSize - 17, true⟩], [], [⟨heapStart, regionMinSize⟩], answers⟩

theorem run_heapInit_blank (answers : List (Option ℕ)) :
    (heapInit 100).run (blankProcess (some heapStart :: answers)) =
      .ok (heapStart, startedProcess answers) := by
  have hgrowth : growth [] (some heapStart :: answers) heapStart regionMinSize =
      ⟨some (heapStart, true), [⟨heapStart, regionMinSize, true⟩], answers⟩ := rfl
  have hrun := run_heapInit (s := blankProcess (some heapStart :: answers)) 100
  rw [show regionActualSize ((100 + 17) % SIZE) = regionMinSize from rfl] at hrun
  simp only [blankProcess, hgrowth] at hrun
  exact hrun

theorem started_startedProcess (answers : List (Option ℕ)) : Started (startedProcess answers) :=
  ⟨_, 100, rfl, by decide, run_heapInit_blank answers⟩

theorem refines_startedProcess (answers : List (Option ℕ)) :
    Refines (startedProcess answers) (startedWorld answers) := by
  refine ⟨⟨Layout.start (by decide) (by decide), fun c hc => ?_⟩, rfl, rfl⟩
  obtain rfl := List.mem_singleton.mp hc
  exact ⟨headerAt_initialized rfl (by decide) (by decide), trivial⟩

theorem tracks_startedProcess (answers : List (Option ℕ)) :
    Tracks (startedProcess answers) [] (startedWorld answers) :=
  ⟨refines_startedProcess answers, [], List.Perm.refl _, List.Forall₂.nil⟩

/-- The kernel puts the second region away from the first. -/
def farRegion : List (Option ℕ) := [some (heapStart + 65536)]

/-- The heap after a request that fits into the first region, and one that does not. -/
def twoRegions : World :=
  ⟨[⟨heapStart, 24, false⟩, ⟨heapStart + 41, 8134, true⟩, ⟨heapStart + 65536, 9000, false⟩,
    ⟨heapStart + 74553, 3254, true⟩], [[]], [⟨heapStart + 65536, 12288⟩, ⟨heapStart, 8192⟩], []⟩

def firstRequest : Event := ⟨.malloc 24, heapStart + 17, []⟩

def secondRequest : Event :=
  ⟨.malloc 9000, heapStart + 65553, [⟨heapStart + 8192, 12288, true⟩]⟩

/-- Two requests, the second of which makes the heap grow. -/
theorem takes_twoRequests : ∃ s₁ s₂, firstRequest.Takes (startedProcess farRegion) s₁ ∧
    secondRequest.Takes s₁ s₂ ∧
    Tracks s₂ [⟨heapStart + 65553, 9000⟩, ⟨heapStart + 17, 24⟩] twoRegions := by
  have h₁ : doCall (startedWorld farRegion) (.malloc 24) = ⟨heapStart + 17,
      ⟨[⟨heapStart, 24, false⟩, ⟨heapStart + 41, 8134, true⟩], [], [⟨heapStart, 8192⟩], farRegion⟩,
        []⟩ := by
    simp [doCall, World.malloc, World.serve, startedWorld, search, absorb, regionMinSize, SIZE,
      heapStart, Search.allocate, Block.carve]
  have h₂ : doCall ⟨[⟨heapStart, 24, false⟩, ⟨heapStart + 41, 8134, true⟩], [],
      [⟨heapStart, 8192⟩], farRegion⟩ (.malloc 9000) =
        ⟨heapStart + 65553, twoRegions, [⟨heapStart + 8192, 12288, true⟩]⟩ := by
    simp [doCall, twoRegions, farRegion, World.malloc, World.serve, search, absorb, regionMinSize,
      SIZE, heapStart, Search.allocate, Block.carve, Search.pass, cutAtLast, cutAtFree, growth,
      granted, World.extend, World.regionSize, regionActualSize, roundPages, pagesCount,
      getpagesize, sizeMax, Grantable, Block.stop, Block.Mergeable, searchResult]
  obtain ⟨s₁, htakes₁, htracks₁, -⟩ := settles_call (tracks_startedProcess farRegion)
    (c := .malloc 24) (by unfold Call.Admissible; decide) (by unfold FitsSize; decide)
  rw [h₁] at htakes₁ htracks₁
  obtain ⟨s₂, htakes₂, htracks₂, -⟩ := settles_call htracks₁ (c := .malloc 9000)
    (by unfold Call.Admissible; decide) (by unfold FitsSize; decide)
  rw [h₂] at htakes₂ htracks₂
  exact ⟨s₁, s₂, htakes₁, htakes₂, htracks₂⟩

/-- The run of these requests. -/
theorem run_twoRequests : ∃ s, Run (fun _ c => FitsSize c) (startedProcess farRegion) []
    [firstRequest, secondRequest] s [⟨heapStart + 65553, 9000⟩, ⟨heapStart + 17, 24⟩] ∧
      Tracks s [⟨heapStart + 65553, 9000⟩, ⟨heapStart + 17, 24⟩] twoRegions := by
  obtain ⟨s₁, s₂, htakes₁, htakes₂, htracks⟩ := takes_twoRequests
  have hfirst : FitsSize firstRequest.call := show NonWrapping 24 by decide
  have hsecond : FitsSize secondRequest.call := show NonWrapping 9000 by decide
  exact ⟨s₂, .step (show 24 < SIZE by decide) hfirst htakes₁
    (.step (show 9000 < SIZE by decide) hsecond htakes₂ (.done _ _)), htracks⟩

end LowLevel.Interface
