import LowLevel.Interface.HeapRuns

/-!
# Live payloads are safe

In a run of the allocator in which no size wraps, what `_malloc` handed out stays the
client's: the payload of a live allocation is mapped, meets no other live payload and no
block header, and no later call of `_malloc` or `_free` stores to it.
-/

set_option autoImplicit false

namespace LowLevel.Analysis

open LowLevel.Library LowLevel.Model LowLevel.Interface LowLevel.Program.Allocator

/-- The blocks of the heap, on the chain from `HEAP_START` or cut off from it, tile the
mapped memory and none is undersized; the live payloads are mapped, meet no header and do
not meet each other. -/
def PayloadsSafe (s : State) (live : List Allocation) : Prop :=
  ∃ chains, Represents s chains ∧ (∀ b ∈ chains.flatten, blockMinCapacity ≤ b.cap) ∧
    (∀ a ∈ live, ∀ x, a.Holds x →
      Mapped s.mapped x ∧ ∀ b ∈ chains.flatten, ¬ b.InHeader x) ∧
    live.Pairwise fun a a' => ∀ x, a.Holds x → ¬ a'.Holds x

/-- The taken blocks of a sound heap keep the payloads in them safe. -/
theorem payloadsSafe_of_tracks {s : State} {live : List Allocation} {w : World}
    (h : Tracks s live w) : PayloadsSafe s live := by
  have hlayout := h.refines.represents.layout
  refine ⟨w.chains, h.refines.represents, hlayout.cap, ?_, h.backed.pairwise hlayout⟩
  intro a ha x hx
  obtain ⟨b, hb, hfree, hab⟩ := h.backed.exists_block ha
  have htaken : TakenContents w.chains x := ⟨b, hb, hfree, hab.inContents hx⟩
  exact ⟨mapped_of_takenContents hlayout.sound htaken,
    fun c hc hcx => takenContents_not_inHeader hlayout.sound hc hcx htaken⟩

/-- **Payload safety**. In every state that a run of `_malloc` and `_free` on live pointers
reaches from a heap placed at `HEAP_START`, no size wrapping, the live payloads are safe.
Every further call returns, and it stores to no live payload but the one it frees. -/
theorem payloads_safe {s₀ s : State} {live : List Allocation} {trace : List Event}
    (hstart : Started s₀) (hrun : Run (fun _ c => FitsSize c) s₀ [] trace s live) :
    PayloadsSafe s live ∧ ∀ c : Call, c.Admissible live → FitsSize c →
      (∃ (e : Event) (s' : State), e.call = c ∧ e.Takes s s') ∧
      ∀ (e : Event) (s' : State), e.call = c → e.Takes s s' →
        Spared (Protected live c) s s' := by
  obtain ⟨w₀, h₀⟩ := tracks_started hstart
  obtain ⟨w, h⟩ := h₀.run hrun
  refine ⟨payloadsSafe_of_tracks h, fun c hc hfit => ⟨?_, ?_⟩⟩
  · obtain ⟨s', htakes, -, -⟩ := settles_call h hc hfit
    exact ⟨_, s', rfl, htakes⟩
  · rintro e s' rfl htakes
    exact (h.step hc hfit htakes).2.2

/-- Two payloads in different regions; freeing the first leaves the second alone. -/
theorem payloads_safe_two_requests :
    ∃ s, PayloadsSafe s [⟨heapStart + 65553, 9000⟩, ⟨heapStart + 17, 24⟩] ∧
      ∃ (e : Event) (s' : State), e.call = .free (heapStart + 17) ∧ e.Takes s s' ∧
        ∀ x, (⟨heapStart + 65553, 9000⟩ : Allocation).Holds x → s'.mem x = s.mem x := by
  obtain ⟨s, hrun, -⟩ := run_twoRequests
  obtain ⟨hsafe, hcalls⟩ := payloads_safe (started_startedProcess farRegion) hrun
  obtain ⟨⟨e, s', he, htakes⟩, hspares⟩ :=
    hcalls (.free (heapStart + 17)) (by unfold Call.Admissible; decide) trivial
  refine ⟨s, hsafe, e, s', he, htakes, fun x hx => ?_⟩
  exact (hspares e s' he htakes).mem_eq x ⟨_, List.mem_cons_self, by decide, hx⟩

end LowLevel.Analysis
