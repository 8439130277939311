import LowLevel.Analysis.LostBlocks
import LowLevel.Interface.HeapPrinting

/-!
# The printed heap

`debug_heap` may be called at any time. It changes nothing that the allocator reads, and its lines
are the blocks that can be reached: the taken ones among them are the live allocations, but for
those whose blocks are lost.
-/

set_option autoImplicit false

namespace LowLevel.Analysis

open LowLevel.Library LowLevel.Model LowLevel.Interface LowLevel.Program.Allocator

variable {s s₁ s' : State} {live live' : List Allocation} {w : World}

/-- The text is nothing to the allocator. -/
theorem tracks_withOutput (h : Tracks s live w) (text : List Char) :
    Tracks (withOutput s text) live w :=
  ⟨⟨⟨h.refines.represents.layout, h.refines.represents.linked⟩, h.refines.mapped_eq,
    h.refines.answers_eq⟩, h.backed⟩

/-- Printing a heap of a run. -/
theorem settles_debugHeap_tracks (pointer : ℕ → List Char) (h : Tracks s live w) :
    Settles (fun n => debugHeap pointer n heapStart) s ()
      (withOutput s (chainText pointer s.mem w.main)) := by
  have hchain := heapChain_of_refines h.refines
  rw [← hchain.head_eq]
  refine settles_debugHeap pointer hchain.linked fun b hb => ?_
  exact h.refines.represents.stands.held (by simp [World.chains, hb])

/-- A run with the heap printed now and then keeps the invariant. -/
theorem tracks_debugRun {pointer : ℕ → List Char}
    (hrun : DebugRun pointer (fun _ c => FitsSize c) s live s' live') (h : Tracks s live w) :
    ∃ w', Tracks s' live' w' := by
  induction hrun generalizing w with
  | done => exact ⟨w, h⟩
  | call admissible allowed takes _ ih =>
      obtain ⟨-, htracks, -⟩ := h.step admissible allowed takes
      exact ih htracks
  | debug prints _ ih =>
      obtain ⟨-, rfl⟩ := prints.unique (settles_debugHeap_tracks pointer h)
      exact ih (tracks_withOutput h _)

/-- The chains that `bs`, the chain from `HEAP_START`, has lost: linked through memory, and tiling
with it the memory that is mapped. -/
structure Lost (s : State) (bs : List Block) (lost : List (List Block)) : Prop where
  linked : ∀ c ∈ lost, Chain s.mem c 0
  tiling : ∀ x, depth Block.Holds (bs ++ lost.flatten) x = if Mapped s.mapped x then 1 else 0

/-- The chains beside the first one. -/
theorem lost_of_refines (h : Refines s w) : Lost s w.main w.det where
  linked c hc := h.represents.linked c (List.mem_cons_of_mem _ hc)
  tiling := h.represents.layout.depth_eq

/-- A block of a chain has its header in memory. -/
theorem headerAt_of_chain {m : Mem} {bs : List Block} {n : ℕ} (h : Chain m bs n) {b : Block}
    (hb : b ∈ bs) : ∃ next, HeaderAt m b next := by
  induction bs with
  | nil => exact absurd hb List.not_mem_nil
  | cons c bs ih =>
      rcases List.mem_cons.mp hb with rfl | hb
      · exact ⟨_, h.1⟩
      · exact ih h.2 hb

/-- **What is lost** is determined by the memory, but for its order: blocks that start at one
address have one header. -/
theorem Lost.perm {bs : List Block} {lost lost' : List (List Block)} (h : Lost s bs lost)
    (h' : Lost s bs lost') : lost.flatten.Perm lost'.flatten := by
  have hsame : ∀ x, depth Block.Holds lost.flatten x = depth Block.Holds lost'.flatten x := by
    intro x
    have heq := (h.tiling x).trans (h'.tiling x).symm
    rw [depth_append, depth_append] at heq
    exact Nat.add_left_cancel heq
  have hstart : ∀ b : Block, b.Holds b.addr := by
    intro b
    unfold Block.Holds
    omega
  refine perm_of_depth_eq hstart (fun b x hx => hx.1) ?_ hsame fun x => ?_
  · intro b hb c hc haddr
    obtain ⟨d, hd, hbd⟩ := List.mem_flatten.mp hb
    obtain ⟨e, he, hce⟩ := List.mem_flatten.mp hc
    obtain ⟨_, hheader⟩ := headerAt_of_chain (h.linked d hd) hbd
    obtain ⟨_, hheader'⟩ := headerAt_of_chain (h'.linked e he) hce
    have hcap : b.cap = c.cap := by rw [← hheader.capacity_eq, haddr, hheader'.capacity_eq]
    have hfree : b.free = c.free := by rw [← hheader.isFree_eq, haddr, hheader'.isFree_eq]
    obtain ⟨addr, cap, free⟩ := b
    obtain ⟨addr', cap', free'⟩ := c
    dsimp only at haddr hcap hfree
    rw [haddr, hcap, hfree]
  · have htiling := h.tiling x
    rw [depth_append] at htiling
    split_ifs at htiling <;> omega

/-- Nothing is lost exactly when the chain tiles the mapped memory by itself. -/
theorem Lost.eq_nil_iff {bs : List Block} {lost : List (List Block)} (h : Lost s bs lost)
    (hchain : HeapChain s bs) : lost.flatten = [] ↔ NothingLost s := by
  constructor
  · intro hnil
    refine ⟨bs, hchain, fun x => ?_⟩
    have htiling := h.tiling x
    rwa [hnil, List.append_nil] at htiling
  · rintro ⟨bs', hbs, htiles⟩
    obtain rfl := hbs.unique hchain
    refine List.eq_nil_iff_forall_not_mem.mpr fun b hb => ?_
    -- the first byte of a lost block would be held twice
    have hpos : 0 < depth Block.Holds lost.flatten b.addr :=
      depth_pos_iff.mpr ⟨b, hb, by unfold Block.Holds; omega⟩
    have htiling := h.tiling b.addr
    rw [depth_append, htiles] at htiling
    omega

/-- `%p` as addresses are often written. -/
def hexPointer (addr : ℕ) : List Char := "0x".toList ++ Nat.toDigits 16 addr

end LowLevel.Analysis
