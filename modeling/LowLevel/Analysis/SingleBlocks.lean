import Mathlib.Data.List.Nodup
import LowLevel.Interface.FixedHeapSteps
import LowLevel.Library.Transitions
import LowLevel.Program.OccupiedHeap

/-!
# A heap of single blocks is a heap of blocks

`heap-0.c` hands out one block at a time, `heap-1.c` any number. A client that asks `heap-1.c` for
one block each time gets the handles that `heap-0.c` gives, and sees the same heap printed but for
the sign of a taken block. Only when no block is left do they part: `heap-0.c` runs off the end of
`block_allocate`, `heap-1.c` returns an invalid handle.
-/

set_option autoImplicit false

namespace LowLevel.Analysis

open LowLevel.Library LowLevel.Model LowLevel.Interface LowLevel.Program
open LowLevel.Program.FixedHeap (BlockId BlockStatus blockIdNew blockIdInvalid)

/-- What a client sees of a call. -/
inductive Seen where
  | got (b : BlockId)
  | freed (b : BlockId)
  | printed (line : List Byte)
  deriving DecidableEq

/-- A heap whose blocks are a `β`, and the handles that its client holds. -/
structure Holder (β : Type) where
  blocks : List β
  live : List BlockId

/-- The calls of a heap, and those allocations that give the client a block. -/
structure HeapCalls (β : Type) where
  allocate : List β → Option (BlockId × List β)
  free : List β → BlockId → Option (List β)
  print : List β → Option (List Byte)

variable {β : Type}

/-- A client allocates, frees handles that it holds, and prints. -/
inductive HeapCalls.Acts (calls : HeapCalls β) : Holder β → Seen → Holder β → Prop where
  | allocate {blocks blocks' : List β} {live : List BlockId} {b : BlockId}
      (hcall : calls.allocate blocks = some (b, blocks')) :
      calls.Acts ⟨blocks, live⟩ (.got b) ⟨blocks', b :: live⟩
  | free {blocks blocks' : List β} {live : List BlockId} {b : BlockId} (hb : b ∈ live)
      (hcall : calls.free blocks b = some blocks') :
      calls.Acts ⟨blocks, live⟩ (.freed b) ⟨blocks', live.erase b⟩
  | print {blocks : List β} {live : List BlockId} {line : List Byte}
      (hcall : calls.print blocks = some line) :
      calls.Acts ⟨blocks, live⟩ (.printed line) ⟨blocks, live⟩

/-- `heap-0.c`. -/
def occupiedCalls : HeapCalls Bool where
  allocate := OccupiedHeap.blockAllocate
  free := OccupiedHeap.blockFree
  print := OccupiedHeap.heapDebugInfo

/-- The sign `*` of a block that is alone is read as `=`. -/
def plainSign (b : Byte) : Byte := if b = 0x2a then 0x3d else b

/-- `heap-1.c`, asked for one block each time. -/
def singleCalls : HeapCalls BlockStatus where
  allocate status :=
    match FixedHeap.blockAllocate status 1 with
    | some (b, status') => if b.valid then some (b, status') else none
    | none => none
  free := FixedHeap.blockFree
  print status := (FixedHeap.heapDebugInfo status).map (List.map plainSign)

/-- How `heap-1.c` marks an occupied block. -/
def statusOf : Bool → BlockStatus
  | false => .free
  | true => .one

variable {occupied : List Bool} {b : BlockId}

/-! ## Allocating -/

/-- **`block_allocate`** of `heap-0.c` takes the first block that is not occupied. -/
theorem allocateLoop_spec_of_occupied (seen rest : List Bool) (hseen : ∀ o ∈ seen, o = true) :
    OccupiedHeap.allocateLoop (seen ++ rest) rest seen.length = none ∧
        (∀ o ∈ seen ++ rest, o = true) ∨
      ∃ pre post, seen ++ rest = pre ++ false :: post ∧ (∀ o ∈ pre, o = true) ∧
        OccupiedHeap.allocateLoop (seen ++ rest) rest seen.length =
          some (blockIdNew pre.length, pre ++ true :: post) := by
  induction rest generalizing seen with
  | nil => exact .inl ⟨rfl, by simpa using hseen⟩
  | cons o rest ih =>
      cases o with
      | false =>
          refine .inr ⟨seen, rest, rfl, hseen, ?_⟩
          rw [OccupiedHeap.allocateLoop, if_pos (by decide), List.set_append_right _ _ le_rfl,
            Nat.sub_self, List.set_cons_zero]
      | true =>
          have hnext := ih (seen ++ [true]) (by simpa [or_imp, forall_and] using hseen)
          rw [List.length_append, List.length_singleton, List.append_assoc,
            List.singleton_append] at hnext
          rw [OccupiedHeap.allocateLoop, if_neg (by decide)]
          exact hnext

theorem blockAllocate_spec_of_occupied (occupied : List Bool) :
    OccupiedHeap.blockAllocate occupied = none ∧ (∀ o ∈ occupied, o = true) ∨
      ∃ pre post, occupied = pre ++ false :: post ∧ (∀ o ∈ pre, o = true) ∧
        OccupiedHeap.blockAllocate occupied =
          some (blockIdNew pre.length, pre ++ true :: post) :=
  allocateLoop_spec_of_occupied [] occupied (List.forall_mem_nil _)

/-- A run of one block is a block. -/
theorem hasRun_one_iff {α : Type} {a : α} {xs : List α} : HasRun a xs 1 ↔ a ∈ xs := by
  constructor
  · rintro ⟨start, hrun⟩
    exact List.mem_of_getElem? (hrun start le_rfl (by omega))
  · intro hmem
    obtain ⟨i, hi⟩ := List.mem_iff_getElem?.mp hmem
    refine ⟨i, fun j hj hj' => ?_⟩
    rw [show j = i by omega, hi]

theorem free_not_mem_map (h : ∀ o ∈ occupied, o = true) : .free ∉ occupied.map statusOf := by
  intro hmem
  obtain ⟨o, ho, hmark⟩ := List.mem_map.mp hmem
  rw [h o ho] at hmark
  cases hmark

/-- `heap-1.c` allocates one block as `heap-0.c` does. -/
theorem singleCalls_allocate (occupied : List Bool) :
    singleCalls.allocate (occupied.map statusOf) =
      (occupiedCalls.allocate occupied).map fun r => (r.1, r.2.map statusOf) := by
  show (match FixedHeap.blockAllocate (occupied.map statusOf) 1 with
    | some (b, status') => if b.valid then some (b, status') else none
    | none => none) = (OccupiedHeap.blockAllocate occupied).map fun r => (r.1, r.2.map statusOf)
  rcases blockAllocate_spec_of_occupied occupied with
    ⟨hnone, hall⟩ | ⟨pre, post, hsplit, hpre, hcall⟩
  · rcases blockAllocate_spec le_rfl (occupied.map statusOf) with
      ⟨-, hinvalid⟩ | ⟨pre, post, hbetween, -⟩
    · rw [hinvalid, hnone]
      rfl
    · exact absurd (hasRun_one_iff.mp hbetween.hasRun) (free_not_mem_map hall)
  · have hfree : BlockStatus.free ∈ occupied.map statusOf :=
      List.mem_map.mpr ⟨false, by simp [hsplit], rfl⟩
    rcases blockAllocate_spec le_rfl (occupied.map statusOf) with
      ⟨hnone, -⟩ | ⟨pre', post', hbetween, hsame⟩
    · exact absurd (hasRun_one_iff.mpr hfree) hnone
    · -- both stand at the first block that is free
      have hsplits : pre.map statusOf ++ .free :: post.map statusOf = pre' ++ .free :: post' := by
        have hmap := hbetween.status_eq
        rw [hsplit, List.map_append, List.map_cons] at hmap
        simpa [statusOf] using hmap
      obtain ⟨hpre', hpost'⟩ := eq_of_append_cons_eq (free_not_mem_map hpre)
        (fun hmem => hbetween.none (hasRun_one_iff.mpr hmem)) hsplits
      rw [hsame, hcall, ← hpre', ← hpost']
      simp [blockIdNew, statusOf, Segment.ofSize, Segment.statuses]

/-- `heap-1.c` frees a block that was handed out as `heap-0.c` does. -/
theorem singleCalls_free (hb : occupied[b.value]? = some true) :
    singleCalls.free (occupied.map statusOf) b =
      (occupiedCalls.free occupied b).map (List.map statusOf) := by
  obtain ⟨hlt, -⟩ := List.getElem?_eq_some_iff.mp hb
  show FixedHeap.blockFree (occupied.map statusOf) b =
    (OccupiedHeap.blockFree occupied b).map (List.map statusOf)
  rw [FixedHeap.blockFree, List.getElem?_map, hb, Option.map_some, statusOf, if_pos rfl,
    OccupiedHeap.blockFree, if_pos hlt, Option.map_some, List.map_set]
  rfl

/-- `heap-1.c` prints the blocks as `heap-0.c` does. -/
theorem singleCalls_print (occupied : List Bool) :
    singleCalls.print (occupied.map statusOf) = occupiedCalls.print occupied := by
  have hline : OccupiedHeap.heapDebugInfo occupied =
      some (occupied.flatMap OccupiedHeap.repr ++ [0x0a]) := by
    rw [OccupiedHeap.heapDebugInfo, blockForeachPrinter_eq OccupiedHeap.repr (fun i => rfl)]
    rfl
  have hword : ∀ o, (FixedHeap.repr (statusOf o)).map plainSign = OccupiedHeap.repr o := by decide
  show (FixedHeap.heapDebugInfo (occupied.map statusOf)).map (List.map plainSign) =
    OccupiedHeap.heapDebugInfo occupied
  rw [heapDebugInfo_eq, hline, Option.map_some, List.map_append, List.flatMap_map, List.map_flatMap]
  simp only [hword]
  rfl

/-! ## Runs -/

/-- The client of `heap-0.c` holds the blocks that are occupied. -/
structure HoldsOccupied (n : ℕ) (h : Holder Bool) : Prop where
  length : h.blocks.length = n
  taken : ∀ b ∈ h.live, h.blocks[b.value]? = some true
  apart : (h.live.map (·.value)).Nodup
  count : h.blocks.count true = h.live.length

variable {n : ℕ} {h h₁ : Holder Bool} {h' h₁' : Holder BlockStatus} {l : Seen}

theorem holdsOccupied_start (n : ℕ) : HoldsOccupied n ⟨List.replicate n false, []⟩ where
  length := List.length_replicate
  taken _ hb := absurd hb List.not_mem_nil
  apart := List.nodup_nil
  count := List.count_eq_zero.mpr (by simp)

/-- **Every call** keeps it so. -/
theorem HoldsOccupied.acts (hholds : HoldsOccupied n h) (hacts : occupiedCalls.Acts h l h₁) :
    HoldsOccupied n h₁ := by
  obtain ⟨hlength, htaken, hapart, hcount⟩ := hholds
  cases hacts with
  | @allocate occupied _ live b hcall =>
      rcases blockAllocate_spec_of_occupied occupied with ⟨hnone, -⟩ | ⟨pre, post, rfl, -, hsome⟩
      · exact absurd (hnone.symm.trans hcall) (Option.some_ne_none _).symm
      obtain ⟨rfl, rfl⟩ := Prod.mk.inj (Option.some.inj (hsome.symm.trans hcall))
      have hother : ∀ b ∈ live, b.value ≠ pre.length := by
        intro b hb heq
        have hfree := htaken b hb
        rw [heq] at hfree
        simp at hfree
      refine ⟨by simpa using hlength, fun b hb => ?_, ?_, ?_⟩
      · rcases List.mem_cons.mp hb with rfl | hb
        · simp [blockIdNew]
        · have hset : (pre ++ false :: post).set pre.length true = pre ++ true :: post := by simp
          show (pre ++ true :: post)[b.value]? = some true
          rw [← hset, List.getElem?_set_ne (hother b hb).symm]
          exact htaken b hb
      · refine List.nodup_cons.mpr ⟨fun hmem => ?_, hapart⟩
        obtain ⟨b, hb, heq⟩ := List.mem_map.mp hmem
        exact hother b hb heq
      · have hold : pre.count true + post.count true = live.length := by simpa using hcount
        simp only [List.count_append, List.count_cons_self, List.length_cons]
        omega
  | @free occupied _ live b hb hcall =>
      have hlt := (List.getElem?_eq_some_iff.mp (htaken b hb)).1
      have htrue := (List.getElem?_eq_some_iff.mp (htaken b hb)).2
      obtain rfl : occupied.set b.value false = _ := by
        change OccupiedHeap.blockFree occupied b = _ at hcall
        rw [OccupiedHeap.blockFree, if_pos hlt] at hcall
        exact Option.some.inj hcall
      refine ⟨by simpa using hlength, fun c hc => ?_, ?_, ?_⟩
      · obtain ⟨hne, hc⟩ := hapart.of_map.mem_erase_iff.mp hc
        have hvalue : b.value ≠ c.value := fun heq =>
          hne (List.inj_on_of_nodup_map hapart hc hb heq.symm)
        show (occupied.set b.value false)[c.value]? = some true
        rw [List.getElem?_set_ne hvalue]
        exact htaken c hc
      · exact hapart.sublist (List.erase_sublist.map _)
      · have hpos := List.length_pos_of_mem hb
        dsimp only at hcount htrue ⊢
        rw [List.count_set hlt, htrue, List.length_erase_of_mem hb, hcount]
        simp
  | print _ => exact ⟨hlength, htaken, hapart, hcount⟩

/-- Both heaps, after the same calls. -/
structure Agrees (n : ℕ) (h : Holder Bool) (h' : Holder BlockStatus) : Prop where
  holds : HoldsOccupied n h
  blocks : h'.blocks = h.blocks.map statusOf
  live : h'.live = h.live

theorem Agrees.forward (hagrees : Agrees n h h') (hacts : occupiedCalls.Acts h l h₁) :
    ∃ h₁', singleCalls.Acts h' l h₁' ∧ Agrees n h₁ h₁' := by
  have hholds := hagrees.holds.acts hacts
  obtain ⟨status, live'⟩ := h'
  obtain ⟨hholds', rfl, rfl⟩ := hagrees
  cases hacts with
  | @allocate occupied occupied' live b hcall =>
      exact ⟨_, .allocate (by rw [singleCalls_allocate, hcall, Option.map_some]), hholds, rfl, rfl⟩
  | @free occupied occupied' live b hb hcall =>
      refine ⟨_, .free hb ?_, hholds, rfl, rfl⟩
      rw [singleCalls_free (hholds'.taken b hb), hcall, Option.map_some]
  | @print occupied live line hcall =>
      exact ⟨_, .print (by rw [singleCalls_print, hcall]), hholds, rfl, rfl⟩

theorem Agrees.backward (hagrees : Agrees n h h') (hacts : singleCalls.Acts h' l h₁') :
    ∃ h₁, occupiedCalls.Acts h l h₁ ∧ Agrees n h₁ h₁' := by
  obtain ⟨occupied, live⟩ := h
  obtain ⟨hholds, hblocks, hlive⟩ := hagrees
  cases hacts with
  | @allocate status status' live' b hcall =>
      obtain rfl : status = occupied.map statusOf := hblocks
      obtain rfl : live' = live := hlive
      rw [singleCalls_allocate, Option.map_eq_some_iff] at hcall
      obtain ⟨⟨b', occupied'⟩, hcall, heq⟩ := hcall
      obtain ⟨rfl, rfl⟩ := Prod.mk.inj heq
      have hacts : occupiedCalls.Acts ⟨occupied, live'⟩ _ _ := .allocate hcall
      exact ⟨_, hacts, hholds.acts hacts, rfl, rfl⟩
  | @free status status' live' b hb hcall =>
      obtain rfl : status = occupied.map statusOf := hblocks
      obtain rfl : live' = live := hlive
      rw [singleCalls_free (hholds.taken b hb), Option.map_eq_some_iff] at hcall
      obtain ⟨occupied', hcall, rfl⟩ := hcall
      have hacts := HeapCalls.Acts.free hb hcall
      exact ⟨_, hacts, hholds.acts hacts, rfl, rfl⟩
  | @print status live' line hcall =>
      obtain rfl : status = occupied.map statusOf := hblocks
      obtain rfl : live' = live := hlive
      rw [singleCalls_print] at hcall
      exact ⟨_, .print hcall, hholds, rfl, rfl⟩

theorem agrees_start (n : ℕ) :
    Agrees n ⟨List.replicate n false, []⟩ ⟨List.replicate n .free, []⟩ where
  holds := holdsOccupied_start n
  blocks := by simp [statusOf]
  live := rfl

/-- `heap-0.c` runs out when every block is held. -/
theorem HoldsOccupied.blockAllocate_eq_none_iff (hholds : HoldsOccupied n h) :
    OccupiedHeap.blockAllocate h.blocks = none ↔ h.live.length = n := by
  have hall : (∀ o ∈ h.blocks, o = true) ↔ h.live.length = n := by
    rw [← hholds.count, ← hholds.length, List.count_eq_length]
    simp only [eq_comm]
  rw [← hall]
  rcases blockAllocate_spec_of_occupied h.blocks with ⟨hnone, htrue⟩ | ⟨pre, post, hsplit, -, hsome⟩
  · exact ⟨fun _ => htrue, fun _ => hnone⟩
  · rw [hsome]
    refine ⟨fun h => absurd h (Option.some_ne_none _), fun htrue => ?_⟩
    exact absurd (htrue false (by simp [hsplit])) Bool.false_ne_true

/-- `heap-1.c` returns the invalid handle where no block is given. -/
theorem singleCalls_allocate_eq_none_iff (status : List BlockStatus) :
    singleCalls.allocate status = none ↔
      FixedHeap.blockAllocate status 1 = some (blockIdInvalid, status) := by
  show (match FixedHeap.blockAllocate status 1 with
    | some (b, status') => if b.valid then some (b, status') else none
    | none => none) = none ↔ _
  rcases blockAllocate_spec le_rfl status with ⟨-, hsame⟩ | ⟨pre, post, -, hsame⟩
  · rw [hsame]
    exact ⟨fun _ => rfl, fun _ => rfl⟩
  · rw [hsame]
    refine ⟨fun h => absurd h (Option.some_ne_none _), fun h => ?_⟩
    have hvalid := congrArg BlockId.valid (Prod.mk.inj (Option.some.inj h)).1
    exact Bool.noConfusion hvalid

/-- **A heap of single blocks** is the heap of blocks, asked for one block each time: from `n` free
blocks the clients of both see the same. The one has no answer, and the other the invalid handle,
when all `n` blocks are held. -/
theorem single_blocks_agree (n : ℕ) (trace : List Seen) :
    ((∃ h, Traces occupiedCalls.Acts ⟨List.replicate n false, []⟩ trace h) ↔
      ∃ h', Traces singleCalls.Acts ⟨List.replicate n .free, []⟩ trace h') ∧
    (∀ h, Traces occupiedCalls.Acts ⟨List.replicate n false, []⟩ trace h →
      (OccupiedHeap.blockAllocate h.blocks = none ↔ h.live.length = n)) ∧
    ∀ h', Traces singleCalls.Acts ⟨List.replicate n .free, []⟩ trace h' →
      (FixedHeap.blockAllocate h'.blocks 1 = some (blockIdInvalid, h'.blocks) ↔
        h'.live.length = n) := by
  have hforward : ∀ h, Traces occupiedCalls.Acts ⟨List.replicate n false, []⟩ trace h →
      ∃ h', Traces singleCalls.Acts ⟨List.replicate n .free, []⟩ trace h' ∧ Agrees n h h' :=
    fun h htrace => htrace.simulated (R := Agrees n)
      (fun _ _ _ _ hagrees hacts => hagrees.forward hacts) (agrees_start n)
  have hbackward : ∀ h', Traces singleCalls.Acts ⟨List.replicate n .free, []⟩ trace h' →
      ∃ h, Traces occupiedCalls.Acts ⟨List.replicate n false, []⟩ trace h ∧ Agrees n h h' :=
    fun h' htrace => htrace.simulated (R := fun h' h => Agrees n h h')
      (fun _ _ _ _ hagrees hacts => hagrees.backward hacts) (agrees_start n)
  refine ⟨⟨?_, ?_⟩, fun h htrace => ?_, fun h' htrace => ?_⟩
  · rintro ⟨h, htrace⟩
    obtain ⟨h', htrace', -⟩ := hforward h htrace
    exact ⟨h', htrace'⟩
  · rintro ⟨h', htrace⟩
    obtain ⟨h, htrace', -⟩ := hbackward h' htrace
    exact ⟨h, htrace'⟩
  · obtain ⟨h', -, hagrees⟩ := hforward h htrace
    exact hagrees.holds.blockAllocate_eq_none_iff
  · obtain ⟨h, -, hagrees⟩ := hbackward h' htrace
    rw [hagrees.live, ← hagrees.holds.blockAllocate_eq_none_iff, hagrees.blocks,
      ← singleCalls_allocate_eq_none_iff, singleCalls_allocate, Option.map_eq_none_iff]
    rfl

end LowLevel.Analysis
