import LowLevel.Interface.HeapEdits

/-!
# Which blocks are split well

`block_splittable` looks at the query as it is and `split_if_too_big` rounds it up afterwards, so
a query below the least capacity may leave less than that behind. The sum of the query, a header
and the least capacity is formed modulo `2 ^ 64`.
-/

set_option autoImplicit false

namespace LowLevel.Analysis

open LowLevel.Library LowLevel.Model LowLevel.Interface LowLevel.Program.Allocator

/-- In `s'` the blocks `c` and `d` stand in the place of the block `b` of `s`, which was linked to
`next`, and neither of them is undersized. -/
structure SplitInto (s s' : State) (b c d : Block) (query next : ℕ) : Prop where
  addr : c.addr = b.addr
  adjacent : d.addr = c.stop
  tiled : d.stop = b.stop
  first : HeaderAt s'.mem c d.addr
  second : HeaderAt s'.mem d next
  first_cap : max query blockMinCapacity ≤ c.cap
  second_cap : blockMinCapacity ≤ d.cap
  outside : ∀ x, ¬ b.Holds x → s'.mem x = s.mem x

/-- `split_if_too_big` either answers true and has split the block, or answers false and has done
nothing. -/
def SplitsWell (s : State) (b : Block) (query next : ℕ) : Prop :=
  ∃ r s', (splitIfTooBig b.addr query).run s = .ok (r, s') ∧
    if r then ∃ c d, SplitInto s s' b c d query next else s' = s

/-- The block is taken for splittable although it is too small for the query as it is rounded up,
or although the sum that is compared has wrapped. -/
def WronglySplittable (b : Block) (query : ℕ) : Prop :=
  b.free = true ∧ (query < 24 ∧ query + 41 ≤ b.cap ∧ b.cap < 65 ∨
    2 ^ 64 ≤ query + 41 ∧ query + 41 ≤ b.cap + 2 ^ 64)

instance (b : Block) (query : ℕ) : Decidable (WronglySplittable b query) :=
  inferInstanceAs (Decidable (_ ∧ _))

variable {s s' : State} {b c d : Block} {query next : ℕ}

/-- The two parts need room. -/
theorem SplitInto.room (h : SplitInto s s' b c d query next) : max query 24 + 41 ≤ b.cap := by
  have hfirst := h.first_cap
  have hsecond := h.second_cap
  have htiled := h.tiled
  rw [Block.stop, h.adjacent, Block.stop, Block.stop, h.addr] at htiled
  unfold blockMinCapacity at hfirst hsecond
  omega

/-- A block with room for both parts is split. -/
theorem splitsWell_of_room (ho : Held s b) (hh : HeaderAt s.mem b next) (hfree : b.free = true)
    (hroom : max query 24 + 41 ≤ b.cap) : SplitsWell s b query next := by
  have hhigh := ho.high
  refine ⟨true, _, run_splitIfTooBig_yes ho hh hfree rfl hroom, ?_⟩
  rw [if_pos rfl]
  refine ⟨⟨b.addr, max query 24, true⟩,
    ⟨b.addr + 17 + max query 24, b.cap - max query 24 - 17, true⟩,
    rfl, rfl, ?_, ?_, ?_, le_rfl, ?_, ?_⟩
  · unfold Block.stop
    dsimp only
    omega
  · -- the second `block_init` does not reach back into the first header
    refine (headerAt_initialized (s := s) rfl ?_ ?_).congr ?_
    · dsimp only
      omega
    · dsimp only
      omega
    intro x hx
    refine writeBytes_of_outside ?_
    have := hx.2
    rw [length_headerBytes]
    dsimp only at this ⊢
    omega
  · exact headerAt_initialized rfl hh.next_lt (by dsimp only; omega)
  · unfold blockMinCapacity
    dsimp only
    omega
  · intro x hx
    unfold Block.Holds at hx
    refine (writeBytes_of_outside ?_).trans (writeBytes_of_outside ?_)
    all_goals
      rw [length_headerBytes]
      dsimp only
      omega

theorem splitsWell_of_refused (ho : Held s b) (hh : HeaderAt s.mem b next)
    (hno : ¬ (b.free = true ∧ (query + 41) % 2 ^ 64 ≤ b.cap)) : SplitsWell s b query next := by
  refine ⟨false, s, run_splitIfTooBig_refused ho hh hno, ?_⟩
  rw [if_neg Bool.false_ne_true]

/-- A splittable block is never answered with false. -/
theorem room_of_splitsWell (ho : Held s b) (hh : HeaderAt s.mem b next) (hfree : b.free = true)
    (hfit : (query + 41) % 2 ^ 64 ≤ b.cap) (h : SplitsWell s b query next) :
    max query 24 + 41 ≤ b.cap := by
  obtain ⟨r, s', hrun, hresult⟩ := h
  cases r with
  | true =>
      rw [if_pos rfl] at hresult
      obtain ⟨c, d, hsplit⟩ := hresult
      exact hsplit.room
  | false =>
      rw [run_splitIfTooBig_splits ho hh hfree hfit] at hrun
      set size := sizeFromCapacity ⟨max query 24⟩
      set pointer := (b.addr + size.bytes) % SIZE
      set rest := ((sizeFromCapacity ⟨b.cap⟩).bytes + (SIZE - size.bytes)) % SIZE
      rcases hfirst : (blockInit b.addr size pointer).run s with e | ⟨u, s₁⟩
      · rw [run_bind_of_error hfirst] at hrun
        cases hrun
      · rw [run_bind_of_ok hfirst] at hrun
        rcases hsecond : (blockInit pointer ⟨rest⟩ next).run s₁ with e | ⟨u, s₂⟩
        · rw [run_bind_of_error hsecond] at hrun
          cases hrun
        · rw [run_bind_of_ok hsecond] at hrun
          cases hrun

/-- **When a block is split well**: unless it is free and either the query is below the least
capacity and the block has no room for that capacity twice, or the sum that is compared wraps. -/
theorem splitsWell_iff (ho : Held s b) (hh : HeaderAt s.mem b next) (hq : query < SIZE) :
    SplitsWell s b query next ↔ ¬ WronglySplittable b query := by
  have hhigh := ho.high
  unfold SIZE at hq
  unfold WronglySplittable
  by_cases hsplit : b.free = true ∧ (query + 41) % 2 ^ 64 ≤ b.cap
  · obtain ⟨hfree, hfit⟩ := hsplit
    constructor
    · rintro h ⟨-, hbad⟩
      have hroom := room_of_splitsWell ho hh hfree hfit h
      omega
    · intro h
      have hgood := not_and.mp h hfree
      refine splitsWell_of_room ho hh hfree ?_
      omega
  · refine iff_of_true (splitsWell_of_refused ho hh hsplit) ?_
    rintro ⟨hfree, hbad⟩
    refine hsplit ⟨hfree, ?_⟩
    omega

/-! ## A block by itself -/

/-- A process with one free block, at the start of the heap, in a region of two pages. -/
def loneBlock (cap : ℕ) : State where
  mem := writeBytes (fun _ => 0) heapStart (headerBytes (fun _ => 0) heapStart 0 cap true)
  mapped := [⟨heapStart, regionMinSize⟩]
  answers := []
  padding := fun _ => 0
  requests := []
  unmaps := []
  written := []
  stdout := []

theorem held_loneBlock {cap : ℕ} (hcap : cap + 17 ≤ regionMinSize) :
    Held (loneBlock cap) ⟨heapStart, cap, true⟩ := by
  unfold regionMinSize at hcap
  refine ⟨fun x hx => ⟨⟨heapStart, regionMinSize⟩, List.mem_singleton_self _, hx.1, ?_⟩, ?_, ?_⟩
  · have := hx.2
    unfold regionMinSize
    dsimp only at this ⊢
    omega
  · unfold heapStart
    norm_num
  · unfold heapStart
    dsimp only
    omega

theorem headerAt_loneBlock {cap : ℕ} (hcap : cap < 2 ^ 64) :
    HeaderAt (loneBlock cap).mem ⟨heapStart, cap, true⟩ 0 :=
  headerAt_writeBytes (b := ⟨heapStart, cap, true⟩) (by norm_num) hcap

/-- A block of 65 bytes is split for a query of zero. -/
theorem splitsWell_loneBlock : SplitsWell (loneBlock 65) ⟨heapStart, 65, true⟩ 0 0 :=
  (splitsWell_iff (held_loneBlock (by decide)) (headerAt_loneBlock (by norm_num))
    (by decide)).mpr (by decide)

/-- A block of 41 bytes is split for a query of zero, and the second part has no contents. -/
theorem not_splitsWell_loneBlock : ¬ SplitsWell (loneBlock 41) ⟨heapStart, 41, true⟩ 0 0 := by
  intro h
  have hroom := room_of_splitsWell (held_loneBlock (by decide)) (headerAt_loneBlock (by norm_num))
    rfl (by norm_num) h
  exact absurd hroom (by norm_num)

end LowLevel.Analysis
