import LowLevel.Interface.HeapAccess

/-!
# The edits of the heap, on bytes and on block lists

Each function of the source that changes a block is one edit of the block lists at a
`Place`: merging takes two neighbours to one block, splitting and taking carve an
allocation, releasing changes a status. `Stands.edit` carries the representation
through any such edit, since the headers outside the place are bytes the edit does not
touch; every function then only has to say which header it writes.
-/

set_option autoImplicit false

namespace LowLevel.Interface

open LowLevel.Library LowLevel.Model LowLevel.Program.Allocator

variable {s s' : State} {p : Place} {mid mid' : List Block} {b c : Block}

/-! ## Carrying the representation through an edit -/

/-- The chain through the place, cut at the place. -/
theorem Stands.chain_fill (h : Stands s (p.fill mid)) :
    Chain s.mem p.pre (headAddr mid (headAddr p.post 0)) ∧
      Chain s.mem mid (headAddr p.post 0) ∧ Chain s.mem p.post 0 := by
  have hmem : p.pre ++ mid ++ p.post ∈ p.fill mid := by simp [Place.fill]
  have := h.linked _ hmem
  rw [List.append_assoc, chain_append, chain_append, headAddr_append] at this
  exact this

/-- An edit of the blocks at a place that stores only to their bytes, links the new
blocks and is sound gives a state that holds the edited heap. -/
theorem Stands.edit (h : Stands s (p.fill mid))
    (hsound : Sound (p.fill mid') s.mapped) (hmapped : s'.mapped = s.mapped)
    (hhead : ∀ n, headAddr mid' n = headAddr mid n)
    (hmem : ∀ x, (∀ b ∈ mid, ¬ b.Holds x) → s'.mem x = s.mem x)
    (hchain : Chain s'.mem mid' (headAddr p.post 0)) : Stands s' (p.fill mid') := by
  have hout : ∀ c ∈ (p.fill []).flatten, ∀ x, c.InHeader x → s'.mem x = s.mem x := by
    intro c hc x hx
    refine hmem x fun b hb hbx => h.sound.apart hb hc hbx ?_
    exact ⟨hx.1, by have := hx.2; omega⟩
  obtain ⟨hpre, -, hpost⟩ := h.chain_fill
  have hin : ∀ c, c ∈ p.before ∨ c ∈ p.after ∨ c = p.pre ∨ c = p.post →
      ∀ b ∈ c, b ∈ (p.fill []).flatten := by
    intro c hc b hb
    simp only [Place.fill, List.flatten_append, List.flatten_cons, List.append_nil,
      List.mem_append]
    rcases hc with hc | hc | rfl | rfl
    · exact .inl (List.mem_flatten.mpr ⟨c, hc, hb⟩)
    · exact .inr (.inr (List.mem_flatten.mpr ⟨c, hc, hb⟩))
    · exact .inr (.inl (.inl hb))
    · exact .inr (.inl (.inr hb))
  refine ⟨by rw [hmapped]; exact hsound, fun d hd => ?_⟩
  simp only [Place.fill, List.mem_append, List.mem_cons] at hd
  rcases hd with hd | rfl | hd
  · have hold : d ∈ p.fill mid := by simp [Place.fill, hd]
    exact (h.linked d hold).congr fun b hb => hout b (hin d (.inl hd) b hb)
  · rw [List.append_assoc, chain_append, chain_append, headAddr_append, hhead]
    exact ⟨hpre.congr fun b hb => hout b (hin _ (.inr (.inr (.inl rfl))) b hb), hchain,
      hpost.congr fun b hb => hout b (hin _ (.inr (.inr (.inr rfl))) b hb)⟩
  · have hold : d ∈ p.fill mid := by simp [Place.fill, hd]
    exact (h.linked d hold).congr fun b hb => hout b (hin d (.inr (.inl hd)) b hb)

theorem Stands.held_mid (h : Stands s (p.fill mid)) (hb : b ∈ mid) : Held s b :=
  h.held (Place.mem_fill.mpr (.inl hb))

/-! ## Merging -/

/-- `blocks_continuous` decides whether the second block directly follows the first. -/
theorem run_blocksContinuous {next : ℕ} (hob : Held s b) (hoc : Held s c)
    (hb : HeaderAt s.mem b next) :
    (blocksContinuous b.addr c.addr).run s = .ok (decide (c.addr = b.stop), s) := by
  unfold blocksContinuous
  rw [run_bind_of_ok (run_blockAfter hob hb)]
  -- a block that ends at the top of the address space has no block behind it
  have hiff : c.addr = b.stop % SIZE ↔ c.addr = b.stop := by
    have h₁ := hob.high
    have h₂ := hoc.low
    have h₃ := hoc.high
    unfold SIZE Block.stop
    omega
  show Except.ok (c.addr == b.stop % SIZE, s) = _
  rw [← decide_eq_decide.mpr hiff]
  rfl

/-- `mergeable` decides whether the two blocks can be merged. -/
theorem run_mergeable {next next' : ℕ} (hob : Held s b) (hoc : Held s c)
    (hb : HeaderAt s.mem b next) (hc : HeaderAt s.mem c next') :
    (mergeable b.addr c.addr).run s = .ok (decide (b.Mergeable c), s) := by
  unfold mergeable
  rw [run_bind_of_ok (run_loadIsFree hob hb)]
  cases hbf : b.free with
  | false =>
      simp [Block.Mergeable, hbf]
      rfl
  | true =>
      simp only [Bool.not_true, Bool.false_eq_true, if_false]
      rw [run_bind_of_ok (run_loadIsFree hoc hc)]
      cases hcf : c.free with
      | false =>
          simp [Block.Mergeable, hcf]
          rfl
      | true =>
          simp only [Bool.not_true, Bool.false_eq_true, if_false]
          rw [run_blocksContinuous hob hoc hb]
          simp only [Block.Mergeable, hbf, hcf, true_and]

/-- The last block of a chain has nothing to merge with. -/
theorem run_tryMerge_last (h : Stands s (p.fill [b])) (hpost : p.post = []) :
    (tryMergeWithNext b.addr).run s = .ok (false, s) := by
  have ho := h.held_mid (b := b) (by simp)
  obtain ⟨-, hchain, -⟩ := h.chain_fill
  rw [hpost] at hchain
  have hne := ho.addr_ne
  unfold tryMergeWithNext
  rw [if_neg hne, run_bind_of_ok (run_loadNext ho hchain.1)]
  rfl

/-- A block with one behind it goes as far as the check whether the two can be merged. -/
theorem run_tryMerge_next (h : Stands s (p.fill [b, c])) :
    (tryMergeWithNext b.addr).run s =
      (if !decide (b.Mergeable c) then return false else do
        let nextAfterMerge ← loadNext c.addr
        let size := sizeFromCapacity (← loadCapacity b.addr)
        let nextSize := sizeFromCapacity (← loadCapacity c.addr)
        blockInit b.addr ⟨(size.bytes + nextSize.bytes) % SIZE⟩ nextAfterMerge
        return true : Heap Bool).run s := by
  have hob := h.held_mid (b := b) (by simp)
  have hoc := h.held_mid (b := c) (by simp)
  obtain ⟨-, hchain, -⟩ := h.chain_fill
  have hne := hob.addr_ne
  have hne' := hoc.addr_ne
  have hnext : (loadNext b.addr).run s = .ok (c.addr, s) := run_loadNext hob hchain.1
  unfold tryMergeWithNext
  rw [if_neg hne, run_bind_of_ok hnext, if_neg hne']
  rw [run_bind_of_ok (run_mergeable hob hoc hchain.1 hchain.2.1)]

/-- A block followed by one it cannot merge with stays as it is. -/
theorem run_tryMerge_no (h : Stands s (p.fill [b, c])) (hno : ¬ b.Mergeable c) :
    (tryMergeWithNext b.addr).run s = .ok (false, s) := by
  rw [run_tryMerge_next h]
  simp [hno]
  rfl

/-- A block followed by one it can merge with takes it in. -/
theorem run_tryMerge_yes (h : Stands s (p.fill [b, c])) (hyes : b.Mergeable c) :
    (tryMergeWithNext b.addr).run s =
      .ok (true, initialized s (b.merge c) (headAddr p.post 0)) := by
  have hob := h.held_mid (b := b) (by simp)
  have hoc := h.held_mid (b := c) (by simp)
  obtain ⟨-, hchain, -⟩ := h.chain_fill
  have hend : c.addr = b.addr + 17 + b.cap := hyes.2.2
  have hhigh := hoc.high
  have hlow := hob.low
  rw [run_tryMerge_next h]
  simp only [hyes, decide_true, Bool.not_true, Bool.false_eq_true, if_false]
  rw [run_bind_of_ok (run_loadNext hoc hchain.2.1),
    run_bind_of_ok (run_loadCapacity hob hchain.1),
    run_bind_of_ok (run_loadCapacity hoc hchain.2.1)]
  have hsize : ((sizeFromCapacity ⟨b.cap⟩).bytes + (sizeFromCapacity ⟨c.cap⟩).bytes) % SIZE =
      b.cap + 17 + c.cap + 17 := by
    simp only [sizeFromCapacity, SIZE, offsetofContents]
    omega
  have hmapped : ∀ i < 24, Mapped s.mapped (b.addr + i) := fun i hi => by
    -- an empty block ends before the padding, which then lies in the header behind it
    rcases Nat.lt_or_ge (b.addr + i) c.addr with hlt | hge
    · exact hob.mapped _ ⟨by omega, by omega⟩
    · exact hoc.mapped _ ⟨hge, by omega⟩
  rw [hsize, run_bind_of_ok (run_blockInit hmapped (by omega) (by omega))]
  simp only [Nat.add_sub_cancel, Block.merge, hyes.1]
  rfl

/-- A chain link is an address. -/
theorem Stands.link_lt (h : Stands s (p.fill mid)) : headAddr p.post 0 < 2 ^ 64 := by
  cases hpost : p.post with
  | nil => simp
  | cons c cs =>
      have hc : c ∈ (p.fill mid).flatten := by simp [Place.fill, hpost]
      have := h.sound.high c hc
      simp only [headAddr_cons]
      omega

/-- The heap after a merge. -/
theorem Stands.merge (h : Stands s (p.fill [b, c])) (hyes : b.Mergeable c) :
    Stands (initialized s (b.merge c) (headAddr p.post 0)) (p.fill [b.merge c]) := by
  have hsound := h.sound.merge hyes.2.2
  obtain ⟨hlow, hhigh⟩ := hsound.bounds (b := b.merge c) (by simp)
  refine h.edit hsound rfl (fun n => rfl) (fun x hx => ?_) ⟨?_, trivial⟩
  · refine writeBytes_of_outside ?_
    have hbx := hx b (by simp)
    have hcx := hx c (by simp)
    have hadj : c.addr = b.addr + 17 + b.cap := hyes.2.2
    unfold Block.Holds at hbx hcx
    simp only [length_headerBytes, Block.merge]
    omega
  · exact headerAt_initialized hyes.1 h.link_lt (by omega)

/-! ## Changing a status -/

/-- Storing to `is_free` gives a header with the new status. -/
theorem headerAt_isFree {m : Mem} {next : ℕ} (h : HeaderAt m b next) (free : Bool) :
    HeaderAt (writeBytes m (b.addr + 16) (leBytes 1 free.toNat)) { b with free := free }
      next := by
  have hread : ∀ k n, k + n ≤ 16 →
      readNat (writeBytes m (b.addr + 16) (leBytes 1 free.toNat)) (b.addr + k) n =
        readNat m (b.addr + k) n := by
    intro k n hk
    exact readNat_congr fun i hi => writeBytes_of_outside (by omega)
  refine ⟨(hread 0 8 (by omega)).trans h.next_eq, (hread 8 8 (by omega)).trans h.capacity_eq, ?_⟩
  have := readNat_writeBytes (m := m) (a := b.addr + 16) (v := free.toNat) (n := 1)
    (p := []) (q := []) (by cases free <;> simp)
  simp only [List.nil_append, List.append_nil, List.length_nil, Nat.add_zero] at this
  rw [this]
  cases free <;> rfl

/-- Setting `is_free` changes the status of the block and nothing else. -/
theorem Stands.setStatus (h : Stands s (p.fill [b])) (free : Bool) :
    ∃ s', (storeIsFree b.addr free).run s = .ok ((), s') ∧
      Stands s' (p.fill [{ b with free := free }]) ∧
      ∀ keep, (∀ x, b.InHeader x → ¬ keep x) → Within keep s s' := by
  have ho := h.held_mid (b := b) (by simp)
  refine ⟨stored s (b.addr + 16) (leBytes 1 free.toNat), ?_, ?_, ?_⟩
  · exact run_store (by
      intro i hi
      rw [length_leBytes] at hi
      exact ho.range (k := 16) (n := 1) (by omega) i hi)
  · refine h.edit (h.sound.status free) rfl (fun n => rfl) (fun x hx => ?_)
      ⟨headerAt_isFree h.chain_fill.2.1.1 free, trivial⟩
    refine writeBytes_of_outside ?_
    have hbx := hx b (by simp)
    unfold Block.Holds at hbx
    rw [length_leBytes]
    omega
  · intro keep hkeep
    refine within_stored fun x hlo hhi => hkeep x ⟨by omega, ?_⟩
    rw [length_leBytes] at hhi
    omega

/-! ## Splitting -/

/-- `block_splittable` on a block of the heap. -/
theorem run_blockSplittable {query next : ℕ} (ho : Held s b) (hh : HeaderAt s.mem b next) :
    (blockSplittable b.addr query).run s =
      .ok (b.free && decide ((query + 41) % 2 ^ 64 ≤ b.cap), s) := by
  unfold blockSplittable
  rw [run_bind_of_ok (run_loadIsFree ho hh)]
  cases hfree : b.free with
  | false =>
      rw [Bool.false_and]
      rfl
  | true =>
      simp only [Bool.not_true, Bool.false_eq_true, if_false, Bool.true_and]
      rw [run_bind_of_ok (run_loadCapacity ho hh)]
      rfl

/-- A block that is not splittable stays as it is. -/
theorem run_splitIfTooBig_refused {query next : ℕ} (ho : Held s b) (hh : HeaderAt s.mem b next)
    (hno : ¬ (b.free = true ∧ (query + 41) % 2 ^ 64 ≤ b.cap)) :
    (splitIfTooBig b.addr query).run s = .ok (false, s) := by
  have hdecide : (b.free && decide ((query + 41) % 2 ^ 64 ≤ b.cap)) = false := by
    simpa using hno
  unfold splitIfTooBig
  rw [run_bind_of_ok (run_blockSplittable ho hh), hdecide]
  rfl

/-- A block that cannot be split stays as it is. -/
theorem run_splitIfTooBig_no {query next : ℕ} (ho : Held s b) (hh : HeaderAt s.mem b next)
    (hq : query + 41 < 2 ^ 64) (hno : ¬ query + 17 + 24 ≤ b.cap) :
    (splitIfTooBig b.addr query).run s = .ok (false, s) := by
  refine run_splitIfTooBig_refused ho hh ?_
  rw [Nat.mod_eq_of_lt hq]
  exact fun hsplit => hno hsplit.2

/-- A splittable block comes to the two calls of `block_init`. -/
theorem run_splitIfTooBig_splits {query next : ℕ} (ho : Held s b) (hh : HeaderAt s.mem b next)
    (hfree : b.free = true) (hfit : (query + 41) % 2 ^ 64 ≤ b.cap) :
    (splitIfTooBig b.addr query).run s =
      (do
        let size := sizeFromCapacity ⟨max query 24⟩
        let pointer := (b.addr + size.bytes) % SIZE
        blockInit b.addr size pointer
        blockInit pointer
          ⟨((sizeFromCapacity ⟨b.cap⟩).bytes + (SIZE - size.bytes)) % SIZE⟩ next
        return true : Heap Bool).run s := by
  have hround : (if query < blockMinCapacity then blockMinCapacity else query) = max query 24 := by
    unfold blockMinCapacity
    split_ifs <;> omega
  unfold splitIfTooBig
  rw [run_bind_of_ok (run_blockSplittable ho hh), hfree, decide_eq_true hfit]
  simp only [Bool.and_self, Bool.not_true, Bool.false_eq_true, if_false]
  rw [run_bind_of_ok (run_loadCapacity ho hh), hround]
  rw [run_bind_of_ok (run_loadNext ho hh)]

/-- A block that is big enough is cut in two, behind the request or behind a minimal block. -/
theorem run_splitIfTooBig_yes {query size next : ℕ} (ho : Held s b) (hh : HeaderAt s.mem b next)
    (hfree : b.free = true) (hsize : max query 24 = size) (hfit : size + 17 + 24 ≤ b.cap) :
    (splitIfTooBig b.addr query).run s = .ok (true,
      initialized (initialized s ⟨b.addr, size, true⟩ (b.addr + 17 + size))
        ⟨b.addr + 17 + size, b.cap - size - 17, true⟩ next) := by
  have hlow := ho.low
  have hhigh := ho.high
  have hbytes : ∀ n, n ≤ b.cap → sizeFromCapacity ⟨n⟩ = ⟨n + 17⟩ := by
    intro n hn
    simp only [sizeFromCapacity, offsetofContents, SIZE, BlockSize.mk.injEq]
    omega
  have hptr : (b.addr + (size + 17)) % SIZE = b.addr + 17 + size := by
    unfold SIZE
    omega
  have hrest : (b.cap + 17 + (SIZE - (size + 17))) % SIZE = b.cap - size := by
    unfold SIZE
    omega
  rw [run_splitIfTooBig_splits ho hh hfree (by omega), hsize]
  simp only [hbytes b.cap le_rfl, hbytes size (by omega), hptr, hrest]
  rw [run_bind_of_ok (run_blockInit (fun i hi => ho.mapped _ ⟨by omega, by omega⟩)
    (by omega) (by omega)), Nat.add_sub_cancel]
  rw [run_bind_of_ok (run_blockInit (s := initialized s _ _)
    (fun i hi => ho.mapped _ ⟨by omega, by omega⟩) (by omega) (by omega))]
  rfl

/-- A free block that holds the request, a header and a minimal block is cut in two. -/
theorem Stands.split {query : ℕ} (h : Stands s (p.fill [b]))
    (hq : 24 ≤ query) (hfit : query + 17 + 24 ≤ b.cap) :
    Stands (initialized (initialized s ⟨b.addr, query, true⟩ (b.addr + 17 + query))
        ⟨b.addr + 17 + query, b.cap - query - 17, true⟩ (headAddr p.post 0))
      (p.fill [⟨b.addr, query, true⟩, ⟨b.addr + 17 + query, b.cap - query - 17, true⟩]) := by
  have ho := h.held_mid (b := b) (by simp)
  have hhigh := ho.high
  refine h.edit (h.sound.split (by omega) true) rfl (fun n => rfl) (fun x hx => ?_)
    ⟨?_, ?_, trivial⟩
  · have hbx := hx b (by simp)
    unfold Block.Holds at hbx
    refine (writeBytes_of_outside ?_).trans (writeBytes_of_outside ?_)
    all_goals
      simp only [length_headerBytes]
      omega
  · -- the header of the first part is not touched by the second `block_init`
    refine (headerAt_initialized (s := s) rfl (by simp only [headAddr_cons]; omega)
      (by dsimp only; omega)).congr
      fun x hx => writeBytes_of_outside ?_
    have := hx.2
    simp only [length_headerBytes] at this ⊢
    omega
  · exact headerAt_initialized rfl h.link_lt (by dsimp only; omega)

end LowLevel.Interface
