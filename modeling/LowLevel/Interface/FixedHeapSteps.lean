import LowLevel.Library.Runs
import LowLevel.Model.FixedSegments

/-!
# The fixed-block heap, call by call

The search of `block_allocate` keeps the length of the free run that it stands behind; the
greatest such length is below `size` until the search stops, so it need not be reset. What
`block_allocate` and `block_free` do to the statuses is put in the words of segments.
-/

set_option autoImplicit false

namespace LowLevel.Interface

open LowLevel.Library LowLevel.Model LowLevel.Program.FixedHeap

variable {size : ℕ} {status seen rest pre old post : List BlockStatus} {s : AllocateLoop}

/-! ## The search -/

/-- The search has seen these blocks, and goes on. -/
structure Searched (size : ℕ) (seen : List BlockStatus) (s : AllocateLoop) : Prop where
  small : s.maxFree < size
  counter_le : s.counter ≤ s.maxFree
  started : s.started = decide (0 < s.counter)
  none : ¬ HasRun .free seen size
  run : ∃ pre, seen = pre ++ List.replicate s.counter .free ∧ pre.getLast? ≠ some .free ∧
    (0 < s.counter → s.startId = pre.length)

/-- The variables behind a free block `i`. -/
def afterFree (i : ℕ) (s : AllocateLoop) : AllocateLoop where
  maxFree := if s.counter + 1 ≥ s.maxFree then s.counter + 1 else s.maxFree
  startId := if s.started = false then i else s.startId
  counter := s.counter + 1
  started := true

/-- The first `size` blocks of the first long run are between these. -/
structure FirstBetween (status : List BlockStatus) (size : ℕ) (pre post : List BlockStatus) :
    Prop where
  status_eq : status = pre ++ List.replicate size .free ++ post
  last : pre.getLast? ≠ some .free
  none : ¬ HasRun .free pre size

theorem FirstBetween.hasRun (h : FirstBetween status size pre post) :
    HasRun .free status size := by
  rw [h.status_eq]
  exact ⟨pre.length, runAt_replicate _ pre post size⟩

theorem searched_nil (hsize : 1 ≤ size) : Searched size [] ⟨0, 0, 0, false⟩ where
  small := hsize
  counter_le := le_rfl
  started := rfl
  none := by
    rintro ⟨start, hrun⟩
    have hinside := hrun.add_le_length hsize
    rw [List.length_nil] at hinside
    omega
  run := ⟨[], rfl, Option.some_ne_none _ ∘ Eq.symm, fun h => absurd h (lt_irrefl 0)⟩

/-- A block that is taken ends the run. -/
theorem Searched.taken {b : BlockStatus} (h : Searched size seen s) (hb : b ≠ .free) :
    Searched size (seen ++ [b]) { s with started := false, counter := 0 } where
  small := h.small
  counter_le := Nat.zero_le _
  started := rfl
  none := not_hasRun_concat (Nat.zero_le s.maxFree |>.trans_lt h.small) hb h.none
  run := by
    refine ⟨seen ++ [b], by rw [List.replicate_zero, List.append_nil], ?_,
      fun h => absurd h (lt_irrefl 0)⟩
    rw [List.getLast?_concat]
    exact fun heq => hb (Option.some.inj heq)

/-- A free block makes the run longer: either it is still too short, or it has just become long
enough, and is the first such run. -/
theorem Searched.free (h : Searched size seen s) :
    ((afterFree seen.length s).maxFree < size →
        Searched size (seen ++ [.free]) (afterFree seen.length s)) ∧
      (size ≤ (afterFree seen.length s).maxFree →
        ∃ pre, (afterFree seen.length s).startId = pre.length ∧
          ∀ post, FirstBetween (seen ++ .free :: post) size pre post) := by
  obtain ⟨hsmall, hle, hstarted, hnone, pre, rfl, hpre, hstart⟩ := h
  have hstart' : (afterFree (pre ++ List.replicate s.counter BlockStatus.free).length s).startId =
      pre.length := by
    unfold afterFree
    rw [hstarted]
    rcases Nat.eq_zero_or_pos s.counter with hzero | hpos
    · simp [hzero]
    · simp [hpos, hstart hpos]
  have hgrown : pre ++ List.replicate s.counter .free ++ [BlockStatus.free] =
      pre ++ List.replicate (s.counter + 1) .free := by
    rw [List.append_assoc, List.replicate_succ']
  generalize (pre ++ List.replicate s.counter BlockStatus.free).length = i at hstart' ⊢
  have hmax : s.counter + 1 ≤ (afterFree i s).maxFree ∧
      ((afterFree i s).maxFree = s.counter + 1 ∨ (afterFree i s).maxFree = s.maxFree) := by
    unfold afterFree
    dsimp only
    split_ifs <;> omega
  constructor
  · intro hsmall'
    refine ⟨hsmall', hmax.1, (decide_eq_true (Nat.succ_pos _)).symm, ?_, pre, hgrown, hpre,
      fun _ => hstart'⟩
    intro hrun
    have hlong := le_of_hasRun_concat (by omega) hpre hnone hrun
    omega
  · intro hlong
    -- the greatest length was below `size`, so it is the length of this run that reached it
    have hsize : s.counter + 1 = size := by omega
    refine ⟨pre, hstart', fun post => ⟨?_, hpre, fun hrun => hnone (hrun.append _)⟩⟩
    rw [← hsize, ← hgrown, List.append_assoc _ [BlockStatus.free]]
    rfl

theorem allocateLoop_free (i : ℕ) : allocateLoop size (.free :: rest) i s =
    if size ≤ (afterFree i s).maxFree then afterFree i s
    else allocateLoop size rest (i + 1) (afterFree i s) := rfl

/-- At a block that is taken nothing changes if no run was started. -/
theorem Searched.allocateLoop_taken {b : BlockStatus} (h : Searched size seen s) (hb : b ≠ .free)
    (i : ℕ) : allocateLoop size (b :: rest) i s =
      allocateLoop size rest (i + 1) { s with started := false, counter := 0 } := by
  rw [allocateLoop, if_neg hb]
  split_ifs with hstarted
  · rfl
  · have hzero : s.counter = 0 := by
      have hnot := h.started
      rw [Bool.eq_false_iff.mpr hstarted] at hnot
      simpa using hnot.symm
    rw [← hzero, ← Bool.eq_false_iff.mpr hstarted]

/-- **The search** finds the first long run, or there is none. -/
theorem allocateLoop_spec (h : Searched size seen s) (rest : List BlockStatus) :
    (allocateLoop size rest seen.length s).maxFree < size ∧ ¬ HasRun .free (seen ++ rest) size ∨
      size ≤ (allocateLoop size rest seen.length s).maxFree ∧
        ∃ pre post, (allocateLoop size rest seen.length s).startId = pre.length ∧
          FirstBetween (seen ++ rest) size pre post := by
  induction rest generalizing seen s with
  | nil =>
      rw [List.append_nil]
      exact .inl ⟨h.small, h.none⟩
  | cons b rest ih =>
      have hlength : (seen ++ [b]).length = seen.length + 1 := List.length_append
      have hseen : seen ++ b :: rest = seen ++ [b] ++ rest := by rw [List.append_assoc]; rfl
      by_cases hfree : b = .free
      · subst hfree
        obtain ⟨hgoes, hfound⟩ := h.free
        rw [allocateLoop_free]
        split_ifs with hlong
        · obtain ⟨pre, hstart, hbetween⟩ := hfound hlong
          exact .inr ⟨hlong, pre, rest, hstart, hbetween rest⟩
        · rw [hseen, ← hlength]
          exact ih (hgoes (not_le.mp hlong))
      · rw [h.allocateLoop_taken hfree, hseen, ← hlength]
        exact ih (h.taken hfree)

/-! ## Allocating -/

theorem setStatus_append (pre post : List BlockStatus) (b v : BlockStatus) :
    setStatus (pre ++ b :: post) pre.length v = some (pre ++ v :: post) := by
  rw [setStatus, if_pos (by simp), List.set_append_right _ _ le_rfl, Nat.sub_self,
    List.set_cons_zero]

/-- The marking loop writes one block after the other. -/
theorem foldlM_setStatus (f : ℕ → BlockStatus) (pre old post : List BlockStatus) :
    (List.range' pre.length old.length).foldlM (fun status i => setStatus status i (f i))
        (pre ++ old ++ post) =
      some (pre ++ (List.range' pre.length old.length).map f ++ post) := by
  induction old generalizing pre with
  | nil => rfl
  | cons b old ih =>
      have hnext := ih (pre ++ [f pre.length])
      rw [List.length_append, List.length_singleton] at hnext
      rw [List.length_cons, List.range'_succ, List.foldlM_cons, List.append_assoc,
        List.cons_append, setStatus_append, Option.bind_eq_bind, Option.bind_some,
        List.map_cons]
      simp only [List.append_assoc, List.cons_append, List.nil_append] at hnext ⊢
      exact hnext

theorem map_blockMark (start k : ℕ) :
    (List.range' start (k + 2)).map (blockMark start (k + 2)) = (Segment.long k).statuses := by
  have hcont : (List.range' (start + 1) k).map (blockMark start (k + 2)) =
      List.replicate k .cont := by
    rw [List.eq_replicate_iff, List.length_map, List.length_range']
    refine ⟨rfl, fun s hs => ?_⟩
    obtain ⟨i, hi, rfl⟩ := List.mem_map.mp hs
    rw [List.mem_range'_1] at hi
    rw [blockMark, if_neg (by omega), if_neg (by omega)]
  have hlast : blockMark start (k + 2) (start + 1 + k) = .last := by
    rw [blockMark, if_neg (by omega), if_pos (by omega)]
  rw [List.range'_succ, List.range'_1_concat, List.map_cons, List.map_append, hcont,
    List.map_singleton, hlast, blockMark, if_pos rfl]
  rfl

/-- **`block_allocate`** of one block or more: there is no long run, and nothing changes, or the
first blocks of the first one become a segment. -/
theorem blockAllocate_spec (hsize : 1 ≤ size) (status : List BlockStatus) :
    ¬ HasRun .free status size ∧ blockAllocate status size = some (blockIdInvalid, status) ∨
      ∃ pre post, FirstBetween status size pre post ∧ blockAllocate status size =
        some (⟨pre.length, true⟩, pre ++ (Segment.ofSize size).statuses ++ post) := by
  rcases allocateLoop_spec (searched_nil hsize) status with
    ⟨hsmall, hnone⟩ | ⟨hlong, pre, post, hstart, hbetween⟩
  · exact .inl ⟨hnone, if_pos hsmall⟩
  · refine .inr ⟨pre, post, hbetween, ?_⟩
    have hstatus : status = pre ++ List.replicate size .free ++ post := hbetween.status_eq
    unfold blockAllocate
    dsimp only [List.length_nil] at hlong hstart ⊢
    rw [if_neg (not_lt.mpr hlong), hstart, hstatus]
    match size, hsize with
    | 1, _ =>
        rw [if_pos rfl, List.append_assoc]
        have hset := setStatus_append pre post .free .one
        rw [List.replicate_one, List.singleton_append, hset]
        simp [Segment.ofSize, Segment.statuses]
    | k + 2, _ =>
        have hmarked := foldlM_setStatus (blockMark pre.length (k + 2)) pre
          (List.replicate (k + 2) .free) post
        rw [List.length_replicate, map_blockMark] at hmarked
        rw [if_neg (by omega), hmarked]
        rfl

/-! ## Freeing -/

/-- The loop of `block_free` frees what stands in front of the next `BLK_LAST`, and this. -/
theorem freeUpToLast_append {blocks : List BlockStatus} (hblocks : .last ∉ blocks)
    (pre post : List BlockStatus) :
    freeUpToLast (pre ++ blocks ++ .last :: post) pre.length =
      some (pre ++ List.replicate (blocks.length + 1) .free ++ post) := by
  induction blocks generalizing pre with
  | nil =>
      rw [freeUpToLast, dif_pos (by simp)]
      simp
  | cons b blocks ih =>
      rw [List.mem_cons, not_or] at hblocks
      have hnext := ih hblocks.2 (pre ++ [.free])
      rw [List.length_append, List.length_singleton] at hnext
      rw [freeUpToLast, dif_pos (by simp), if_neg (by simpa using Ne.symm hblocks.1)]
      simp only [List.append_assoc, List.cons_append, List.nil_append, List.length_cons,
        List.replicate_succ] at hnext ⊢
      rw [List.set_append_right _ _ le_rfl, Nat.sub_self, List.set_cons_zero]
      exact hnext

/-- **`block_free`** of a handle to a segment frees the segment. -/
theorem blockFree_spec {seg : Segment} (hseg : seg ≠ .free) {b : BlockId}
    (hb : b.value = pre.length) :
    blockFree (pre ++ seg.statuses ++ post) b =
      some (pre ++ List.replicate seg.width .free ++ post) := by
  rw [blockFree, hb]
  cases seg with
  | free => exact absurd rfl hseg
  | one =>
      rw [if_pos (by simp [Segment.statuses])]
      simp [Segment.statuses, Segment.width]
  | long k =>
      rw [if_neg (by simp [Segment.statuses])]
      have hfreed := freeUpToLast_append
        (show BlockStatus.last ∉ .first :: List.replicate k .cont by simp) pre post
      simp only [Segment.statuses, Segment.width, List.append_assoc, List.cons_append,
        List.nil_append, List.length_cons, List.length_replicate] at hfreed ⊢
      exact hfreed

/-! ## Printing -/

/-- The printer prints a text for each block. -/
theorem blockForeachPrinter_eq {α : Type} {blocks : List α} (text : α → List Byte)
    {printer : BlockId → Option (List Byte)}
    (hprinter : ∀ i, printer (blockIdNew i) = blocks[i]?.map text) :
    blockForeachPrinter blocks.length printer = some (blocks.flatMap text) := by
  suffices h : ∀ count ≤ blocks.length,
      blockForeachPrinter count printer = some ((blocks.take count).flatMap text) by
    rw [h _ le_rfl, List.take_length]
  intro count hcount
  induction count with
  | zero => rfl
  | succ count ih =>
      have hprinted := ih (by omega)
      unfold blockForeachPrinter at hprinted ⊢
      rw [List.range_succ, List.foldlM_append, hprinted,
        List.take_succ_eq_append_getElem (show count < blocks.length by omega),
        List.flatMap_append, List.flatMap_singleton, Option.bind_eq_bind, Option.bind_some,
        List.foldlM_cons, hprinter, List.getElem?_eq_getElem (show count < blocks.length by omega)]
      rfl

theorem heapDebugInfo_eq (status : List BlockStatus) :
    heapDebugInfo status = some (status.flatMap repr ++ [0x0a]) := by
  rw [heapDebugInfo, blockForeachPrinter_eq repr (fun i => rfl)]
  rfl

theorem instantaneous_repr : Instantaneous repr := by
  refine instantaneous_of_length (n := 2) (by decide) (fun s => by cases s <;> rfl) ?_
  intro s s' h
  cases s <;> cases s' <;> first | rfl | (exact absurd h (by decide))

end LowLevel.Interface
