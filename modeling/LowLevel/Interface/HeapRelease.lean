import LowLevel.Model.Segments
import LowLevel.Interface.HeapEdits

/-!
# `heap_term` unmaps the segments of the chain

`unmap_from_pointer` finds the end of a segment, and unmaps the pages that hold it after it has
read the link of its last block. On an anchored chain the pages hold no byte of the blocks
behind, so `heap_term` reaches the end of the chain and reads no header that is unmapped
already: such a read would be a segmentation fault.
-/

set_option autoImplicit false

namespace LowLevel.Interface

open LowLevel.Library LowLevel.Model LowLevel.Program.Allocator

variable {s : State} {b c : Block} {bs : List Block} {m : Mapping}

/-! ## `munmap` -/

/-- A byte is mapped after a range was taken out when it was before and is not in the range. -/
theorem mapped_without {ms : List Mapping} {start stop x : ℕ} :
    Mapped (ms.flatMap (Mapping.without start stop)) x ↔
      Mapped ms x ∧ ¬ (start ≤ x ∧ x < stop) := by
  have hone : ∀ m : Mapping, (∃ p ∈ m.without start stop, p.Holds x) ↔
      m.Holds x ∧ ¬ (start ≤ x ∧ x < stop) := by
    intro m
    unfold Mapping.without Mapping.Holds
    simp only [List.mem_filter, List.mem_cons, List.not_mem_nil, or_false, decide_eq_true_eq]
    constructor
    · rintro ⟨p, ⟨rfl | rfl, -⟩, hlow, hhigh⟩
      all_goals
        dsimp only at hlow hhigh
        omega
    · rintro ⟨⟨hlow, hhigh⟩, hout⟩
      rcases Nat.lt_or_ge x start with hx | hx
      · exact ⟨_, ⟨.inl rfl, by dsimp only; omega⟩, hlow, by dsimp only; omega⟩
      · exact ⟨_, ⟨.inr rfl, by dsimp only; omega⟩, by dsimp only; omega, by dsimp only; omega⟩
  unfold Mapped
  constructor
  · rintro ⟨p, hp, hx⟩
    obtain ⟨m, hm, hpm⟩ := List.mem_flatMap.mp hp
    obtain ⟨hmx, hout⟩ := (hone m).mp ⟨p, hpm, hx⟩
    exact ⟨⟨m, hm, hmx⟩, hout⟩
  · rintro ⟨⟨m, hm, hmx⟩, hout⟩
    obtain ⟨p, hp, hx⟩ := (hone m).mpr ⟨hmx, hout⟩
    exact ⟨p, List.mem_flatMap.mpr ⟨m, hm, hp⟩, hx⟩

/-- The state after the pages `m` were unmapped. -/
def unmapped (s : State) (m : Mapping) : State :=
  { s with
    unmaps := s.unmaps ++ [m]
    mem := fun x => if m.addr ≤ x ∧ x < m.addr + m.size then 0 else s.mem x
    mapped := s.mapped.flatMap (Mapping.without m.addr (m.addr + m.size)) }

theorem mapped_unmapped {x : ℕ} :
    Mapped (unmapped s m).mapped x ↔ Mapped s.mapped x ∧ ¬ m.Holds x :=
  mapped_without

/-- `munmap` of a range that starts a page and ends in the address space. -/
theorem run_munmap (haddr : m.addr % getpagesize = 0) (hsize : 0 < m.size) (hlow : 0 < m.addr)
    (hhigh : m.addr + m.size ≤ 2 ^ 64) :
    (munmap m.addr (roundPages m.size)).run s = .ok ((), unmapped s (pages m)) := by
  have hlen : roundPages m.size = (pages m).size ∧
      getpagesize * pagesCount (pages m).size = (pages m).size ∧
      Unmappable m.addr (pages m).size := by
    unfold roundPages Unmappable pages pagesCount getpagesize SIZE at *
    dsimp only
    split_ifs <;> omega
  obtain ⟨hround, hpages, hok⟩ := hlen
  rw [hround]
  show munmap m.addr (pages m).size s = _
  unfold munmap
  simp only [if_pos hok, hpages]
  rfl

/-! ## `unmap_from_pointer` -/

/-- The loop stops at the last block of the segment, with the size of the blocks before it. -/
theorem settles_unmapLoop (before : List (List Block)) (pre : List Block)
    (after : List (List Block)) (b : Block) (bs : List Block) (len : ℕ)
    (h : Stands s ((⟨before, pre, bs, after⟩ : Place).fill [b]))
    (hlen : len + ((firstSegment b bs).1.addr - b.addr) < 2 ^ 64) :
    Settles (fun n => unmapLoop n b.addr len) s
      ((firstSegment b bs).1.addr, len + ((firstSegment b bs).1.addr - b.addr)) s := by
  induction bs generalizing pre b len with
  | nil =>
      have hnext : (loadNext b.addr).run s = .ok (0, s) :=
        run_loadNext (h.held_mid (by simp)) h.chain_fill.2.1.1
      refine Settles.of_succ fun n => ?_
      rw [unmapLoop, run_bind_of_ok hnext, if_pos rfl, firstSegment, Nat.sub_self]
      rfl
  | cons c cs ih =>
      have hpair : Stands s ((⟨before, pre, cs, after⟩ : Place).fill [b, c]) := by
        simpa [Place.fill] using h
      have hheld := h.held_mid (b := b) (by simp)
      have hheldc := hpair.held_mid (b := c) (by simp)
      have hheader := h.chain_fill.2.1.1
      have hnext : (loadNext b.addr).run s = .ok (c.addr, s) := run_loadNext hheld hheader
      have hne : c.addr ≠ 0 := hheldc.addr_ne
      have hcontinuous := run_blocksContinuous hheld hheldc hheader
      by_cases hadj : c.addr = b.stop
      · rw [firstSegment, if_pos hadj] at hlen ⊢
        have hle := addr_le_segment c cs
        have hhigh := hheldc.high
        have hstop : c.addr = b.addr + 17 + b.cap := hadj
        have hsum : len + ((firstSegment c cs).1.addr - b.addr) =
            len + (c.addr - b.addr) + ((firstSegment c cs).1.addr - c.addr) := by omega
        have hsize : (len + (b.cap + 17) % SIZE) % SIZE = len + (c.addr - b.addr) := by
          unfold SIZE
          omega
        rw [hsum] at hlen ⊢
        have hrest := ih (pre ++ [b]) c (len + (c.addr - b.addr))
          (by simpa [Place.fill] using h) hlen
        refine Settles.step hrest fun n => ?_
        rw [unmapLoop, run_bind_of_ok hnext, if_neg hne, run_bind_of_ok hnext,
          run_bind_of_ok hcontinuous, decide_eq_true hadj]
        simp only [Bool.not_true, Bool.false_eq_true, if_false]
        rw [run_bind_of_ok (run_loadCapacity hheld hheader), run_bind_of_ok hnext, ← hsize]
        rfl
      · rw [firstSegment, if_neg hadj, Nat.sub_self]
        refine Settles.of_succ fun n => ?_
        rw [unmapLoop, run_bind_of_ok hnext, if_neg hne, run_bind_of_ok hnext,
          run_bind_of_ok hcontinuous, decide_eq_false hadj]
        rfl

/-- The pages of the first segment of a chain end in the address space. -/
theorem segmentRange_high (h : Stands s [b :: bs]) :
    (segmentRange b bs).addr + (segmentRange b bs).size ≤ 2 ^ 64 := by
  obtain ⟨pre, hpre⟩ := exists_segment b bs
  have hheld := h.held (b := (firstSegment b bs).1) (by rw [hpre]; simp)
  have hlt := addr_lt_segment b bs
  have hhigh : (firstSegment b bs).1.stop ≤ 2 ^ 64 := hheld.high
  unfold segmentRange
  dsimp only
  omega

/-- **`unmap_from_pointer`** unmaps the pages of the segment and returns the link behind it. -/
theorem settles_unmapFromPointer (h : Stands s [b :: bs]) (halign : b.addr % getpagesize = 0) :
    Settles (fun n => unmapFromPointer n b.addr) s (headAddr (firstSegment b bs).2 0)
      (unmapped s (pages (segmentRange b bs))) := by
  obtain ⟨pre, hpre⟩ := exists_segment b bs
  have hlast : Stands s
      ((⟨[], pre, (firstSegment b bs).2, []⟩ : Place).fill [(firstSegment b bs).1]) := by
    simpa [Place.fill, ← hpre] using h
  have hheld := hlast.held_mid (b := (firstSegment b bs).1) (by simp)
  have hheader := hlast.chain_fill.2.1.1
  have hlow : 0 < b.addr := (h.held (b := b) (by simp)).low
  have hhigh := hheld.high
  have hle := addr_le_segment b bs
  have hloop := settles_unmapLoop [] [] [] b bs 0 (by simpa [Place.fill] using h) (by omega)
  have hsize : (0 + ((firstSegment b bs).1.addr - b.addr) +
      (sizeFromCapacity ⟨(firstSegment b bs).1.cap⟩).bytes) % SIZE = (segmentRange b bs).size := by
    unfold sizeFromCapacity offsetofContents SIZE segmentRange Block.stop
    dsimp only
    omega
  have hmunmap := run_munmap (s := s) (m := segmentRange b bs) halign
    (by have := addr_lt_segment b bs; unfold segmentRange; dsimp only; omega) hlow
    (segmentRange_high h)
  refine hloop.bind (Settles.of_run ?_)
  dsimp only
  rw [run_bind_of_ok (run_loadCapacity hheld hheader), run_bind_of_ok (run_loadNext hheld hheader),
    hsize]
  exact run_bind_of_ok hmunmap

/-! ## `heap_term` -/

/-- Behind a segment that was unmapped the chain still stands. -/
theorem stands_unmapped (h : Stands s [b :: bs]) (hanchored : Anchored (b :: bs))
    (halign : b.addr % getpagesize = 0) :
    Stands (unmapped s (pages (segmentRange b bs))) [(firstSegment b bs).2] := by
  obtain ⟨pre, hpre⟩ := exists_segment b bs
  have hsingle : ∀ x, depth Block.Holds (b :: bs) x ≤ 1 := by simpa using h.sound.single
  have hmem : ∀ c ∈ (firstSegment b bs).2, c ∈ [b :: bs].flatten := by
    intro c hc
    rw [hpre]
    simp [hc]
  have hapart : ∀ c ∈ (firstSegment b bs).2, ∀ x, c.Holds x →
      ¬ (pages (segmentRange b bs)).Holds x :=
    fun c hc x hx => rest_apart_pages hanchored halign hsingle hc hx
  refine ⟨⟨fun x => ?_, fun c hc x hx => ?_, fun c hc => ?_, fun c hc => ?_⟩, fun d hd => ?_⟩
  · have hle := hsingle x
    rw [depth_segment] at hle
    simp only [List.flatten_cons, List.flatten_nil, List.append_nil]
    omega
  · have hc' : c ∈ (firstSegment b bs).2 := by simpa using hc
    exact mapped_unmapped.mpr ⟨h.sound.mapped c (hmem c hc') x hx, hapart c hc' x hx⟩
  · exact h.sound.low c (hmem c (by simpa using hc))
  · exact h.sound.high c (hmem c (by simpa using hc))
  · obtain rfl := List.mem_singleton.mp hd
    have hchain : Chain s.mem (b :: bs) 0 := h.linked _ (List.mem_singleton_self _)
    rw [hpre, chain_append] at hchain
    refine hchain.2.2.congr fun c hc x hx => if_neg fun hin => ?_
    have hbx : c.Holds x := ⟨hx.1, by have := hx.2; omega⟩
    exact hapart c hc x hbx hin

/-- **`heap_term`** from the start of an anchored chain unmaps the pages of its segments, in
the order of the chain. -/
theorem settles_termLoop (h : Stands s [bs]) (hanchored : Anchored bs)
    (hhead : ∀ b ∈ bs.head?, b.addr % getpagesize = 0) :
    ∃ s', Settles (fun n => termLoop n (headAddr bs 0)) s () s' ∧
      s'.unmaps = s.unmaps ++ (segments bs).map pages ∧
      ∀ x, Mapped s'.mapped x ↔
        Mapped s.mapped x ∧ ∀ m ∈ (segments bs).map pages, ¬ m.Holds x := by
  induction bs using segments.induct generalizing s with
  | case1 =>
      refine ⟨s, Settles.of_succ fun n => ?_, by simp [segments], by simp [segments]⟩
      rw [headAddr_nil, termLoop, if_pos rfl]
      rfl
  | case2 b bs ih =>
      have halign : b.addr % getpagesize = 0 := hhead b rfl
      have hne : b.addr ≠ 0 := (h.held (b := b) (by simp)).addr_ne
      obtain ⟨hrest, hhead'⟩ := hanchored.segment
      obtain ⟨s', hrun, hunmaps, hmapped⟩ := ih (stands_unmapped h hanchored halign) hrest hhead'
      rw [segments, List.map_cons]
      refine ⟨s', ?_, by rw [hunmaps]; simp [unmapped], fun x => ?_⟩
      · refine Settles.step ((settles_unmapFromPointer h halign).bind hrun) fun n => ?_
        rw [headAddr, termLoop, if_neg hne]
      · rw [hmapped, mapped_unmapped, List.forall_mem_cons, and_assoc]

end LowLevel.Interface
