import LowLevel.Library.Codes
import LowLevel.Program.FixedHeap
import Mathlib.Algebra.BigOperators.Group.List.Basic
import Mathlib.Algebra.Ring.Nat

/-!
# Segments of blocks

What the heap of fixed blocks is for: its blocks are cut into segments, free blocks and the
blocks that are handed out together. `owned` is where the latter are and how big they are. Free
blocks are taken by putting one segment in the place of them, and given back by putting free
blocks in the place of a segment; `statuses` is how the heap writes the cut down.
-/

set_option autoImplicit false

namespace LowLevel.Model

open LowLevel.Library LowLevel.Program.FixedHeap

/-- A free block, or the blocks of one allocation: one, or `k + 2` of them. -/
inductive Segment where
  | free
  | one
  | long (k : ℕ)
  deriving DecidableEq, Repr

namespace Segment

def width : Segment → ℕ
  | free => 1
  | one => 1
  | long k => k + 2

/-- How the heap marks the blocks of the segment. -/
def statuses : Segment → List BlockStatus
  | free => [.free]
  | one => [.one]
  | long k => .first :: (List.replicate k .cont ++ [.last])

/-- The segment of an allocation of `size` blocks. -/
def ofSize : ℕ → Segment
  | 0 => one
  | 1 => one
  | k + 2 => long k

theorem width_pos (seg : Segment) : 0 < seg.width := by
  cases seg <;> exact Nat.succ_pos _

@[simp] theorem length_statuses (seg : Segment) : seg.statuses.length = seg.width := by
  cases seg with
  | free => rfl
  | one => rfl
  | long k => simp [statuses, width]

theorem width_ofSize {size : ℕ} (hsize : 1 ≤ size) : (ofSize size).width = size := by
  match size, hsize with
  | 1, _ => rfl
  | k + 2, _ => rfl

/-- A request never makes a free block. -/
theorem ofSize_ne_free (size : ℕ) : ofSize size ≠ free := by
  match size with
  | 0 => exact Segment.noConfusion
  | 1 => exact Segment.noConfusion
  | k + 2 => exact Segment.noConfusion

/-- Only a free block is written as one. -/
theorem ne_free_of_mem {seg : Segment} (hseg : seg ≠ free) {s : BlockStatus}
    (hs : s ∈ seg.statuses) : s ≠ .free := by
  cases seg with
  | free => exact absurd rfl hseg
  | one => exact List.mem_singleton.mp hs ▸ BlockStatus.noConfusion
  | long k =>
      rintro rfl
      simp [statuses] at hs

end Segment

variable {segs segs' pre post : List Segment} {seg : Segment} {i k start size : ℕ}

/-- How the heap writes a cut of its blocks down. -/
def statuses (segs : List Segment) : List BlockStatus := segs.flatMap Segment.statuses

/-- How many blocks the segments have. -/
def width (segs : List Segment) : ℕ := (segs.map Segment.width).sum

theorem width_cons (seg : Segment) (segs : List Segment) :
    width (seg :: segs) = seg.width + width segs := rfl

/-- Where the segments that are handed out start, and how big they are. -/
def owned : ℕ → List Segment → List (ℕ × ℕ)
  | _, [] => []
  | i, .free :: segs => owned (i + 1) segs
  | i, seg :: segs => (i, seg.width) :: owned (i + seg.width) segs

@[simp] theorem statuses_append (segs segs' : List Segment) :
    statuses (segs ++ segs') = statuses segs ++ statuses segs' := List.flatMap_append

@[simp] theorem statuses_cons (seg : Segment) (segs : List Segment) :
    statuses (seg :: segs) = seg.statuses ++ statuses segs := List.flatMap_cons

@[simp] theorem statuses_free (k : ℕ) :
    statuses (List.replicate k .free) = List.replicate k .free := by
  induction k with
  | zero => rfl
  | succ k ih => rw [List.replicate_succ, statuses_cons, ih]; rfl

@[simp] theorem length_statuses (segs : List Segment) : (statuses segs).length = width segs := by
  induction segs with
  | nil => rfl
  | cons seg segs ih =>
      rw [statuses_cons, List.length_append, ih, Segment.length_statuses]
      rfl

theorem owned_cons_of_ne (hseg : seg ≠ .free) (i : ℕ) (segs : List Segment) :
    owned i (seg :: segs) = (i, seg.width) :: owned (i + seg.width) segs := by
  cases seg with
  | free => exact absurd rfl hseg
  | one => rfl
  | long k => rfl

/-- The second part starts at the width of the first. -/
theorem owned_append (i : ℕ) (segs segs' : List Segment) :
    owned i (segs ++ segs') = owned i segs ++ owned (i + width segs) segs' := by
  induction segs generalizing i with
  | nil => rfl
  | cons seg segs ih =>
      have hwidth : i + width (seg :: segs) = i + seg.width + width segs := by
        rw [Nat.add_assoc]
        rfl
      rw [hwidth]
      cases seg with
      | free => exact ih (i + 1)
      | one => exact congrArg (List.cons (i, 1)) (ih (i + 1))
      | long k => exact congrArg (List.cons (i, k + 2)) (ih (i + (k + 2)))

/-- Free blocks belong to nobody. -/
@[simp] theorem owned_free (i k : ℕ) : owned i (List.replicate k .free) = [] := by
  induction k generalizing i with
  | zero => rfl
  | succ k ih => exact ih (i + 1)

theorem width_free (k : ℕ) : width (List.replicate k .free) = k := by
  rw [← length_statuses, statuses_free, List.length_replicate]

/-- **One segment in the place of free blocks**, or free blocks in the place of it: nothing else
changes its owner. -/
theorem owned_perm (hseg : seg ≠ .free) (pre post : List Segment) :
    (owned 0 (pre ++ seg :: post)).Perm ((width pre, seg.width) ::
      owned 0 (pre ++ List.replicate seg.width .free ++ post)) := by
  rw [List.append_assoc, owned_append, owned_append, owned_append, owned_cons_of_ne hseg,
    owned_free, List.nil_append, width_free, Nat.zero_add]
  exact List.perm_middle

/-- A segment that is handed out. -/
theorem exists_of_mem_owned (h : (start, size) ∈ owned i segs) :
    ∃ pre seg post, segs = pre ++ seg :: post ∧ seg ≠ .free ∧ i + width pre = start ∧
      seg.width = size := by
  induction segs generalizing i with
  | nil => exact absurd h List.not_mem_nil
  | cons seg segs ih =>
      by_cases hseg : seg = .free
      · subst hseg
        obtain ⟨pre, seg, post, rfl, hne, hstart, hsize⟩ := ih (i := i + 1) h
        refine ⟨.free :: pre, seg, post, rfl, hne, ?_, hsize⟩
        rw [← hstart, width_cons, ← Nat.add_assoc]
        rfl
      · rw [owned_cons_of_ne hseg] at h
        rcases List.mem_cons.mp h with heq | hmem
        · obtain ⟨rfl, rfl⟩ := Prod.mk.inj heq
          exact ⟨[], seg, segs, rfl, hseg, rfl, rfl⟩
        · obtain ⟨pre, seg', post, rfl, hne, hstart, hsize⟩ := ih hmem
          exact ⟨seg :: pre, seg', post, rfl, hne, by rw [← hstart, width_cons, ← Nat.add_assoc],
            hsize⟩

theorem eq_nil_of_statuses (h : statuses segs = []) : segs = [] := by
  cases segs with
  | nil => rfl
  | cons seg segs =>
      have hlength := congrArg List.length h
      have hpos := seg.width_pos
      rw [length_statuses, width_cons, List.length_nil] at hlength
      omega

/-- A free status is that of a free block. -/
theorem exists_of_statuses_cons {before behind : List BlockStatus}
    (h : statuses segs = before ++ .free :: behind) :
    ∃ pre post, segs = pre ++ .free :: post ∧ statuses pre = before ∧ statuses post = behind := by
  induction segs generalizing before with
  | nil => exact absurd h (by simp [statuses])
  | cons seg segs ih =>
      rw [statuses_cons] at h
      rcases List.append_eq_append_iff.mp h with ⟨inner, rfl, hsegs⟩ | ⟨inner, hseg, hsegs⟩
      · obtain ⟨pre, post, rfl, rfl, rfl⟩ := ih hsegs
        exact ⟨seg :: pre, post, rfl, rfl, rfl⟩
      · cases inner with
        | nil =>
            have hbehind : statuses segs = [] ++ .free :: behind := hsegs.symm
            obtain ⟨pre, post, rfl, hpre, rfl⟩ := ih hbehind
            refine ⟨seg :: pre, post, rfl, ?_, rfl⟩
            rw [statuses_cons, hpre, hseg, List.append_nil, List.append_nil]
        | cons s inner =>
            obtain ⟨rfl, hbehind⟩ := List.cons.inj hsegs
            -- a free status inside of a segment makes it a free block
            have hfree : seg = .free := by
              by_contra hne
              exact Segment.ne_free_of_mem hne (by rw [hseg]; simp) rfl
            subst hfree
            have hsingle : before ++ .free :: inner = [.free] := hseg.symm
            obtain ⟨rfl, rfl⟩ : before = [] ∧ inner = [] := by
              cases before with
              | nil => exact ⟨rfl, (List.cons.inj hsingle).2⟩
              | cons s before => simp at hsingle
            exact ⟨[], segs, rfl, rfl, hbehind.symm⟩

/-- **Free statuses are those of free blocks**: a stretch of them is cut into free blocks. -/
theorem exists_of_statuses_append {before behind : List BlockStatus} (hk : 0 < k)
    (h : statuses segs = before ++ List.replicate k .free ++ behind) :
    ∃ pre post, segs = pre ++ List.replicate k .free ++ post ∧ statuses pre = before ∧
      statuses post = behind := by
  induction k, hk using Nat.le_induction generalizing before segs with
  | base =>
      obtain ⟨pre, post, rfl, hpre, hpost⟩ := exists_of_statuses_cons (h.trans (by simp; rfl))
      exact ⟨pre, post, by simp, hpre, hpost⟩
  | succ k hk ih =>
      rw [List.replicate_succ, List.append_assoc, List.cons_append] at h
      obtain ⟨pre, segs, rfl, rfl, hsegs⟩ := exists_of_statuses_cons h
      have hbehind : statuses segs = [] ++ List.replicate k .free ++ behind := hsegs
      obtain ⟨between, post, rfl, hnone, rfl⟩ := ih hbehind
      obtain rfl := eq_nil_of_statuses hnone
      exact ⟨pre, post, by simp [List.replicate_succ], rfl, rfl⟩

/-! ## The cut, read back -/

/-- No segment is written as the beginning of another. -/
theorem Segment.instantaneous_statuses : Instantaneous Segment.statuses where
  ne_nil seg hnil := by
    have hlength := seg.length_statuses
    have hpos := seg.width_pos
    rw [hnil, List.length_nil] at hlength
    omega
  eq_of_append_eq seg seg' xs ys heq := by
    cases seg with
    | free => cases seg' <;> simp_all [Segment.statuses]
    | one => cases seg' <;> simp_all [Segment.statuses]
    | long k =>
        cases seg' with
        | free => simp [Segment.statuses] at heq
        | one => simp [Segment.statuses] at heq
        | long k' =>
            simp only [Segment.statuses, List.cons_append, List.append_assoc, List.nil_append,
              List.cons.injEq, true_and] at heq
            have hcont := (eq_of_append_cons_eq (by simp) (by simp) heq).1
            rw [List.replicate_left_injective _ hcont]

/-- **The cut can be read off the statuses.** -/
theorem statuses_injective : Function.Injective statuses :=
  Segment.instantaneous_statuses.flatMap_injective

/-- An owned segment is known by its width. -/
theorem Segment.eq_of_width {seg seg' : Segment} (hseg : seg ≠ .free) (hseg' : seg' ≠ .free)
    (hwidth : seg.width = seg'.width) : seg = seg' := by
  cases seg <;> cases seg' <;> simp_all [Segment.width]

theorem width_cons_pos (seg : Segment) (segs : List Segment) : 0 < width (seg :: segs) := by
  have hpos := seg.width_pos
  rw [width_cons]
  omega

theorem le_of_mem_owned (h : (start, size) ∈ owned i segs) : i ≤ start := by
  obtain ⟨pre, -, -, -, -, hstart, -⟩ := exists_of_mem_owned h
  omega

/-- Behind a free block nothing starts at it. -/
theorem owned_succ_ne_cons {rest : List (ℕ × ℕ)} : owned (i + 1) segs ≠ (i, size) :: rest := by
  intro h
  have hle := le_of_mem_owned (h ▸ List.mem_cons_self)
  omega

/-- Segments are handed out from left to right. -/
theorem pairwise_owned (i : ℕ) (segs : List Segment) :
    (owned i segs).Pairwise fun p q => p.1 < q.1 := by
  induction segs generalizing i with
  | nil => exact List.Pairwise.nil
  | cons seg segs ih =>
      by_cases hseg : seg = .free
      · subst hseg
        exact ih (i + 1)
      · rw [owned_cons_of_ne hseg]
        refine List.Pairwise.cons (fun q hq => ?_) (ih _)
        have hle := le_of_mem_owned hq
        have hpos := seg.width_pos
        dsimp only
        omega

/-- **The cut is known** from what is handed out and from how many blocks there are. -/
theorem eq_of_owned_eq (howned : owned i segs = owned i segs') (hwidth : width segs = width segs') :
    segs = segs' := by
  induction segs generalizing i segs' with
  | nil =>
      cases segs' with
      | nil => rfl
      | cons seg' segs' => exact absurd hwidth (width_cons_pos seg' segs').ne
  | cons seg segs ih =>
      cases segs' with
      | nil => exact absurd hwidth (width_cons_pos seg segs).ne'
      | cons seg' segs' =>
          rw [width_cons, width_cons] at hwidth
          by_cases hseg : seg = .free <;> by_cases hseg' : seg' = .free
          · subst hseg hseg'
            rw [ih howned (by omega)]
          · subst hseg
            rw [owned_cons_of_ne hseg'] at howned
            exact absurd howned owned_succ_ne_cons
          · subst hseg'
            rw [owned_cons_of_ne hseg] at howned
            exact absurd howned.symm owned_succ_ne_cons
          · rw [owned_cons_of_ne hseg, owned_cons_of_ne hseg'] at howned
            obtain ⟨hhead, htail⟩ := List.cons.inj howned
            have hsame : seg.width = seg'.width := (Prod.mk.inj hhead).2
            rw [hsame] at htail
            rw [Segment.eq_of_width hseg hseg' hsame, ih htail (by omega)]

/-- In whatever order it is told. -/
theorem eq_of_owned_perm (howned : (owned i segs).Perm (owned i segs'))
    (hwidth : width segs = width segs') : segs = segs' := by
  refine eq_of_owned_eq (howned.eq_of_pairwise ?_ (pairwise_owned i segs)
    (pairwise_owned i segs')) hwidth
  intro p q _ _ hpq hqp
  exact absurd (hpq.trans hqp) (lt_irrefl _)

end LowLevel.Model
