import LowLevel.Library.X86.Memory

/-!
# Characters stored as quadwords

Characters that are stored one behind the other, each as a quadword: the next one covers the zero
bytes of the last, and seven of them stay behind the string.
-/

set_option autoImplicit false

namespace LowLevel.Library.X86.Memory

open LowLevel.Library

/-- The characters `bs`, from `a` on. -/
def storeChars (m : Memory) (a : Word) : List Byte → Memory
  | [] => m
  | b :: bs => storeChars (m.write64 a (b.setWidth 64)) (a + 1) bs

variable {m m' : Memory} {a p x : Word} {b : Byte} {bs cs : List Byte} {n k len : ℕ}

theorem storeChars_append (m : Memory) (a : Word) (bs cs : List Byte) :
    storeChars m a (bs ++ cs) =
      storeChars (storeChars m a bs) (a + BitVec.ofNat 64 bs.length) cs := by
  induction bs generalizing m a with
  | nil => rw [List.nil_append, List.length_nil, storeChars, BitVec.add_zero]
  | cons b bs ih =>
      rw [List.cons_append, storeChars, ih, storeChars, List.length_cons]
      congr 1
      bv_omega

/-- The first of the characters from index `i` on. -/
theorem storeChars_cons (m : Memory) (a : Word) (i : ℕ) (b : Byte) (bs : List Byte) :
    storeChars m (a + BitVec.ofNat 64 i) (b :: bs) =
      storeChars (m.write64 (a + BitVec.ofNat 64 i) (b.setWidth 64))
        (a + BitVec.ofNat 64 (i + 1)) bs := by
  rw [storeChars, BitVec.ofNat_add, ← BitVec.add_assoc]
  rfl

theorem write64_byte (m : Memory) (a : Word) (b : Byte) :
    m.write64 a (b.setWidth 64) = m.store a (b :: List.replicate 7 0) := by
  have hb := b.isLt
  have hwide : (b.setWidth 64).toNat = b.toNat := by
    rw [BitVec.toNat_setWidth, Nat.mod_eq_of_lt (by omega)]
  rw [write64, hwide, leBytes_byte]

/-- **The string is stored**, with seven zero bytes behind it. -/
theorem storeChars_eq_store (hne : bs ≠ []) (hlen : bs.length + 7 ≤ 2 ^ 64) :
    storeChars m a bs = m.store a (bs ++ List.replicate 7 0) := by
  induction bs generalizing m a with
  | nil => exact absurd rfl hne
  | cons b bs ih =>
      rw [storeChars]
      rcases bs with _ | ⟨c, cs⟩
      · exact write64_byte m a b
      · have hlen' : (c :: cs).length + 7 < 2 ^ 64 := hlen
        rw [ih (List.cons_ne_nil c cs) hlen'.le, write64_byte]
        set tail := (c :: cs) ++ List.replicate 7 0 with htail
        have htaillen : tail.length = (c :: cs).length + 7 := by
          rw [htail, List.length_append, List.length_replicate]
        rw [List.cons_append, ← htail]
        funext x
        rcases Nat.eq_zero_or_pos (x - a).toNat with hzero | hpos
        · rw [store_of_le (by bv_omega), store_of_lt (by rw [hzero]; exact Nat.succ_pos _),
            store_of_lt (by rw [hzero]; exact Nat.succ_pos _), hzero]
          rfl
        · have hnext : (x - a).toNat = (x - (a + 1)).toNat + 1 := by bv_omega
          by_cases hin : (x - (a + 1)).toNat < tail.length
          · rw [store_of_lt hin, store_of_lt (by rw [hnext]; exact Nat.succ_lt_succ hin), hnext]
            rfl
          · have hlong : (b :: List.replicate 7 (0 : Byte)).length ≤ tail.length := by
              rw [htaillen, List.length_cons, List.length_cons, List.length_replicate]
              omega
            rw [store_of_le (Nat.not_lt.mp hin), store_of_le (by omega), store_of_le]
            rw [hnext, List.length_cons]
            omega

/-- The string with a zero byte behind it. -/
theorem holds_storeChars (hne : bs ≠ []) (hlen : bs.length + 7 ≤ 2 ^ 64) :
    (storeChars m a bs).Holds a (bs ++ [0]) := by
  have hsplit : bs ++ List.replicate 7 0 = (bs ++ [0]) ++ List.replicate 6 (0 : Byte) := by
    rw [List.append_assoc]
    rfl
  have hstored : (storeChars m a bs).Holds a (bs ++ List.replicate 7 0) := by
    rw [storeChars_eq_store hne hlen]
    apply bytes_store
    rw [List.length_append, List.length_replicate]
    exact hlen
  rw [hsplit, holds_append] at hstored
  exact hstored.1

/-- What is not covered by the string and its zero bytes is as it was. -/
theorem storeChars_of_le (hlen : bs.length + 7 ≤ 2 ^ 64) (hx : bs.length + 7 ≤ (x - a).toNat) :
    storeChars m a bs x = m x := by
  by_cases hne : bs = []
  · rw [hne, storeChars]
  · rw [storeChars_eq_store hne hlen, store_of_le]
    rw [List.length_append, List.length_replicate]
    exact hx

/-- The places of the characters behind the first one. -/
theorem add_one_add_ofNat (a : Word) (i : ℕ) :
    a + 1 + BitVec.ofNat 64 i = a + BitVec.ofNat 64 (i + 1) := by
  bv_omega

/-- A byte that none of the quadwords covers is as it was. -/
theorem storeChars_of_apart (hx : ∀ j < cs.length, 8 ≤ (x - (a + BitVec.ofNat 64 j)).toNat) :
    storeChars m a cs x = m x := by
  induction cs generalizing m a with
  | nil => rfl
  | cons c cs ih =>
      rw [storeChars, ih, write64_of_le]
      · simpa using hx 0 (Nat.succ_pos _)
      · intro j hj
        rw [add_one_add_ofNat]
        exact hx (j + 1) (Nat.succ_lt_succ hj)

/-- A byte that one of the quadwords covers does not depend on what was there. -/
theorem storeChars_of_meets (m m' : Memory) {j : ℕ} (hj : j < cs.length)
    (hx : (x - (a + BitVec.ofNat 64 j)).toNat < 8) :
    storeChars m a cs x = storeChars m' a cs x := by
  induction cs generalizing m m' a j with
  | nil => exact absurd hj (Nat.not_lt_zero _)
  | cons c cs ih =>
      rw [storeChars, storeChars]
      by_cases hlater : ∃ i < cs.length, (x - (a + 1 + BitVec.ofNat 64 i)).toNat < 8
      · obtain ⟨i, hi, hmeets⟩ := hlater
        exact ih _ _ hi hmeets
      · -- the first character is the last one to be stored there
        have hapart : ∀ i < cs.length, 8 ≤ (x - (a + 1 + BitVec.ofNat 64 i)).toNat :=
          fun i hi => Nat.not_lt.mp fun hlt => hlater ⟨i, hi, hlt⟩
        rw [storeChars_of_apart hapart, storeChars_of_apart hapart]
        cases j with
        | zero => exact write64_of_lt _ _ (by simpa using hx)
        | succ i =>
            rw [← add_one_add_ofNat] at hx
            exact absurd ⟨i, Nat.lt_of_succ_lt_succ hj, hx⟩ hlater

section Everywhere

variable {p : Byte → Prop} (hzero : p 0) (hchars : ∀ b ∈ bs, p b)
include hzero hchars

/-- A byte is a character, a zero byte, or as it was. -/
theorem storeChars_preserves (hx : p (m x)) : p (storeChars m a bs x) := by
  induction bs generalizing m a with
  | nil => exact hx
  | cons b bs ih =>
      apply ih (fun c hc => hchars c (List.mem_cons_of_mem b hc))
      rw [write64_byte]
      by_cases hin : (x - a).toNat < (b :: List.replicate 7 0).length
      · rw [store_of_lt hin]
        rw [List.getD_eq_getElem _ _ hin]
        rcases List.mem_cons.mp (List.getElem_mem hin) with hb | hrest
        · rw [hb]
          exact hchars b List.mem_cons_self
        · rw [List.eq_of_mem_replicate hrest]
          exact hzero
      · rw [store_of_le (Nat.not_lt.mp hin)]
        exact hx

/-- However long the string is, its range is overwritten. -/
theorem storeChars_of_lt (hx : (x - a).toNat < bs.length) : p (storeChars m a bs x) := by
  induction bs generalizing m a with
  | nil => exact absurd hx (Nat.not_lt_zero _)
  | cons b bs ih =>
      have hrest : ∀ c ∈ bs, p c := fun c hc => hchars c (List.mem_cons_of_mem b hc)
      rw [storeChars]
      by_cases hin : (x - (a + 1)).toNat < bs.length
      · exact ih hrest hin
      · have hfirst : x = a := by
          rw [List.length_cons] at hx
          bv_omega
        apply storeChars_preserves hzero hrest
        rw [hfirst, write64_self]
        have hb : (b.setWidth 64).setWidth 8 = b := by
          rw [BitVec.setWidth_setWidth_of_le b (by norm_num), BitVec.setWidth_eq]
        rw [hb]
        exact hchars b List.mem_cons_self

end Everywhere

/-! ## Beside what is below an address -/

theorem OnlyBelow.store (h : OnlyBelow m m' p n) (a : Word) (bs : List Byte) :
    OnlyBelow (m.store a bs) (m'.store a bs) p n := by
  intro x hx
  unfold Memory.store
  rw [h x hx]

theorem OnlyBelow.write64 (h : OnlyBelow m m' p n) (a v : Word) :
    OnlyBelow (m.write64 a v) (m'.write64 a v) p n := h.store a _

/-- A range that is apart from a stack is apart from its nearer part even when it is longer. -/
theorem Clear.widen (h : Clear a len p (n + k)) (hlen : 0 < len) (hn : n + k ≤ 2 ^ 64) :
    Clear a (len + k) p n := by
  intro x hx
  by_contra hnear
  by_cases hin : (x - a).toNat < len
  · have := h x hin
    omega
  · -- the last byte of the range is at most `k` bytes before `x`
    have hlast := h (a + BitVec.ofNat 64 (len - 1)) (by bv_omega)
    bv_omega

/-- A range beside a stack leaves room for it. -/
theorem Clear.add_le (h : Clear a len p n) (hlen : 0 < len) (hn : 0 < n) : len + n ≤ 2 ^ 64 := by
  by_contra hlt
  by_cases htop : (p - 1 - a).toNat < len
  · have := h (p - 1) htop
    rw [BitVec.sub_self] at this
    exact absurd this (Nat.not_le.mpr hn)
  · have := h (a + BitVec.ofNat 64 (len - 1)) (by bv_omega)
    bv_omega

end LowLevel.Library.X86.Memory
