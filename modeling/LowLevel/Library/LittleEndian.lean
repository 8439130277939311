import Mathlib.Data.List.Basic
import Mathlib.Tactic.Ring
import Mathlib.Tactic.NormNum

/-!
# Little-endian encodings of natural numbers

A number is stored as a fixed count of bytes, least significant first, and read back
from them. Encoding then decoding truncates to the width (`leNat_leBytes`), so a number
that fits is read back as it was stored.
-/

set_option autoImplicit false

namespace LowLevel.Library

/-- A byte of memory or of a file. -/
abbrev Byte := BitVec 8

/-- The `n` low bytes of `v`, least significant first. -/
def leBytes : ℕ → ℕ → List Byte
  | 0, _ => []
  | n + 1, v => BitVec.ofNat 8 v :: leBytes n (v / 256)

/-- The number a byte string stands for, least significant byte first. -/
def leNat : List Byte → ℕ
  | [] => 0
  | b :: bs => b.toNat + 256 * leNat bs

@[simp] theorem length_leBytes (n v : ℕ) : (leBytes n v).length = n := by
  induction n generalizing v with
  | zero => rfl
  | succ n ih => simp [leBytes, ih]

/-- Bytes that are all zero are the number zero. -/
theorem leNat_eq_zero {bs : List Byte} (h : ∀ b ∈ bs, b = 0) : leNat bs = 0 := by
  induction bs with
  | nil => rfl
  | cons b bs ih =>
      obtain rfl : b = 0 := h b List.mem_cons_self
      rw [leNat, ih fun c hc => h c (List.mem_cons_of_mem _ hc)]
      rfl

theorem leNat_lt (bs : List Byte) : leNat bs < 256 ^ bs.length := by
  induction bs with
  | nil => exact Nat.one_pos
  | cons b bs ih =>
      have hb := b.isLt
      rw [leNat, List.length_cons, Nat.pow_succ]
      omega

/-- Reading back an encoding of width `n` truncates to `n` bytes. -/
theorem leNat_leBytes (n v : ℕ) : leNat (leBytes n v) = v % 256 ^ n := by
  induction n generalizing v with
  | zero => simp [leBytes, leNat, Nat.mod_one]
  | succ n ih =>
      have hbyte : (BitVec.ofNat 8 v).toNat = v % 256 := BitVec.toNat_ofNat v 8
      rw [leBytes, leNat, ih, hbyte, Nat.pow_succ, Nat.mul_comm (256 ^ n) 256, Nat.mod_mul]

/-- A number that fits the width survives the round trip. -/
theorem leNat_leBytes_of_lt {n v : ℕ} (h : v < 256 ^ n) : leNat (leBytes n v) = v := by
  rw [leNat_leBytes, Nat.mod_eq_of_lt h]

/-- Strings of one length that stand for one number are the same. -/
theorem leNat_injective {bs cs : List Byte} (hlength : bs.length = cs.length)
    (h : leNat bs = leNat cs) : bs = cs := by
  induction bs generalizing cs with
  | nil => exact (List.length_eq_zero_iff.mp hlength.symm).symm
  | cons b bs ih =>
      obtain _ | ⟨c, cs⟩ := cs
      · exact absurd hlength (Nat.succ_ne_zero _)
      have hb := b.isLt
      have hc := c.isLt
      simp only [leNat] at h
      obtain rfl : b = c := BitVec.eq_of_toNat_eq (by omega)
      rw [ih (Nat.succ.inj hlength) (by omega)]

end LowLevel.Library
