import LowLevel.Library.LittleEndian
import Mathlib.Data.List.GetD

/-!
# Byte-addressed memory

A memory is a total map from addresses to bytes. `writeBytes` replaces a contiguous
range and leaves the rest alone; `readNat` reads a little-endian word. The two facts a
client needs are that a word reads back as it was written (`readNat_writeBytes`) and
that a read depends only on the bytes of its own range (`readNat_congr`).
-/

set_option autoImplicit false

namespace LowLevel.Library

/-- A byte-addressed memory. -/
abbrev Mem := ℕ → Byte

/-- The bytes `bs` placed at `a`, everything else unchanged. -/
def writeBytes (m : Mem) (a : ℕ) (bs : List Byte) : Mem :=
  fun x => if a ≤ x ∧ x < a + bs.length then bs.getD (x - a) 0 else m x

/-- The `n` bytes at `a`. -/
def readBytes (m : Mem) (a n : ℕ) : List Byte :=
  (List.range n).map fun i => m (a + i)

/-- The `n`-byte little-endian word at `a`. -/
def readNat (m : Mem) (a n : ℕ) : ℕ := leNat (readBytes m a n)

@[simp] theorem length_readBytes (m : Mem) (a n : ℕ) : (readBytes m a n).length = n := by
  simp [readBytes]

/-- A write changes nothing outside its range. -/
theorem writeBytes_of_outside {m : Mem} {a x : ℕ} {bs : List Byte}
    (h : x < a ∨ a + bs.length ≤ x) : writeBytes m a bs x = m x := by
  unfold writeBytes
  rw [if_neg (by omega)]

/-- Inside its range a write leaves the byte written there. -/
theorem writeBytes_of_inside {m : Mem} {a i : ℕ} {bs : List Byte} (h : i < bs.length) :
    writeBytes m a bs (a + i) = bs[i] := by
  unfold writeBytes
  rw [if_pos (by omega), Nat.add_sub_cancel_left, List.getD_eq_getElem _ _ h]

/-- A read depends only on the bytes of its own range. -/
theorem readBytes_congr {m m' : Mem} {a n : ℕ} (h : ∀ i < n, m (a + i) = m' (a + i)) :
    readBytes m a n = readBytes m' a n := by
  unfold readBytes
  exact List.map_congr_left fun i hi => h i (List.mem_range.mp hi)

/-- A word depends only on the bytes of its own range. -/
theorem readNat_congr {m m' : Mem} {a n : ℕ} (h : ∀ i < n, m (a + i) = m' (a + i)) :
    readNat m a n = readNat m' a n := by
  unfold readNat
  rw [readBytes_congr h]

/-- Where the memory is zero, so is every word. -/
theorem readNat_eq_zero {m : Mem} {a n : ℕ} (h : ∀ i < n, m (a + i) = 0) : readNat m a n = 0 := by
  refine leNat_eq_zero fun b hb => ?_
  obtain ⟨i, hi, rfl⟩ := List.mem_map.mp hb
  exact h i (List.mem_range.mp hi)

/-- A word of one byte is that byte. -/
theorem readNat_one (m : Mem) (a : ℕ) : readNat m a 1 = (m a).toNat := by
  simp [readNat, readBytes, leNat]

theorem readNat_lt (m : Mem) (a n : ℕ) : readNat m a n < 256 ^ n := by
  have := leNat_lt (readBytes m a n)
  rwa [length_readBytes] at this

/-- Reading a slice of what was written gives that slice. -/
theorem readBytes_writeBytes {m : Mem} {a k n : ℕ} {bs : List Byte}
    (h : k + n ≤ bs.length) :
    readBytes (writeBytes m a bs) (a + k) n = (bs.drop k).take n := by
  apply List.ext_getElem
  · simp; omega
  · intro i hi hi'
    simp only [length_readBytes] at hi
    simp only [readBytes, List.getElem_map, List.getElem_range, List.getElem_take,
      List.getElem_drop]
    rw [Nat.add_assoc, writeBytes_of_inside (by omega)]

/-- A word written inside a byte string reads back as that word. -/
theorem readNat_writeBytes {m : Mem} {a v n : ℕ} {p q : List Byte} (h : v < 256 ^ n) :
    readNat (writeBytes m a (p ++ leBytes n v ++ q)) (a + p.length) n = v := by
  unfold readNat
  rw [readBytes_writeBytes (by simp)]
  rw [List.append_assoc, List.drop_left, List.take_left' (length_leBytes n v),
    leNat_leBytes_of_lt h]

end LowLevel.Library
