import LowLevel.Library.LittleEndian
import Mathlib.Data.BitVec
import Mathlib.Data.List.GetD

/-!
# The memory of an x86-64 process

A byte at each of the `2 ^ 64` addresses; address arithmetic wraps, so the offset of `x` from
`a` is `(x - a).toNat` and a range of `n` bytes from `a` on is the addresses whose offset is
below `n`. The `n` bytes below `p`, where a stack with its top at `p` grows to, are the
addresses `x` with `(p - 1 - x).toNat < n`.
-/

set_option autoImplicit false

namespace LowLevel.Library.X86

open LowLevel.Library

abbrev Word := BitVec 64

abbrev Memory := Word → Byte

namespace Memory

/-- The bytes `bs` placed at `a`, everything else unchanged. -/
def store (m : Memory) (a : Word) (bs : List Byte) : Memory :=
  fun x => if (x - a).toNat < bs.length then bs.getD (x - a).toNat 0 else m x

/-- The `n` bytes at `a`. -/
def bytes (m : Memory) (a : Word) (n : ℕ) : List Byte :=
  (List.range n).map fun i => m (a + BitVec.ofNat 64 i)

/-- The quadword at `a`. -/
def read64 (m : Memory) (a : Word) : Word := BitVec.ofNat 64 (leNat (m.bytes a 8))

def write64 (m : Memory) (a v : Word) : Memory := m.store a (leBytes 8 v.toNat)

/-- The bytes `bs` stand at `a`. -/
def Holds (m : Memory) (a : Word) (bs : List Byte) : Prop := m.bytes a bs.length = bs

variable {m m' : Memory} {a p x : Word} {bs : List Byte} {n k : ℕ}

/-! ## Stores and loads -/

theorem store_of_le (h : bs.length ≤ (x - a).toNat) : m.store a bs x = m x := by
  unfold store
  rw [if_neg (by omega)]

theorem store_of_lt (h : (x - a).toNat < bs.length) :
    m.store a bs x = bs.getD (x - a).toNat 0 := by
  unfold store
  rw [if_pos h]

theorem store_of_ne {b : Byte} (h : x ≠ a) : m.store a [b] x = m x := by
  apply store_of_le
  rw [List.length_singleton]
  bv_omega

theorem offset_add (a : Word) {i : ℕ} (hi : i < 2 ^ 64) :
    (a + BitVec.ofNat 64 i - a).toNat = i := by
  bv_omega

theorem ofNat_add_one (i : ℕ) : BitVec.ofNat 64 i + 1#64 = BitVec.ofNat 64 (i + 1) :=
  (BitVec.ofNat_add i 1).symm

@[simp] theorem length_bytes (m : Memory) (a : Word) (n : ℕ) : (m.bytes a n).length = n := by
  simp [bytes]

/-- What is loaded depends only on the bytes loaded. -/
theorem bytes_congr (h : ∀ x : Word, (x - a).toNat < n → m x = m' x) (hn : n ≤ 2 ^ 64) :
    m.bytes a n = m'.bytes a n := by
  apply List.map_congr_left
  intro i hi
  have hlt := List.mem_range.mp hi
  apply h
  rw [offset_add a (by omega)]
  exact hlt

theorem read64_congr (h : ∀ x : Word, (x - a).toNat < 8 → m x = m' x) :
    m.read64 a = m'.read64 a := by
  unfold read64
  rw [bytes_congr h (by norm_num)]

/-- A quadword where the memory is the same everywhere. -/
theorem read64_const (b : Byte) (a : Word) :
    read64 (fun _ => b) a = BitVec.ofNat 64 (leNat (List.replicate 8 b)) := by
  unfold read64 bytes
  rw [List.map_const', List.length_range]

/-- The bytes of equal quadwords are equal. -/
theorem eq_of_read64_eq (h : m.read64 a = m'.read64 a) (hx : (x - a).toNat < 8) : m x = m' x := by
  have hlt : ∀ m : Memory, leNat (m.bytes a 8) < 2 ^ 64 := fun m =>
    (leNat_lt _).trans_eq (by rw [length_bytes]; norm_num)
  have hnat := congrArg BitVec.toNat h
  simp only [read64, BitVec.toNat_ofNat, Nat.mod_eq_of_lt (hlt _)] at hnat
  have hbytes := leNat_injective (by simp) hnat
  have hget := List.map_inj_left.mp hbytes (x - a).toNat (List.mem_range.mpr hx)
  rwa [show a + BitVec.ofNat 64 (x - a).toNat = x by bv_omega] at hget

/-- What was stored is loaded. -/
theorem bytes_store (h : bs.length ≤ 2 ^ 64) : (m.store a bs).bytes a bs.length = bs := by
  apply List.ext_getElem
  · rw [length_bytes]
  · intro i hi hi'
    have hoffset := offset_add a (show i < 2 ^ 64 by omega)
    simp only [bytes, List.getElem_map, List.getElem_range]
    rw [store_of_lt (by rw [hoffset]; exact hi'), hoffset, List.getD_eq_getElem _ _ hi']

/-- Storing a string behind another. -/
theorem store_append {b : Word} {bs' : List Byte} (hb : b = a + BitVec.ofNat 64 bs.length)
    (hlen : bs.length + bs'.length ≤ 2 ^ 64) :
    (m.store b bs').store a bs = m.store a (bs ++ bs') := by
  funext x
  by_cases hfirst : (x - a).toNat < bs.length
  · rw [store_of_lt hfirst, store_of_lt (by rw [List.length_append]; omega),
      List.getD_append _ _ _ _ hfirst]
  · have hoffset : (x - b).toNat < bs'.length → (x - a).toNat = bs.length + (x - b).toNat := by
      subst hb
      intro hlt
      bv_omega
    have hoffset' : (x - a).toNat < bs.length + bs'.length →
        (x - a).toNat = bs.length + (x - b).toNat := by
      subst hb
      intro hlt
      bv_omega
    rw [store_of_le (by omega)]
    by_cases hsecond : (x - b).toNat < bs'.length
    · rw [store_of_lt hsecond,
        store_of_lt (by rw [List.length_append]; have := hoffset hsecond; omega), hoffset hsecond,
        List.getD_append_right _ _ _ _ (by omega), Nat.add_sub_cancel_left]
    · rw [store_of_le (by omega), store_of_le]
      rw [List.length_append]
      by_contra hlt
      have := hoffset' (by omega)
      omega

@[simp] theorem store_nil (m : Memory) (a : Word) : m.store a [] = m :=
  funext fun _ => store_of_le (Nat.zero_le _)

/-- Storing a byte behind a string. -/
theorem store_concat {b : Byte} (hlen : bs.length < 2 ^ 64) :
    (m.store a bs).store (a + BitVec.ofNat 64 bs.length) [b] = m.store a (bs ++ [b]) := by
  funext x
  by_cases hlast : x = a + BitVec.ofNat 64 bs.length
  · have hoffset : (x - a).toNat = bs.length := by rw [hlast, offset_add a hlen]
    rw [store_of_lt (by rw [hlast, BitVec.sub_self]; exact Nat.one_pos), hlast, BitVec.sub_self,
      store_of_lt (by rw [← hlast, hoffset, List.length_append]; exact Nat.lt_succ_self _),
      ← hlast, hoffset, List.getD_append_right _ _ _ _ le_rfl, Nat.sub_self]
    rfl
  · have hne : (x - a).toNat ≠ bs.length := by
      intro hoffset
      apply hlast
      bv_omega
    rw [store_of_ne hlast]
    by_cases hin : (x - a).toNat < bs.length
    · rw [store_of_lt hin, store_of_lt (by rw [List.length_append]; omega),
        List.getD_append _ _ _ _ hin]
    · rw [store_of_le (by omega), store_of_le]
      rw [List.length_append, List.length_singleton]
      omega

/-- The same stored once more. -/
theorem write64_write64_self (m : Memory) (a v : Word) :
    (m.write64 a v).write64 a v = m.write64 a v := by
  funext x
  by_cases hx : (x - a).toNat < (leBytes 8 v.toNat).length
  · exact (store_of_lt hx).trans (store_of_lt hx).symm
  · exact store_of_le (Nat.not_lt.mp hx)

/-- A quadword reads back as it was written. -/
@[simp] theorem read64_write64 (m : Memory) (a v : Word) : (m.write64 a v).read64 a = v := by
  have hlen := length_leBytes 8 v.toNat
  have hbytes := bytes_store (m := m) (a := a) (show (leBytes 8 v.toNat).length ≤ 2 ^ 64 by omega)
  rw [hlen] at hbytes
  unfold read64 write64
  rw [hbytes, leNat_leBytes_of_lt v.isLt, BitVec.ofNat_toNat, BitVec.setWidth_eq]

/-- A quadword that does not meet the one written reads as before. -/
theorem read64_write64_of_le {b v : Word} (h : 8 ≤ (b - a).toNat) (h' : 8 ≤ (a - b).toNat) :
    (m.write64 a v).read64 b = m.read64 b := by
  apply read64_congr
  intro x hx
  apply store_of_le
  rw [length_leBytes]
  bv_omega

theorem write64_of_le {v : Word} (h : 8 ≤ (x - a).toNat) : m.write64 a v x = m x :=
  store_of_le (by rw [length_leBytes]; exact h)

/-- A quadword is written over whatever was there. -/
theorem write64_of_lt {v : Word} (m m' : Memory) (hx : (x - a).toNat < 8) :
    m.write64 a v x = m'.write64 a v x := by
  have hin : (x - a).toNat < (leBytes 8 v.toNat).length := by rwa [length_leBytes]
  exact (store_of_lt hin).trans (store_of_lt hin).symm

/-- The lowest byte of a quadword stands at its address. -/
theorem write64_self (m : Memory) (a v : Word) : m.write64 a v a = v.setWidth 8 := by
  have hoffset : (a - a).toNat = 0 := by rw [BitVec.sub_self]; rfl
  unfold write64
  rw [store_of_lt (by rw [hoffset, length_leBytes]; decide), hoffset, leBytes,
    List.getD_cons_zero, BitVec.ofNat_toNat]

/-- The encoding of a byte as a quadword. -/
theorem leBytes_byte (b : Byte) : leBytes 8 b.toNat = b :: List.replicate 7 0 := by
  have hb := b.isLt
  have hzero : b.toNat / 256 = 0 := by omega
  rw [leBytes, hzero, BitVec.ofNat_toNat, BitVec.setWidth_eq]
  rfl

/-- A byte stored over an empty quadword makes the quadword of that byte. -/
theorem write64_zero_store (m : Memory) (a : Word) (b : Byte) :
    (m.write64 a 0).store a [b] = m.write64 a (b.setWidth 64) := by
  have hwide : (b.setWidth 64).toNat = b.toNat := by
    have hb := b.isLt
    rw [BitVec.toNat_setWidth, Nat.mod_eq_of_lt (by omega)]
  unfold write64
  rw [hwide, leBytes_byte, show (0 : Word).toNat = (0 : Byte).toNat from rfl, leBytes_byte]
  funext x
  rcases Nat.eq_zero_or_pos (x - a).toNat with hx | hx
  · rw [store_of_lt (by rw [hx]; exact Nat.one_pos), store_of_lt (by rw [hx]; exact Nat.succ_pos _),
      hx]
    rfl
  · rw [store_of_le (by exact hx)]
    by_cases hin : (x - a).toNat < 8
    · obtain ⟨i, hi⟩ := Nat.exists_eq_succ_of_ne_zero hx.ne'
      rw [store_of_lt (by exact hin), store_of_lt (by exact hin), hi]
      rfl
    · rw [store_of_le (by simpa using hin), store_of_le (by simpa using hin)]

/-- The lowest byte of the quadword at an address. -/
theorem setWidth_read64 (m : Memory) (a : Word) : (m.read64 a).setWidth 8 = m a := by
  have hfirst : m.bytes a 8 = m a :: m.bytes (a + 1) 7 := by
    unfold bytes
    rw [List.range_succ_eq_map, List.map_cons, List.map_map, BitVec.add_zero]
    congr 1
    apply List.map_congr_left
    intro i _
    rw [Function.comp_apply]
    congr 1
    bv_omega
  have hb := (m a).isLt
  unfold read64
  rw [hfirst, leNat]
  apply BitVec.eq_of_toNat_eq
  rw [BitVec.toNat_setWidth, BitVec.toNat_ofNat]
  omega

/-! ## Byte strings in memory -/

theorem holds_iff (hlen : bs.length ≤ 2 ^ 64) :
    m.Holds a bs ↔ ∀ x : Word, (x - a).toNat < bs.length → m x = bs.getD (x - a).toNat 0 := by
  constructor
  · intro h x hx
    have hx' : x = a + BitVec.ofNat 64 (x - a).toNat := by bv_omega
    have hget : (m.bytes a bs.length).getD (x - a).toNat 0 = m x := by
      rw [List.getD_eq_getElem _ _ (by rw [length_bytes]; exact hx)]
      simp only [bytes, List.getElem_map, List.getElem_range]
      rw [← hx']
    rw [← hget, h]
  · intro h
    apply List.ext_getElem
    · rw [length_bytes]
    · intro i hi hi'
      have hoffset := offset_add a (show i < 2 ^ 64 by omega)
      simp only [bytes, List.getElem_map, List.getElem_range]
      rw [h _ (by rw [hoffset]; exact hi'), hoffset, List.getD_eq_getElem _ _ hi']

theorem bytes_add (m : Memory) (a : Word) (n k : ℕ) :
    m.bytes a (n + k) = m.bytes a n ++ m.bytes (a + BitVec.ofNat 64 n) k := by
  unfold bytes
  rw [List.range_add, List.map_append, List.map_map]
  congr 1
  apply List.map_congr_left
  intro i _
  rw [Function.comp_apply, BitVec.ofNat_add, BitVec.add_assoc]

/-- One string behind the other. -/
theorem holds_append {cs : List Byte} : m.Holds a (bs ++ cs) ↔
    m.Holds a bs ∧ m.Holds (a + BitVec.ofNat 64 bs.length) cs := by
  unfold Holds
  rw [List.length_append, bytes_add]
  constructor
  · intro h
    exact List.append_inj h (length_bytes m a bs.length)
  · rintro ⟨hfirst, hsecond⟩
    rw [hfirst, hsecond]

/-- The byte at index `i` of a string in memory. -/
theorem Holds.getElem (h : m.Holds a bs) (hlen : bs.length ≤ 2 ^ 64) {i : ℕ}
    (hi : i < bs.length) : m (a + BitVec.ofNat 64 i) = bs[i] := by
  have hoffset := offset_add a (show i < 2 ^ 64 by omega)
  have hbyte := (holds_iff hlen).mp h (a + BitVec.ofNat 64 i) (by rw [hoffset]; exact hi)
  rwa [hoffset, List.getD_eq_getElem _ _ hi] at hbyte

/-- A quadword that stands at `a`. -/
theorem Holds.read64_eq {v : Word} (h : m.Holds a (leBytes 8 v.toNat)) : m.read64 a = v := by
  have hbytes : m.bytes a 8 = leBytes 8 v.toNat := by
    rw [Holds, length_leBytes] at h
    exact h
  rw [read64, hbytes, leNat_leBytes_of_lt v.isLt, BitVec.ofNat_toNat, BitVec.setWidth_eq]

/-- A string that is not touched stays. -/
theorem Holds.congr (h : m.Holds a bs) (hlen : bs.length ≤ 2 ^ 64)
    (hsame : ∀ x : Word, (x - a).toNat < bs.length → m' x = m x) : m'.Holds a bs :=
  (bytes_congr (fun x hx => hsame x hx) hlen).trans h

/-- The string `bs` stands at `a`, with the NUL that ends it. -/
structure CString (m : Memory) (a : Word) (bs : List Byte) : Prop where
  holds : m.Holds a (bs ++ [0])
  nonzero : ∀ b ∈ bs, b ≠ 0
  short : bs.length < 2 ^ 64

namespace CString

/-- A string that was stored. -/
theorem of_store (hnonzero : ∀ b ∈ bs, b ≠ 0) (hshort : bs.length < 2 ^ 64) :
    CString (m.store a (bs ++ [0])) a bs := by
  refine ⟨bytes_store ?_, hnonzero, hshort⟩
  rw [List.length_append, List.length_singleton]
  exact hshort

theorem length_le (h : CString m a bs) : (bs ++ [0]).length ≤ 2 ^ 64 := by
  have := h.short
  rw [List.length_append, List.length_singleton]
  omega

theorem getElem (h : CString m a bs) {i : ℕ} (hi : i < bs.length) :
    m (a + BitVec.ofNat 64 i) = bs[i] := by
  have hlt : i < (bs ++ [0]).length := by
    rw [List.length_append]
    omega
  rw [h.holds.getElem h.length_le hlt, List.getElem_append_left hi]

theorem nul (h : CString m a bs) : m (a + BitVec.ofNat 64 bs.length) = 0 := by
  have hlt : bs.length < (bs ++ [0]).length := by
    rw [List.length_append, List.length_singleton]
    omega
  rw [h.holds.getElem h.length_le hlt, List.getElem_append_right le_rfl]
  simp

/-- The characters of the string, without its end. -/
theorem bytes_eq (h : CString m a bs) : m.bytes a bs.length = bs := by
  apply List.ext_getElem
  · rw [length_bytes]
  · intro i hi hi'
    simp only [bytes, List.getElem_map, List.getElem_range]
    exact h.getElem hi'

/-- The empty string. -/
theorem eq_zero (h : CString m a []) : m a = 0 := by simpa using h.nul

/-- The first character. -/
theorem head {b : Byte} (h : CString m a (b :: bs)) : m a = b := by
  simpa using h.getElem (i := 0) (Nat.succ_pos _)

/-- The string behind the first character. -/
theorem tail {b : Byte} (h : CString m a (b :: bs)) : CString m (a + 1) bs := by
  have hholds := h.holds
  rw [List.cons_append, ← List.singleton_append, holds_append] at hholds
  exact ⟨hholds.2, fun c hc => h.nonzero c (List.mem_cons_of_mem b hc),
    (Nat.lt_succ_self bs.length).trans h.short⟩

theorem congr (h : CString m a bs)
    (hsame : ∀ x : Word, (x - a).toNat < bs.length + 1 → m' x = m x) : CString m' a bs := by
  refine ⟨h.holds.congr h.length_le ?_, h.nonzero, h.short⟩
  rw [List.length_append, List.length_singleton]
  exact hsame

end CString

/-! ## Writing below an address -/

/-- The slot of a stack below another. -/
theorem slot_down (p : Word) (k : ℕ) :
    p - BitVec.ofNat 64 k - 8#64 = p - BitVec.ofNat 64 (k + 8) := by bv_omega

/-- The slot above it. -/
theorem slot_up (p : Word) (k : ℕ) :
    p - BitVec.ofNat 64 (k + 8) + 8#64 = p - BitVec.ofNat 64 k := by bv_omega

/-- `m'` is `m` but for the `n` bytes below `p`. -/
def OnlyBelow (m m' : Memory) (p : Word) (n : ℕ) : Prop :=
  ∀ x : Word, n ≤ (p - 1 - x).toNat → m' x = m x

theorem OnlyBelow.refl (m : Memory) (p : Word) (n : ℕ) : OnlyBelow m m p n := fun _ _ => rfl

theorem OnlyBelow.trans {m'' : Memory} (h : OnlyBelow m m' p n) (h' : OnlyBelow m' m'' p n) :
    OnlyBelow m m'' p n := fun x hx => (h' x hx).trans (h x hx)

theorem OnlyBelow.mono (h : OnlyBelow m m' p n) (hk : n ≤ k) : OnlyBelow m m' p k :=
  fun x hx => h x (hk.trans hx)

/-- The bytes below a lower address are below this one. -/
theorem OnlyBelow.of_lower {q : Word} (h : OnlyBelow m m' q n) (hq : n + (p - q).toNat ≤ k) :
    OnlyBelow m m' p k := by
  intro x hx
  apply h
  bv_omega

/-- The quadword at `p` is above. -/
theorem OnlyBelow.read64_eq (h : OnlyBelow m m' p n) (hn : n + 8 ≤ 2 ^ 64) :
    m'.read64 p = m.read64 p := by
  apply read64_congr
  intro x hx
  apply h
  bv_omega

/-- The `len` bytes at `a` are not among the `n` bytes below `p`. -/
def Clear (a : Word) (len : ℕ) (p : Word) (n : ℕ) : Prop :=
  ∀ x : Word, (x - a).toNat < len → n ≤ (p - 1 - x).toNat

theorem Clear.mono {len : ℕ} (h : Clear a len p k) (hn : n ≤ k) : Clear a len p n :=
  fun x hx => hn.trans (h x hx)

theorem Clear.of_le {len len' : ℕ} (h : Clear a len p n) (hlen : len' ≤ len) : Clear a len' p n :=
  fun x hx => h x (hx.trans_le hlen)

theorem Clear.append {i len : ℕ} (h : Clear a (i + len) p n) (hlen : i + len ≤ 2 ^ 64) :
    Clear (a + BitVec.ofNat 64 i) len p n := by
  intro x hx
  apply h
  bv_omega

/-- What is below a lower address is below this one. -/
theorem Clear.of_lower {len : ℕ} {q : Word} (h : Clear a len p k)
    (hq : n + (p - q).toNat ≤ k) : Clear a len q n := by
  intro x hx
  have hfar := h x hx
  clear hx
  bv_omega

theorem CString.of_onlyBelow (h : CString m a bs) (hm : OnlyBelow m m' p n)
    (hclear : Clear a (bs.length + 1) p n) : CString m' a bs :=
  h.congr fun x hx => hm x (hclear x hx)

theorem onlyBelow_store (m : Memory) {q : Word} (hq : (p - q).toNat ≤ n)
    (hn : bs.length ≤ (p - q).toNat) : OnlyBelow m (m.store q bs) p n := by
  intro x hx
  apply store_of_le
  bv_omega

theorem onlyBelow_write64 (m : Memory) {q v : Word} (hq : (p - q).toNat ≤ n)
    (hn : 8 ≤ (p - q).toNat) : OnlyBelow m (m.write64 q v) p n := by
  intro x hx
  apply write64_of_le
  bv_omega

end Memory

end LowLevel.Library.X86
