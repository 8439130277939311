import LowLevel.Library.LittleEndian
import LowLevel.Library.Scan
import Mathlib.Data.Nat.Digits.Lemmas

/-!
# Decimal numerals as byte strings

The canonical numeral of a number in ASCII, without leading zeros, and the value of a string
of digits. A numeral grows at its end by a digit (`numeral_of_le`), which is how a division
loop makes it, and the value of a string grows by a digit at its end (`decimalValue_concat`),
which is how a loop reads it.
-/

set_option autoImplicit false

namespace LowLevel.Library

/-- The character of a digit. -/
def digitChar (d : ℕ) : Byte := BitVec.ofNat 8 (0x30 + d)

/-- The decimal numeral of `n`. -/
def numeral (n : ℕ) : List Byte :=
  if n = 0 then [digitChar 0] else (Nat.digits 10 n).reverse.map digitChar

/-- The byte is a digit. -/
def IsDigit (b : Byte) : Prop := 0x30 ≤ b.toNat ∧ b.toNat ≤ 0x39

instance (b : Byte) : Decidable (IsDigit b) := inferInstanceAs (Decidable (_ ∧ _))

/-- The value of a string of digits. -/
def decimalValue (bs : List Byte) : ℕ := bs.foldl (fun v b => 10 * v + (b.toNat - 0x30)) 0

/-- The digits that a text starts with. -/
def leadingDigits (bs : List Byte) : List Byte := bs.takeWhile fun b => decide (IsDigit b)

/-- The length of the sign that a text starts with. -/
def signLength (bs : List Byte) : ℕ :=
  if bs.head? = some 0x2d ∨ bs.head? = some 0x2b then 1 else 0

/-- The digits behind the sign. -/
def signedDigits (bs : List Byte) : List Byte := leadingDigits (bs.drop (signLength bs))

/-- The string is the canonical numeral of `n`: digits of this value, the first one zero only
if it is alone. -/
structure IsNumeral (bs : List Byte) (n : ℕ) : Prop where
  nonempty : bs ≠ []
  digits : ∀ b ∈ bs, IsDigit b
  value : decimalValue bs = n
  leading : bs.head? = some (digitChar 0) → bs = [digitChar 0]

/-- The numeral of an integer, with its sign if it is negative. -/
def signedNumeral (i : ℤ) : List Byte :=
  if i < 0 then 0x2d :: numeral i.natAbs else numeral i.natAbs

variable {m n d : ℕ} {bs cs : List Byte} {b : Byte}

theorem digitChar_toNat (hd : d < 10) : (digitChar d).toNat = 0x30 + d := by
  unfold digitChar
  rw [BitVec.toNat_ofNat, Nat.mod_eq_of_lt (by omega)]

theorem isDigit_digitChar (hd : d < 10) : IsDigit (digitChar d) := by
  unfold IsDigit
  rw [digitChar_toNat hd]
  omega

/-- Digits are told by signed comparisons, too. -/
theorem isDigit_iff_toInt (b : Byte) :
    IsDigit b ↔ (0x30 : Byte).toInt ≤ b.toInt ∧ b.toInt ≤ (0x39 : Byte).toInt := by
  have hlow : (0x30 : Byte).toInt = 0x30 := rfl
  have hhigh : (0x39 : Byte).toInt = 0x39 := rfl
  unfold IsDigit
  rw [hlow, hhigh, BitVec.toInt_eq_toNat_cond]
  split_ifs <;> omega

theorem isDigit_of_mem_leadingDigits (hb : b ∈ leadingDigits bs) : IsDigit b := by
  simpa using List.mem_takeWhile_imp hb

/-- A text that starts with another character has no sign. -/
theorem signLength_cons_of_ne (hminus : b ≠ 0x2d) (hplus : b ≠ 0x2b) :
    signLength (b :: bs) = 0 := by
  refine if_neg ?_
  rintro (h | h)
  · exact hminus (Option.some.inj h)
  · exact hplus (Option.some.inj h)

theorem length_leadingDigits_le (bs : List Byte) : (leadingDigits bs).length ≤ bs.length :=
  (List.takeWhile_sublist _).length_le

/-- Behind its digits a text goes on with another character, or ends. -/
theorem exists_behind_leadingDigits (bs : List Byte) {e : Byte} (he : ¬ IsDigit e) :
    ∃ t rest, ¬ IsDigit t ∧ bs ++ [e] = leadingDigits bs ++ t :: rest := by
  induction bs with
  | nil => exact ⟨e, [], he, rfl⟩
  | cons b bs ih =>
      unfold leadingDigits at ih ⊢
      by_cases hb : IsDigit b
      · obtain ⟨t, rest, ht, heq⟩ := ih
        refine ⟨t, rest, ht, ?_⟩
        rw [List.takeWhile_cons_of_pos (by simpa using hb), List.cons_append, List.cons_append, heq]
      · refine ⟨b, bs ++ [e], hb, ?_⟩
        rw [List.takeWhile_cons_of_neg (by simpa using hb)]
        rfl

theorem numeral_of_lt (hn : n < 10) : numeral n = [digitChar n] := by
  unfold numeral
  split_ifs with hzero
  · rw [hzero]
  · rw [Nat.digits_of_lt 10 n hzero hn]
    rfl

/-- The last digit of a longer numeral. -/
theorem numeral_of_le (hn : 10 ≤ n) : numeral n = numeral (n / 10) ++ [digitChar (n % 10)] := by
  have hpos : n / 10 ≠ 0 := by omega
  unfold numeral
  rw [if_neg (by omega), if_neg hpos, Nat.digits_def' (by norm_num) (by omega),
    List.reverse_cons, List.map_append]
  rfl

theorem numeral_ne_nil (n : ℕ) : numeral n ≠ [] := by
  rcases Nat.lt_or_ge n 10 with hn | hn
  · rw [numeral_of_lt hn]
    exact List.cons_ne_nil _ _
  · rw [numeral_of_le hn]
    exact List.append_ne_nil_of_right_ne_nil _ (List.cons_ne_nil _ _)

/-- A numeral consists of digits. -/
theorem isDigit_of_mem_numeral (hb : b ∈ numeral n) : IsDigit b := by
  unfold numeral at hb
  split_ifs at hb
  · rw [List.mem_singleton.mp hb]
    exact isDigit_digitChar (by norm_num)
  · obtain ⟨d, hd, rfl⟩ := List.mem_map.mp hb
    exact isDigit_digitChar (Nat.digits_lt_base (by norm_num) (List.mem_reverse.mp hd))

/-- **No leading zeros**: a numeral starts with zero only if it is that of zero. -/
theorem head_numeral (hn : n ≠ 0) : (numeral n).head? ≠ some (digitChar 0) := by
  have hne : Nat.digits 10 n ≠ [] := Nat.digits_ne_nil_iff_ne_zero.mpr hn
  have hlast := Nat.getLast_digit_ne_zero 10 hn
  unfold numeral
  rw [if_neg hn, List.head?_map, List.head?_reverse, List.getLast?_eq_some_getLast hne,
    Option.map_some]
  intro heq
  have hlt : (Nat.digits 10 n).getLast hne < 10 :=
    Nat.digits_lt_base (by norm_num) (List.getLast_mem hne)
  have htoNat := congrArg BitVec.toNat (Option.some.inj heq)
  rw [digitChar_toNat hlt, digitChar_toNat (by norm_num)] at htoNat
  omega

/-- A numeral of `k` digits is that of a number below `10 ^ k`. -/
theorem length_numeral_le {k : ℕ} (hk : 0 < k) (hn : n < 10 ^ k) : (numeral n).length ≤ k := by
  unfold numeral
  split_ifs with hzero
  · exact hk
  · rw [List.length_map, List.length_reverse]
    exact (Nat.digits_length_le_iff (by norm_num) n).mpr hn

theorem ne_zero_of_mem_numeral (hb : b ∈ numeral n) : b ≠ 0 := by
  rintro rfl
  exact absurd (isDigit_of_mem_numeral hb).1 (by decide)

theorem decimalValue_concat (bs : List Byte) (b : Byte) :
    decimalValue (bs ++ [b]) = 10 * decimalValue bs + (b.toNat - 0x30) := by
  unfold decimalValue
  rw [List.foldl_append]
  rfl

/-- **The value of a numeral** is its number. -/
theorem decimalValue_numeral (n : ℕ) : decimalValue (numeral n) = n := by
  induction n using Nat.strongRecOn with
  | ind n ih =>
      rcases Nat.lt_or_ge n 10 with hn | hn
      · rw [numeral_of_lt hn]
        show 10 * 0 + ((digitChar n).toNat - 0x30) = n
        rw [digitChar_toNat hn]
        omega
      · rw [numeral_of_le hn, decimalValue_concat, ih (n / 10) (by omega),
          digitChar_toNat (Nat.mod_lt n (by norm_num))]
        omega

/-- A text that goes on with no digit has the digits of its numeral. -/
theorem leadingDigits_numeral_append (n : ℕ) (hbs : ∀ b ∈ bs.head?, ¬ IsDigit b) :
    leadingDigits (numeral n ++ bs) = numeral n :=
  takeWhile_append_of_head? (fun _ hb => decide_eq_true (isDigit_of_mem_numeral hb))
    (fun b hb => decide_eq_false (hbs b hb))

/-- **A numeral in front of a text** that goes on with no digit is told from the text. -/
theorem numeral_append_inj (hbs : ∀ b ∈ bs.head?, ¬ IsDigit b) (hcs : ∀ b ∈ cs.head?, ¬ IsDigit b)
    (h : numeral m ++ bs = numeral n ++ cs) : m = n ∧ bs = cs := by
  have hnumeral : numeral m = numeral n := by
    rw [← leadingDigits_numeral_append m hbs, h, leadingDigits_numeral_append n hcs]
  constructor
  · rw [← decimalValue_numeral m, hnumeral, decimalValue_numeral]
  · rw [hnumeral] at h
    exact List.append_cancel_left h

/-- A text that starts with a numeral starts with a digit. -/
theorem isDigit_of_mem_head?_numeral (hb : b ∈ (numeral n ++ bs).head?) : IsDigit b := by
  rw [List.head?_append_of_ne_nil _ (numeral_ne_nil n)] at hb
  exact isDigit_of_mem_numeral (List.mem_of_mem_head? hb)

theorem numeral_append_ne_cons (hb : ¬ IsDigit b) : numeral n ++ bs ≠ b :: cs := by
  intro h
  have hhead : b ∈ (numeral n ++ bs).head? := by
    rw [h]
    rfl
  exact hb (isDigit_of_mem_head?_numeral hhead)

theorem signedNumeral_of_neg {i : ℤ} (hi : i < 0) :
    signedNumeral i = 0x2d :: numeral i.natAbs := if_pos hi

theorem signedNumeral_of_nonneg {i : ℤ} (hi : 0 ≤ i) : signedNumeral i = numeral i.natAbs :=
  if_neg hi.not_gt

theorem signedNumeral_append_inj {i j : ℤ} (hbs : ∀ b ∈ bs.head?, ¬ IsDigit b)
    (hcs : ∀ b ∈ cs.head?, ¬ IsDigit b) (h : signedNumeral i ++ bs = signedNumeral j ++ cs) :
    i = j ∧ bs = cs := by
  rcases lt_or_ge i 0 with hi | hi <;> rcases lt_or_ge j 0 with hj | hj
  · rw [signedNumeral_of_neg hi, signedNumeral_of_neg hj] at h
    obtain ⟨habs, hrest⟩ := numeral_append_inj hbs hcs (List.cons.inj h).2
    exact ⟨by omega, hrest⟩
  · rw [signedNumeral_of_neg hi, signedNumeral_of_nonneg hj] at h
    exact absurd h.symm (numeral_append_ne_cons (by decide))
  · rw [signedNumeral_of_nonneg hi, signedNumeral_of_neg hj] at h
    exact absurd h (numeral_append_ne_cons (by decide))
  · rw [signedNumeral_of_nonneg hi, signedNumeral_of_nonneg hj] at h
    obtain ⟨habs, hrest⟩ := numeral_append_inj hbs hcs h
    exact ⟨by omega, hrest⟩

theorem isNumeral_numeral (n : ℕ) : IsNumeral (numeral n) n := by
  refine ⟨numeral_ne_nil n, fun b hb => isDigit_of_mem_numeral hb, decimalValue_numeral n, ?_⟩
  intro hzero
  have hn : n = 0 := by
    by_contra hne
    exact head_numeral hne hzero
  rw [hn]
  rfl

end LowLevel.Library
