import LowLevel.Library.Scan
import LowLevel.Program.AngleInput

/-!
# Which angles are accepted

`read_angle` looks at the end pointer of `strtol` only to see that there was a number, and
tests the angle after its conversion to 16 bits. So text behind the number is accepted, and so
are numbers that are an allowed angle modulo `2 ^ 16`.
-/

set_option autoImplicit false

namespace LowLevel.Analysis

open LowLevel.Library LowLevel.Program.ImageRotation LowLevel.Program.AngleInput

variable {numeral rest string digits sign spaces : List Byte} {v : ℤ}

/-- The value of digits behind a sign. -/
inductive SignedValue (digits : List Byte) : List Byte → ℤ → Prop
  | unsigned : SignedValue digits [] (decimalValue digits)
  | plus : SignedValue digits [0x2b] (decimalValue digits)
  | minus : SignedValue digits [0x2d] (-decimalValue digits)

/-- The string is a decimal numeral of `v`: white space, a sign, and digits, of which only the
digits have to be there. -/
def Spells (string : List Byte) (v : ℤ) : Prop :=
  ∃ spaces sign digits, string = spaces ++ (sign ++ digits) ∧ (∀ b ∈ spaces, IsSpace b) ∧
    (∀ b ∈ digits, IsDigit b) ∧ digits ≠ [] ∧ SignedValue digits sign v

/-- `read_angle` accepts the string if it is a numeral of an allowed angle, which is then
stored, and no other. -/
def AcceptsExactly (string : List Byte) : Prop :=
  ∀ res, ((readAngle string res).1 = .valid ↔ ∃ v ∈ rotationAllowedAngles, Spells string v) ∧
    ∀ v ∈ rotationAllowedAngles, Spells string v → (readAngle string res).2 = v

/-! ## What `strtol` reads -/

/-- The result of `strtol` for a number. -/
def clamp (v : ℤ) : ℤ := max longMin (min longMax v)

/-- Digits are not white space, and neither is a sign. -/
theorem head_not_isSpace (hdigits : ∀ b ∈ digits, IsDigit b) (hne : digits ≠ [])
    (hvalue : SignedValue digits sign v) :
    ∀ b ∈ (sign ++ digits ++ rest).head?, decide (IsSpace b) = false := by
  have hsign : ∀ b : Byte, b = 0x2b ∨ b = 0x2d → decide (IsSpace b) = false := by
    rintro b (rfl | rfl) <;> decide
  intro b hb
  obtain ⟨d, ds, rfl⟩ := List.exists_cons_of_ne_nil hne
  cases hvalue with
  | unsigned =>
      obtain rfl : d = b := by simpa using hb
      have hd := hdigits d List.mem_cons_self
      rw [decide_eq_false_iff_not]
      unfold IsDigit at hd
      rintro (rfl | hspace)
      · exact absurd hd (by decide)
      · omega
  | plus => exact hsign b (.inl (by simpa using hb.symm))
  | minus => exact hsign b (.inr (by simpa using hb.symm))

/-- The sign and the digits are found. -/
theorem signedDigits_append (hdigits : ∀ b ∈ digits, IsDigit b) (hne : digits ≠ [])
    (hvalue : SignedValue digits sign v) (hrest : ∀ b ∈ rest.head?, ¬ IsDigit b) :
    signLength (sign ++ digits ++ rest) = sign.length ∧
      signedDigits (sign ++ digits ++ rest) = digits ∧
      (if (sign ++ digits ++ rest).head? = some 0x2d then -(decimalValue digits : ℤ)
        else decimalValue digits) = v := by
  have hscan : leadingDigits (digits ++ rest) = digits :=
    takeWhile_append_of_head? (fun b hb => decide_eq_true (hdigits b hb))
      fun b hb => decide_eq_false (hrest b hb)
  obtain ⟨d, ds, rfl⟩ := List.exists_cons_of_ne_nil hne
  cases hvalue with
  | unsigned =>
      have hd := hdigits d List.mem_cons_self
      have hminus : d ≠ 0x2d := by
        rintro rfl
        exact absurd hd (by decide)
      have hplus : d ≠ 0x2b := by
        rintro rfl
        exact absurd hd (by decide)
      have hsign : signLength ([] ++ d :: ds ++ rest) = 0 := signLength_cons_of_ne hminus hplus
      refine ⟨hsign, ?_, if_neg (by simpa using hminus)⟩
      rw [signedDigits, hsign]
      exact hscan
  | plus => exact ⟨rfl, hscan, rfl⟩
  | minus => exact ⟨rfl, hscan, rfl⟩

/-- A numeral at the start of a string is read. -/
theorem strtol_append (h : Spells numeral v) (hrest : ∀ b ∈ rest.head?, ¬ IsDigit b) :
    strtol (numeral ++ rest) = (clamp v, numeral.length) := by
  obtain ⟨spaces, sign, digits, rfl, hspaces, hdigits, hne, hvalue⟩ := h
  have hassoc : spaces ++ (sign ++ digits) ++ rest = spaces ++ (sign ++ digits ++ rest) :=
    List.append_assoc _ _ _
  have hscan : (spaces ++ (sign ++ digits ++ rest)).takeWhile (fun b => decide (IsSpace b)) =
      spaces :=
    takeWhile_append_of_head? (fun b hb => decide_eq_true (hspaces b hb))
      (head_not_isSpace hdigits hne hvalue)
  obtain ⟨hsign, hfound, hv⟩ := signedDigits_append hdigits hne hvalue hrest
  unfold strtol
  simp only [hassoc, hscan, List.drop_left, hsign, hfound, hv]
  rw [if_neg hne, clamp, List.length_append, List.length_append, Nat.add_assoc]

/-- A string that is a numeral is read to its end. -/
theorem strtol_whole (h : Spells string v) : strtol string = (clamp v, string.length) := by
  have hread := strtol_append h (show ∀ b ∈ ([] : List Byte).head?, ¬ IsDigit b from nofun)
  rwa [List.append_nil] at hread

/-- What `strtol` reads is a numeral, which the string starts with. -/
theorem exists_spells_of_strtol (hend : (strtol string).2 ≠ 0) : ∃ numeral rest v,
    string = numeral ++ rest ∧ Spells numeral v ∧ ∀ b ∈ rest.head?, ¬ IsDigit b := by
  set spaces := string.takeWhile fun b => decide (IsSpace b) with hspaces
  set text := string.drop spaces.length with htext
  set sign := text.take (signLength text) with hsign
  have hstring : spaces ++ text = string := by
    rw [htext, hspaces]
    exact List.prefix_iff_eq_append.mp (List.takeWhile_prefix _)
  have hne : signedDigits text ≠ [] := by
    intro hnil
    apply hend
    unfold strtol
    simp only [← hspaces, ← htext, hnil, if_true]
  set rest := (text.drop (signLength text)).dropWhile fun b => decide (IsDigit b) with hrest
  have hsplit : signedDigits text ++ rest = text.drop (signLength text) :=
    List.takeWhile_append_dropWhile
  have hvalue : ∃ v, SignedValue (signedDigits text) sign v := by
    rw [hsign]
    cases text with
    | nil => exact ⟨_, .unsigned⟩
    | cons c cs =>
        by_cases hminus : c = 0x2d
        · subst hminus
          exact ⟨_, .minus⟩
        · by_cases hplus : c = 0x2b
          · subst hplus
            exact ⟨_, .plus⟩
          · rw [signLength_cons_of_ne hminus hplus]
            exact ⟨_, .unsigned⟩
  obtain ⟨v, hv⟩ := hvalue
  refine ⟨spaces ++ (sign ++ signedDigits text), rest, v, ?_,
    ⟨spaces, sign, signedDigits text, rfl, ?_, ?_, hne, hv⟩, ?_⟩
  · rw [List.append_assoc, List.append_assoc, hsplit, hsign, List.take_append_drop, hstring]
  · intro b hb
    simpa using List.mem_takeWhile_imp hb
  · exact fun b hb => isDigit_of_mem_leadingDigits hb
  · exact fun b hb => of_decide_eq_false (eq_false_of_mem_head?_dropWhile _ b hb)

/-! ## What `read_angle` accepts -/

/-- A number is accepted if it is an `int` that is an allowed angle in 16 bits. -/
def Passes (v : ℤ) : Prop := intMin ≤ v ∧ v ≤ intMax ∧ toInt16 v ∈ rotationAllowedAngles

theorem angleIsAllowed_iff (angle : ℤ) :
    angleIsAllowed angle = true ↔ angle ∈ rotationAllowedAngles := by
  rw [angleIsAllowed, List.any_eq_true]
  simp

/-- An angle that is allowed passes as it is. -/
theorem passes_of_mem (hv : v ∈ rotationAllowedAngles) : Passes v ∧ toInt16 v = v := by
  unfold Passes toInt16
  simp only [rotationAllowedAngles, List.mem_cons, List.not_mem_nil, or_false] at hv
  rcases hv with rfl | rfl | rfl | rfl | rfl | rfl | rfl <;> decide

theorem convertToInt_append (h : Spells numeral v) (hrest : ∀ b ∈ rest.head?, ¬ IsDigit b) :
    convertToInt (numeral ++ rest) =
      if intMin ≤ v ∧ v ≤ intMax then some (toInt16 v) else none := by
  have hpos : numeral.length ≠ 0 := by
    obtain ⟨spaces, sign, digits, rfl, -, -, hne, -⟩ := h
    have := List.length_pos_iff.mpr hne
    rw [List.length_append, List.length_append]
    omega
  unfold convertToInt
  rw [strtol_append h hrest]
  dsimp only
  rw [if_neg hpos]
  unfold clamp longMin longMax intMin intMax
  by_cases hint : -2 ^ 31 ≤ v ∧ v ≤ 2 ^ 31 - 1
  · have hclamp : max (-2 ^ 63) (min (2 ^ 63 - 1) v) = v := by omega
    rw [if_pos hint, hclamp, if_neg (by omega), if_neg (by omega)]
  · rw [if_neg hint]
    split_ifs with hlimit hfar
    · rfl
    · rfl
    · omega

/-- What `read_angle` makes of a string that starts with a numeral. -/
theorem readAngle_append (h : Spells numeral v) (hrest : ∀ b ∈ rest.head?, ¬ IsDigit b)
    (res : ℤ) :
    ((readAngle (numeral ++ rest) res).1 = .valid ↔ Passes v) ∧
      (Passes v → (readAngle (numeral ++ rest) res).2 = toInt16 v) := by
  unfold readAngle Passes
  rw [convertToInt_append h hrest, ← and_assoc, ← angleIsAllowed_iff]
  by_cases hint : intMin ≤ v ∧ v ≤ intMax
  · rw [if_pos hint]
    dsimp only
    by_cases hallowed : angleIsAllowed (toInt16 v) = true
    · rw [if_pos hallowed]
      exact ⟨⟨fun _ => ⟨hint, hallowed⟩, fun _ => rfl⟩, fun _ => rfl⟩
    · rw [if_neg hallowed]
      exact ⟨⟨nofun, fun h => absurd h.2 hallowed⟩, fun h => absurd h.2 hallowed⟩
  · rw [if_neg hint]
    exact ⟨⟨nofun, fun h => absurd h.1 hint⟩, fun h => absurd h.1 hint⟩

/-- A string without a numeral at its start is refused. -/
theorem readAngle_of_strtol_eq_zero (hend : (strtol string).2 = 0) (res : ℤ) :
    (readAngle string res).1 = .formatError := by
  unfold readAngle convertToInt
  dsimp only
  rw [if_pos hend]

/-- A numeral that is a whole string is all that the string starts with. -/
theorem spells_whole {w : ℤ} (h : Spells numeral v) (hrest : ∀ b ∈ rest.head?, ¬ IsDigit b)
    (hw : w ∈ rotationAllowedAngles) (hwhole : Spells (numeral ++ rest) w) :
    rest = [] ∧ v = w := by
  have hread := strtol_whole hwhole
  rw [strtol_append h hrest, Prod.mk.injEq, List.length_append] at hread
  have hsmall := (passes_of_mem hw).1
  unfold clamp longMin longMax at hread
  unfold Passes intMin intMax at hsmall
  exact ⟨List.length_eq_zero_iff.mp (by omega), by omega⟩

/-- **Which strings are accepted right**: those that do not start with a numeral of a number
that is an allowed angle in 16 bits only, or that goes on behind the number. -/
theorem acceptsExactly_iff (string : List Byte) : AcceptsExactly string ↔
    ∀ numeral rest v, string = numeral ++ rest → Spells numeral v →
      (∀ b ∈ rest.head?, ¬ IsDigit b) → intMin ≤ v → v ≤ intMax →
      toInt16 v ∈ rotationAllowedAngles → rest = [] ∧ v ∈ rotationAllowedAngles := by
  constructor
  · rintro haccepts numeral rest v rfl h hrest hmin hmax hallowed
    have hvalid := (readAngle_append h hrest 0).1.mpr ⟨hmin, hmax, hallowed⟩
    obtain ⟨w, hw, hwhole⟩ := (haccepts 0).1.mp hvalid
    obtain ⟨hnil, rfl⟩ := spells_whole h hrest hw hwhole
    exact ⟨hnil, hw⟩
  · intro hexact res
    by_cases hend : (strtol string).2 = 0
    · have hnone : ∀ v, ¬ Spells string v := by
        intro v h
        have hread := strtol_whole h
        obtain ⟨spaces, sign, digits, rfl, -, -, hne, -⟩ := h
        have hpos := List.length_pos_iff.mpr hne
        rw [hread, List.length_append, List.length_append] at hend
        omega
      rw [readAngle_of_strtol_eq_zero hend]
      exact ⟨⟨nofun, fun ⟨v, _, h⟩ => absurd h (hnone v)⟩, fun v _ h => absurd h (hnone v)⟩
    · obtain ⟨numeral, rest, v, rfl, h, hrest⟩ := exists_spells_of_strtol hend
      obtain ⟨hvalid, hstored⟩ := readAngle_append h hrest res
      refine ⟨⟨fun haccepted => ?_, ?_⟩, ?_⟩
      · obtain ⟨hmin, hmax, hallowed⟩ := hvalid.mp haccepted
        obtain ⟨rfl, hv⟩ := hexact numeral rest v rfl h hrest hmin hmax hallowed
        exact ⟨v, hv, by rwa [List.append_nil]⟩
      · rintro ⟨w, hw, hwhole⟩
        obtain ⟨-, rfl⟩ := spells_whole h hrest hw hwhole
        exact hvalid.mpr (passes_of_mem hw).1
      · intro w hw hwhole
        obtain ⟨-, rfl⟩ := spells_whole h hrest hw hwhole
        rw [hstored (passes_of_mem hw).1, (passes_of_mem hw).2]

/-- `90abc` is accepted as 90, and so is `65626`, which is 90 in 16 bits. -/
theorem not_acceptsExactly : ¬ AcceptsExactly [0x39, 0x30, 0x61, 0x62, 0x63] ∧
    ¬ AcceptsExactly [0x36, 0x35, 0x36, 0x32, 0x36] := by
  constructor
  · intro h
    obtain ⟨w, hw, hwhole⟩ := (h 0).1.mp (by decide)
    have hninety : Spells [0x39, 0x30] 90 :=
      ⟨[], [], [0x39, 0x30], rfl, nofun, by decide, by decide, .unsigned⟩
    have hrest : ∀ b ∈ [0x61, 0x62, 0x63].head?, ¬ IsDigit b := by decide
    exact absurd (spells_whole hninety hrest hw hwhole).1 (by decide)
  · intro h
    obtain ⟨w, hw, hwhole⟩ := (h 0).1.mp (by decide)
    have hnumber : Spells [0x36, 0x35, 0x36, 0x32, 0x36] 65626 :=
      ⟨[], [], [0x36, 0x35, 0x36, 0x32, 0x36], rfl, nofun, by decide, by decide, .unsigned⟩
    have hrest : ∀ b ∈ ([] : List Byte).head?, ¬ IsDigit b := nofun
    obtain ⟨-, rfl⟩ := spells_whole hnumber hrest hw hwhole
    exact absurd hw (by decide)

end LowLevel.Analysis
