import LowLevel.Library.Decimal

/-!
# Reading arithmetic expressions

The text of an expression is read with the usual rules: parentheses group, a unary minus binds
tighter than any binary operator, a binary operator binds tighter the greater its precedence is,
and operators of one precedence group from the left. Which characters are binary operators is a
parameter.

The reader runs with fuel. `ReadsUnary`, `ReadsFrom` and `ReadsTail` say what it reads when the
fuel is enough for the text, and there is one rule for each form that a text can have.
-/

set_option autoImplicit false

namespace LowLevel.Library

def leftParenthesis : Byte := 0x28

def rightParenthesis : Byte := 0x29

def minusSign : Byte := 0x2d

/-- An expression over the binary operators of `β`. -/
inductive Expression (β : Type) where
  | num (n : ℕ)
  | neg (e : Expression β)
  | bin (op : β) (e e' : Expression β)
  deriving DecidableEq, Repr

/-- The binary operators: their characters and their precedences. -/
structure OperatorTable (β : Type) where
  operatorAt : Byte → Option β
  precedence : β → ℕ

variable {β : Type}

/-- The value of an expression under a meaning of the operators. -/
def Expression.value {α : Type} [NatCast α] [Neg α] (meaning : β → α → α → α) :
    Expression β → α
  | num n => n
  | neg e => -e.value meaning
  | bin op e e' => meaning op (e.value meaning) (e'.value meaning)

namespace OperatorTable

variable (T : OperatorTable β)

/-- The operator that a text starts with, if it binds as tightly as `p`. -/
def nextOperator (p : ℕ) (text : List Byte) : Option β :=
  (text.head?.bind T.operatorAt).filter fun op => p ≤ T.precedence op

mutual

/-- An expression without binary operators outside of parentheses. -/
def readUnary : ℕ → List Byte → Option (Expression β × List Byte)
  | 0, _ => none
  | fuel + 1, text =>
      if text.head? = some minusSign then
        (readUnary fuel text.tail).map fun (e, rest) => (.neg e, rest)
      else if text.head? = some leftParenthesis then do
        let (e, rest) ← readFrom fuel 0 text.tail
        if rest.head? = some rightParenthesis then some (e, rest.tail) else none
      else
        let digits := leadingDigits text
        if digits = [] then none
        else some (.num (decimalValue digits), text.drop digits.length)

/-- An expression with binary operators of precedence `p` or more. -/
def readFrom : ℕ → ℕ → List Byte → Option (Expression β × List Byte)
  | 0, _, _ => none
  | fuel + 1, p, text => do
      let (e, rest) ← readUnary fuel text
      readTail fuel p e rest

/-- The operators behind `e`, and their right operands. -/
def readTail : ℕ → ℕ → Expression β → List Byte → Option (Expression β × List Byte)
  | 0, _, _, _ => none
  | fuel + 1, p, e, text =>
      match T.nextOperator p text with
      | none => some (e, text)
      | some op => do
          let (e', rest) ← readFrom fuel (T.precedence op + 1) text.tail
          readTail fuel p (.bin op e e') rest

end

/-- The expression that the whole text is. -/
def read (text : List Byte) : Option (Expression β) := do
  let (e, rest) ← T.readFrom (2 * text.length + 1) 0 text
  if rest = [] then some e else none

/-! ## What is read when the fuel is enough -/

variable {text rest rest' : List Byte} {e e' e'' : Expression β} {p : ℕ} {op : β} {b : Byte}

/-- `e` is read without binary operators, and `rest` is left. -/
def ReadsUnary (text : List Byte) (e : Expression β) (rest : List Byte) : Prop :=
  rest.length < text.length ∧ ∀ fuel, 2 * text.length ≤ fuel + 2 * rest.length →
    T.readUnary fuel text = some (e, rest)

/-- `e` is read with operators of precedence `p` or more, and `rest` is left. -/
def ReadsFrom (p : ℕ) (text : List Byte) (e : Expression β) (rest : List Byte) : Prop :=
  rest.length < text.length ∧ ∀ fuel, 2 * text.length + 1 ≤ fuel + 2 * rest.length →
    T.readFrom fuel p text = some (e, rest)

/-- Behind `e` the rest of `e'` is read, and `rest` is left. -/
def ReadsTail (p : ℕ) (e : Expression β) (text : List Byte) (e' : Expression β)
    (rest : List Byte) : Prop :=
  rest.length ≤ text.length ∧ ∀ fuel, 2 * text.length + 1 ≤ fuel + 2 * rest.length →
    T.readTail fuel p e text = some (e', rest)

variable {T}

theorem read_of_readsFrom (h : T.ReadsFrom 0 text e []) : T.read text = some e := by
  unfold read
  rw [h.2 _ (Nat.le_add_right _ _)]
  rfl

/-- A unary minus binds tighter than what follows its operand. -/
theorem ReadsUnary.neg (h : T.ReadsUnary text e rest) :
    T.ReadsUnary (minusSign :: text) (.neg e) rest := by
  obtain ⟨hlt, hread⟩ := h
  refine ⟨hlt.trans (Nat.lt_succ_self _), fun fuel hfuel => ?_⟩
  rw [List.length_cons] at hfuel
  cases fuel with
  | zero => omega
  | succ fuel =>
      rw [readUnary, List.head?_cons, if_pos rfl, List.tail_cons, hread fuel (by omega)]
      rfl

/-- Parentheses group. -/
theorem ReadsUnary.group (h : T.ReadsFrom 0 text e (rightParenthesis :: rest)) :
    T.ReadsUnary (leftParenthesis :: text) e rest := by
  obtain ⟨hlt, hread⟩ := h
  rw [List.length_cons] at hlt hread
  refine ⟨by rw [List.length_cons]; omega, fun fuel hfuel => ?_⟩
  rw [List.length_cons] at hfuel
  cases fuel with
  | zero => omega
  | succ fuel =>
      rw [readUnary, List.head?_cons, if_neg (by decide), if_pos rfl, List.tail_cons,
        hread fuel (by omega)]
      rfl

/-- A numeral is read to its end. -/
theorem readsUnary_numeral {n : ℕ} (hrest : ∀ b ∈ rest.head?, ¬ IsDigit b) :
    T.ReadsUnary (numeral n ++ rest) (.num n) rest := by
  have hne := numeral_ne_nil n
  have hpos := List.length_pos_iff.mpr hne
  -- it starts with a digit, so with no sign and no parenthesis
  have hhead : ∀ b, ¬ IsDigit b → (numeral n ++ rest).head? ≠ some b :=
    fun b hb h => hb (isDigit_of_mem_head?_numeral h)
  rw [ReadsUnary, List.length_append]
  refine ⟨by omega, fun fuel hfuel => ?_⟩
  cases fuel with
  | zero => omega
  | succ fuel =>
      rw [readUnary, if_neg (hhead minusSign (by decide)),
        if_neg (hhead leftParenthesis (by decide))]
      dsimp only
      rw [leadingDigits_numeral_append n hrest, if_neg hne, decimalValue_numeral, List.drop_left]

/-- An expression is its first operand and what its operators make of it. -/
theorem ReadsFrom.mk (hfirst : T.ReadsUnary text e rest) (htail : T.ReadsTail p e rest e' rest') :
    T.ReadsFrom p text e' rest' := by
  obtain ⟨hlt, hfirst⟩ := hfirst
  obtain ⟨hle, htail⟩ := htail
  refine ⟨hle.trans_lt hlt, fun fuel hfuel => ?_⟩
  cases fuel with
  | zero => omega
  | succ fuel =>
      rw [readFrom, hfirst fuel (by omega)]
      exact htail fuel (by omega)

/-- The expression ends where no operator follows that binds tightly enough. -/
theorem readsTail_end (h : T.nextOperator p text = none) : T.ReadsTail p e text e text := by
  refine ⟨le_rfl, fun fuel hfuel => ?_⟩
  cases fuel with
  | zero => omega
  | succ fuel => rw [readTail, h]

/-- Operators group from the left: the right operand has only tighter ones. -/
theorem ReadsTail.operator (hop : T.operatorAt b = some op) (hp : p ≤ T.precedence op)
    (hright : T.ReadsFrom (T.precedence op + 1) text e' rest)
    (htail : T.ReadsTail p (.bin op e e') rest e'' rest') :
    T.ReadsTail p e (b :: text) e'' rest' := by
  have hnext : T.nextOperator p (b :: text) = some op := by
    rw [nextOperator, List.head?_cons, Option.bind_some, hop, Option.filter_some,
      if_pos (decide_eq_true hp)]
  obtain ⟨hlt, hright⟩ := hright
  obtain ⟨hle, htail⟩ := htail
  refine ⟨by rw [List.length_cons]; omega, fun fuel hfuel => ?_⟩
  rw [List.length_cons] at hfuel
  cases fuel with
  | zero => omega
  | succ fuel =>
      rw [readTail, hnext]
      dsimp only
      rw [List.tail_cons, hright fuel (by omega)]
      exact htail fuel (by omega)

end OperatorTable

end LowLevel.Library
