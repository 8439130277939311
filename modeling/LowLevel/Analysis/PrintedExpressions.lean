import LowLevel.Analysis.UnambiguousPrinting
import LowLevel.Library.Expressions

/-!
# What the printed text means

The text of `print` is read as an expression. `print_binop` puts parentheses around its operands,
`print_unop` does not: behind the minus sign of a unary node stands the text of its operand, and
where this is a binary node, the sign is read as that of the left operand alone. `readAs` is what
is read of a tree; it is the tree unless a unary node has a binary operand.
-/

set_option autoImplicit false

namespace LowLevel.Analysis

open LowLevel.Library LowLevel.Program.AstPrinter

/-- The characters of `BINOPS`, with the usual precedences. -/
def arithmetic : OperatorTable BinopType where
  operatorAt
    | 0x2b => some .plus
    | 0x2d => some .minus
    | 0x2a => some .mul
    | 0x2f => some .div
    | _ => none
  precedence
    | .plus | .minus => 0
    | .mul | .div => 1

/-- The tree has no null pointer. -/
def WithoutNull : AST → Prop
  | .null => False
  | .binop _ left right => WithoutNull left ∧ WithoutNull right
  | .unop _ operand => WithoutNull operand
  | .lit _ => True

/-- A literal is a number, or the negation of one. -/
def literalExpression (value : BitVec 64) : Expression BinopType :=
  if value.toInt < 0 then .neg (.num value.toInt.natAbs) else .num value.toInt.natAbs

/-- The expression with the structure of the tree. -/
def expression : AST → Option (Expression BinopType)
  | .null => none
  | .binop type left right => do some (.bin type (← expression left) (← expression right))
  | .unop .neg operand => do some (.neg (← expression operand))
  | .lit value => some (literalExpression value)

/-- The value of the tree under a meaning of the binary operators. -/
def treeValue {α : Type} [NatCast α] [Neg α] (meaning : BinopType → α → α → α) :
    AST → Option α
  | .null => none
  | .binop type left right => do
      some (meaning type (← treeValue meaning left) (← treeValue meaning right))
  | .unop .neg operand => do some (-(← treeValue meaning operand))
  | .lit value =>
      some (if value.toInt < 0 then -(value.toInt.natAbs : α) else (value.toInt.natAbs : α))

/-- Read back, the printed text has the structure of the tree, and its value. -/
def PrintsItsMeaning (a : AST) : Prop :=
  ∃ e, arithmetic.read (print a) = some e ∧ expression a = some e ∧
    ∀ (α : Type) [NatCast α] [Neg α] (meaning : BinopType → α → α → α),
      treeValue meaning a = some (e.value meaning)

/-- A unary node of the tree has a binary operand. -/
def NegatesBinary : AST → Prop
  | .null => False
  | .binop _ left right => NegatesBinary left ∨ NegatesBinary right
  | .unop _ (.binop _ _ _) => True
  | .unop _ operand => NegatesBinary operand
  | .lit _ => False

/-- What is read of the text of a tree. -/
def readAs : AST → Expression BinopType
  | .null => .num 0
  | .binop type left right => .bin type (readAs left) (readAs right)
  | .unop _ (.binop type left right) => .bin type (.neg (readAs left)) (readAs right)
  | .unop _ operand => .neg (readAs operand)
  | .lit value => literalExpression value

variable {a : AST} {rest text : List Byte} {e : Expression BinopType} {p : ℕ}

/-! ## What is read -/

theorem nextOperator_of_closes (hrest : Closes rest) : arithmetic.nextOperator p rest = none := by
  cases rest with
  | nil => rfl
  | cons b text =>
      obtain rfl := hrest b rfl
      rfl

/-- An operand without binary operators is all that is read in front of a closing parenthesis. -/
theorem readsFrom_of_closes (h : arithmetic.ReadsUnary text e rest) (hrest : Closes rest) :
    arithmetic.ReadsFrom p text e rest :=
  .mk h (OperatorTable.readsTail_end (nextOperator_of_closes hrest))

theorem readsUnary_lit (value : BitVec 64) (hrest : Closes rest) :
    arithmetic.ReadsUnary (print (.lit value) ++ rest) (readAs (.lit value)) rest := by
  have hnumeral := OperatorTable.readsUnary_numeral (T := arithmetic) (n := value.toInt.natAbs)
    hrest.not_isDigit
  rw [print, printLit, readAs, literalExpression]
  rcases lt_or_ge value.toInt 0 with hneg | hpos
  · rw [signedNumeral_of_neg hneg, if_pos hneg]
    exact hnumeral.neg
  · rw [signedNumeral_of_nonneg hpos, if_neg hpos.not_gt]
    exact hnumeral

/-- A parenthesised operand. -/
theorem readsUnary_operand
    (h : ∀ rest, Closes rest → arithmetic.ReadsFrom 0 (print a ++ rest) (readAs a) rest) :
    arithmetic.ReadsUnary (0x28 :: (print a ++ 0x29 :: rest)) (readAs a) rest :=
  .group (h _ (closes_cons rest))

/-- The operator of a binary node and its right operand. -/
theorem readsTail_operand (type : BinopType) {right : AST}
    (h : ∀ rest, Closes rest → arithmetic.ReadsFrom 0 (print right ++ rest) (readAs right) rest)
    (hrest : Closes rest) :
    arithmetic.ReadsTail 0 e (binops type ++ 0x28 :: (print right ++ 0x29 :: rest))
      (.bin type e (readAs right)) rest := by
  have hright : ∀ p, arithmetic.ReadsFrom p (0x28 :: (print right ++ 0x29 :: rest))
      (readAs right) rest :=
    fun p => readsFrom_of_closes (readsUnary_operand h) hrest
  have hend := OperatorTable.readsTail_end (T := arithmetic) (e := .bin type e (readAs right))
    (nextOperator_of_closes (p := 0) hrest)
  cases type <;> exact .operator rfl (Nat.zero_le _) (hright _) hend

/-- **What is read** of the text of a tree, and of this text behind a minus sign. -/
theorem readsFrom_print (hwhole : WithoutNull a) (hrest : Closes rest) :
    arithmetic.ReadsFrom 0 (print a ++ rest) (readAs a) rest ∧
      arithmetic.ReadsFrom 0 (0x2d :: (print a ++ rest)) (readAs (.unop .neg a)) rest := by
  induction a generalizing rest with
  | null => exact hwhole.elim
  | binop type left right ihleft ihright =>
      have hleft : ∀ rest, arithmetic.ReadsUnary (0x28 :: (print left ++ 0x29 :: rest))
          (readAs left) rest :=
        fun _ => readsUnary_operand fun _ h => (ihleft hwhole.1 h).1
      rw [print_binop_append]
      -- the minus sign goes to the left operand
      constructor
      · exact .mk (hleft _) (readsTail_operand type (fun _ h => (ihright hwhole.2 h).1) hrest)
      · exact .mk (hleft _).neg (readsTail_operand type (fun _ h => (ihright hwhole.2 h).1) hrest)
  | unop type operand ih =>
      cases type
      have hgroup : arithmetic.ReadsUnary (print (.unop .neg operand) ++ rest)
          (readAs (.unop .neg operand)) rest := by
        rw [print_unop_append]
        exact .group (ih hwhole (closes_cons rest)).2
      exact ⟨readsFrom_of_closes hgroup hrest, readsFrom_of_closes hgroup.neg hrest⟩
  | lit value =>
      have hlit := readsUnary_lit value hrest
      exact ⟨readsFrom_of_closes hlit hrest, readsFrom_of_closes hlit.neg hrest⟩

theorem read_print (hwhole : WithoutNull a) : arithmetic.read (print a) = some (readAs a) := by
  have hread := (readsFrom_print hwhole closes_nil).1
  rw [List.append_nil] at hread
  exact OperatorTable.read_of_readsFrom hread

-- 1+2*3-4
example : arithmetic.read [0x31, 0x2b, 0x32, 0x2a, 0x33, 0x2d, 0x34] =
    some (.bin .minus (.bin .plus (.num 1) (.bin .mul (.num 2) (.num 3))) (.num 4)) := by decide

-- -1*(2+3)
example : arithmetic.read [0x2d, 0x31, 0x2a, 0x28, 0x32, 0x2b, 0x33, 0x29] =
    some (.bin .mul (.neg (.num 1)) (.bin .plus (.num 2) (.num 3))) := by decide

/-! ## What is meant -/

theorem exists_expression (hwhole : WithoutNull a) : ∃ e, expression a = some e := by
  induction a with
  | null => exact hwhole.elim
  | binop type left right ihleft ihright =>
      obtain ⟨e, he⟩ := ihleft hwhole.1
      obtain ⟨e', he'⟩ := ihright hwhole.2
      exact ⟨.bin type e e', by rw [expression, he, he']; rfl⟩
  | unop type operand ih =>
      cases type
      obtain ⟨e, he⟩ := ih hwhole
      exact ⟨.neg e, by rw [expression, he]; rfl⟩
  | lit value => exact ⟨literalExpression value, rfl⟩

/-- The expression has the value of the tree. -/
theorem treeValue_of_expression {α : Type} [NatCast α] [Neg α]
    (meaning : BinopType → α → α → α) (h : expression a = some e) :
    treeValue meaning a = some (e.value meaning) := by
  induction a generalizing e with
  | null => cases h
  | binop type left right ihleft ihright =>
      rw [expression] at h
      obtain ⟨l, hl, h⟩ := Option.bind_eq_some_iff.mp h
      obtain ⟨r, hr, h⟩ := Option.bind_eq_some_iff.mp h
      obtain rfl := Option.some.inj h
      rw [treeValue, ihleft hl, ihright hr]
      rfl
  | unop type operand ih =>
      cases type
      rw [expression] at h
      obtain ⟨o, ho, h⟩ := Option.bind_eq_some_iff.mp h
      obtain rfl := Option.some.inj h
      rw [treeValue, ih ho]
      rfl
  | lit value =>
      obtain rfl := Option.some.inj h
      rw [treeValue, literalExpression]
      split_ifs <;> rfl

/-- **What is read is the tree** unless a unary node has a binary operand. -/
theorem expression_eq_readAs_iff (hwhole : WithoutNull a) :
    expression a = some (readAs a) ↔ ¬ NegatesBinary a := by
  induction a with
  | null => exact hwhole.elim
  | binop type left right ihleft ihright =>
      obtain ⟨l, hl⟩ := exists_expression hwhole.1
      obtain ⟨r, hr⟩ := exists_expression hwhole.2
      have hleft := ihleft hwhole.1
      have hright := ihright hwhole.2
      rw [hl, Option.some_inj] at hleft
      rw [hr, Option.some_inj] at hright
      have hnode : expression (.binop type left right) = some (.bin type l r) := by
        rw [expression, hl, hr]
        rfl
      rw [hnode, readAs, Option.some_inj, Expression.bin.injEq, NegatesBinary, not_or, hleft,
        hright]
      exact and_iff_right rfl
  | unop type operand ih =>
      cases type
      obtain ⟨o, ho⟩ := exists_expression (a := operand) hwhole
      have hoperand := ih hwhole
      rw [ho, Option.some_inj] at hoperand
      have hnode : expression (.unop .neg operand) = some (.neg o) := by
        rw [expression, ho]
        rfl
      have hneg : ∀ e, Expression.neg o = .neg e ↔ o = e :=
        fun e => ⟨Expression.neg.inj, congrArg Expression.neg⟩
      rw [hnode, Option.some_inj]
      cases operand with
      | null => exact hwhole.elim
      | binop type left right =>
          -- the tree is a negation, and what is read is none
          constructor
          · intro h
            cases h
          · intro h
            exact absurd trivial h
      | unop type' operand' => exact (hneg _).trans hoperand
      | lit value => exact (hneg _).trans hoperand
  | lit value => exact ⟨fun _ h => h, fun _ => rfl⟩

/-- **The printed text means the tree** exactly when no unary node has a binary operand. -/
theorem printsItsMeaning_iff (hwhole : WithoutNull a) :
    PrintsItsMeaning a ↔ ¬ NegatesBinary a := by
  rw [← expression_eq_readAs_iff hwhole]
  constructor
  · rintro ⟨e, hread, hexpression, -⟩
    rw [read_print hwhole] at hread
    rw [hexpression, ← hread]
  · intro h
    exact ⟨readAs a, read_print hwhole, h,
      fun _ _ _ meaning => treeValue_of_expression meaning h⟩

/-- `-1 + 2`, where the minus sign is that of the literal. -/
theorem printsItsMeaning_literals : PrintsItsMeaning (.binop .plus (.lit (-1)) (.lit 2)) := by
  have hwhole : WithoutNull (.binop .plus (.lit (-1)) (.lit 2)) := ⟨trivial, trivial⟩
  exact (printsItsMeaning_iff hwhole).mpr (by simp [NegatesBinary])

/-- `neg(add(lit(1), lit(2)))` is printed as `(-(1)+(2))`. -/
theorem not_printsItsMeaning_negatedSum :
    WithoutNull (.unop .neg (.binop .plus (.lit 1) (.lit 2))) ∧
      ¬ PrintsItsMeaning (.unop .neg (.binop .plus (.lit 1) (.lit 2))) := by
  refine ⟨⟨trivial, trivial⟩, ?_⟩
  rintro ⟨e, hread, hexpression, -⟩
  have heq : arithmetic.read (print (.unop .neg (.binop .plus (.lit 1) (.lit 2)))) =
      some (.bin .plus (.neg (.num 1)) (.num 2)) := by decide
  rw [heq] at hread
  rw [← hread] at hexpression
  exact absurd hexpression (by decide)

end LowLevel.Analysis
