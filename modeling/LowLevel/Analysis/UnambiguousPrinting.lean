import LowLevel.Program.AstPrinter

/-!
# The printed text determines the tree

A text of `print` is told from what follows it, where what follows is nothing or a closing
parenthesis: so a tree is told from its text by the text of its first child, then by what stands
behind that. A minus sign may start a negative literal, stand behind the parenthesis of a unary
node, or stand between the operands of a binary one. The last is behind a closing parenthesis;
of the first two, the literal is followed by that parenthesis, where the operand of the unary
node would be followed by another one.
-/

set_option autoImplicit false

namespace LowLevel.Analysis

open LowLevel.Library LowLevel.Program.AstPrinter

/-- What may stand behind a text of `print`. -/
def Closes (text : List Byte) : Prop := ∀ b ∈ text.head?, b = 0x29

variable {a b : AST} {x y : List Byte} {n : ℕ}

theorem closes_nil : Closes [] := fun _ hb => absurd hb (Option.not_mem_none _)

theorem closes_cons (text : List Byte) : Closes (0x29 :: text) :=
  fun _ hb => (Option.some.inj hb).symm

/-- Behind a tree no digit follows. -/
theorem Closes.not_isDigit (hx : Closes x) : ∀ b ∈ x.head?, ¬ IsDigit b := by
  intro b hb
  rw [hx b hb]
  decide

/-- An operator is one character, and no closing parenthesis. -/
theorem exists_binops (type : BinopType) : ∃ c, binops type = [c] ∧ c ≠ 0x29 := by
  cases type <;> exact ⟨_, rfl, by decide⟩

theorem binops_injective : Function.Injective binops := by
  intro type type' h
  cases type <;> cases type' <;> first | rfl | exact absurd h (by decide)

/-! ## The text of a node and what follows -/

theorem print_binop_append (type : BinopType) (left right : AST) (x : List Byte) :
    print (.binop type left right) ++ x =
      0x28 :: (print left ++ 0x29 :: (binops type ++ 0x28 :: (print right ++ 0x29 :: x))) := by
  rw [print, printBinop]
  simp only [List.append_assoc, List.cons_append, List.nil_append]

theorem print_unop_append (type : UnopType) (operand : AST) (x : List Byte) :
    print (.unop type operand) ++ x = 0x28 :: 0x2d :: (print operand ++ 0x29 :: x) := by
  cases type
  rw [print, printUnop]
  simp only [unops, List.append_assoc, List.cons_append, List.nil_append]

/-- Only the text of a literal starts with a digit or a minus sign. -/
theorem exists_lit_or_lead (a : AST) : (∃ value, a = .lit value) ∨
    ∃ c text, print a = c :: text ∧ ¬ IsDigit c ∧ c ≠ 0x2d := by
  cases a with
  | null => exact .inr ⟨0x3c, _, rfl, by decide, by decide⟩
  | binop type left right => exact .inr ⟨0x28, _, rfl, by decide, by decide⟩
  | unop type operand => exact .inr ⟨0x28, _, rfl, by decide, by decide⟩
  | lit value => exact .inl ⟨value, rfl⟩

/-- Behind a minus sign the text of a literal goes on with a numeral. -/
theorem eq_numeral_of_print_minus (h : print a ++ x = 0x2d :: y) : ∃ n, y = numeral n ++ x := by
  obtain ⟨value, rfl⟩ | ⟨c, text, hprint, -, hminus⟩ := exists_lit_or_lead a
  · rw [print, printLit] at h
    rcases lt_or_ge value.toInt 0 with hneg | hpos
    · rw [signedNumeral_of_neg hneg, List.cons_append] at h
      exact ⟨_, (List.cons.inj h).2.symm⟩
    · rw [signedNumeral_of_nonneg hpos] at h
      exact absurd h (numeral_append_ne_cons (by decide))
  · rw [hprint, List.cons_append] at h
    exact absurd (List.cons.inj h).1 hminus

/-- A text that starts with a numeral is that of a literal. -/
theorem eq_of_print_numeral (hx : Closes x) (hy : Closes y)
    (h : numeral n ++ x = print a ++ y) : x = y := by
  obtain ⟨value, rfl⟩ | ⟨c, text, hprint, hdigit, -⟩ := exists_lit_or_lead a
  · rw [print, printLit] at h
    rcases lt_or_ge value.toInt 0 with hneg | hpos
    · rw [signedNumeral_of_neg hneg, List.cons_append] at h
      exact absurd h (numeral_append_ne_cons (by decide))
    · rw [signedNumeral_of_nonneg hpos] at h
      exact (numeral_append_inj hx.not_isDigit hy.not_isDigit h).2
  · rw [hprint, List.cons_append] at h
    exact absurd h (numeral_append_ne_cons hdigit)

/-- **A minus sign behind a parenthesis**: a binary node whose left operand is a negative literal
is no unary node. -/
theorem print_binop_ne_unop {type : BinopType} {type' : UnopType} {left right operand : AST}
    (hy : Closes y) :
    print (.binop type left right) ++ x ≠ print (.unop type' operand) ++ y := by
  intro h
  rw [print_binop_append, print_unop_append] at h
  obtain ⟨n, hn⟩ := eq_numeral_of_print_minus (List.cons.inj h).2
  obtain ⟨c, hbinops, hc⟩ := exists_binops type
  have hrest := eq_of_print_numeral (closes_cons _) (closes_cons _) hn.symm
  rw [hbinops] at hrest
  exact hc (hy c (by rw [← (List.cons.inj hrest).2]; rfl))

/-- A literal begins otherwise than any other tree. -/
theorem print_lit_ne {value : BitVec 64} (hlit : ∀ value, a ≠ .lit value) :
    print (.lit value) ++ x ≠ print a ++ y := by
  obtain ⟨value', rfl⟩ | ⟨c, text, hprint, hdigit, hminus⟩ := exists_lit_or_lead a
  · exact absurd rfl (hlit value')
  · intro h
    rw [hprint, print, printLit, List.cons_append] at h
    rcases lt_or_ge value.toInt 0 with hneg | hpos
    · rw [signedNumeral_of_neg hneg, List.cons_append] at h
      exact hminus (List.cons.inj h).1.symm
    · rw [signedNumeral_of_nonneg hpos] at h
      exact numeral_append_ne_cons hdigit h

/-- NULL begins otherwise than any other tree. -/
theorem print_null_ne (hnull : a ≠ .null) : print .null ++ x ≠ print a ++ y := by
  cases a with
  | null => exact absurd rfl hnull
  | binop type left right =>
      rw [print_binop_append]
      exact fun h => absurd (List.cons.inj h).1 (by decide)
  | unop type operand =>
      rw [print_unop_append]
      exact fun h => absurd (List.cons.inj h).1 (by decide)
  | lit value => exact fun h => print_lit_ne (by simp) h.symm

/-! ## Reading back -/

/-- **A text in front of what may follow it** determines the tree, and what follows. -/
theorem print_append_inj (a b : AST) (x y : List Byte) (hx : Closes x) (hy : Closes y)
    (h : print a ++ x = print b ++ y) : a = b ∧ x = y := by
  induction a generalizing b x y with
  | null =>
      by_cases hnull : b = .null
      · subst hnull
        exact ⟨rfl, List.append_cancel_left h⟩
      · exact absurd h (print_null_ne hnull)
  | binop type left right ihleft ihright =>
      cases b with
      | null => exact absurd h.symm (print_null_ne (by simp))
      | binop type' left' right' =>
          rw [print_binop_append, print_binop_append] at h
          obtain ⟨hleft, hrest⟩ :=
            ihleft left' _ _ (closes_cons _) (closes_cons _) (List.cons.inj h).2
          obtain ⟨c, hc, -⟩ := exists_binops type
          obtain ⟨c', hc', -⟩ := exists_binops type'
          rw [hc, hc'] at hrest
          obtain ⟨hchar, hbehind⟩ := List.cons.inj (List.cons.inj hrest).2
          have htype : type = type' := binops_injective (by rw [hc, hc', hchar])
          obtain ⟨hright, hend⟩ :=
            ihright right' _ _ (closes_cons _) (closes_cons _) (List.cons.inj hbehind).2
          exact ⟨by rw [htype, hleft, hright], (List.cons.inj hend).2⟩
      | unop type' operand => exact absurd h (print_binop_ne_unop hy)
      | lit value => exact absurd h.symm (print_lit_ne (by simp))
  | unop type operand ih =>
      cases b with
      | null => exact absurd h.symm (print_null_ne (by simp))
      | binop type' left right => exact absurd h.symm (print_binop_ne_unop hx)
      | unop type' operand' =>
          cases type
          cases type'
          rw [print_unop_append, print_unop_append] at h
          obtain ⟨hoperand, hend⟩ := ih operand' _ _ (closes_cons _) (closes_cons _)
            (List.cons.inj (List.cons.inj h).2).2
          exact ⟨by rw [hoperand], (List.cons.inj hend).2⟩
      | lit value => exact absurd h.symm (print_lit_ne (by simp))
  | lit value =>
      by_cases hlit : ∃ value', b = .lit value'
      · obtain ⟨value', rfl⟩ := hlit
        rw [print, print, printLit, printLit] at h
        obtain ⟨hvalue, hend⟩ :=
          signedNumeral_append_inj hx.not_isDigit hy.not_isDigit h
        exact ⟨by rw [BitVec.toInt_inj.mp hvalue], hend⟩
      · rw [not_exists] at hlit
        exact absurd h (print_lit_ne hlit)

/-- **Printing is unambiguous.** -/
theorem print_injective : Function.Injective print := by
  intro a b h
  refine (print_append_inj a b [] [] closes_nil closes_nil ?_).1
  rw [h]

end LowLevel.Analysis
