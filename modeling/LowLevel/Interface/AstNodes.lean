import LowLevel.Program.AstHeap

/-!
# Trees that nodes stand for

A pointer stands for a tree when the nodes behind it are those of the tree; two pointers may share
nodes. A node is assigned to once, before anything points to it, so what a pointer stands for does
not change when others are made, and `print` prints it.
-/

set_option autoImplicit false

namespace LowLevel.Interface.Trees

open LowLevel.Library LowLevel.Library.ObjectHeap LowLevel.Program LowLevel.Program.AstHeap
open LowLevel.Program.AstPrinter (AST BinopType UnopType)

variable {h h' : Heap} {ptr a : ℕ} {tree : AST}

/-- The pointer stands for the tree. -/
def StandsFor (h : Heap) : ℕ → AST → Prop
  | ptr, .null => ptr = 0
  | ptr, .binop type left right => ptr ≠ 0 ∧ ∃ l r,
      h.objects ptr = some (some (.binop type l r)) ∧ StandsFor h l left ∧ StandsFor h r right
  | ptr, .unop type operand => ptr ≠ 0 ∧ ∃ o,
      h.objects ptr = some (some (.unop type o)) ∧ StandsFor h o operand
  | ptr, .lit value => ptr ≠ 0 ∧ h.objects ptr = some (some (.lit value))

/-- Nodes that are there stay as they are. -/
def Grows (h h' : Heap) : Prop := ∀ a x, h.objects a = some x → h'.objects a = some x

theorem StandsFor.mono (hstands : StandsFor h ptr tree) (hgrows : Grows h h') :
    StandsFor h' ptr tree := by
  induction tree generalizing ptr with
  | null => exact hstands
  | binop type left right ihleft ihright =>
      obtain ⟨hne, l, r, hnode, hleft, hright⟩ := hstands
      exact ⟨hne, l, r, hgrows _ _ hnode, ihleft hleft, ihright hright⟩
  | unop type operand ih =>
      obtain ⟨hne, o, hnode, hoperand⟩ := hstands
      exact ⟨hne, o, hgrows _ _ hnode, ih hoperand⟩
  | lit value => exact ⟨hstands.1, hgrows _ _ hstands.2⟩

theorem StandsFor.printed (hstands : StandsFor h ptr tree) (text : List Byte) :
    StandsFor (h.printed text) ptr tree := hstands.mono fun _ _ hnode => hnode

/-- **`newnode`** makes a node where there was none. -/
theorem run_newnode {answers : List ℕ} (hanswers : h.answers = a :: answers) (hne : a ≠ 0)
    (hfresh : h.objects a = none) (ast : Node) :
    (newnode ast).run h = .ok (a, { h.withObject a (some ast) with answers }) := by
  set h₁ : Heap := { h.withObject a none with answers } with hh₁
  have hnode : h₁.objects a = some none := objects_withObject_self (h := h)
  unfold newnode
  rw [run_bind_of_ok (run_malloc hanswers hne hfresh _), run_bind_of_ok (run_assign hnode _)]
  refine congrArg (fun objects => Except.ok (a, (⟨objects, answers, h.stdout⟩ : Heap))) ?_
  show Function.update (Function.update h.objects a _) a _ = _
  rw [Function.update_idem]
  rfl

theorem grows_withObject {answers : List ℕ} (hfresh : h.objects a = none) (x : Option Node) :
    Grows h { h.withObject a x with answers } := by
  intro b y hnode
  refine (objects_withObject_of_ne ?_).trans hnode
  rintro rfl
  rw [hfresh] at hnode
  cases hnode

/-- The first thing that `print` does with a pointer to a node. -/
theorem run_print_node {n : ℕ} {node : Node} (hne : ptr ≠ 0)
    (hnode : h.objects ptr = some (some node)) :
    (print (n + 1) ptr).run h =
      (match node with
      | .binop type left right => do
          printf [0x28]
          print n left
          printf [0x29]
          printf (AstPrinter.binops type)
          printf [0x28]
          print n right
          printf [0x29]
      | .unop type operand => do
          printf ([0x28] ++ AstPrinter.unops type)
          print n operand
          printf [0x29]
      | .lit value => printf (AstPrinter.printLit value) : Building Unit).run h := by
  rw [print, if_neg hne, run_bind_of_ok (run_deref hnode)]
  cases node <;> rfl

/-- **`print`** prints the tree. -/
theorem print_settles (hstands : StandsFor h ptr tree) :
    Settles (fun n => print n ptr) h () (h.printed (AstPrinter.print tree)) := by
  induction tree generalizing h ptr with
  | null =>
      obtain rfl : ptr = 0 := hstands
      refine .of_succ fun n => ?_
      rw [print, if_pos rfl, run_printf]
      rfl
  | lit value =>
      obtain ⟨hne, hnode⟩ := hstands
      refine .of_succ fun n => ?_
      rw [run_print_node hne hnode]
      rfl
  | unop type operand ih =>
      obtain ⟨hne, o, hnode, hoperand⟩ := hstands
      have hbody : Settles (fun n => (do
            printf ([0x28] ++ AstPrinter.unops type)
            print n o
            printf [0x29] : Building Unit))
          h () (h.printed (AstPrinter.print (.unop type operand))) := by
        refine .bind_run (run_printf _) (.bind (ih (hoperand.printed _)) (.of_run ?_))
        rw [run_printf, printed_printed, printed_printed, ← List.append_assoc]
        rfl
      exact hbody.step fun n => run_print_node hne hnode
  | binop type left right ihleft ihright =>
      obtain ⟨hne, l, r, hnode, hleft, hright⟩ := hstands
      have hbody : Settles (fun n => (do
            printf [0x28]
            print n l
            printf [0x29]
            printf (AstPrinter.binops type)
            printf [0x28]
            print n r
            printf [0x29] : Building Unit))
          h () (h.printed (AstPrinter.print (.binop type left right))) := by
        refine .bind_run (run_printf _) (.bind (ihleft (hleft.printed _)) ?_)
        refine .bind_run (run_printf _) (.bind_run (run_printf _) (.bind_run (run_printf _) ?_))
        simp only [printed_printed]
        refine .bind (ihright (hright.printed _)) (.of_run ?_)
        rw [run_printf, printed_printed, printed_printed]
        simp [AstPrinter.print, AstPrinter.printBinop]
      exact hbody.step fun n => run_print_node hne hnode

end LowLevel.Interface.Trees
