import LowLevel.Interface.AstNodes
import Mathlib.Data.List.Forall2

/-!
# Expressions that are built in memory

A program calls the constructors of `seminar5/task4.c` in any order, with operands that it got from
earlier calls or that are null, and may use one of them in many places. Every pointer stands for the
tree that its call describes from then on, and `print` prints that tree whenever it is called.
-/

set_option autoImplicit false

namespace LowLevel.Analysis

open LowLevel.Library LowLevel.Library.ObjectHeap LowLevel.Interface.Trees LowLevel.Program
open LowLevel.Program.AstPrinter (AST BinopType UnopType)
open LowLevel.Program.AstHeap (Heap Building)

/-- A call of a constructor or of `print`. An operand is the result of an earlier call of a
constructor, by its number, or the null pointer. -/
inductive BuildCall where
  | lit (value : BitVec 64)
  | unop (type : UnopType) (operand : Option ℕ)
  | binop (type : BinopType) (left right : Option ℕ)
  | print (operand : Option ℕ)

/-- The pointer that is an operand, of those that were returned. -/
def pointerAt (ptrs : List ℕ) (operand : Option ℕ) : ℕ :=
  (operand.bind fun k => ptrs[k]?).getD 0

/-- The tree that is an operand, of those that were described. -/
def treeAt (trees : List AST) (operand : Option ℕ) : AST :=
  (operand.bind fun k => trees[k]?).getD .null

namespace BuildCall

/-- The call, and the pointers that the program has afterwards. -/
def perform (fuel : ℕ) (ptrs : List ℕ) : BuildCall → Building (List ℕ)
  | lit value => return ptrs ++ [← AstHeap.lit value]
  | unop type operand => return ptrs ++ [← AstHeap.unop type (pointerAt ptrs operand)]
  | binop type left right =>
      return ptrs ++ [← AstHeap.binop type (pointerAt ptrs left) (pointerAt ptrs right)]
  | .print operand => do
      AstHeap.print fuel (pointerAt ptrs operand)
      return ptrs

/-- The trees that the program has described afterwards. -/
def after (trees : List AST) : BuildCall → List AST
  | lit value => trees ++ [.lit value]
  | unop type operand => trees ++ [.unop type (treeAt trees operand)]
  | binop type left right => trees ++ [.binop type (treeAt trees left) (treeAt trees right)]
  | .print _ => trees

def output (trees : List AST) : BuildCall → List Byte
  | .print operand => AstPrinter.print (treeAt trees operand)
  | _ => []

/-- How many nodes the call makes. -/
def nodes : BuildCall → ℕ
  | .print _ => 0
  | _ => 1

end BuildCall

/-- The calls, one after the other. -/
def buildAll (fuel : ℕ) : List BuildCall → List ℕ → Building (List ℕ)
  | [], ptrs => return ptrs
  | call :: calls, ptrs => do buildAll fuel calls (← call.perform fuel ptrs)

/-- What the calls print. -/
def builtOutput : List BuildCall → List AST → List Byte
  | [], _ => []
  | call :: calls, trees => call.output trees ++ builtOutput calls (call.after trees)

variable {h : Heap} {ptrs : List ℕ} {trees : List AST} {n : ℕ}

/-- Operands stand for operands. -/
theorem standsFor_operand (hstand : List.Forall₂ (StandsFor h) ptrs trees) (operand : Option ℕ) :
    StandsFor h (pointerAt ptrs operand) (treeAt trees operand) := by
  cases operand with
  | none => rfl
  | some k =>
      unfold pointerAt treeAt
      rw [Option.bind_some, Option.bind_some]
      induction hstand generalizing k with
      | nil => rfl
      | cons hhead _ ih =>
          cases k with
          | zero => exact hhead
          | succ k => exact ih k

/-- **A new node** stands for what it was made of, and the other pointers stand for what they
did. -/
theorem newnode_stands (hstand : List.Forall₂ (StandsFor h) ptrs trees)
    (hprovides : h.Provides (n + 1)) (ast : AstHeap.Node) {tree : AST}
    (hnew : ∀ h' a, Grows h h' → a ≠ 0 → h'.objects a = some (some ast) → StandsFor h' a tree) :
    ∃ a h', (AstHeap.newnode ast).run h = .ok (a, h') ∧
      List.Forall₂ (StandsFor h') (ptrs ++ [a]) (trees ++ [tree]) ∧ Grows h h' ∧
      h'.Provides n ∧ h'.stdout = h.stdout := by
  obtain ⟨a, answers, hanswers, hne, hfresh, hnext⟩ := hprovides.next
  have hgrows : Grows h { h.withObject a (some ast) with answers } := grows_withObject hfresh _
  refine ⟨a, _, run_newnode hanswers hne hfresh ast, ?_, hgrows, hnext _ rfl ?_, rfl⟩
  · refine List.rel_append (hstand.imp fun _ _ hstands => hstands.mono hgrows) (.cons ?_ .nil)
    exact hnew _ a hgrows hne (objects_withObject_self (h := h))
  · intro b hnone hb
    exact (objects_withObject_of_ne hb).trans hnone

/-- A constructor, with the pointer that it returns. -/
theorem construct_stands (hstand : List.Forall₂ (StandsFor h) ptrs trees)
    (hprovides : h.Provides (1 + n)) (ast : AstHeap.Node) {tree : AST}
    (hnew : ∀ h' a, Grows h h' → a ≠ 0 → h'.objects a = some (some ast) → StandsFor h' a tree) :
    ∃ h' ptrs', Settles (fun _ => (return ptrs ++ [← AstHeap.newnode ast] : Building (List ℕ)))
        h ptrs' h' ∧
      List.Forall₂ (StandsFor h') ptrs' (trees ++ [tree]) ∧ Grows h h' ∧ h'.Provides n ∧
      h'.stdout = h.stdout ++ [] := by
  rw [Nat.add_comm] at hprovides
  obtain ⟨a, h', hrun, hstand', hgrows, hprovides', hstdout⟩ :=
    newnode_stands hstand hprovides ast hnew
  refine ⟨h', ptrs ++ [a], .of_run ?_, hstand', hgrows, hprovides', ?_⟩
  · rw [run_bind_of_ok hrun]
    rfl
  · rw [hstdout, List.append_nil]

/-- **A call** does with the nodes what it does with the trees. -/
theorem perform_stands (hstand : List.Forall₂ (StandsFor h) ptrs trees) (call : BuildCall)
    (hprovides : h.Provides (call.nodes + n)) :
    ∃ h' ptrs', Settles (fun fuel => call.perform fuel ptrs) h ptrs' h' ∧
      List.Forall₂ (StandsFor h') ptrs' (call.after trees) ∧ Grows h h' ∧ h'.Provides n ∧
      h'.stdout = h.stdout ++ call.output trees := by
  cases call with
  | lit value =>
      exact construct_stands hstand hprovides (.lit value) fun _ _ _ hne hnode => ⟨hne, hnode⟩
  | unop type operand =>
      exact construct_stands hstand hprovides _ fun _ _ hgrows hne hnode =>
        ⟨hne, _, hnode, (standsFor_operand hstand operand).mono hgrows⟩
  | binop type left right =>
      exact construct_stands hstand hprovides _ fun _ _ hgrows hne hnode =>
        ⟨hne, _, _, hnode, (standsFor_operand hstand left).mono hgrows,
          (standsFor_operand hstand right).mono hgrows⟩
  | print operand =>
      have hprinted := print_settles (standsFor_operand hstand operand)
      refine ⟨_, ptrs, hprinted.bind (.of_run rfl), hstand.imp fun _ _ hstands =>
        hstands.printed _, fun _ _ hnode => hnode, ?_, rfl⟩
      rw [BuildCall.nodes, Nat.zero_add] at hprovides
      exact hprovides.congr rfl rfl

/-- **Expressions in memory** are the trees they describe: with enough memory, any calls of the
constructors and of `print` come to their end, every pointer that was returned stands for its tree,
every `print` has printed the tree of its operand, and no node was changed after it was made. -/
theorem built_expressions_print (calls : List BuildCall)
    (hstand : List.Forall₂ (StandsFor h) ptrs trees)
    (hprovides : h.Provides (calls.map BuildCall.nodes).sum) :
    ∃ h' ptrs', Settles (fun fuel => buildAll fuel calls ptrs) h ptrs' h' ∧
      List.Forall₂ (StandsFor h') ptrs' (calls.foldl BuildCall.after trees) ∧ Grows h h' ∧
      h'.stdout = h.stdout ++ builtOutput calls trees := by
  induction calls generalizing h ptrs trees with
  | nil =>
      exact ⟨h, ptrs, .of_run rfl, hstand, fun _ _ hnode => hnode, (List.append_nil _).symm⟩
  | cons call calls ih =>
      rw [List.map_cons, List.sum_cons] at hprovides
      obtain ⟨h₁, ptrs₁, hsettles, hstand₁, hgrows, hprovides₁, hstdout⟩ :=
        perform_stands hstand call hprovides
      obtain ⟨h', ptrs', hsettles', hstand', hgrows', hstdout'⟩ := ih hstand₁ hprovides₁
      refine ⟨h', ptrs', hsettles.bind hsettles', hstand',
        fun a x hnode => hgrows' a x (hgrows a x hnode), ?_⟩
      rw [hstdout', hstdout, List.append_assoc, builtOutput]

/-- The negation of a sum of which both operands are one node: `(-(2)+(2))`. -/
theorem built_expressions_print_shared : ∃ h' ptrs',
    Settles (fun fuel => buildAll fuel [.lit 2, .binop .plus (some 0) (some 0),
        .unop .neg (some 1), .print (some 2)] [])
      (empty (Option AstHeap.Node) [8, 16, 24]) ptrs' h' ∧
    h'.stdout = [0x28, 0x2d] ++ ([0x28] ++ numeral 2 ++ [0x29] ++ [0x2b] ++ [0x28] ++ numeral 2 ++
      [0x29]) ++ [0x29] := by
  obtain ⟨h', ptrs', hsettles, -, -, hstdout⟩ := built_expressions_print
    [.lit 2, .binop .plus (some 0) (some 0), .unop .neg (some 1), .print (some 2)]
    (h := empty (Option AstHeap.Node) [8, 16, 24]) .nil
    ⟨[8, 16, 24], [], rfl, rfl, by decide, fun a ha => ⟨by rintro rfl; simp at ha, rfl⟩⟩
  exact ⟨h', ptrs', hsettles, hstdout.trans rfl⟩

end LowLevel.Analysis
