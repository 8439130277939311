import LowLevel.Library.Fuel
import LowLevel.Library.LittleEndian
import Mathlib.Data.List.Nodup
import Mathlib.Logic.Function.Basic

/-!
# Heaps of objects

A heap of objects of one type, at addresses that `malloc` answers with; 0 is the null pointer. The
answers are an input: an address that is 0 or holds an object already stands for a call that fails.
What a program prints is kept with the heap. The rules say what each access does where there is an
object, and that what is not assigned to stays as it is (`objects_withObject_of_ne`).
-/

set_option autoImplicit false

namespace LowLevel.Library

/-- Why a run stops without returning. -/
inductive HeapFault where
  | segv
  | indeterminate
  | stackOverflow
  | outOfFuel
  deriving DecidableEq, Repr

/-- The objects by their addresses, the answers that `malloc` has left to give, and the output. -/
structure ObjectHeap (β : Type) where
  objects : ℕ → Option β
  answers : List ℕ
  stdout : List Byte

/-- A function of a program with such a heap. -/
abbrev HeapRun (β γ : Type) := StateT (ObjectHeap β) (Except HeapFault) γ

namespace ObjectHeap

variable {β γ : Type} {h : ObjectHeap β} {a b n : ℕ} {x : β}

/-- The heap with an object in the place of another. -/
def withObject (h : ObjectHeap β) (a : ℕ) (x : β) : ObjectHeap β :=
  { h with objects := Function.update h.objects a (some x) }

/-- The heap with more printed. -/
def printed (h : ObjectHeap β) (text : List Byte) : ObjectHeap β :=
  { h with stdout := h.stdout ++ text }

/-- `malloc`, with what the object is before it is assigned to. -/
def malloc (x : β) : HeapRun β ℕ := fun h =>
  match h.answers with
  | [] => .ok (0, h)
  | a :: answers =>
      if a ≠ 0 ∧ (h.objects a).isNone then .ok (a, { h.withObject a x with answers })
      else .ok (0, { h with answers })

/-- `*ptr`. -/
def deref (ptr : ℕ) : HeapRun β β := fun h =>
  match h.objects ptr with
  | some x => .ok (x, h)
  | none => .error .segv

/-- `*ptr = x`. -/
def assign (ptr : ℕ) (x : β) : HeapRun β Unit := fun h =>
  match h.objects ptr with
  | some _ => .ok ((), h.withObject ptr x)
  | none => .error .segv

/-- The value of what has one. -/
def determinate (content : Option γ) : HeapRun β γ :=
  match content with
  | some y => return y
  | none => throw .indeterminate

def printf (text : List Byte) : HeapRun β Unit := modify fun h => h.printed text

/-- The heap that a process starts with. -/
def empty (β : Type) (answers : List ℕ) : ObjectHeap β := ⟨fun _ => none, answers, []⟩

/-! ## Accesses -/

@[simp] theorem objects_withObject_self : (h.withObject a x).objects a = some x :=
  Function.update_self ..

@[simp] theorem objects_withObject_of_ne (hne : b ≠ a) :
    (h.withObject a x).objects b = h.objects b := Function.update_of_ne hne ..

@[simp] theorem printed_nil : h.printed [] = h := by
  unfold printed
  rw [List.append_nil]

@[simp] theorem printed_printed (text text' : List Byte) :
    (h.printed text).printed text' = h.printed (text ++ text') := by
  unfold printed
  rw [List.append_assoc]

theorem run_printf (text : List Byte) :
    (printf text : HeapRun β Unit).run h = .ok ((), h.printed text) := rfl

theorem run_deref (hobject : h.objects a = some x) : (deref a).run h = .ok (x, h) := by
  show deref a h = _
  unfold deref
  rw [hobject]

theorem run_assign (hobject : h.objects a = some x) (y : β) :
    (assign a y).run h = .ok ((), h.withObject a y) := by
  show assign a y h = _
  unfold assign
  rw [hobject]

/-- Dereferencing anything else. -/
theorem run_deref_of_none (hobject : h.objects a = none) :
    (deref a : HeapRun β β).run h = .error .segv := by
  show deref a h = _
  unfold deref
  rw [hobject]

/-- An allocation that is granted at a free address. -/
theorem run_malloc {answers : List ℕ} (hanswers : h.answers = a :: answers) (hne : a ≠ 0)
    (hfresh : h.objects a = none) (x : β) :
    (malloc x).run h = .ok (a, { h.withObject a x with answers }) := by
  show malloc x h = _
  unfold malloc
  rw [hanswers]
  dsimp only
  rw [if_pos ⟨hne, by rw [hfresh]; rfl⟩]

theorem run_malloc_of_nil (hanswers : h.answers = []) (x : β) :
    (malloc x).run h = .ok (0, h) := by
  show malloc x h = _
  unfold malloc
  rw [hanswers]

/-- The answer is no address for a new object. -/
theorem run_malloc_of_refused {answers : List ℕ} (hanswers : h.answers = a :: answers)
    (hrefused : ¬ (a ≠ 0 ∧ h.objects a = none)) (x : β) :
    (malloc x).run h = .ok (0, { h with answers }) := by
  rw [← Option.isNone_iff_eq_none] at hrefused
  show malloc x h = _
  unfold malloc
  rw [hanswers]
  dsimp only
  rw [if_neg hrefused]

/-! ## Memory for what is to come -/

/-- `malloc` has `n` more addresses, at which there are no objects. -/
def Provides (h : ObjectHeap β) (n : ℕ) : Prop :=
  ∃ fresh rest, h.answers = fresh ++ rest ∧ fresh.length = n ∧ fresh.Nodup ∧
    ∀ a ∈ fresh, a ≠ 0 ∧ h.objects a = none

/-- The next address, and what is left for the calls to come when no object is made elsewhere. -/
theorem Provides.next (hprovides : h.Provides (n + 1)) :
    ∃ a answers, h.answers = a :: answers ∧ a ≠ 0 ∧ h.objects a = none ∧
      ∀ h' : ObjectHeap β, h'.answers = answers →
        (∀ b, h.objects b = none → b ≠ a → h'.objects b = none) → h'.Provides n := by
  obtain ⟨fresh, rest, hanswers, hlength, hnodup, hfresh⟩ := hprovides
  cases fresh with
  | nil => exact absurd hlength (Nat.succ_ne_zero n).symm
  | cons a fresh =>
      obtain ⟨hnotin, hnodup⟩ := List.nodup_cons.mp hnodup
      obtain ⟨hne, hnone⟩ := hfresh a List.mem_cons_self
      refine ⟨a, fresh ++ rest, hanswers, hne, hnone, fun h' hanswers' hold => ?_⟩
      refine ⟨fresh, rest, hanswers', by simpa using hlength, hnodup, fun b hb => ?_⟩
      obtain ⟨hzero, hfree⟩ := hfresh b (List.mem_cons_of_mem _ hb)
      refine ⟨hzero, hold b hfree ?_⟩
      rintro rfl
      exact hnotin hb

theorem Provides.congr {h' : ObjectHeap β} (hprovides : h.Provides n)
    (hanswers : h'.answers = h.answers) (hobjects : h'.objects = h.objects) : h'.Provides n := by
  unfold Provides
  rw [hanswers, hobjects]
  exact hprovides

end ObjectHeap

end LowLevel.Library
