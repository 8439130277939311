import LowLevel.Library.Linked
import LowLevel.Program.LinkedLists

/-!
# The list programs, function by function

A node whose fields have been stored to is a cell; the heap of `list_T_push` is linked at its last
cell to the new one. What each function of the list programs does is put in the words of linked
cells.
-/

set_option autoImplicit false

namespace LowLevel.Interface.Lists

open LowLevel.Library LowLevel.Library.ObjectHeap LowLevel.Program.LinkedLists

variable {α : Type} {h : Heap α} {a b next ptr root : ℕ} {v val : α} {nd : Node α}
  {cs : List (ℕ × α)}

/-! ## Fields -/

/-- A node with both of its fields. -/
def cell (h : Heap α) (a : ℕ) : Option (α × ℕ) :=
  match h.objects a with
  | some ⟨some v, some next⟩ => some (v, next)
  | _ => none

/-- A cell is an initialised object. -/
theorem objects_of_cell (hcell : cell h a = some (v, next)) :
    h.objects a = some ⟨some v, some next⟩ := by
  unfold cell at hcell
  split at hcell
  · next v' next' hnode =>
      obtain ⟨rfl, rfl⟩ := Prod.mk.inj (Option.some.inj hcell)
      exact hnode
  · cases hcell

theorem cell_of_objects (hnode : h.objects a = some ⟨some v, some next⟩) :
    cell h a = some (v, next) := by
  unfold cell
  rw [hnode]

theorem cell_congr {h' : Heap α} (hsame : h'.objects a = h.objects a) : cell h' a = cell h a := by
  unfold cell
  rw [hsame]

/-- The cells of a list are not where there is no node. -/
theorem ne_of_fresh (hlinked : Linked (cell h) root cs) (hfresh : h.objects a = none) {p : ℕ × α}
    (hp : p ∈ cs) : p.1 ≠ a := by
  rintro rfl
  obtain ⟨-, next, hcell⟩ := LinkedTo.exists_cell hlinked hp
  rw [objects_of_cell hcell] at hfresh
  cases hfresh

theorem run_loadNext (hnode : h.objects a = some nd) (hnext : nd.next = some next) :
    (loadNext a).run h = .ok (next, h) := by
  unfold loadNext
  rw [run_bind_of_ok (run_deref hnode), hnext]
  rfl

theorem run_loadValue (hnode : h.objects a = some nd) (hvalue : nd.value = some v) :
    (loadValue a).run h = .ok (v, h) := by
  unfold loadValue
  rw [run_bind_of_ok (run_deref hnode), hvalue]
  rfl

theorem run_storeNext (hnode : h.objects a = some nd) (next : ℕ) :
    (storeNext a next).run h = .ok ((), h.withObject a { nd with next := some next }) := by
  unfold storeNext
  rw [run_bind_of_ok (run_deref hnode), run_assign hnode]

theorem run_storeValue (hnode : h.objects a = some nd) (val : α) :
    (storeValue a val).run h = .ok ((), h.withObject a { nd with value := some val }) := by
  unfold storeValue
  rw [run_bind_of_ok (run_deref hnode), run_assign hnode]

/-! ## seminar5/task3.c -/

/-- The walk ends at the last cell. -/
theorem toLast_settles (hlinked : Linked (cell h) root (cs ++ [(b, v)])) :
    Settles (fun n => toLast n root) h b h := by
  induction cs generalizing root with
  | nil =>
      obtain ⟨rfl, -, next, hcell, hend⟩ := hlinked
      obtain rfl : next = 0 := hend
      refine .of_succ fun n => ?_
      rw [toLast, run_bind_of_ok (run_loadNext (objects_of_cell hcell) rfl)]
      rfl
  | cons p cs ih =>
      obtain ⟨a, w⟩ := p
      obtain ⟨rfl, -, next, hcell, hrest⟩ := hlinked
      refine (ih hrest).step fun n => ?_
      have hne : next ≠ 0 := by
        rintro rfl
        cases cs with
        | nil => exact hrest.2.1 rfl
        | cons q cs => exact hrest.2.1 rfl
      rw [toLast, run_bind_of_ok (run_loadNext (objects_of_cell hcell) rfl), if_pos hne]

/-- The heap after a push behind `b`. -/
def pushed (h : Heap α) (b : ℕ) (v : α) (a : ℕ) (val : α) (answers : List ℕ) : Heap α :=
  { (h.withObject b ⟨some v, some a⟩).withObject a ⟨some val, some 0⟩ with answers }

/-- **`list_T_push`** links a new cell behind the last one. -/
theorem listPush_settles {answers : List ℕ} (hlinked : Linked (cell h) root (cs ++ [(b, v)]))
    (hanswers : h.answers = a :: answers) (hne : a ≠ 0) (hfresh : h.objects a = none) (val : α) :
    Settles (fun n => listPush n root val) h () (pushed h b v a val answers) := by
  obtain ⟨-, next, hcell⟩ := LinkedTo.exists_cell hlinked (p := (b, v)) (by simp)
  have hnode := objects_of_cell hcell
  have hapart : a ≠ b := (ne_of_fresh hlinked hfresh (p := (b, v)) (by simp)).symm
  refine Settles.bind (toLast_settles hlinked) (Settles.of_run ?_)
  -- the new node has no fields yet
  set h₁ : Heap α := { h.withObject a .created with answers } with hh₁
  have hb₁ : h₁.objects b = some ⟨some v, some next⟩ :=
    (objects_withObject_of_ne hapart.symm).trans hnode
  rw [createNode, run_bind_of_ok (run_malloc hanswers hne hfresh _),
    run_bind_of_ok (run_storeNext hb₁ a)]
  set h₂ := h₁.withObject b ⟨some v, some a⟩ with hh₂
  have hb₂ : h₂.objects b = some ⟨some v, some a⟩ := objects_withObject_self
  have ha₂ : h₂.objects a = some ⟨none, none⟩ :=
    (objects_withObject_of_ne hapart).trans (objects_withObject_self (h := h))
  rw [run_bind_of_ok (run_loadNext hb₂ rfl), run_bind_of_ok (run_storeValue ha₂ val)]
  set h₃ := h₂.withObject a ⟨some val, none⟩ with hh₃
  have hb₃ : h₃.objects b = some ⟨some v, some a⟩ :=
    (objects_withObject_of_ne hapart.symm).trans hb₂
  have ha₃ : h₃.objects a = some ⟨some val, none⟩ := objects_withObject_self
  rw [run_bind_of_ok (run_loadNext hb₃ rfl), run_storeNext ha₃ 0]
  refine congrArg (fun objects => Except.ok ((), (⟨objects, answers, h.stdout⟩ : Heap α))) ?_
  show Function.update (Function.update (Function.update (Function.update h.objects a _) b _) a _)
    a _ = _
  rw [Function.update_idem, Function.update_comm hapart, Function.update_idem]
  rfl

/-- The new node is the last one. -/
theorem cell_pushed_new {answers : List ℕ} :
    cell (pushed h b v a val answers) a = some (val, 0) :=
  cell_of_objects (objects_withObject_self (h := h.withObject b ⟨some v, some a⟩))

/-- The former last node points to it. -/
theorem cell_pushed_last {answers : List ℕ} (hapart : a ≠ b) :
    cell (pushed h b v a val answers) b = some (v, a) := by
  refine cell_of_objects ?_
  exact (objects_withObject_of_ne hapart.symm).trans (objects_withObject_self (h := h))

theorem objects_pushed_of_ne {answers : List ℕ} {x : ℕ} (ha : x ≠ a) (hb : x ≠ b) :
    (pushed h b v a val answers).objects x = h.objects x :=
  (objects_withObject_of_ne ha).trans (objects_withObject_of_ne hb)

/-- The list that was pushed to. -/
theorem linked_pushed {answers : List ℕ} (hlinked : Linked (cell h) root (cs ++ [(b, v)]))
    (hne : a ≠ 0) (hfresh : h.objects a = none) :
    Linked (cell (pushed h b v a val answers)) root (cs ++ [(b, v), (a, val)]) := by
  have hstored : ∀ p ∈ cs ++ [(b, v)], p.1 ≠ a := fun p hp => ne_of_fresh hlinked hfresh hp
  refine hlinked.relink (cell_pushed_last (hstored (b, v) (by simp)).symm) (fun p hp => ?_)
    ⟨rfl, hne, 0, cell_pushed_new, rfl⟩
  -- no earlier cell is the last one
  have hapart := hlinked.nodup
  rw [List.map_append, List.map_singleton, List.nodup_append] at hapart
  exact cell_congr (objects_pushed_of_ne (hstored p (List.mem_append_left _ hp))
    (hapart.2.2 p.1 (List.mem_map_of_mem hp) b List.mem_cons_self))

/-- The rest of the heap. -/
theorem linked_pushed_of_apart {answers : List ℕ} {root' : ℕ} {ds : List (ℕ × α)}
    (hlinked : Linked (cell h) root' ds) (hfresh : h.objects a = none)
    (hb : ∀ p ∈ ds, p.1 ≠ b) : Linked (cell (pushed h b v a val answers)) root' ds := by
  exact hlinked.congr fun p hp =>
    cell_congr (objects_pushed_of_ne (ne_of_fresh hlinked hfresh hp) (hb p hp))

/-- **`list_T_print`** prints the values from the first to the last. -/
theorem listPrint_settles (print : α → List Byte) (hlinked : Linked (cell h) root cs) :
    Settles (fun n => listPrint print n root) h ()
      (h.printed ((cs.map Prod.snd).flatMap print)) := by
  induction cs generalizing h root with
  | nil =>
      obtain rfl : root = 0 := hlinked
      refine .of_succ fun n => ?_
      rw [listPrint, if_pos rfl, List.map_nil, List.flatMap_nil, printed_nil]
      rfl
  | cons p cs ih =>
      obtain ⟨a, w⟩ := p
      obtain ⟨rfl, hne, next, hcell, hrest⟩ := hlinked
      have hsettles := ih (h := h.printed (print w)) (hrest.congr fun p _ => rfl)
      rw [printed_printed] at hsettles
      refine hsettles.step fun n => ?_
      have hnode := objects_of_cell hcell
      rw [listPrint, if_neg hne, run_bind_of_ok (run_loadValue hnode rfl),
        run_bind_of_ok (run_printf _),
        run_bind_of_ok (run_loadNext (h := h.printed (print w)) hnode rfl)]

/-! ## seminar7/tail-rec.c -/

/-- **`c`** puts a cell before a list. -/
theorem run_c {answers : List ℕ} {head : α} {tail : ℕ} (hanswers : h.answers = a :: answers)
    (hne : a ≠ 0) (hfresh : h.objects a = none) :
    (c head tail).run h = .ok (a, { h.withObject a ⟨some head, some tail⟩ with answers }) := by
  set h₁ : Heap α := { h.withObject a .created with answers } with hh₁
  have ha₁ : h₁.objects a = some ⟨none, none⟩ := objects_withObject_self (h := h)
  unfold c
  rw [run_bind_of_ok (run_malloc hanswers hne hfresh _), run_bind_of_ok (run_storeValue ha₁ head)]
  set h₂ := h₁.withObject a ⟨some head, none⟩ with hh₂
  have ha₂ : h₂.objects a = some ⟨some head, none⟩ := objects_withObject_self
  rw [run_bind_of_ok (run_storeNext ha₂ tail)]
  refine congrArg (fun objects => Except.ok (a, (⟨objects, answers, h.stdout⟩ : Heap α))) ?_
  show Function.update (Function.update (Function.update h.objects a _) a _) a _ = _
  rw [Function.update_idem, Function.update_idem]
  rfl

/-- **`list_length`** counts the cells, when the stack has room for a call each and one more. -/
theorem run_listLength (hlinked : Linked (cell h) root cs) (frames : ℕ) :
    (listLength frames root).run h =
      if cs.length < frames then .ok (cs.length % 2 ^ 64, h) else .error .stackOverflow := by
  induction cs generalizing root frames with
  | nil =>
      obtain rfl : root = 0 := hlinked
      cases frames with
      | zero => rfl
      | succ frames =>
          have hroom : ([] : List (ℕ × α)).length < frames + 1 := Nat.succ_pos frames
          rw [if_pos hroom, listLength, if_pos rfl]
          rfl
  | cons p cs ih =>
      obtain ⟨a, w⟩ := p
      obtain ⟨rfl, hne, next, hcell, hrest⟩ := hlinked
      cases frames with
      | zero => rfl
      | succ frames =>
          rw [listLength, if_neg hne, run_bind_of_ok (run_loadNext (objects_of_cell hcell) rfl)]
          have hcount := ih hrest frames
          by_cases hroom : cs.length < frames
          · rw [if_pos hroom] at hcount
            rw [run_bind_of_ok hcount, if_pos (by simpa using hroom)]
            refine congrArg (fun n => Except.ok (n, h)) ?_
            rw [List.length_cons, Nat.add_mod_mod, Nat.add_comm]
          · rw [if_neg hroom] at hcount
            rw [run_bind_of_error hcount, if_neg (by simpa using hroom)]

end LowLevel.Interface.Lists
