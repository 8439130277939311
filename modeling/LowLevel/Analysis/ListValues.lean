import LowLevel.Interface.ListNodes

/-!
# Lists keep their values

The lists of `seminar5/task3.c` share one heap. Whatever is pushed to which of them, and in
whatever order, each prints the values it was given, the oldest first; the nodes of one are never
those of another. `main` of `seminar7/tail-rec.c` counts a list by a call for each node, so it
prints the length exactly when the stack has room for them.
-/

set_option autoImplicit false

namespace LowLevel.Analysis

open LowLevel.Library LowLevel.Library.ObjectHeap LowLevel.Interface.Lists
open LowLevel.Program.LinkedLists

variable {α : Type} {h h' : Heap α} {roots : List ℕ} {lists : ℕ → List α} {a root : ℕ} {val : α}

/-! ## What lists are for -/

/-- A call on the list at `root`. -/
inductive ListCall (α : Type) where
  | push (root : ℕ) (val : α)
  | print (root : ℕ)

namespace ListCall

def list : ListCall α → ℕ
  | push root _ => root
  | print root => root

def perform (print : α → List Byte) (fuel : ℕ) : ListCall α → Listing α Unit
  | push root val => listPush fuel root val
  | .print root => listPrint print fuel root

/-- The values of the lists after the call. -/
def after (lists : ℕ → List α) : ListCall α → ℕ → List α
  | push root val => Function.update lists root (lists root ++ [val])
  | print _ => lists

/-- What the call prints. -/
def output (print : α → List Byte) (lists : ℕ → List α) : ListCall α → List Byte
  | push _ _ => []
  | .print root => (lists root).flatMap print

/-- How many nodes the call needs. -/
def nodes : ListCall α → ℕ
  | push _ _ => 1
  | print _ => 0

end ListCall

/-- The calls, one after the other. -/
def performAll (print : α → List Byte) (fuel : ℕ) : List (ListCall α) → Listing α Unit
  | [] => return ()
  | call :: calls => do
      call.perform print fuel
      performAll print fuel calls

/-- The values of the lists after the calls. -/
def afterAll (lists : ℕ → List α) (calls : List (ListCall α)) : ℕ → List α :=
  calls.foldl ListCall.after lists

/-- What the calls print. -/
def outputAll (print : α → List Byte) : (ℕ → List α) → List (ListCall α) → List Byte
  | _, [] => []
  | lists, call :: calls => call.output print lists ++ outputAll print (call.after lists) calls

/-! ## One call -/

/-- The heap holds these lists, in nodes of their own. -/
structure StoresLists (h : Heap α) (roots : List ℕ) (lists : ℕ → List α)
    (cells : ℕ → List (ℕ × α)) : Prop where
  linked : ∀ root ∈ roots, Linked (cell h) root (cells root)
  ne_nil : ∀ root ∈ roots, cells root ≠ []
  values : ∀ root ∈ roots, (cells root).map Prod.snd = lists root
  apart : ∀ root ∈ roots, ∀ root' ∈ roots, root ≠ root' →
    ∀ p ∈ cells root, ∀ q ∈ cells root', p.1 ≠ q.1

variable {cells : ℕ → List (ℕ × α)} {n : ℕ}

/-- A cell of the lists when one has grown at its end. -/
theorem mem_grown {c : ℕ × α} {root' : ℕ} {p : ℕ × α}
    (hp : p ∈ Function.update cells root (cells root ++ [c]) root') :
    p ∈ cells root' ∨ root' = root ∧ p = c := by
  by_cases heq : root' = root
  · subst heq
    rw [Function.update_self, List.mem_append, List.mem_singleton] at hp
    exact hp.imp_right fun hc => ⟨rfl, hc⟩
  · rw [Function.update_of_ne heq] at hp
    exact .inl hp

/-- **One list grows** by a node of its own. -/
theorem StoresLists.grow (hstores : StoresLists h roots lists cells) (hroot : root ∈ roots)
    (hlinked : Linked (cell h') root (cells root ++ [(a, val)]))
    (hother : ∀ root' ∈ roots, root' ≠ root → Linked (cell h') root' (cells root'))
    (hnew : ∀ root' ∈ roots, ∀ p ∈ cells root', p.1 ≠ a) :
    StoresLists h' roots (Function.update lists root (lists root ++ [val]))
      (Function.update cells root (cells root ++ [(a, val)])) where
  linked root' hroot' := by
    by_cases heq : root' = root
    · subst heq
      rw [Function.update_self]
      exact hlinked
    · rw [Function.update_of_ne heq]
      exact hother root' hroot' heq
  ne_nil root' hroot' := by
    by_cases heq : root' = root
    · subst heq
      rw [Function.update_self]
      exact List.append_ne_nil_of_right_ne_nil _ (List.cons_ne_nil _ _)
    · rw [Function.update_of_ne heq]
      exact hstores.ne_nil root' hroot'
  values root' hroot' := by
    by_cases heq : root' = root
    · subst heq
      rw [Function.update_self, Function.update_self, List.map_append,
        hstores.values root' hroot', List.map_singleton]
    · rw [Function.update_of_ne heq, Function.update_of_ne heq]
      exact hstores.values root' hroot'
  apart root₁ hroot₁ root₂ hroot₂ hroots p hp q hq := by
    rcases mem_grown hp with hold | ⟨rfl, rfl⟩
    · rcases mem_grown hq with hold' | ⟨rfl, rfl⟩
      · exact hstores.apart root₁ hroot₁ root₂ hroot₂ hroots p hold q hold'
      · exact hnew root₁ hroot₁ p hold
    · rcases mem_grown hq with hold' | ⟨rfl, -⟩
      · exact (hnew root₂ hroot₂ q hold').symm
      · exact absurd rfl hroots

/-- **A push** puts the value at the end of its list, and leaves the others alone. -/
theorem storesLists_push (hstores : StoresLists h roots lists cells) (hroot : root ∈ roots)
    (hprovides : h.Provides (n + 1)) (val : α) :
    ∃ h' cells', Settles (fun fuel => listPush fuel root val) h () h' ∧
      StoresLists h' roots (Function.update lists root (lists root ++ [val])) cells' ∧
      h'.Provides n ∧ h'.stdout = h.stdout := by
  obtain ⟨a, answers, hanswers, hne, hfresh, hnext⟩ := hprovides.next
  obtain ⟨cs, ⟨b, v⟩, hcells⟩ : ∃ cs p, cells root = cs ++ [p] :=
    ⟨_, _, (List.dropLast_concat_getLast (hstores.ne_nil root hroot)).symm⟩
  have hlinked := hstores.linked root hroot
  rw [hcells] at hlinked
  have hgrown : StoresLists (pushed h b v a val answers) roots
      (Function.update lists root (lists root ++ [val]))
      (Function.update cells root (cells root ++ [(a, val)])) := by
    refine hstores.grow hroot ?_ (fun root' hroot' hne' => ?_)
      fun root' hroot' p hp => ne_of_fresh (hstores.linked root' hroot') hfresh hp
    · rw [hcells, List.append_assoc]
      exact linked_pushed hlinked hne hfresh
    · exact linked_pushed_of_apart (hstores.linked root' hroot') hfresh fun p hp =>
        hstores.apart root' hroot' root hroot hne' p hp (b, v) (by simp [hcells])
  refine ⟨_, _, listPush_settles hlinked hanswers hne hfresh val, hgrown,
    hnext _ rfl fun x hnone hx => ?_, rfl⟩
  have hlast : x ≠ b := (ne_of_fresh hlinked hnone (p := (b, v)) (by simp)).symm
  exact (objects_pushed_of_ne hx hlast).trans hnone

/-- **A call** does to the heap what it does to the values. -/
theorem storesLists_perform (print : α → List Byte) (hstores : StoresLists h roots lists cells)
    {call : ListCall α} (hroot : call.list ∈ roots) (hprovides : h.Provides (call.nodes + n)) :
    ∃ h' cells', Settles (fun fuel => call.perform print fuel) h () h' ∧
      StoresLists h' roots (call.after lists) cells' ∧ h'.Provides n ∧
      h'.stdout = h.stdout ++ call.output print lists := by
  cases call with
  | push root val =>
      obtain ⟨h', cells', hsettles, hstores', hprovides', hstdout⟩ :=
        storesLists_push (n := n) hstores hroot (by rwa [Nat.add_comm]) val
      exact ⟨h', cells', hsettles, hstores', hprovides', by rw [hstdout]; simp [ListCall.output]⟩
  | print root =>
      have hsettles := listPrint_settles print (hstores.linked root hroot)
      rw [hstores.values root hroot] at hsettles
      refine ⟨_, cells, hsettles, ⟨?_, hstores.ne_nil, hstores.values, hstores.apart⟩, ?_, rfl⟩
      · exact fun root hroot => (hstores.linked root hroot).congr fun _ _ => rfl
      · rw [ListCall.nodes, Nat.zero_add] at hprovides
        exact hprovides

/-- **Lists keep their values**: in a heap of lists, with enough memory, any calls in any order come
to their end, and print and leave behind what they would with lists that are just values. -/
theorem lists_keep_their_values (print : α → List Byte) (hstores : StoresLists h roots lists cells)
    (calls : List (ListCall α)) (hroots : ∀ call ∈ calls, call.list ∈ roots)
    (hprovides : h.Provides (calls.map ListCall.nodes).sum) :
    ∃ h' cells', Settles (fun fuel => performAll print fuel calls) h () h' ∧
      StoresLists h' roots (afterAll lists calls) cells' ∧
      h'.stdout = h.stdout ++ outputAll print lists calls := by
  induction calls generalizing h lists cells with
  | nil => exact ⟨h, cells, .of_run rfl, hstores, (List.append_nil _).symm⟩
  | cons call calls ih =>
      rw [List.map_cons, List.sum_cons] at hprovides
      obtain ⟨h₁, cells₁, hsettles, hstores₁, hprovides₁, hstdout⟩ :=
        storesLists_perform print hstores (hroots call List.mem_cons_self) hprovides
      obtain ⟨h', cells', hsettles', hstores', hstdout'⟩ :=
        ih hstores₁ (fun c hc => hroots c (List.mem_cons_of_mem _ hc)) hprovides₁
      refine ⟨h', cells', hsettles.bind hsettles', hstores', ?_⟩
      rw [hstdout', hstdout, List.append_assoc, outputAll]

/-- Two lists of one value, at 1 and 2, that are pushed to and printed in turn. -/
theorem lists_keep_their_values_two :
    ∃ h', Settles (fun fuel => performAll int64Print fuel
        [.push 1 30, .push 2 40, .print 1, .push 1 50, .print 2, .print 1])
      ⟨fun a => if a = 1 then some ⟨some 10, some 0⟩ else if a = 2 then some ⟨some 20, some 0⟩
        else none, [3, 4, 5], []⟩ () h' ∧
      h'.stdout = numeral 10 ++ [0x20] ++ (numeral 30 ++ [0x20]) ++ (numeral 20 ++ [0x20]) ++
        (numeral 40 ++ [0x20]) ++ (numeral 10 ++ [0x20]) ++ (numeral 30 ++ [0x20]) ++
        (numeral 50 ++ [0x20]) := by
  have hstores : StoresLists ⟨fun a => if a = 1 then some ⟨some 10, some 0⟩
      else if a = 2 then some ⟨some 20, some 0⟩ else none, [3, 4, 5], []⟩ [1, 2]
      (fun root => if root = 1 then [10] else [20])
      (fun root => if root = 1 then [(1, 10)] else [(2, (20 : BitVec 64))]) := by
    refine ⟨?_, ?_, ?_, ?_⟩ <;> simp [Linked, LinkedTo, cell]
  obtain ⟨h', -, hsettles, -, hstdout⟩ := lists_keep_their_values int64Print hstores
    [.push 1 30, .push 2 40, .print 1, .push 1 50, .print 2, .print 1] (by simp [ListCall.list])
    ⟨[3, 4, 5], [], rfl, rfl, by decide, by simp⟩
  refine ⟨h', hsettles, hstdout.trans ?_⟩
  rfl

/-- `main` reads the `next` of a node that it has only created: it comes to its first push and no
further, whatever address `malloc` answers. -/
theorem push_to_created_node {answers : List ℕ} (hanswers : h.answers = a :: answers) (hne : a ≠ 0)
    (hfresh : h.objects a = none) (fuel : ℕ) (val : α) :
    (do listPush (fuel + 1) (← createNode) val : Listing α Unit).run h =
      .error .indeterminate := by
  have hnode : ({ h.withObject a .created with answers } : Heap α).objects a = some .created :=
    objects_withObject_self (h := h)
  rw [createNode, run_bind_of_ok (run_malloc hanswers hne hfresh _)]
  refine run_bind_of_error ?_
  unfold toLast
  refine run_bind_of_error ?_
  unfold loadNext
  rw [run_bind_of_ok (run_deref hnode)]
  rfl

/-! ## Counting -/

/-- How many calls of `malloc` succeed before one fails, when there are objects at `taken`. -/
def served (taken : List ℕ) : List ℕ → ℕ
  | [] => 0
  | a :: answers => if a ≠ 0 ∧ a ∉ taken then served (a :: taken) answers + 1 else 0

/-- The heap holds one list, and there are objects at `taken`. -/
structure StoresOneList (h : Heap α) (taken : List ℕ) (root : ℕ) (cs : List (ℕ × α)) : Prop where
  linked : Linked (cell h) root cs
  objects_iff : ∀ a, h.objects a = none ↔ a ∉ taken
  null : 0 ∉ taken

variable {cs : List (ℕ × α)} {head : α} {answers taken : List ℕ}

/-- A node in front of the list. -/
theorem StoresOneList.cons (hstores : StoresOneList h taken root cs)
    (hanswers : h.answers = a :: answers) (hne : a ≠ 0) (hfresh : a ∉ taken) (head : α) :
    ∃ h', (c head root).run h = .ok (a, h') ∧
      StoresOneList h' (a :: taken) a ((a, head) :: cs) ∧ h'.answers = answers ∧
      h'.stdout = h.stdout := by
  obtain ⟨hlinked, hobjects, hnull⟩ := hstores
  have hnone := (hobjects a).mpr hfresh
  have hnew : (h.withObject a ⟨some head, some root⟩).objects a = some ⟨some head, some root⟩ :=
    objects_withObject_self
  have hold : ∀ x, x ≠ a → (h.withObject a ⟨some head, some root⟩).objects x = h.objects x :=
    fun x hx => objects_withObject_of_ne hx
  refine ⟨_, run_c hanswers hne hnone, ⟨⟨rfl, hne, root, cell_of_objects hnew,
    hlinked.congr fun p hp => cell_congr (hold p.1 (ne_of_fresh hlinked hnone hp))⟩,
    fun x => ?_, ?_⟩, rfl, rfl⟩
  · by_cases hx : x = a
    · subst hx
      exact iff_of_false (fun hfree => Option.some_ne_none _ (hnew.symm.trans hfree))
        fun hnotin => hnotin List.mem_cons_self
    · rw [List.mem_cons, not_or]
      refine Iff.trans (iff_of_eq (congrArg (· = none) (hold x hx))) ?_
      rw [hobjects]
      exact ⟨fun hnotin => ⟨hx, hnotin⟩, And.right⟩
  · rw [List.mem_cons, not_or]
    exact ⟨hne.symm, hnull⟩

/-- Without memory `c` stores to the null pointer. -/
theorem run_c_of_refused {h' : Heap α} (hmalloc : (malloc Node.created).run h = .ok (0, h'))
    (hnull : h'.objects 0 = none) : (c head root).run h = .error .segv := by
  unfold c
  rw [run_bind_of_ok hmalloc]
  refine run_bind_of_error ?_
  unfold storeValue
  exact run_bind_of_error (run_deref_of_none hnull)

/-- **The loop of `main`** builds a list of `is.length` nodes more, or runs out of memory. -/
theorem foldlM_c (f : ℕ → α) (is : List ℕ) (hstores : StoresOneList h taken root cs) :
    (is.length ≤ served taken h.answers → ∃ root' h' taken' cs',
      (is.foldlM (fun lst i => c (f i) lst) root).run h = .ok (root', h') ∧
        StoresOneList h' taken' root' cs' ∧ cs'.length = cs.length + is.length ∧
        h'.stdout = h.stdout) ∧
    (served taken h.answers < is.length →
      (is.foldlM (fun lst i => c (f i) lst) root).run h = .error .segv) := by
  induction is generalizing h taken root cs with
  | nil =>
      exact ⟨fun _ => ⟨root, h, taken, cs, rfl, hstores, rfl, rfl⟩,
        fun hlt => absurd hlt (Nat.not_lt_zero _)⟩
  | cons i is ih =>
      have hnull : h.objects 0 = none := (hstores.objects_iff 0).mpr hstores.null
      rw [List.foldlM_cons]
      cases hanswers : h.answers with
      | nil =>
          refine ⟨fun hle => absurd hle (Nat.not_succ_le_zero _), fun _ => ?_⟩
          exact run_bind_of_error (run_c_of_refused (run_malloc_of_nil hanswers _) hnull)
      | cons a answers =>
          by_cases hserved : a ≠ 0 ∧ a ∉ taken
          · rw [served, if_pos hserved]
            obtain ⟨h₁, hrun, hstores₁, hanswers₁, hstdout⟩ :=
              hstores.cons hanswers hserved.1 hserved.2 (f i)
            rw [run_bind_of_ok hrun]
            obtain ⟨hbuilt, hshort⟩ := ih hstores₁
            rw [hanswers₁] at hbuilt hshort
            constructor
            · intro hle
              obtain ⟨root', h', taken', cs', hrun', hstores', hlength, hstdout'⟩ :=
                hbuilt (Nat.le_of_succ_le_succ hle)
              refine ⟨root', h', taken', cs', hrun', hstores', ?_, hstdout'.trans hstdout⟩
              rw [hlength, List.length_cons, List.length_cons]
              omega
            · intro hlt
              exact hshort (Nat.lt_of_succ_lt_succ hlt)
          · rw [served, if_neg hserved]
            refine ⟨fun hle => absurd hle (Nat.not_succ_le_zero _), fun _ => ?_⟩
            rw [← hstores.objects_iff] at hserved
            exact run_bind_of_error
              (run_c_of_refused (run_malloc_of_refused hanswers hserved _) hnull)

/-- **`main`** prints how many nodes it has made, exactly when it gets the memory for them and the
stack has room for one call more than there are nodes. -/
theorem main_prints_length {len : ℕ} (frames : ℕ) (answers : List ℕ) (hlen : len < 2 ^ 64) :
    (served [] answers < len → (main frames len).run (empty _ answers) = .error .segv) ∧
    (len ≤ served [] answers → frames ≤ len →
      (main frames len).run (empty _ answers) = .error .stackOverflow) ∧
    (len ≤ served [] answers → len < frames → ∃ h,
      (main frames len).run (empty _ answers) = .ok ((), h) ∧ h.stdout = numeral len) := by
  have hstores : StoresOneList (empty (Node (BitVec 64)) answers) [] 0 [] :=
    ⟨rfl, fun _ => iff_of_true rfl List.not_mem_nil, List.not_mem_nil⟩
  obtain ⟨hbuilt, hshort⟩ := foldlM_c (BitVec.ofNat 64) (List.range len) hstores
  rw [List.length_range] at hbuilt hshort
  refine ⟨fun hfew => run_bind_of_error (hshort hfew), fun henough hframes => ?_,
    fun henough hframes => ?_⟩
  all_goals
    obtain ⟨root, h, taken, cs, hrun, hstores', hlength, hstdout⟩ := hbuilt henough
    rw [List.length_nil, Nat.zero_add] at hlength
    have hcount := run_listLength hstores'.linked frames
    rw [hlength] at hcount
    unfold main
    rw [run_bind_of_ok hrun]
  · rw [if_neg (by omega)] at hcount
    exact run_bind_of_error hcount
  · rw [if_pos hframes, Nat.mod_eq_of_lt hlen] at hcount
    rw [run_bind_of_ok hcount]
    refine ⟨_, rfl, ?_⟩
    show h.stdout ++ numeral len = numeral len
    rw [hstdout]
    rfl

/-- Two nodes, and room for three calls; then a third node, at an address that was given before. -/
theorem main_prints_length_two :
    (∃ h, (main 3 2).run (empty _ [16, 48]) = .ok ((), h) ∧ h.stdout = numeral 2) ∧
      (main 3 3).run (empty _ [16, 48, 16]) = .error .segv :=
  ⟨(main_prints_length 3 [16, 48] (by norm_num)).2.2 (by decide) (by decide),
    (main_prints_length 3 [16, 48, 16] (by norm_num)).1 (by decide)⟩

end LowLevel.Analysis
