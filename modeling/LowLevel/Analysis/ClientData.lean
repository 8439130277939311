import Mathlib.Data.List.Nodup
import LowLevel.Interface.HeapRuns
import LowLevel.Library.Transitions
import LowLevel.Model.Objects

/-!
# The heap is a store of objects

A client of `_malloc` and `_free` that stores to its payloads cannot tell the heap from a store of
objects: what it does not write stays as it is, whatever becomes of other allocations, and what it
does write does not harm the heap.
-/

set_option autoImplicit false

namespace LowLevel.Analysis

open LowLevel.Library LowLevel.Model LowLevel.Interface LowLevel.Program.Allocator

variable {s s' : State} {live : List Allocation} {w : World} {a : Allocation}
  {table : List (ℕ × Allocation)} {os : Objects} {offset : ℕ} {bs : List Byte}

/-! ## Accesses of the client -/

/-- Live allocations are at different addresses, even those of no bytes. -/
theorem nodup_ptrs (h : Tracks s live w) : (live.map (·.ptr)).Nodup := by
  have hlayout := h.refines.represents.layout
  obtain ⟨bs, hperm, hbacks⟩ := h.backed
  have hptrs : live.map (·.ptr) = bs.map fun b => b.addr + 17 := by
    rw [← List.forall₂_eq_eq_eq, List.forall₂_map_left_iff, List.forall₂_map_right_iff]
    exact hbacks.imp fun _ _ hab => hab.1
  have hapart : (taken w.chains.flatten).Pairwise fun b c => b.addr + 17 ≠ c.addr + 17 := by
    refine (hlayout.sound.pairwise.filter _).imp fun {b c} hbc heq => ?_
    exact hbc b.addr ⟨le_rfl, by omega⟩ ⟨by omega, by omega⟩
  rw [hptrs, (hperm.map _).nodup_iff]
  exact List.pairwise_map.mpr hapart

/-- A byte of a payload is mapped. -/
theorem payload_mapped (h : Tracks s live w) (ha : a ∈ live) {x : ℕ} (hx : a.Holds x) :
    Mapped s.mapped x := by
  obtain ⟨b, hb, hfree, hab⟩ := h.backed.exists_block ha
  exact mapped_of_takenContents h.refines.represents.layout.sound ⟨b, hb, hfree, hab.inContents hx⟩

/-- **A store to a payload** does not fault, and the heap is as it was. -/
theorem store_tracks (h : Tracks s live w) (ha : a ∈ live) (hfits : offset + bs.length ≤ a.size) :
    (store (a.ptr + offset) bs).run s = .ok ((), stored s (a.ptr + offset) bs) ∧
      Tracks (stored s (a.ptr + offset) bs) live w := by
  have hlayout := h.refines.represents.layout
  obtain ⟨b, hb, hfree, hab⟩ := h.backed.exists_block ha
  have hin : ∀ i < bs.length, a.Holds (a.ptr + offset + i) := fun i hi => ⟨by omega, by omega⟩
  refine ⟨run_store fun i hi => payload_mapped h ha (hin i hi), ⟨⟨⟨hlayout, fun c hc => ?_⟩,
    h.refines.mapped_eq, h.refines.answers_eq⟩, h.backed⟩⟩
  refine (h.refines.represents.linked c hc).congr fun b' hb' x hx => ?_
  apply writeBytes_of_outside
  by_contra hinside
  have hheld : TakenContents w.chains x :=
    ⟨b, hb, hfree, hab.inContents ⟨by omega, by omega⟩⟩
  exact takenContents_not_inHeader hlayout.sound (List.mem_flatten.mpr ⟨c, hc, hb'⟩) hx hheld

/-- A load from a payload does not fault. -/
theorem run_loadBytes (h : Tracks s live w) (ha : a ∈ live) {length : ℕ}
    (hfits : offset + length ≤ a.size) :
    (loadBytes (a.ptr + offset) length).run s =
      .ok (readBytes s.mem (a.ptr + offset) length, s) := by
  unfold loadBytes
  rw [run_bind_of_ok (run_touch fun i hi => payload_mapped h ha ⟨by omega, by omega⟩)]
  rfl

/-! ## The relation -/

/-- The objects are in the payloads. -/
structure Follows (c : Client) (os : Objects) : Prop where
  tracks : ∃ w, Tracks c.process (c.table.map Prod.snd) w
  handles : (c.table.map Prod.fst).Nodup
  object : ∀ e ∈ c.table, ∃ o, os e.1 = some o ∧ o.size = e.2.size ∧
    ∀ i < e.2.size, ∀ b, o.bytes i = some b → c.process.mem (e.2.ptr + i) = b
  none : ∀ handle, (∀ e ∈ c.table, e.1 ≠ handle) → os handle = none

/-- A handle stands for one allocation. -/
theorem eq_of_handle (hnodup : (table.map Prod.fst).Nodup) {e e' : ℕ × Allocation}
    (he : e ∈ table) (he' : e' ∈ table) (heq : e.1 = e'.1) : e = e' :=
  List.inj_on_of_nodup_map hnodup he he' heq

/-- Freeing by the handle is freeing by the pointer. -/
theorem filter_handle (hhandles : (table.map Prod.fst).Nodup)
    (hptrs : ((table.map Prod.snd).map (·.ptr)).Nodup) {handle : ℕ} (hmem : (handle, a) ∈ table) :
    (table.filter (·.1 ≠ handle)).map Prod.snd =
      (table.map Prod.snd).filter (·.ptr ≠ a.ptr) := by
  rw [List.filter_map]
  congr 1
  refine List.filter_congr fun e he => ?_
  rw [List.map_map] at hptrs
  have hone : e.1 = handle ↔ e.2.ptr = a.ptr := by
    constructor
    · intro heq
      rw [eq_of_handle hhandles he hmem heq]
    · intro heq
      rw [List.inj_on_of_nodup_map hptrs he hmem heq]
  simp [hone]

/-- What a call leaves alone. -/
theorem object_of_spared {e : ℕ × Allocation} {c : Call}
    (hspared : Spared (Protected (table.map Prod.snd) c) s s') (he : e ∈ table)
    (hne : c ≠ .free e.2.ptr) {o : Object}
    (h : ∀ i < e.2.size, ∀ b, o.bytes i = some b → s.mem (e.2.ptr + i) = b) :
    ∀ i < e.2.size, ∀ b, o.bytes i = some b → s'.mem (e.2.ptr + i) = b := by
  intro i hi b hb
  rw [hspared.mem_eq _ ⟨e.2, List.mem_map_of_mem he, hne, by omega, by omega⟩]
  exact h i hi b hb

/-- Payloads share no byte. -/
theorem payloads_apart (h : Tracks s (table.map Prod.snd) w) {e e' : ℕ × Allocation}
    (he : e ∈ table) (he' : e' ∈ table) (hne : e ≠ e') {x : ℕ} (hx : e.2.Holds x) :
    ¬ e'.2.Holds x := by
  have hpair := List.pairwise_map.mp (h.backed.pairwise h.refines.represents.layout)
  have : Std.Symm fun e e' : ℕ × Allocation => ∀ x, e.2.Holds x → ¬ e'.2.Holds x :=
    ⟨fun _ _ hapart x hx' hx => hapart x hx hx'⟩
  exact hpair.forall he he' hne x hx

/-! ## One action -/

section Actions

variable (h : Follows ⟨s, table⟩ os)
include h

theorem follows_malloc {handle query result : ℕ}
    (hadmissible : (Action.malloc handle query).Admissible table) (hfit : FitsSize (.malloc query))
    (hrun : Settles (fun n => (Call.malloc query).perform n) s result s') :
    ∃ os', os.Acts (.malloc handle query, .served (result ≠ 0)) os' ∧
      Follows ⟨s', if result = 0 then table else (handle, ⟨result, query⟩) :: table⟩ os' := by
  obtain ⟨w, htracks⟩ := h.tracks
  obtain ⟨s₁, htakes, htracks', hspared⟩ := settles_call htracks (c := .malloc query)
    hadmissible.1 hfit
  obtain ⟨hresult, rfl⟩ := htakes.settles.unique hrun
  dsimp only at hresult
  rw [hresult, Call.after] at htracks'
  have hnone := h.none handle hadmissible.2
  have hold : ∀ e ∈ table, ∃ o, os e.1 = some o ∧ o.size = e.2.size ∧
      ∀ i < e.2.size, ∀ b, o.bytes i = some b → s₁.mem (e.2.ptr + i) = b := by
    intro e he
    obtain ⟨o, hobject, hsize, hbytes⟩ := h.object e he
    exact ⟨o, hobject, hsize, object_of_spared hspared he Call.noConfusion hbytes⟩
  by_cases hzero : result = 0
  · subst hzero
    rw [if_pos rfl] at htracks'
    refine ⟨os, .refused hnone, ⟨_, htracks'⟩, h.handles, hold, h.none⟩
  · rw [if_neg hzero] at htracks' ⊢
    refine ⟨Function.update os handle (some (.fresh query)), ?_, ⟨_, htracks'⟩, ?_, ?_, ?_⟩
    · rw [decide_eq_true hzero]
      exact .made hnone
    · refine List.nodup_cons.mpr ⟨fun hmem => ?_, h.handles⟩
      obtain ⟨e, he, heq⟩ := List.mem_map.mp hmem
      exact hadmissible.2 e he heq
    · intro e he
      rcases List.mem_cons.mp he with rfl | he
      · refine ⟨.fresh query, Function.update_self handle _ os, rfl, fun i _ b hb => ?_⟩
        cases hb
      · rw [Function.update_of_ne (hadmissible.2 e he)]
        exact hold e he
    · intro handle' hfree
      rw [Function.update_of_ne (hfree _ List.mem_cons_self).symm]
      exact h.none handle' fun e he => hfree e (List.mem_cons_of_mem _ he)

theorem follows_free {handle result : ℕ} (hmem : (handle, a) ∈ table)
    (hrun : Settles (fun n => (Call.free a.ptr).perform n) s result s') :
    ∃ os', os.Acts (.free handle, .done) os' ∧
      Follows ⟨s', table.filter (·.1 ≠ handle)⟩ os' := by
  obtain ⟨w, htracks⟩ := h.tracks
  obtain ⟨s₁, htakes, htracks', hspared⟩ := settles_call htracks (c := .free a.ptr)
    ⟨a, List.mem_map_of_mem (f := Prod.snd) hmem, rfl⟩ trivial
  obtain ⟨-, rfl⟩ := htakes.settles.unique hrun
  have hptrs := nodup_ptrs htracks
  obtain ⟨o, hobject, -⟩ := h.object _ hmem
  rw [Call.after, ← filter_handle h.handles hptrs hmem] at htracks'
  refine ⟨Function.update os handle none, .gone hobject, ⟨_, htracks'⟩, ?_, ?_, ?_⟩
  · exact h.handles.sublist (List.filter_sublist.map Prod.fst)
  · intro e he
    obtain ⟨he, hne⟩ := List.mem_filter.mp he
    have hother : e.1 ≠ handle := of_decide_eq_true hne
    obtain ⟨o', hobject', hsize, hbytes⟩ := h.object e he
    refine ⟨o', by rw [Function.update_of_ne hother]; exact hobject', hsize, ?_⟩
    refine object_of_spared hspared he (fun heq => hother ?_) hbytes
    rw [List.map_map] at hptrs
    rw [List.inj_on_of_nodup_map hptrs he hmem (Call.free.inj heq).symm]
  · intro handle' hfree
    by_cases heq : handle' = handle
    · rw [heq, Function.update_self]
    · rw [Function.update_of_ne heq]
      refine h.none handle' fun e he hhandle => ?_
      refine hfree e (List.mem_filter.mpr ⟨he, decide_eq_true ?_⟩) hhandle
      rw [hhandle]
      exact heq

theorem follows_store {handle : ℕ} (hmem : (handle, a) ∈ table)
    (hfits : offset + bs.length ≤ a.size)
    (hrun : (store (a.ptr + offset) bs).run s = .ok ((), s')) :
    ∃ os', os.Acts (.store handle offset bs, .done) os' ∧ Follows ⟨s', table⟩ os' := by
  obtain ⟨w, htracks⟩ := h.tracks
  obtain ⟨hstore, htracks'⟩ := store_tracks htracks (List.mem_map_of_mem (f := Prod.snd) hmem) hfits
  rw [hstore] at hrun
  obtain rfl : stored s (a.ptr + offset) bs = s' := by simpa using hrun
  obtain ⟨o, hobject, hsize, hbytes⟩ : ∃ o, os handle = some o ∧ o.size = a.size ∧
    ∀ i < a.size, ∀ b, o.bytes i = some b → s.mem (a.ptr + i) = b := h.object _ hmem
  refine ⟨Function.update os handle (some (o.write offset bs)), .written hobject (hsize ▸ hfits),
    ⟨w, htracks'⟩, h.handles, fun e he => ?_, fun handle' hfree => ?_⟩
  · by_cases heq : e = (handle, a)
    · subst heq
      refine ⟨o.write offset bs, Function.update_self _ _ _, hsize, fun i hi b hb => ?_⟩
      show writeBytes s.mem (a.ptr + offset) bs (a.ptr + i) = b
      unfold Object.write at hb
      dsimp only at hb
      split_ifs at hb with hin
      · rw [List.getElem?_eq_getElem (by omega), Option.some.injEq] at hb
        rw [← hb, ← writeBytes_of_inside (m := s.mem) (a := a.ptr + offset) (by omega)]
        congr 1
        omega
      · rw [writeBytes_of_outside (by omega)]
        exact hbytes i hi b hb
    · have hother : e.1 ≠ handle := fun hhandle => heq (eq_of_handle h.handles he hmem hhandle)
      obtain ⟨o', hobject', hsize', hbytes'⟩ := h.object e he
      refine ⟨o', by rw [Function.update_of_ne hother]; exact hobject', hsize', fun i hi b hb => ?_⟩
      have hapart := payloads_apart htracks he hmem heq (x := e.2.ptr + i) ⟨by omega, by omega⟩
      unfold Allocation.Holds at hapart
      show writeBytes s.mem (a.ptr + offset) bs (e.2.ptr + i) = b
      rw [writeBytes_of_outside (by dsimp only at hapart; omega)]
      exact hbytes' i hi b hb
  · rw [Function.update_of_ne (hfree _ hmem).symm]
    exact h.none handle' hfree

theorem follows_load {handle length : ℕ} (hmem : (handle, a) ∈ table)
    (hfits : offset + length ≤ a.size)
    (hrun : (loadBytes (a.ptr + offset) length).run s = .ok (bs, s')) :
    ∃ os', os.Acts (.load handle offset length, .bytes bs) os' ∧ Follows ⟨s', table⟩ os' := by
  obtain ⟨w, htracks⟩ := h.tracks
  have hlive := List.mem_map_of_mem (f := Prod.snd) hmem
  rw [run_loadBytes htracks hlive hfits] at hrun
  obtain ⟨rfl, rfl⟩ : readBytes s.mem (a.ptr + offset) length = bs ∧ s = s' := by
    simpa using hrun
  obtain ⟨o, hobject, hsize, hbytes⟩ : ∃ o, os handle = some o ∧ o.size = a.size ∧
    ∀ i < a.size, ∀ b, o.bytes i = some b → s.mem (a.ptr + i) = b := h.object _ hmem
  refine ⟨os, .read hobject (length_readBytes _ _ _) (hsize ▸ hfits) fun i hi b hb => ?_, h⟩
  rw [length_readBytes] at hi
  have hbyte := hbytes (offset + i) (by omega) b hb
  rw [readBytes, List.getElem?_map, List.getElem?_range hi, Option.map_some, Nat.add_assoc, hbyte]

end Actions

/-! ## Every run -/

/-- No size wraps in a request. -/
def Action.Fits : Action → Prop
  | .malloc _ query => FitsSize (.malloc query)
  | _ => True

/-- **Simulation**: what an action does to the heap it does to the objects. -/
theorem follows_acts {c c' : Client} {l : Action × Answer} (h : Follows c os)
    (hsteps : c.Steps Action.Fits l c') : ∃ os', os.Acts l os' ∧ Follows c' os' := by
  obtain ⟨hadmissible, hfit, hacts⟩ := hsteps
  cases hacts with
  | malloc hrun => exact follows_malloc h hadmissible hfit hrun
  | free hmem hrun => exact follows_free h hmem hrun
  | store hmem hrun =>
      obtain ⟨a', hmem', hfits⟩ := hadmissible
      obtain rfl := (Prod.mk.inj (eq_of_handle h.handles hmem' hmem rfl)).2
      exact follows_store h hmem hfits hrun
  | load hmem hrun =>
      obtain ⟨a', hmem', hfits⟩ := hadmissible
      obtain rfl := (Prod.mk.inj (eq_of_handle h.handles hmem' hmem rfl)).2
      exact follows_load h hmem hfits hrun

/-- **Progress**: an action of the client ends, and without a fault. -/
theorem exists_acts {c : Client} (h : Follows c os) {action : Action}
    (hadmissible : action.Admissible c.table) (hfit : Action.Fits action) :
    ∃ answer c', c.Acts (action, answer) c' := by
  obtain ⟨s, table⟩ := c
  obtain ⟨w, htracks⟩ := h.tracks
  cases action with
  | malloc handle query =>
      obtain ⟨s₁, htakes, -⟩ := settles_call htracks (c := .malloc query) hadmissible.1 hfit
      exact ⟨_, _, .malloc htakes.settles⟩
  | free handle =>
      obtain ⟨a, hmem⟩ := hadmissible
      obtain ⟨s₁, htakes, -⟩ := settles_call htracks (c := .free a.ptr)
        ⟨a, List.mem_map_of_mem (f := Prod.snd) hmem, rfl⟩ trivial
      exact ⟨_, _, .free hmem htakes.settles⟩
  | store handle offset bs =>
      obtain ⟨a, hmem, hfits⟩ := hadmissible
      have hstore := store_tracks htracks (List.mem_map_of_mem (f := Prod.snd) hmem) hfits
      exact ⟨_, _, .store hmem hstore.1⟩
  | load handle offset length =>
      obtain ⟨a, hmem, hfits⟩ := hadmissible
      exact ⟨_, _, .load hmem
        (run_loadBytes htracks (List.mem_map_of_mem (f := Prod.snd) hmem) hfits)⟩

/-- A heap that was just started holds no object. -/
theorem follows_started (hstart : Started s) : Follows ⟨s, []⟩ fun _ => none where
  tracks := tracks_started hstart
  handles := List.nodup_nil
  object _ he := absurd he List.not_mem_nil
  none _ _ := rfl

/-- Two allocations in different regions. -/
def twoAllocations : List (ℕ × Allocation) :=
  [(1, ⟨heapStart + 65553, 9000⟩), (0, ⟨heapStart + 17, 24⟩)]

/-- The actions of a client with two objects, which stores to the second, frees the first and loads
`bs` from the second. -/
def twoObjects (bs : List Byte) : List (Action × Answer) :=
  [(.malloc 0 24, .served true), (.malloc 1 9000, .served true), (.store 1 8997 [1, 2, 3], .done),
    (.free 0, .done), (.load 1 8998 2, .bytes bs)]

/-- Objects give back what was stored. -/
theorem loaded_of_acts {bs : List Byte} {os : Objects}
    (h : Traces Objects.Acts (fun _ => none) (twoObjects bs) os) : bs = [2, 3] := by
  cases h with | step hmade h =>
  cases hmade
  cases h with | step hmade h =>
  cases hmade
  cases h with | step hwritten h =>
  cases hwritten with | written hobject hfits =>
  cases h with | step hgone h =>
  cases hgone
  cases h with | step hread h =>
  cases hread with | read hobject' hlength hfits' hreads =>
  rw [Function.update_self, Option.some.injEq] at hobject
  rw [Function.update_of_ne (by decide), Function.update_self, Option.some.injEq] at hobject'
  subst hobject hobject'
  obtain ⟨b, b', rfl⟩ := List.length_eq_two.mp hlength
  have hfirst := hreads 0 (by simp) 2 rfl
  have hsecond := hreads 1 (by simp) 3 rfl
  rw [Option.some.inj hfirst, Option.some.inj hsecond]

end LowLevel.Analysis
