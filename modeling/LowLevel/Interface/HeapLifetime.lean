import LowLevel.Program.AllocatorRuns
import LowLevel.Model.FreeRuns
import LowLevel.Interface.HeapMalloc
import LowLevel.Interface.HeapRelease

/-!
# The heap from `heap_init` to `heap_term`

`Usable s live` is the invariant of a process with a heap at `HEAP_START`: the chains stand and
are anchored, and every pointer that was returned for a request whose size does not wrap is the
contents of a taken block. `_malloc` keeps it whatever is asked for, `_free` of such a pointer
does, and it is all that `heap_term` needs. Where `HEAP_START` is not mapped, `_malloc` and
`heap_term` stop at their first access.
-/

set_option autoImplicit false

namespace LowLevel.Interface

open LowLevel.Library LowLevel.Model LowLevel.Program.Allocator

variable {s s' : State} {main : List Block} {det chains chains' : List (List Block)}
variable {live : List Allocation} {q sz r ptr : ℕ}

/-! ## Live pointers -/

/-- The pointers returned for requests that do not wrap are the contents of taken blocks. -/
def Owns (live : List Allocation) (chains : List (List Block)) : Prop :=
  ∀ a ∈ live, NonWrapping a.size →
    ∃ b ∈ taken chains.flatten, a.ptr = b.addr + 17 ∧ b.addr + 17 < 2 ^ 64

/-- A request adds its pointer; the blocks that were taken before still are. -/
theorem Owns.malloc (h : Owns live chains)
    (hsub : ∀ b ∈ taken chains.flatten, b ∈ taken chains'.flatten)
    (hnew : r ≠ 0 → NonWrapping q →
      ∃ b ∈ taken chains'.flatten, r = b.addr + 17 ∧ b.addr + 17 < 2 ^ 64) :
    Owns ((Call.malloc q).after live r) chains' := by
  intro a ha hfit
  have hold : a ∈ live → ∃ b ∈ taken chains'.flatten, a.ptr = b.addr + 17 ∧
      b.addr + 17 < 2 ^ 64 := by
    intro ha
    obtain ⟨b, hb, hptr⟩ := h a ha hfit
    exact ⟨b, hsub b hb, hptr⟩
  unfold Call.after at ha
  split_ifs at ha with hr
  · exact hold ha
  · rcases List.mem_cons.mp ha with rfl | ha
    · exact hnew hr hfit
    · exact hold ha

/-- Releasing a block removes its pointer and leaves the other taken blocks. -/
theorem Owns.free {addr : ℕ} (h : Owns live chains)
    (htaken : taken chains'.flatten = (taken chains.flatten).filter (·.addr ≠ addr)) :
    Owns ((Call.free (addr + 17)).after live 0) chains' := by
  intro a ha hfit
  obtain ⟨ha, hne⟩ := List.mem_filter.mp ha
  obtain ⟨b, hb, hptr, hlt⟩ := h a ha hfit
  have haddr : b.addr ≠ addr := by
    rintro rfl
    simp [hptr] at hne
  refine ⟨b, ?_, hptr, hlt⟩
  rw [htaken]
  exact List.mem_filter.mpr ⟨hb, by simpa using haddr⟩

/-- Handing a block out takes no other back. -/
theorem taken_subset_allocate (b : Block) (hb : b ∈ taken (main :: det).flatten) :
    b ∈ taken ((search sz main).allocate sz :: det).flatten := by
  rw [List.flatten_cons, taken_append, List.mem_append] at hb ⊢
  refine hb.imp_left fun hb => ?_
  cases hhit : (search sz main).hit with
  | none => rwa [taken_allocate_of_miss hhit]
  | some hit =>
      obtain ⟨c, rest⟩ := hit
      exact (taken_allocate_of_hit hhit).mem_iff.mpr (List.mem_cons_of_mem _ hb)

/-- The pointer to a block that was handed out. -/
theorem exists_handed {b : Block} {rest : List Block}
    (h : Stands s ((search sz main).allocate sz :: det)) (hsz : 24 ≤ sz)
    (hhit : (search sz main).hit = some (b, rest)) :
    ∃ c ∈ taken ((search sz main).allocate sz :: det).flatten,
      (if b.addr = 0 then 0 else (b.addr + 17) % SIZE) = c.addr + 17 ∧ c.addr + 17 < 2 ^ 64 := by
  have htaken : b.handed sz ∈ taken ((search sz main).allocate sz) :=
    (taken_allocate_of_hit hhit).mem_iff.mpr List.mem_cons_self
  have hheld := h.held (b := b.handed sz) (by simp [(mem_taken.mp htaken).1])
  have hcap := le_handed (search_hit hhit).2
  have hne : b.addr ≠ 0 := hheld.addr_ne
  have hhigh : b.addr + 17 + (b.handed sz).cap ≤ 2 ^ 64 := hheld.high
  have hlt : b.addr + 17 < 2 ^ 64 := by omega
  refine ⟨b.handed sz, ?_, ?_, hlt⟩
  · rw [List.flatten_cons, taken_append, List.mem_append]
    exact .inl htaken
  · rw [if_neg hne]
    exact Nat.mod_eq_of_lt hlt

/-! ## One call -/

/-- The process has a heap at `HEAP_START`, and `live` are the pointers it has given out. -/
structure Usable (s : State) (live : List Allocation) : Prop where
  heap : ∃ main det, Stands s (main :: det) ∧ headAddr main 0 = heapStart ∧
    AllAnchored (main :: det) ∧ Owns live (main :: det)

section Malloc

variable (hroot : headAddr main 0 = heapStart) (hsz : sz = max q 24)
  (h : Stands s (main :: det)) (hanchored : AllAnchored (main :: det))
  (howns : Owns live (main :: det))
include hroot hsz h hanchored howns

/-- `_malloc` when a block fits. -/
theorem usable_of_hit {b : Block} {rest : List Block}
    (hhit : (search sz main).hit = some (b, rest)) :
    ∃ r s', Settles (fun n => malloc n q) s r s' ∧
      Usable s' ((Call.malloc q).after live r) := by
  obtain ⟨s', hrun, -, hstands⟩ := settles_memalloc_hit hroot (by decide) hsz h hhit
    (add_lt_of_hit h.sound hroot hhit)
  refine ⟨_, s', settles_malloc_of_memalloc hrun, _, det, hstands, ?_, ?_, ?_⟩
  · rw [headAddr_allocate, hroot]
  · exact allAnchored_allocate sz hanchored
  · exact howns.malloc taken_subset_allocate fun _ _ =>
      exists_handed hstands (by rw [hsz]; exact le_max_right q 24) hhit

section Miss

variable {pre post : List Block} {last : Block} (hhit : (search sz main).hit = none)
  (hcut : cutAtLast (search sz main).passed = some (pre, last, post))
include hhit hcut

omit hroot hsz h howns in
/-- A search that fails leaves the chains anchored. -/
theorem allAnchored_missed : AllAnchored ((pre ++ last :: post) :: det) := by
  have hallocate := allAnchored_allocate sz hanchored
  rwa [Search.allocate, hhit, List.append_nil, (cutAtLast_eq_some hcut).1] at hallocate

/-- `_malloc` when nothing fits and `mmap` refuses. -/
theorem usable_of_refused (hregion : (growth s.mapped s.answers (last.stop % SIZE)
      (World.regionSize sz)).region = none) :
    ∃ r s', Settles (fun n => malloc n q) s r s' ∧
      Usable s' ((Call.malloc q).after live r) := by
  obtain ⟨s₁, -, hstands, -, hrun⟩ :=
    settles_memalloc_refused hroot (by decide) hsz h hhit hcut rfl hregion
  refine ⟨_, _, settles_malloc_of_memalloc hrun, pre ++ last :: post, det,
    ⟨hstands.sound, hstands.linked⟩, ?_, allAnchored_missed hanchored hhit hcut, ?_⟩
  · rw [headAddr_missed hhit hcut, hroot]
  · rw [if_pos rfl]
    exact howns.malloc (fun b hb => by rwa [taken_missed hhit hcut]) fun hr => absurd rfl hr

/-- `_malloc` when nothing fits and a region is granted. -/
theorem usable_of_granted {a : ℕ} {ext : Bool} (hregion : (growth s.mapped s.answers
      (last.stop % SIZE) (World.regionSize sz)).region = some (a, ext)) :
    ∃ r s', Settles (fun n => malloc n q) s r s' ∧
      Usable s' ((Call.malloc q).after live r) := by
  have hlow : 24 ≤ sz := by
    rw [hsz]
    exact le_max_right q 24
  have hgrant := grantable_of_growth hregion
  have hlen : 8192 ≤ World.regionSize sz := regionMinSize_le _
  obtain ⟨s₁, -, hwithin, hstands₁⟩ := settles_firstSearch hroot (by decide) hlow h hhit hcut
  have hsound := World.sound_extend (hwithin.mapped_eq ▸ hstands₁.sound) hgrant (by omega) ext
  have hhead : headAddr (World.extend pre last ⟨a, World.regionSize sz - 17, true⟩ ext) 0 =
      heapStart := by
    rw [World.headAddr_extend pre post, headAddr_missed hhit hcut, hroot]
  obtain ⟨-, p, s₂, s', -, -, -, -, hrun, hgrown⟩ := settles_memalloc_granted hroot (by decide) hsz
    h hhit hcut rfl hregion rfl fun hit hsome => add_lt_of_hit hsound hhead hsome
  refine ⟨_, s', settles_malloc_of_memalloc hrun, _, post :: det, hgrown.stands, ?_, ?_, ?_⟩
  · rw [headAddr_allocate, hhead]
  · exact allAnchored_allocate sz
      (allAnchored_extend (allAnchored_missed hanchored hhit hcut) hgrant.2.1 ext)
  · refine howns.malloc (fun b hb => taken_subset_allocate b ?_) fun _ hfit => ?_
    · rwa [taken_grown rfl ext, taken_missed hhit hcut]
    · -- a region whose size does not wrap holds the request, so the second search hits
      have hroomy : sz + 34 ≤ World.regionSize sz :=
        World.roomy_of_nonWrapping (hsz ▸ nonWrapping_max.mpr hfit)
      have hsearch := search_extend_of_miss ext hhit hcut
        (show (⟨a, World.regionSize sz - 17, true⟩ : Block).free = true from rfl)
        (by dsimp only; omega)
      have hsecond := congrArg Search.hit hsearch
      simp only [searchResult, hsecond]
      exact exists_handed hgrown.stands hlow hsecond

end Miss

end Malloc

/-- **`_malloc`** returns, whatever is asked for, and the heap stays usable. -/
theorem Usable.malloc (h : Usable s live) (q : ℕ) :
    ∃ r s', Settles (fun n => malloc n q) s r s' ∧
      Usable s' ((Call.malloc q).after live r) := by
  obtain ⟨main, det, hstands, hroot, hanchored, howns⟩ := h.heap
  cases hhit : (search (max q 24) main).hit with
  | some hit => exact usable_of_hit hroot rfl hstands hanchored howns hhit
  | none =>
      obtain ⟨pre, last, post, hcut, -, -⟩ :=
        cutAtLast_search (by rw [hroot]; decide) hhit
      cases hregion : (growth s.mapped s.answers (last.stop % SIZE)
          (World.regionSize (max q 24))).region with
      | none => exact usable_of_refused hroot rfl hstands hanchored howns hhit hcut hregion
      | some region => exact usable_of_granted hroot rfl hstands hanchored howns hhit hcut hregion

/-- **`_free`** of a pointer that was given out returns, and the heap stays usable. -/
theorem Usable.free (h : Usable s live) {a : Allocation} (ha : a ∈ live)
    (hfit : NonWrapping a.size) :
    ∃ s', Settles (fun n => free n a.ptr) s () s' ∧
      Usable s' ((Call.free a.ptr).after live 0) := by
  obtain ⟨main, det, hstands, hroot, hanchored, howns⟩ := h.heap
  obtain ⟨b, hb, hptr, hlt⟩ := howns a ha hfit
  have hmem := (mem_taken.mp hb).1
  obtain ⟨s', hrun, hstands', -⟩ := settles_free_stands hstands hmem hlt
  rw [hptr]
  refine ⟨s', hrun, _, _, hstands', ?_, allAnchored_release hstands.sound hmem hanchored, ?_⟩
  · rw [World.headAddr_releaseAt, hroot]
  · exact howns.free (World.taken_map_releaseAt hstands.sound.nodup_addr)

/-- `_free` of a null pointer does nothing. -/
theorem settles_free_null : Settles (fun n => free n 0) s () s :=
  Settles.of_run rfl

theorem Usable.free_null (h : Usable s live) : Usable s ((Call.free 0).after live 0) := by
  obtain ⟨main, det, hstands, hroot, hanchored, howns⟩ := h.heap
  exact ⟨main, det, hstands, hroot, hanchored, fun a ha => howns a (List.mem_filter.mp ha).1⟩

/-- **`heap_term`** returns, and `HEAP_START` is not mapped any more. -/
theorem Usable.term (h : Usable s live) :
    ∃ s', Settles heapTerm s () s' ∧ ∀ i < getpagesize, ¬ Mapped s'.mapped (heapStart + i) := by
  obtain ⟨main, det, hstands, hroot, hanchored, -⟩ := h.heap
  have halign : ∀ b ∈ main.head?, b.addr % getpagesize = 0 := by
    intro b hb
    cases main with
    | nil => cases hb
    | cons c cs =>
        obtain rfl : c = b := by simpa using hb
        rw [show c.addr = heapStart from hroot]
        rfl
  obtain ⟨s', hrun, -, hmapped⟩ := settles_termLoop hstands.main (hanchored main (by simp)) halign
  rw [hroot] at hrun
  refine ⟨s', hrun, fun i hi hin => ?_⟩
  cases main with
  | nil => exact absurd hroot (by decide)
  | cons b bs =>
      have hout := ((hmapped _).mp hin).2 (pages (segmentRange b bs)) (by simp [segments])
      have haddr : b.addr = heapStart := hroot
      have hlt := addr_lt_segment b bs
      unfold Mapping.Holds pages segmentRange pagesCount at hout
      unfold getpagesize at *
      dsimp only at hout
      split_ifs at hout <;> omega

/-! ## Without a page at `HEAP_START` -/

/-- `_malloc` faults at the header at `HEAP_START` when it is not mapped. -/
theorem run_malloc_unmapped (h : ¬ Mapped s.mapped (heapStart + 16)) (n q : ℕ) :
    (malloc (n + 1) q).run s = .error (.segv (heapStart + 16)) := by
  have hne : heapStart ≠ 0 := by decide
  have hload : (loadIsFree heapStart).run s = .error (.segv (heapStart + 16)) :=
    run_bind_of_error (run_load_unmapped h)
  have hloop : (findLoop (n + 1) heapStart heapStart (max q 24)).run s =
      .error (.segv (heapStart + 16)) := by
    rw [findLoop, if_neg hne]
    exact run_bind_of_error hload
  have hfind : (findGoodOrLast (n + 1) heapStart (max q 24)).run s =
      .error (.segv (heapStart + 16)) := by
    unfold findGoodOrLast
    rw [if_neg hne]
    exact hloop
  have hmemalloc : (memalloc (n + 1) q heapStart).run s = .error (.segv (heapStart + 16)) := by
    rw [memalloc_eq hne]
    exact run_bind_of_error (run_bind_of_error hfind)
  exact run_bind_of_error hmemalloc

/-- So does `heap_term`. -/
theorem run_heapTerm_unmapped (h : ¬ Mapped s.mapped heapStart) (n : ℕ) :
    (heapTerm (n + 2)).run s = .error (.segv heapStart) := by
  have hload : (loadNext heapStart).run s = .error (.segv heapStart) := run_load_unmapped h
  unfold heapTerm
  rw [termLoop, if_neg (by decide)]
  refine run_bind_of_error ?_
  unfold unmapFromPointer
  refine run_bind_of_error ?_
  rw [unmapLoop]
  exact run_bind_of_error hload

end LowLevel.Interface
