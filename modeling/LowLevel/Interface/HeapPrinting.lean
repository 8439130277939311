import LowLevel.Program.AllocatorDebug
import LowLevel.Interface.HeapAccess

/-!
# What the printed heap says

`debug_heap` on a chain that stands in memory: it comes to its end, one line a block, and changes
nothing but the output.
-/

set_option autoImplicit false

namespace LowLevel.Interface

open LowLevel.Library LowLevel.Model LowLevel.Program.Allocator

/-- The first bytes of the contents, as they are printed. -/
def contentsText (m : Mem) (b : Block) : List Char :=
  (List.range (min debugFirstBytes b.cap)).flatMap fun i => hexText (m (b.addr + 17 + i)).toNat

/-- The line of a block. -/
def blockLine (pointer : ℕ → List Char) (m : Mem) (b : Block) : List Char :=
  columnsText (pointer b.addr) (Nat.toDigits 10 b.cap) b.free ++ contentsText m b ++ "\n".toList

/-- What `debug_heap` prints of a chain. -/
def chainText (pointer : ℕ → List Char) (m : Mem) (bs : List Block) : List Char :=
  headingText ++ bs.flatMap (blockLine pointer m)

/-- The state after printing `text`. -/
def withOutput (s : State) (text : List Char) : State := { s with stdout := s.stdout ++ text }

@[simp] theorem withOutput_mem (s : State) (text : List Char) :
    (withOutput s text).mem = s.mem := rfl

@[simp] theorem withOutput_nil (s : State) : withOutput s [] = s := by
  simp [withOutput]

theorem withOutput_withOutput (s : State) (text text' : List Char) :
    withOutput (withOutput s text) text' = withOutput s (text ++ text') := by
  simp [withOutput]

theorem run_fprintf (s : State) (text : List Char) :
    (fprintf text).run s = .ok ((), withOutput s text) := rfl

variable {s : State} {b : Block} {bs : List Block} {next : ℕ}

/-- A block is held whatever was printed. -/
theorem Held.withOutput (h : Held s b) (text : List Char) : Held (withOutput s text) b :=
  ⟨h.mapped, h.low, h.high⟩

/-- One byte of the contents. -/
theorem run_loadContents (h : Held s b) {i : ℕ} (hi : i < b.cap) :
    (load (b.addr + offsetofContents + i) 1).run s = .ok ((s.mem (b.addr + 17 + i)).toNat, s) := by
  have hmapped : ∀ k < 1, Mapped s.mapped (b.addr + 17 + i + k) := by
    intro k hk
    exact h.mapped _ ⟨by omega, by omega⟩
  rw [show offsetofContents = 17 from rfl, run_load hmapped, readNat_one]

/-- The contents from byte `i` on: it stops at the end of the block or at `DEBUG_FIRST_BYTES`. -/
theorem run_contentsLoop (h : Held s b) (hheader : HeaderAt s.mem b next) (n i : ℕ) :
    (contentsLoop b.addr n i).run s = .ok ((), withOutput s
      ((List.range' i (min n (b.cap - i))).flatMap fun k =>
        hexText (s.mem (b.addr + 17 + k)).toNat)) := by
  induction n generalizing s i with
  | zero =>
      rw [Nat.zero_min, List.range'_zero, List.flatMap_nil, withOutput_nil]
      rfl
  | succ n ih =>
      unfold contentsLoop
      rw [run_bind_of_ok (run_loadCapacity h hheader)]
      by_cases hi : i < b.cap
      · rw [if_pos hi, run_bind_of_ok (run_loadContents h hi), run_bind_of_ok (run_fprintf _ _),
          ih (h.withOutput _) hheader, withOutput_withOutput]
        rw [show min (n + 1) (b.cap - i) = min n (b.cap - (i + 1)) + 1 by omega,
          List.range'_succ, List.flatMap_cons]
        rfl
      · rw [if_neg hi, show min (n + 1) (b.cap - i) = 0 by omega, List.range'_zero,
          List.flatMap_nil, withOutput_nil]
        rfl

/-- One line. -/
theorem run_debugStructInfo (pointer : ℕ → List Char) (h : Held s b)
    (hheader : HeaderAt s.mem b next) :
    (debugStructInfo pointer b.addr).run s =
      .ok ((), withOutput s (blockLine pointer s.mem b)) := by
  unfold debugStructInfo
  rw [run_bind_of_ok (run_loadCapacity h hheader), run_bind_of_ok (run_loadIsFree h hheader),
    run_bind_of_ok (run_fprintf _ _),
    run_bind_of_ok (run_contentsLoop (h.withOutput _) hheader debugFirstBytes 0), run_fprintf,
    withOutput_withOutput, withOutput_withOutput]
  rw [blockLine, contentsText, List.range_eq_range', Nat.sub_zero, List.append_assoc]
  rfl

/-- The lines of a chain. -/
theorem settles_debugLoop (pointer : ℕ → List Char) (hchain : Chain s.mem bs 0)
    (hheld : ∀ b ∈ bs, Held s b) :
    Settles (fun n => debugLoop pointer n (headAddr bs 0)) s ()
      (withOutput s (bs.flatMap (blockLine pointer s.mem))) := by
  induction bs generalizing s with
  | nil =>
      refine .of_succ fun n => ?_
      rw [List.flatMap_nil, withOutput_nil]
      rfl
  | cons b bs ih =>
      have hb := hheld b List.mem_cons_self
      have hrest := ih (s := withOutput s (blockLine pointer s.mem b)) hchain.2 fun c hc =>
        (hheld c (List.mem_cons_of_mem _ hc)).withOutput _
      rw [withOutput_withOutput] at hrest
      refine hrest.step fun n => ?_
      show (debugLoop pointer (n + 1) b.addr).run s = _
      rw [debugLoop, if_neg hb.addr_ne, run_bind_of_ok (run_debugStructInfo pointer hb hchain.1),
        run_bind_of_ok (run_loadNext (hb.withOutput _) hchain.1)]

/-- **The printed heap** is the chain from `ptr`, whatever the state is otherwise. -/
theorem settles_debugHeap (pointer : ℕ → List Char) (hchain : Chain s.mem bs 0)
    (hheld : ∀ b ∈ bs, Held s b) :
    Settles (fun n => debugHeap pointer n (headAddr bs 0)) s ()
      (withOutput s (chainText pointer s.mem bs)) := by
  have hloop := settles_debugLoop pointer (s := withOutput s headingText) hchain fun b hb =>
    (hheld b hb).withOutput _
  rw [withOutput_withOutput] at hloop
  exact Settles.bind_run (run_fprintf s headingText) hloop

end LowLevel.Interface
