import LowLevel.Interface.SepiaLoop

/-!
# What `simd_filter` touches

The counter of the loop is tested behind the pixel and lets zero pass, so the loop comes back to
its start behind the last pixel of every image, and the next load is behind the buffer.
-/

set_option autoImplicit false

namespace LowLevel.Analysis

open LowLevel.Library LowLevel.Library.X86 LowLevel.Program.SepiaFilter LowLevel.Interface.Sepia

/-- The number of pixels that `simd_filter(height, width, data)` is called with. -/
def pixelCount (s : State) : ℕ := (s.reg .rdi).toNat * (s.reg .rsi).toNat

/-- `simd_filter` loads and stores in the pixels only, and filters each of them. -/
structure TouchesImage (P : Program Label) (s : State) : Prop where
  inside : ∀ d, P.Passes (s.reg .rsp) (.at .simdFilter 0, s) d →
    P.TouchesIn (InBuffer (s.reg .rdx) (3 * pixelCount s)) d
  filters : P.Finishes .simdFilter s fun s' =>
    (∀ k < pixelCount s, loadPixel s'.mem (s.reg .rdx + BitVec.ofNat 64 (3 * k)) =
      asmPixel (loadPixel s.mem (s.reg .rdx + BitVec.ofNat 64 (3 * k)))) ∧
    ∀ x : Word, 3 * pixelCount s ≤ (x - s.reg .rdx).toNat → s'.mem x = s.mem x

variable {P : Program Label} {s : State}

/-- The loop begins once more behind the last pixel, and comes to its first load. -/
theorem simdFilter_comesBehind (hP : P.block = blocks) (hsize : 3 * pixelCount s < 2 ^ 63) :
    ∃ s', P.Passes (s.reg .rsp) (.at .simdFilter 0, s) (.at .simdFilterLoop 4, s') ∧
      s'.reg .rbx = s.reg .rdx + BitVec.ofNat 64 (3 * pixelCount s) := by
  obtain ⟨s₁, hexec, hloaded, hrbx, -, -, hr15⟩ := execAll_simdFilter s
  have hrun : P.RunsIn (fun _ => True) (s.reg .rsp) (.at .simdFilter 0) s fun c s' =>
      c = .at .simdFilterLoop 4 ∧
        s'.reg .rbx = s.reg .rdx + BitVec.ofNat 64 (3 * pixelCount s) := by
    refine RunsIn.straight hP [] (show (blocks .simdFilter).code =
      [] ++ ((blocks .simdFilter).code ++ []) from rfl) hexec (fun _ _ _ _ _ => trivial) ?_
    apply RunsIn.fall hP rfl rfl
    refine RunsIn.bind (simdFilterLoop_comesBack hP hloaded _ hr15 hsize) ?_
    rintro c s₂ ⟨rfl, hrbx₂⟩
    apply RunsIn.instr hP rfl rfl rfl
    apply RunsIn.instr hP rfl rfl rfl
    apply RunsIn.instr hP rfl rfl rfl
    apply RunsIn.instr hP rfl rfl rfl
    refine RunsIn.done ⟨rfl, ?_⟩
    show s₂.reg .rbx = _
    rw [hrbx₂, hrbx]
    rfl
  obtain ⟨c, s', hpasses, rfl, hrbx'⟩ := RunsIn.passes hrun
  exact ⟨s', hpasses, hrbx'⟩

/-- The byte behind a buffer is not in it. -/
theorem not_inBuffer_behind (buf : Word) {n : ℕ} (hn : n < 2 ^ 64) :
    ¬ InBuffer buf n (buf + BitVec.ofNat 64 n, 1) := by
  intro h
  have hlt := h (buf + BitVec.ofNat 64 n) (by rw [BitVec.sub_self]; exact Nat.one_pos)
  rw [Memory.offset_add buf hn] at hlt
  exact Nat.lt_irrefl n hlt

theorem not_touchesImage_of_size (hP : P.block = blocks) (hsize : 3 * pixelCount s < 2 ^ 63) :
    ¬ TouchesImage P s := by
  intro h
  obtain ⟨s', hpasses, hrbx⟩ := simdFilter_comesBehind hP hsize
  have hfetch : P.fetch (.at .simdFilterLoop 4) = some (.pinsrb .xmm0 ⟨.rbx, none, 0⟩ 0) := by
    rw [Program.fetch, hP]
    rfl
  have hload := h.inside _ hpasses _ hfetch (s'.addr ⟨.rbx, none, 0⟩, 1)
    (List.mem_append_left _ List.mem_cons_self)
  have hbehind : s'.addr ⟨.rbx, none, 0⟩ =
      s.reg .rdx + BitVec.ofNat 64 (3 * pixelCount s) := by
    rw [State.addr_base, hrbx]
    exact BitVec.add_zero _
  rw [hbehind] at hload
  exact not_inBuffer_behind _ (by omega) hload

/-- **`simd_filter` touches more than the image**, whatever its size. -/
theorem simdFilter_not_touchesImage (hP : P.block = blocks)
    (hsize : 3 * ((s.reg .rdi).toNat * (s.reg .rsi).toNat) < 2 ^ 63) : ¬ TouchesImage P s :=
  not_touchesImage_of_size hP hsize

/-- The empty image has no pixel, and one is filtered all the same. -/
theorem simdFilter_not_touchesImage_empty : ¬ TouchesImage inOrder
    ((State.fresh (fun _ => 0) (-16) []).setReg .rdx 4096) :=
  simdFilter_not_touchesImage rfl (by decide)

/-- A single pixel, at `4096`, with the stack at the end of the memory. -/
theorem not_touchesImage_onePixel : ¬ TouchesImage inOrder
    ((((State.fresh (fun _ => 0) (-16) []).setReg .rdi 1).setReg .rsi 1).setReg .rdx 4096) :=
  not_touchesImage_of_size rfl (by decide)

end LowLevel.Analysis
