import LowLevel.Interface.SepiaPixel
import LowLevel.Library.X86.Convention

/-!
# The loops of the sepia filters

Both filters go over the pixels once. The C filter stops at the last one; the assembly loop
tests its counter after the pixel and goes on at zero, so it overwrites one pixel more.
-/

set_option autoImplicit false

namespace LowLevel.Interface.Sepia

open LowLevel.Library LowLevel.Library.X86 LowLevel.Program.ImageRotation
open LowLevel.Program.SepiaFilter

/-! ## The C loop -/

/-- **One pass** over the first `n` pixels. -/
theorem load_filterPixels (out : Image) (n k : ℕ) :
    ((List.range n).foldl (fun out i => out.store i ((out.load i).map filterPixel)) out).load k =
      if k < n then (out.load k).map filterPixel else out.load k := by
  induction n with
  | zero => rfl
  | succ n ih =>
      rw [List.range_succ, List.foldl_append, List.foldl_cons, List.foldl_nil]
      set out' := (List.range n).foldl
        (fun out i => out.store i ((out.load i).map filterPixel)) out
      show Function.update out'.data.cells n ((out'.load n).map filterPixel) k = _
      by_cases hk : k = n
      · rw [hk, Function.update_self, if_pos (Nat.lt_succ_self n), ← hk, ih, hk,
          if_neg (Nat.lt_irrefl n)]
      · rw [Function.update_of_ne hk]
        show out'.load k = _
        rw [ih]
        by_cases hlt : k < n
        · rw [if_pos hlt, if_pos (by omega)]
        · rw [if_neg hlt, if_neg (by omega)]

/-- A copy has the pixels of its source. -/
theorem load_copyImage {source : Image} (hsize : source.width * source.height < 2 ^ 64) {k : ℕ}
    (hk : k < source.width * source.height) : (copyImage source).load k = source.load k := by
  have hsame := sameImage_of_picture_eq (picture_copyImage hsize)
  exact hsame.load_eq k (by rw [hsame.width_eq, hsame.height_eq]; exact hk)

/-- **`filter_c`** filters every pixel. -/
theorem load_filterC {source : Image} (hsize : source.width * source.height < 2 ^ 64) {k : ℕ}
    (hk : k < source.width * source.height) :
    (filterC source).load k = (source.load k).map filterPixel := by
  have hsame := sameImage_of_picture_eq (picture_copyImage hsize)
  have hcount : mul64 (copyImage source).height (copyImage source).width =
      source.width * source.height := by
    rw [hsame.width_eq, hsame.height_eq, mul64, Nat.mul_comm, Nat.mod_eq_of_lt hsize]
  unfold filterC
  dsimp only
  rw [load_filterPixels, hcount, if_pos hk, load_copyImage hsize hk]

/-! ## The assembly loop -/

variable {P : Program Label} {s : State} {n : ℕ}

/-- The counter of the loop against zero. -/
theorem toInt_counter (hn : 3 * n < 2 ^ 63) : (BitVec.ofNat 64 (3 * n)).toInt = 3 * n := by
  have hvalue : (BitVec.ofNat 64 (3 * n)).toNat = 3 * n := by
    rw [BitVec.toNat_ofNat, Nat.mod_eq_of_lt (by omega)]
  rw [BitVec.toInt_eq_toNat_of_lt (by rw [hvalue]; omega), hvalue, Nat.cast_mul, Nat.cast_ofNat]

/-- The loop between the pixel and its jumps. -/
def advance : List (Instr Label) := [
  .alu .add (.reg .rbx) (.imm pixelSizeWord),
  .alu .sub (.reg .r15) (.imm pixelSizeWord),
  .alu .cmp (.reg .r15) (.imm 0)]

/-- What a turn of the loop that began in `s` leaves before its jumps. -/
structure Turned (s s' : State) : Prop where
  loaded : VectorsLoaded s'
  mem : s'.mem = savePixel s.mem (s.reg .rbx) (asmPixel (loadPixel s.mem (s.reg .rbx)))
  rbx : s'.reg .rbx = s.reg .rbx + 3
  r15 : s'.reg .r15 = s.reg .r15 - 3
  rsp : s'.reg .rsp = s.reg .rsp
  flags : s'.flags = .ofSub (s.reg .r15 - 3) 0

/-- The return address is still there. -/
theorem Turned.read64_eq {s' : State} (h : Turned s s')
    (hapart : ∀ x : Word, (x - s.reg .rsp).toNat < 8 → 3 ≤ (x - s.reg .rbx).toNat) :
    s'.mem.read64 (s'.reg .rsp) = s.mem.read64 (s.reg .rsp) := by
  rw [h.rsp]
  apply Memory.read64_congr
  intro x hx
  rw [h.mem, savePixel_of_le _ (hapart x hx)]

/-- The pixels further on are as they were. -/
theorem Turned.loadPixel_next {s' : State} (h : Turned s s') {k : ℕ} (hk : 3 * k + 6 ≤ 2 ^ 64) :
    loadPixel s'.mem (s'.reg .rbx + BitVec.ofNat 64 (3 * k)) =
      loadPixel s.mem (s.reg .rbx + BitVec.ofNat 64 (3 * (k + 1))) := by
  have hnext : s'.reg .rbx + BitVec.ofNat 64 (3 * k) =
      s.reg .rbx + BitVec.ofNat 64 (3 * (k + 1)) := by
    rw [h.rbx]
    bv_omega
  rw [hnext]
  apply loadPixel_congr
  intro x hx
  rw [h.mem, savePixel_of_le]
  have hlow : 3 ≤ 3 * (k + 1) := by omega
  have hhigh : 3 * (k + 1) + 3 ≤ 2 ^ 64 := by omega
  clear hnext hk
  generalize 3 * (k + 1) = i at *
  bv_omega

theorem execAll_turn (h : VectorsLoaded s) :
    ∃ s', execAll s ((packSetToXmm ++ (processMatrix ++ saveFiltered)) ++ advance) = some s' ∧
      Turned s s' := by
  obtain ⟨s₁, hexec, hloaded, hreg, hmem⟩ := execAll_pixel h
  rw [execAll_append, hexec]
  refine ⟨_, rfl, ⟨hloaded.b, hloaded.g, hloaded.r, hloaded.maxValues⟩, hmem, ?_, ?_, ?_, ?_⟩
  all_goals simp [pixelSizeWord, hreg]

/-- It changes two registers. -/
theorem keeps_of_execAll_turn (h : VectorsLoaded s) {s' : State}
    (hexec : execAll s ((packSetToXmm ++ (processMatrix ++ saveFiltered)) ++ advance) = some s') :
    Keeps [.rbx, .r15] s s' := by
  obtain ⟨s₁, hpixel, -, hreg, -⟩ := execAll_pixel h
  rw [execAll_append, hpixel] at hexec
  obtain rfl := Option.some.inj hexec
  exact (Keeps.iff_of_left fun r _ => by rw [hreg]).mp (by simp)

/-- **One turn of the loop** ends it when the counter, less one pixel, is negative. -/
theorem simdFilterLoop_turnsKeeping (hP : P.block = blocks) (h : VectorsLoaded s) (top : Word) :
    P.RunsIn (fun _ => True) top (.at .simdFilterLoop 0) s fun c s' =>
      c = (if (s.reg .r15 - 3).toInt < 0 then .at .simdFilterEnd 0 else .at .simdFilterLoop 0) ∧
      Turned s s' ∧ Keeps [.rbx, .r15] s s' := by
  obtain ⟨s', hexec, hturn⟩ := execAll_turn h
  have hkeeps := keeps_of_execAll_turn h hexec
  refine RunsIn.straight hP [] (show (blocks .simdFilterLoop).code = [] ++ (_ ++ _) from rfl)
    hexec (fun _ _ _ _ _ => trivial) ?_
  apply RunsIn.jcc hP rfl (by rw [hturn.flags]; exact holds_l_ofSub _ _)
  · intro hneg
    exact RunsIn.done ⟨(if_pos hneg).symm, hturn, hkeeps⟩
  · intro hnot
    apply RunsIn.jmp hP rfl
    exact RunsIn.done ⟨(if_neg hnot).symm, hturn, hkeeps⟩

theorem simdFilterLoop_turnsIn (hP : P.block = blocks) (h : VectorsLoaded s) (top : Word) :
    P.RunsIn (fun _ => True) top (.at .simdFilterLoop 0) s fun c s' => Turned s s' ∧
      c = if (s.reg .r15 - 3).toInt < 0 then .at .simdFilterEnd 0 else .at .simdFilterLoop 0 := by
  refine RunsIn.mono (simdFilterLoop_turnsKeeping hP h top) ?_
  rintro c s' ⟨hc, hturn, -⟩
  exact ⟨hturn, hc⟩

theorem simdFilterLoop_turn (hP : P.block = blocks) (h : VectorsLoaded s)
    {Q : Control Label → State → Prop}
    (hend : ∀ s', Turned s s' → (s.reg .r15 - 3).toInt < 0 →
      P.Runs (.at .simdFilterEnd 0) s' Q)
    (hback : ∀ s', Turned s s' → ¬ (s.reg .r15 - 3).toInt < 0 →
      P.Runs (.at .simdFilterLoop 0) s' Q) :
    P.Runs (.at .simdFilterLoop 0) s Q := by
  refine Runs.bind (RunsIn.runs (simdFilterLoop_turnsIn hP h 0)) ?_
  rintro c s' ⟨hturn, rfl⟩
  split_ifs with hneg
  · exact hend s' hturn hneg
  · exact hback s' hturn hneg

/-- The turns of the loop for a counter of `n` bytes. A counter whose sign is still set after the
first turn ends the loop at once. -/
def loopTurns (n : ℕ) : ℕ := if n < 2 ^ 63 + 3 then n / 3 + 1 else 1

/-- A difference of counters, by its sign. -/
theorem counter_sub_nonneg_iff (v : Word) :
    ¬ (v - 3).toInt < 0 ↔ 3 ≤ v.toNat ∧ v.toNat < 2 ^ 63 + 3 := by
  rw [BitVec.toInt_neg_iff]
  bv_omega

/-- **The loop ends**, whatever the counter is. -/
theorem simdFilterLoop_ends (hP : P.block = blocks) (h : VectorsLoaded s) (top : Word)
    (hn : (s.reg .r15).toNat = n) :
    P.RunsIn (fun _ => True) top (.at .simdFilterLoop 0) s fun c s' =>
      c = .at .simdFilterEnd 0 ∧
      s'.reg .rbx = s.reg .rbx + BitVec.ofNat 64 (3 * loopTurns n) ∧
      s'.reg .r15 = s.reg .r15 - BitVec.ofNat 64 (3 * loopTurns n) ∧
      Keeps [.rbx, .r15] s s' := by
  induction n using Nat.strongRecOn generalizing s with
  | ind n ih =>
      refine RunsIn.bind (simdFilterLoop_turnsKeeping hP h top) ?_
      rintro c s₁ ⟨rfl, hturn, hkeeps⟩
      have hsign := counter_sub_nonneg_iff (s.reg .r15)
      by_cases hneg : (s.reg .r15 - 3).toInt < 0
      · have hturns : loopTurns n = 1 := by
          unfold loopTurns
          split_ifs <;> omega
        rw [if_pos hneg, hturns]
        exact RunsIn.done ⟨rfl, hturn.rbx, hturn.r15, hkeeps⟩
      · have hbounds := hsign.mp hneg
        have hturns : loopTurns n = loopTurns (n - 3) + 1 := by
          unfold loopTurns
          rw [if_pos (by omega), if_pos (by omega)]
          omega
        have hless : (s₁.reg .r15).toNat = n - 3 := by
          rw [hturn.r15]
          bv_omega
        rw [if_neg hneg, hturns]
        refine RunsIn.mono (ih (n - 3) (by omega) hturn.loaded hless) ?_
        rintro c s' ⟨rfl, hrbx, hr15, hkeeps'⟩
        refine ⟨rfl, ?_, ?_, hkeeps.trans hkeeps'⟩
        · rw [hrbx, hturn.rbx]
          bv_omega
        · rw [hr15, hturn.r15]
          bv_omega

/-- The counter with a pixel less. -/
theorem counter_sub (n : ℕ) :
    BitVec.ofNat 64 (3 * (n + 1)) - 3 = BitVec.ofNat 64 (3 * n) := by
  bv_omega

/-- **The turn too many**: the loop comes back to its start behind the last pixel. -/
theorem simdFilterLoop_comesBack (hP : P.block = blocks) (h : VectorsLoaded s) (top : Word)
    (hr15 : s.reg .r15 = BitVec.ofNat 64 (3 * n)) (hn : 3 * n < 2 ^ 63) :
    P.RunsIn (fun _ => True) top (.at .simdFilterLoop 0) s fun c s' =>
      c = .at .simdFilterLoop 0 ∧ s'.reg .rbx = s.reg .rbx + BitVec.ofNat 64 (3 * n) := by
  induction n generalizing s with
  | zero => exact RunsIn.done ⟨rfl, (BitVec.add_zero _).symm⟩
  | succ n ih =>
      refine RunsIn.bind (simdFilterLoop_turnsIn hP h top) ?_
      rintro c s' ⟨hturn, rfl⟩
      rw [hr15, counter_sub, toInt_counter (by omega), if_neg (by omega)]
      have hr15' := hturn.r15
      rw [hr15, counter_sub] at hr15'
      refine RunsIn.mono (ih hturn.loaded hr15' (by omega)) ?_
      rintro c s'' ⟨rfl, hrbx⟩
      refine ⟨rfl, ?_⟩
      rw [hrbx, hturn.rbx]
      bv_omega

/-- **The loop** filters the `n` pixels that its counter stands for and the one behind them. -/
theorem simdFilterLoop_runs (hP : P.block = blocks) (h : VectorsLoaded s)
    (hr15 : s.reg .r15 = BitVec.ofNat 64 (3 * n)) (hn : 3 * n < 2 ^ 63)
    (hapart : ∀ x : Word, (x - s.reg .rsp).toNat < 8 → 3 * n + 3 ≤ (x - s.reg .rbx).toNat) :
    P.Runs (.at .simdFilterLoop 0) s fun c s' =>
      c = P.goto (s.mem.read64 (s.reg .rsp)) ∧ s'.reg .rsp = s.reg .rsp + 8 ∧
        (∀ k ≤ n, loadPixel s'.mem (s.reg .rbx + BitVec.ofNat 64 (3 * k)) =
          asmPixel (loadPixel s.mem (s.reg .rbx + BitVec.ofNat 64 (3 * k)))) ∧
        ∀ x : Word, 3 * n + 3 ≤ (x - s.reg .rbx).toNat → s'.mem x = s.mem x := by
  have hfirst : ∀ a : Word, a + BitVec.ofNat 64 (3 * 0) = a := fun a => BitVec.add_zero a
  induction n generalizing s with
  | zero =>
      apply simdFilterLoop_turn hP h
      · intro s' hturn _
        apply Runs.ret hP rfl
        refine ⟨by rw [hturn.read64_eq hapart], by simp [hturn.rsp], ?_, ?_⟩
        · intro k hk
          rw [Nat.le_zero.mp hk, hfirst]
          show loadPixel s'.mem (s.reg .rbx) = _
          rw [hturn.mem, loadPixel_savePixel]
        · intro x hx
          show s'.mem x = s.mem x
          rw [hturn.mem, savePixel_of_le _ hx]
      · intro s' _ hnot
        rw [hr15] at hnot
        exact absurd (by decide) hnot
  | succ n ih =>
      have hless : s.reg .r15 - 3 = BitVec.ofNat 64 (3 * n) := by rw [hr15, counter_sub]
      apply simdFilterLoop_turn hP h
      · intro s' _ hneg
        rw [hless, toInt_counter (by omega)] at hneg
        omega
      · intro s' hturn _
        have hrest := ih hturn.loaded (hturn.r15.trans hless) (by omega) (by
          intro x hx
          rw [hturn.rsp] at hx
          have := hapart x hx
          rw [hturn.rbx]
          bv_omega)
        refine Runs.mono hrest ?_
        rintro c s₂ ⟨hc, hrsp, hpixels, hframe⟩
        rw [hturn.rbx] at hframe
        refine ⟨?_, by rw [hrsp, hturn.rsp], ?_, ?_⟩
        · rw [hc, hturn.read64_eq fun x hx => by have := hapart x hx; omega]
        · intro k hk
          cases k with
          | zero =>
              -- the rest of the loop leaves this pixel alone
              have hkept : loadPixel s₂.mem (s.reg .rbx) = loadPixel s'.mem (s.reg .rbx) := by
                apply loadPixel_congr
                intro x hx
                apply hframe
                bv_omega
              rw [hfirst, hkept, hturn.mem, loadPixel_savePixel]
          | succ k =>
              have hpixel := hpixels k (by omega)
              rw [hturn.loadPixel_next (by omega)] at hpixel
              rw [← hpixel, hturn.rbx]
              congr 1
              bv_omega
        · intro x hx
          rw [hframe x (by bv_omega), hturn.mem, savePixel_of_le _ (by omega)]

/-! ## The call -/

/-- `simd_filter(out->height, out->width, out->data)` of `filter_asm`: the pixels of `out` are in
memory behind `rdx`, and the return address is neither in them nor in the pixel behind them. -/
structure CallsSimdFilter (out : Image) (s : State) : Prop where
  height : s.reg .rdi = BitVec.ofNat 64 out.height
  width : s.reg .rsi = BitVec.ofNat 64 out.width
  data : ∀ k < out.width * out.height, ∀ p, out.load k = some p →
    loadPixel s.mem (s.reg .rdx + BitVec.ofNat 64 (3 * k)) = p
  apart : ∀ x : Word, (x - s.reg .rsp).toNat < 8 →
    3 * (out.width * out.height) + 3 ≤ (x - s.reg .rdx).toNat

/-- The code before the loop loads the vectors and counts the bytes of the pixels. -/
theorem execAll_simdFilter (s : State) :
    ∃ s', execAll s (blocks .simdFilter).code = some s' ∧ VectorsLoaded s' ∧
      s'.reg .rbx = s.reg .rdx ∧ s'.reg .rsp = s.reg .rsp ∧ s'.mem = s.mem ∧
      s'.reg .r15 = BitVec.ofNat 64 (3 * ((s.reg .rdi).toNat * (s.reg .rsi).toNat)) := by
  have hcount : BitVec.ofNat 64 ((s.reg .rdi).toNat * (s.reg .rsi).toNat % 2 ^ 64 * 3) =
      BitVec.ofNat 64 (3 * ((s.reg .rdi).toNat * (s.reg .rsi).toNat)) := by
    apply BitVec.eq_of_toNat_eq
    rw [BitVec.toNat_ofNat, BitVec.toNat_ofNat]
    omega
  refine ⟨_, rfl, ⟨rfl, rfl, rfl, rfl⟩, ?_, ?_, rfl, ?_⟩
  · simp
  · simp
  · simpa [pixelSizeWord] using hcount

theorem reg_of_execAll_simdFilter {s' : State}
    (hexec : execAll s (blocks .simdFilter).code = some s') :
    s'.reg .r12 = s.reg .rdi ∧ s'.reg .r13 = s.reg .rsi ∧ s'.reg .r14 = s.reg .rdx ∧
      s'.reg .rbp = s.reg .rbp := by
  obtain rfl := Option.some.inj hexec
  simp

/-- What the counter of the loop begins with. -/
def byteCount (s : State) : ℕ := 3 * ((s.reg .rdi).toNat * (s.reg .rsi).toNat) % 2 ^ 64

/-- **`simd_filter` comes to its return**, and the registers that it used are as it left them. -/
theorem simdFilter_finishes (hP : P.block = blocks) (s : State) :
    P.Finishes .simdFilter s fun s' =>
      s'.reg .rbx = s.reg .rdx + BitVec.ofNat 64 (3 * loopTurns (byteCount s)) ∧
      s'.reg .rbp = s.reg .rbp ∧ s'.reg .r12 = s.reg .rdi ∧ s'.reg .r13 = s.reg .rsi ∧
      s'.reg .r14 = s.reg .rdx ∧
      s'.reg .r15 = BitVec.ofNat 64 (byteCount s) -
        BitVec.ofNat 64 (3 * loopTurns (byteCount s)) := by
  obtain ⟨s₁, hexec, hloaded, hrbx, hrsp, -, hr15⟩ := execAll_simdFilter s
  obtain ⟨hr12, hr13, hr14, hrbp⟩ := reg_of_execAll_simdFilter hexec
  have hcount : BitVec.ofNat 64 (3 * ((s.reg .rdi).toNat * (s.reg .rsi).toNat)) =
      BitVec.ofNat 64 (byteCount s) := by
    apply BitVec.eq_of_toNat_eq
    rw [BitVec.toNat_ofNat, BitVec.toNat_ofNat, byteCount, Nat.mod_mod]
  rw [hcount] at hr15
  have hvalue : (s₁.reg .r15).toNat = byteCount s := by
    rw [hr15, BitVec.toNat_ofNat, byteCount, Nat.mod_mod]
  apply RunsIn.finishes
  refine RunsIn.straight hP [] (show (blocks .simdFilter).code =
    [] ++ ((blocks .simdFilter).code ++ []) from rfl) hexec (fun _ _ _ _ _ => trivial) ?_
  apply RunsIn.fall hP rfl rfl
  refine RunsIn.mono (simdFilterLoop_ends hP hloaded _ hvalue) ?_
  rintro c s' ⟨rfl, hrbx', hr15', hkeeps⟩
  refine ⟨RunsIn.atReturn hP rfl ((hkeeps .rsp (by decide)).trans hrsp), ?_, ?_, ?_, ?_, ?_, ?_⟩
  · rw [hrbx', hrbx]
  · rw [hkeeps .rbp (by decide), hrbp]
  · rw [hkeeps .r12 (by decide), hr12]
  · rw [hkeeps .r13 (by decide), hr13]
  · rw [hkeeps .r14 (by decide), hr14]
  · rw [hr15', hr15]

theorem execAll_prologue {out : Image} (h : CallsSimdFilter out s) :
    ∃ s', execAll s (blocks .simdFilter).code = some s' ∧ VectorsLoaded s' ∧
      s'.reg .rbx = s.reg .rdx ∧ s'.reg .rsp = s.reg .rsp ∧ s'.mem = s.mem ∧
      s'.reg .r15 = BitVec.ofNat 64 (3 * (out.width * out.height)) := by
  obtain ⟨s', hexec, hloaded, hrbx, hrsp, hmem, hr15⟩ := execAll_simdFilter s
  refine ⟨s', hexec, hloaded, hrbx, hrsp, hmem, ?_⟩
  rw [hr15, h.height, h.width, BitVec.toNat_ofNat, BitVec.toNat_ofNat, Nat.mul_comm out.width]
  apply BitVec.eq_of_toNat_eq
  rw [BitVec.toNat_ofNat, BitVec.toNat_ofNat, Nat.mul_mod, ← Nat.mul_mod out.height,
    Nat.mul_mod_mod]

/-- **`simd_filter`** filters every pixel and returns. -/
theorem simdFilter_returns (hP : P.block = blocks) {out : Image} (h : CallsSimdFilter out s)
    (hsize : 3 * (out.width * out.height) < 2 ^ 63) :
    P.Returns .simdFilter s fun s' => ∀ k < out.width * out.height,
      loadPixel s'.mem (s.reg .rdx + BitVec.ofNat 64 (3 * k)) =
        asmPixel (loadPixel s.mem (s.reg .rdx + BitVec.ofNat 64 (3 * k))) := by
  obtain ⟨s', hexec, hloaded, hrbx, hrsp, hmem, hr15⟩ := execAll_prologue h
  refine Runs.straight hP [] (show (blocks .simdFilter).code =
    [] ++ ((blocks .simdFilter).code ++ []) from rfl) hexec ?_
  apply Runs.fall hP rfl rfl
  refine Runs.mono (simdFilterLoop_runs hP hloaded hr15 hsize ?_) ?_
  · rw [hrsp, hrbx]
    exact h.apart
  · rintro c s₂ ⟨hc, hrsp₂, hpixels, -⟩
    rw [hmem, hrbx] at hpixels
    refine ⟨by rw [hc, hmem, hrsp], by rw [hrsp₂, hrsp], fun k hk => hpixels k hk.le⟩

end LowLevel.Interface.Sepia
