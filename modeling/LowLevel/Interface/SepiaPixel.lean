import LowLevel.Interface.ImagePicture
import LowLevel.Library.X86.Straight
import LowLevel.Program.SepiaFilter
import Mathlib.Tactic.FieldSimp

/-!
# One pixel of the sepia filters

The macros of `filter.asm` on one pixel: the three colours are spread over the lanes, weighed
and added, and each sum is rounded to the nearest integer and cut off at 255.
-/

set_option autoImplicit false

namespace LowLevel.Interface.Sepia

open LowLevel.Library LowLevel.Library.X86 LowLevel.Program.ImageRotation
open LowLevel.Program.SepiaFilter

variable {s : State}

/-! ## Spreading a colour -/

/-- A colour in the lanes of the three colours of the result. -/
def colourLanes (b : Byte) : Lanes :=
  ⟨.number b.toNat, .number b.toNat, .number b.toNat, .number 0⟩

theorem setXmm_setXmm (s : State) (x : Xmm) (v v' : Lanes) :
    (s.setXmm x v).setXmm x v' = s.setXmm x v' := by
  simp only [State.setXmm, Function.update_idem]

/-- The lane of a byte that was put into an empty doubleword. -/
theorem toNumber_insertByte (b : Byte) :
    ((Lane.dword 0).insertByte 0 b).bind Lane.toNumber = some (.number b.toNat) := by
  have hb := b.isLt
  have hvalue : (BitVec.ofNat 32 b.toNat).toInt = b.toNat := by
    rw [BitVec.toInt_eq_toNat_of_lt (by rw [BitVec.toNat_ofNat]; omega), BitVec.toNat_ofNat,
      Nat.mod_eq_of_lt (by omega)]
  show some (Lane.number ((BitVec.ofNat 32 (0 + b.toNat * 1 + 0)).toInt : ℚ)) = _
  rw [Nat.zero_add, Nat.mul_one, Nat.add_zero, hvalue, Int.cast_natCast]

/-- **`pack_one_to_xmm`** spreads the byte it is pointed to. -/
theorem execAll_packOneToXmm (x : Xmm) (disp : Word) :
    execAll s (packOneToXmm x disp) =
      some (s.setXmm x (colourLanes (s.mem (s.reg .rbx + disp)))) := by
  set b := s.mem (s.reg .rbx + disp) with hb
  obtain ⟨lane, hlane, hnumber⟩ := Option.bind_eq_some_iff.mp (toNumber_insertByte b)
  have hzero : (Lane.dword 0).toNumber = some (.number 0) := rfl
  have h₀ : Lanes.zero.insertByte 0 b = some ⟨lane, .dword 0, .dword 0, .dword 0⟩ := by
    simp only [Lanes.insertByte, Lanes.zero, Nat.zero_div, Nat.zero_mod, hlane, Option.map_some]
  have h₁ : Lanes.insertByte 4 b ⟨lane, .dword 0, .dword 0, .dword 0⟩ =
      some ⟨lane, lane, .dword 0, .dword 0⟩ := by
    simp only [Lanes.insertByte, Nat.reduceDiv, Nat.reduceMod, hlane, Option.map_some]
  have h₂ : Lanes.insertByte 8 b ⟨lane, lane, .dword 0, .dword 0⟩ =
      some ⟨lane, lane, lane, .dword 0⟩ := by
    simp only [Lanes.insertByte, Nat.reduceDiv, Nat.reduceMod, hlane, Option.map_some]
  have h₃ : Lanes.map Lane.toNumber ⟨lane, lane, lane, .dword 0⟩ = some (colourLanes b) := by
    simp only [Lanes.map, hnumber, hzero]
    rfl
  simp only [packOneToXmm, execAll, Instr.exec, Option.bind_some, State.xmm_setXmm, if_true,
    State.mem_setXmm, State.addr_base, State.reg_setXmm, ← hb, h₀, h₁, h₂, h₃, Option.map_some,
    setXmm_setXmm]

theorem setXmm_comm (s : State) {x x' : Xmm} (h : x ≠ x') (v v' : Lanes) :
    (s.setXmm x v).setXmm x' v' = (s.setXmm x' v').setXmm x v := by
  simp only [State.setXmm, Function.update_comm h]

/-- **`pack_set_to_xmm`** spreads the three colours. -/
theorem execAll_packSetToXmm :
    execAll s packSetToXmm = some (((s.setXmm .xmm0 (colourLanes (s.mem (s.reg .rbx)))).setXmm
      .xmm1 (colourLanes (s.mem (s.reg .rbx + 1)))).setXmm
      .xmm2 (colourLanes (s.mem (s.reg .rbx + 2)))) := by
  have hzero : execAll s [Instr.zero (L := Label) .xmm0, .zero .xmm1, .zero .xmm2] =
      some (((s.setXmm .xmm0 .zero).setXmm .xmm1 .zero).setXmm .xmm2 .zero) := rfl
  rw [packSetToXmm, execAll_append, hzero, Option.bind_some, execAll_append, execAll_packOneToXmm,
    Option.bind_some, execAll_append, execAll_packOneToXmm, Option.bind_some,
    execAll_packOneToXmm]
  simp only [State.mem_setXmm, State.reg_setXmm]
  -- a register that is cleared first is not used before it is set
  rw [setXmm_comm _ (show Xmm.xmm2 ≠ .xmm0 by decide), setXmm_comm _ (show Xmm.xmm2 ≠ .xmm1 by
    decide), setXmm_setXmm, setXmm_comm _ (show Xmm.xmm1 ≠ .xmm0 by decide), setXmm_setXmm,
    setXmm_setXmm, show s.reg .rbx + 0 = s.reg .rbx from BitVec.add_zero _]

/-! ## Weighing the colours -/

/-- The vectors that `simd_filter` loads before its loop. -/
structure VectorsLoaded (s : State) : Prop where
  b : s.xmm .xmm3 = bVec
  g : s.xmm .xmm4 = gVec
  r : s.xmm .xmm5 = rVec
  maxValues : s.xmm .xmm6 = maxValuesVec

/-- The coefficients stay loaded while the low registers change. -/
theorem VectorsLoaded.setXmm (h : VectorsLoaded s) {x : Xmm} (hx : x ∈ [Xmm.xmm0, .xmm1, .xmm2])
    (v : Lanes) : VectorsLoaded (s.setXmm x v) := by
  have hother : ∀ x' ∉ [Xmm.xmm0, .xmm1, .xmm2], (s.setXmm x v).xmm x' = s.xmm x' := by
    intro x' hx'
    rw [State.xmm_setXmm, if_neg]
    rintro rfl
    exact hx' hx
  exact ⟨(hother _ (by decide)).trans h.b, (hother _ (by decide)).trans h.g,
    (hother _ (by decide)).trans h.r, (hother _ (by decide)).trans h.maxValues⟩

theorem VectorsLoaded.setMem (h : VectorsLoaded s) (m : Memory) : VectorsLoaded (s.setMem m) :=
  ⟨h.b, h.g, h.r, h.maxValues⟩

/-- The three sums of a pixel, in the order of the colours. -/
def sumLanes (p : Pixel) : Lanes :=
  ⟨.number (blueSum p / 1000), .number (greenSum p / 1000), .number (redSum p / 1000), .number 0⟩

section Numbers

variable (a₀ a₁ a₂ a₃ c₀ c₁ c₂ c₃ : ℚ)

/-- `mulps`, where every lane holds a number. -/
theorem map₂_mul_number :
    Lanes.map₂ Lane.mul ⟨.number a₀, .number a₁, .number a₂, .number a₃⟩
      ⟨.number c₀, .number c₁, .number c₂, .number c₃⟩ =
      some ⟨.number (a₀ * c₀), .number (a₁ * c₁), .number (a₂ * c₂), .number (a₃ * c₃)⟩ := rfl

/-- `addps`, where every lane holds a number. -/
theorem map₂_add_number :
    Lanes.map₂ Lane.add ⟨.number a₀, .number a₁, .number a₂, .number a₃⟩
      ⟨.number c₀, .number c₁, .number c₂, .number c₃⟩ =
      some ⟨.number (a₀ + c₀), .number (a₁ + c₁), .number (a₂ + c₂), .number (a₃ + c₃)⟩ := rfl

end Numbers

/-- The lanes of the weighed colours, added, are the sums of the C filter. -/
theorem sumLanes_eq (p : Pixel) :
    sumLanes p = ⟨
      .number (p.b.toNat * (131 / 1000) + p.g.toNat * (534 / 1000) + p.r.toNat * (272 / 1000)),
      .number (p.b.toNat * (168 / 1000) + p.g.toNat * (686 / 1000) + p.r.toNat * (349 / 1000)),
      .number (p.b.toNat * (189 / 1000) + p.g.toNat * (769 / 1000) + p.r.toNat * (393 / 1000)),
      .number 0⟩ := by
  simp only [sumLanes, blueSum, greenSum, redSum, Lanes.mk.injEq, Lane.number.injEq, and_true]
  push_cast
  refine ⟨?_, ?_, ?_⟩ <;> ring

/-- **`process_matrix`** weighs and adds: the lanes are the sums of the C filter. -/
theorem execAll_processMatrix (h : VectorsLoaded s) {p : Pixel}
    (hb : s.xmm .xmm0 = colourLanes p.b) (hg : s.xmm .xmm1 = colourLanes p.g)
    (hr : s.xmm .xmm2 = colourLanes p.r) :
    ∃ s', execAll s processMatrix = some s' ∧ s'.xmm .xmm0 = sumLanes p ∧ VectorsLoaded s' ∧
      s'.reg = s.reg ∧ s'.mem = s.mem := by
  simp only [processMatrix, execAll, Instr.exec, hb, hg, hr, h.b, h.g, h.r, colourLanes, bVec, gVec,
    rVec, map₂_mul_number, map₂_add_number, Option.map_some, Option.bind_some, State.xmm_setXmm,
    reduceCtorEq, if_true, if_false, mul_zero, add_zero]
  refine ⟨_, rfl, ?_, ?_, rfl, rfl⟩
  · rw [State.xmm_setXmm, if_pos rfl]
    exact (sumLanes_eq p).symm
  · exact ((((h.setXmm (by decide) _).setXmm (by decide) _).setXmm (by decide) _).setXmm
      (by decide) _).setXmm (by decide) _

/-! ## Rounding the sums -/

/-- A number of thousandths, rounded to the nearest integer and to the even one of two. -/
def rounded (v : ℕ) : ℕ :=
  if v % 1000 < 500 then v / 1000
  else if 500 < v % 1000 then v / 1000 + 1
  else if v / 1000 % 2 = 0 then v / 1000 else v / 1000 + 1

/-- The conversion rounds to the nearest, ties to even. -/
theorem roundNearestEven_thousandths (v : ℕ) : roundNearestEven ((v : ℚ) / 1000) = rounded v := by
  have hfloor : ⌊(v : ℚ) / 1000⌋ = (v / 1000 : ℕ) := by
    have := Rat.floor_natCast_div_natCast v 1000
    push_cast at this ⊢
    exact this
  have hrest : (v : ℚ) / 1000 - (v / 1000 : ℕ) = (v % 1000 : ℕ) / 1000 := by
    have hsplit : ((1000 * (v / 1000) + v % 1000 : ℕ) : ℚ) = v := by rw [Nat.div_add_mod]
    rw [← hsplit]
    push_cast
    ring
  have hlow : ((v % 1000 : ℕ) : ℚ) / 1000 < 1 / 2 ↔ v % 1000 < 500 := by
    rw [div_lt_iff₀ (by norm_num), show (1 / 2 : ℚ) * 1000 = (500 : ℕ) by norm_num, Nat.cast_lt]
  have hhigh : 1 / 2 < ((v % 1000 : ℕ) : ℚ) / 1000 ↔ 500 < v % 1000 := by
    rw [lt_div_iff₀ (by norm_num), show (1 / 2 : ℚ) * 1000 = (500 : ℕ) by norm_num, Nat.cast_lt]
  have heven : ((v / 1000 : ℕ) : ℤ) % 2 = 0 ↔ v / 1000 % 2 = 0 := by omega
  unfold roundNearestEven rounded
  rw [hfloor]
  simp only [Int.cast_natCast, hrest, hlow, hhigh, heven]
  split_ifs <;> push_cast <;> rfl

/-- The byte that the assembly filter makes of a sum in thousandths. -/
def asmByte (v : ℕ) : Byte := BitVec.ofNat 8 (min (rounded v) 255)

/-- The colour in a doubleword, once it is converted and cut off. -/
def cutLane (v : ℕ) : Lane := .dword (BitVec.ofNat 32 (min (rounded v) 255))

theorem rounded_le (v : ℕ) : rounded v ≤ v / 1000 + 1 := by
  unfold rounded
  split_ifs <;> omega

/-- `cvtps2dq`, for a sum in range. -/
theorem toDword_thousandths {v : ℕ} (hv : v < 2 ^ 31) :
    Lane.toDword (.number (v / 1000)) = some (.dword (BitVec.ofNat 32 (rounded v))) := by
  have hle := rounded_le v
  unfold Lane.toDword
  dsimp only
  rw [roundNearestEven_thousandths, if_pos (by omega), BitVec.ofInt_natCast]

/-- `pminud` with 255. -/
theorem minUnsigned_rounded {v : ℕ} (hv : v < 2 ^ 31) :
    Lane.minUnsigned (.dword (BitVec.ofNat 32 (rounded v))) (.dword 255) = some (cutLane v) := by
  have hle := rounded_le v
  have hult : (BitVec.ofNat 32 (rounded v)).ult 255 = decide (rounded v < 255) := by
    rw [BitVec.ult, BitVec.toNat_ofNat, Nat.mod_eq_of_lt (by omega)]
    rfl
  unfold Lane.minUnsigned cutLane
  dsimp only
  rw [hult]
  by_cases hlt : rounded v < 255
  · rw [if_pos (decide_eq_true hlt), min_eq_left hlt.le]
  · rw [if_neg (by rw [decide_eq_false hlt]; exact Bool.false_ne_true),
      min_eq_right (by omega)]
    rfl

/-- `pextrb` takes the channel out of its lane. -/
theorem extractByte_cutLane (v : ℕ) : (cutLane v).extractByte 0 = some (asmByte v) := by
  unfold cutLane Lane.extractByte asmByte
  dsimp only
  rw [pow_zero, Nat.div_one, BitVec.toNat_ofNat, Nat.mod_eq_of_lt (by omega)]

/-! ## Saving the pixel -/

/-- What the assembly filter makes of a pixel. -/
def asmPixel (p : Pixel) : Pixel where
  b := asmByte (blueSum p)
  g := asmByte (greenSum p)
  r := asmByte (redSum p)

/-- The pixel at an address. -/
def loadPixel (m : Memory) (a : Word) : Pixel := ⟨m a, m (a + 1), m (a + 2)⟩

/-- The memory with a pixel saved colour by colour. -/
def savePixel (m : Memory) (a : Word) (p : Pixel) : Memory :=
  ((m.store (a + 0) [p.b]).store (a + 1) [p.g]).store (a + 2) [p.r]

/-- Three bytes are stored, and no others. -/
theorem savePixel_of_le {m : Memory} {a x : Word} (p : Pixel) (h : 3 ≤ (x - a).toNat) :
    savePixel m a p x = m x := by
  unfold savePixel
  rw [Memory.store_of_ne (by bv_omega), Memory.store_of_ne (by bv_omega),
    Memory.store_of_ne (by bv_omega)]

theorem store_self (m : Memory) (a : Word) (b : Byte) : m.store a [b] a = b := by
  rw [Memory.store_of_lt (by rw [BitVec.sub_self]; exact Nat.one_pos), BitVec.sub_self]
  rfl

theorem loadPixel_savePixel (m : Memory) (a : Word) (p : Pixel) :
    loadPixel (savePixel m a p) a = p := by
  unfold loadPixel savePixel
  rw [store_self, Memory.store_of_ne (show a + 1 ≠ a + 2 by bv_omega), store_self,
    Memory.store_of_ne (show a ≠ a + 2 by bv_omega),
    Memory.store_of_ne (show a ≠ a + 1 by bv_omega),
    show a + 0 = a from BitVec.add_zero a, store_self]

theorem loadPixel_congr {m m' : Memory} {a : Word}
    (h : ∀ x : Word, (x - a).toNat < 3 → m' x = m x) : loadPixel m' a = loadPixel m a := by
  unfold loadPixel
  rw [h a (by bv_omega), h (a + 1) (by bv_omega), h (a + 2) (by bv_omega)]

/-- The sums do not leave the range of `cvtps2dq`. -/
theorem sums_lt (p : Pixel) : blueSum p < 2 ^ 31 ∧ greenSum p < 2 ^ 31 ∧ redSum p < 2 ^ 31 := by
  have hb := p.b.isLt
  have hg := p.g.isLt
  have hr := p.r.isLt
  unfold blueSum greenSum redSum
  omega

/-- **`save_filtered`** converts the sums and stores them over the pixel. -/
theorem execAll_saveFiltered (h : VectorsLoaded s) {p : Pixel} (hsums : s.xmm .xmm0 = sumLanes p) :
    ∃ s', execAll s saveFiltered = some s' ∧ VectorsLoaded s' ∧ s'.reg = s.reg ∧
      s'.mem = savePixel s.mem (s.reg .rbx) (asmPixel p) := by
  obtain ⟨hblue, hgreen, hred⟩ := sums_lt p
  have hzero : Lane.toDword (.number 0) = some (.dword (BitVec.ofNat 32 (rounded 0))) := by
    have := toDword_thousandths (v := 0) (by norm_num)
    rwa [Nat.cast_zero, zero_div] at this
  have hconverted : Lanes.map Lane.toDword (sumLanes p) = some ⟨
      .dword (BitVec.ofNat 32 (rounded (blueSum p))),
      .dword (BitVec.ofNat 32 (rounded (greenSum p))),
      .dword (BitVec.ofNat 32 (rounded (redSum p))), .dword (BitVec.ofNat 32 (rounded 0))⟩ := by
    simp only [Lanes.map, sumLanes, toDword_thousandths hblue, toDword_thousandths hgreen,
      toDword_thousandths hred, hzero]
    rfl
  have hcut : Lanes.map₂ Lane.minUnsigned ⟨
      .dword (BitVec.ofNat 32 (rounded (blueSum p))),
      .dword (BitVec.ofNat 32 (rounded (greenSum p))),
      .dword (BitVec.ofNat 32 (rounded (redSum p))), .dword (BitVec.ofNat 32 (rounded 0))⟩
      maxValuesVec = some ⟨cutLane (blueSum p), cutLane (greenSum p), cutLane (redSum p),
        .dword 0⟩ := by
    simp only [Lanes.map₂, maxValuesVec, minUnsigned_rounded hblue, minUnsigned_rounded hgreen,
      minUnsigned_rounded hred]
    rfl
  set cut : Lanes := ⟨cutLane (blueSum p), cutLane (greenSum p), cutLane (redSum p), .dword 0⟩
  have hbytes : cut.extractByte 0 = some (asmPixel p).b ∧ cut.extractByte 4 = some (asmPixel p).g ∧
      cut.extractByte 8 = some (asmPixel p).r :=
    ⟨extractByte_cutLane _, extractByte_cutLane _, extractByte_cutLane _⟩
  simp only [saveFiltered, execAll, Instr.exec, hsums, hconverted, Option.map_some,
    Option.bind_some, State.xmm_setXmm, reduceCtorEq, if_true, if_false, h.maxValues, hcut,
    State.xmm_setMem, hbytes]
  refine ⟨_, rfl, ?_, rfl, rfl⟩
  exact ((((h.setXmm (by decide) _).setXmm (by decide) _).setMem _).setMem _).setMem _

/-- **The body of the loop** overwrites the pixel at `rbx`. -/
theorem execAll_pixel (h : VectorsLoaded s) :
    ∃ s', execAll s (packSetToXmm ++ (processMatrix ++ saveFiltered)) = some s' ∧
      VectorsLoaded s' ∧ s'.reg = s.reg ∧
      s'.mem = savePixel s.mem (s.reg .rbx) (asmPixel (loadPixel s.mem (s.reg .rbx))) := by
  set p := loadPixel s.mem (s.reg .rbx) with hp
  set packed := ((s.setXmm .xmm0 (colourLanes p.b)).setXmm .xmm1 (colourLanes p.g)).setXmm
    .xmm2 (colourLanes p.r) with hpacked
  have hloaded : VectorsLoaded packed :=
    ((h.setXmm (by decide) _).setXmm (by decide) _).setXmm (by decide) _
  obtain ⟨s₁, hmatrix, hsums, hloaded₁, hreg₁, hmem₁⟩ :=
    execAll_processMatrix hloaded (p := p) rfl rfl rfl
  obtain ⟨s₂, hsave, hloaded₂, hreg₂, hmem₂⟩ := execAll_saveFiltered hloaded₁ hsums
  refine ⟨s₂, ?_, hloaded₂, hreg₂.trans hreg₁, ?_⟩
  · rw [execAll_append, execAll_packSetToXmm]
    show (execAll packed _) = _
    rw [execAll_append, hmatrix]
    exact hsave
  · rw [hmem₂, hmem₁, hreg₁]
    rfl

end LowLevel.Interface.Sepia
