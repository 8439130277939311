import LowLevel.Interface.SepiaLoop

/-!
# The two sepia filters

`filter_c` cuts a sum off where `filter_asm` rounds it to the nearest integer, so the two agree on
an image exactly when no sum of it is rounded up to a byte.
-/

set_option autoImplicit false

namespace LowLevel.Analysis

open LowLevel.Library LowLevel.Library.X86 LowLevel.Program.ImageRotation
open LowLevel.Program.SepiaFilter LowLevel.Interface LowLevel.Interface.Sepia

/-- The filters agree on an image: wherever the copy stands in memory, `simd_filter` returns and
leaves the pixels of `filter_c` there. -/
def FiltersAgree (img : Image) : Prop :=
  ∀ P : Program Label, P.block = blocks → ∀ s, CallsSimdFilter (copyImage img) s →
    P.Returns .simdFilter s fun s' => ∀ k < img.width * img.height, ∀ p,
      (filterC img).load k = some p →
        loadPixel s'.mem (s.reg .rdx + BitVec.ofNat 64 (3 * k)) = p

/-! ## One sum -/

/-- A sum in thousandths that is not rounded up, or is cut off at 255 anyway. -/
def RoundsDown (v : ℕ) : Prop :=
  v % 1000 < 500 ∨ v % 1000 = 500 ∧ v / 1000 % 2 = 0 ∨ 255 ≤ v / 1000

instance (v : ℕ) : Decidable (RoundsDown v) := inferInstanceAs (Decidable (_ ∨ _))

theorem sat_eq (n : ℕ) : sat n = BitVec.ofNat 8 (min n 255) := by
  unfold sat
  by_cases h : n > 255
  · rw [if_pos h, min_eq_right h.le]
    rfl
  · rw [if_neg h, min_eq_left (Nat.not_lt.mp h)]

/-- The two conversions give one byte. -/
theorem asmByte_eq_sat_iff (v : ℕ) : asmByte v = sat (v / 1000) ↔ RoundsDown v := by
  have hbytes : asmByte v = sat (v / 1000) ↔ min (rounded v) 255 = min (v / 1000) 255 := by
    rw [sat_eq, asmByte, ← BitVec.toNat_inj, BitVec.toNat_ofNat, BitVec.toNat_ofNat,
      Nat.mod_eq_of_lt (by omega), Nat.mod_eq_of_lt (by omega)]
  rw [hbytes]
  unfold rounded RoundsDown
  split_ifs <;> omega

theorem asmPixel_eq_filterPixel_iff (p : Pixel) : asmPixel p = filterPixel p ↔
    RoundsDown (blueSum p) ∧ RoundsDown (greenSum p) ∧ RoundsDown (redSum p) := by
  rw [← asmByte_eq_sat_iff, ← asmByte_eq_sat_iff, ← asmByte_eq_sat_iff, asmPixel, filterPixel,
    Pixel.mk.injEq]

/-! ## A placement -/

/-- The pixels of an image from `4096` on, and nothing else. -/
def placedMemory (img : Image) : Memory := fun x =>
  let i := (x - 4096).toNat
  if i < 3 * (img.width * img.height) then
    match img.load (i / 3) with
    | none => 0
    | some p => if i % 3 = 0 then p.b else if i % 3 = 1 then p.g else p.r
  else 0

/-- A call of `simd_filter` with the stack at the end of the memory. -/
def placed (img : Image) : State :=
  (((State.fresh (placedMemory img) (-16) []).setReg .rdi (BitVec.ofNat 64 img.height)).setReg
    .rsi (BitVec.ofNat 64 img.width)).setReg .rdx 4096

variable {img : Image}

theorem placedMemory_apply {k i : ℕ} (hsize : 3 * (img.width * img.height) < 2 ^ 63)
    (hk : k < img.width * img.height) (hi : i < 3) {p : Pixel} (hp : img.load k = some p) :
    placedMemory img (4096 + BitVec.ofNat 64 (3 * k + i)) =
      if i = 0 then p.b else if i = 1 then p.g else p.r := by
  have hoffset := Memory.offset_add 4096 (show 3 * k + i < 2 ^ 64 by omega)
  unfold placedMemory
  dsimp only
  rw [hoffset, if_pos (by omega), show (3 * k + i) / 3 = k by omega, hp,
    show (3 * k + i) % 3 = i by omega]

theorem callsSimdFilter_placed (hsize : 3 * (img.width * img.height) < 2 ^ 63) :
    CallsSimdFilter img (placed img) := by
  have hrsp : (placed img).reg .rsp = BitVec.ofNat 64 (2 ^ 64 - 16) := rfl
  have hrdx : (placed img).reg .rdx = 4096#64 := rfl
  refine ⟨rfl, rfl, fun k hk p hp => ?_, fun x hx => ?_⟩
  · have hnext : ∀ i : ℕ, (4096#64 + BitVec.ofNat 64 (3 * k)) + BitVec.ofNat 64 i =
        4096 + BitVec.ofNat 64 (3 * k + i) := by
      intro i
      rw [BitVec.ofNat_add, BitVec.add_assoc]
      rfl
    have hbyte := fun i hi => placedMemory_apply hsize hk (i := i) hi hp
    rw [hrdx]
    show Pixel.mk (placedMemory img (4096#64 + BitVec.ofNat 64 (3 * k)))
      (placedMemory img (4096#64 + BitVec.ofNat 64 (3 * k) + BitVec.ofNat 64 1))
      (placedMemory img (4096#64 + BitVec.ofNat 64 (3 * k) + BitVec.ofNat 64 2)) = p
    rw [hnext, hnext, hbyte 1 (by omega), hbyte 2 (by omega)]
    have hfirst := hbyte 0 (by omega)
    rw [Nat.add_zero] at hfirst
    rw [show (4096#64 : Word) = 4096 from rfl, hfirst]
    rfl
  · rw [hrsp] at hx
    rw [hrdx]
    bv_omega

theorem goto_placed (hsize : 3 * (img.width * img.height) < 2 ^ 63) :
    inOrder.goto ((placed img).mem.read64 ((placed img).reg .rsp)) = .outside 0 := by
  have hempty : (placed img).mem.read64 ((placed img).reg .rsp) =
      Memory.read64 (fun _ => 0) ((placed img).reg .rsp) := by
    apply Memory.read64_congr
    intro x hx
    have hfar := (callsSimdFilter_placed hsize).apart x hx
    exact if_neg (show ¬ (x - 4096).toNat < 3 * (img.width * img.height) by
      have : (x - (placed img).reg .rdx) = x - 4096 := rfl
      rw [this] at hfar
      omega)
  have hbytes : Memory.bytes (fun _ => 0) ((placed img).reg .rsp) 8 = List.replicate 8 0 := by
    simp [Memory.bytes]
  rw [hempty, Memory.read64, hbytes]
  decide

/-! ## The images they agree on -/

/-- The copy has as many pixels as the image. -/
theorem size_copyImage (hsize : 3 * (img.width * img.height) < 2 ^ 63) :
    (copyImage img).width * (copyImage img).height = img.width * img.height := by
  have hsame := sameImage_of_picture_eq (@picture_copyImage img (by omega))
  rw [hsame.width_eq, hsame.height_eq]

/-- What `filter_asm` makes of the pixels of an image. -/
theorem simdFilter_copy_returns {P : Program Label} (hP : P.block = blocks) {s : State}
    (hcall : CallsSimdFilter (copyImage img) s)
    (hsize : 3 * (img.width * img.height) < 2 ^ 63) :
    P.Returns .simdFilter s fun s' => ∀ k < img.width * img.height, ∀ p,
      img.load k = some p →
        loadPixel s'.mem (s.reg .rdx + BitVec.ofNat 64 (3 * k)) = asmPixel p := by
  have hcount := size_copyImage hsize
  refine Runs.mono (simdFilter_returns hP hcall (by rw [hcount]; exact hsize)) ?_
  rintro c s' ⟨hc, hrsp, hpixels⟩
  refine ⟨hc, hrsp, fun k hk p hp => ?_⟩
  have hcopied : (copyImage img).load k = some p := by rw [load_copyImage (by omega) hk, hp]
  rw [hpixels k (by rw [hcount]; exact hk), hcall.data k (by rw [hcount]; exact hk) p hcopied]

/-- **Two ways to a byte**: the filters agree when they agree pixel by pixel, and not otherwise. -/
theorem filtersAgree_iff_pixels (hsize : 3 * (img.width * img.height) < 2 ^ 63) :
    FiltersAgree img ↔ ∀ k < img.width * img.height, ∀ p, img.load k = some p →
      asmPixel p = filterPixel p := by
  have hfiltered : ∀ k < img.width * img.height, ∀ p, img.load k = some p →
      (filterC img).load k = some (filterPixel p) := by
    intro k hk p hp
    rw [load_filterC (by omega) hk, hp, Option.map_some]
  constructor
  · intro hagree k hk p hp
    have hplaced : 3 * ((copyImage img).width * (copyImage img).height) < 2 ^ 63 := by
      rw [size_copyImage hsize]
      exact hsize
    have hcall := callsSimdFilter_placed hplaced
    -- the run that `hagree` speaks of is the run that filters the copy
    obtain ⟨s', hc, hasm⟩ := Program.Returns.and (goto_placed hplaced) (hagree inOrder rfl _ hcall)
      (simdFilter_copy_returns rfl hcall hsize)
    exact (hasm k hk p hp).symm.trans (hc k hk _ (hfiltered k hk p hp))
  · intro hpixels P hP s hcall
    refine Runs.mono (simdFilter_copy_returns hP hcall hsize) ?_
    rintro c s' ⟨hc, hrsp, hasm⟩
    refine ⟨hc, hrsp, fun k hk q hq => ?_⟩
    rw [load_filterC (by omega) hk] at hq
    obtain ⟨p, hp, rfl⟩ := Option.map_eq_some_iff.mp hq
    rw [hasm k hk p hp, hpixels k hk p hp]

/-- **The sepia filters agree** on an image exactly when no sum of it is rounded up to a byte. The
pixels are one object, and no object has `2 ^ 63` bytes. -/
theorem filters_agree_iff (hsize : 3 * (img.width * img.height) < 2 ^ 63) :
    FiltersAgree img ↔ ∀ k < img.width * img.height, ∀ p, img.load k = some p →
      RoundsDown (blueSum p) ∧ RoundsDown (greenSum p) ∧ RoundsDown (redSum p) := by
  rw [filtersAgree_iff_pixels hsize]
  exact forall₂_congr fun k _ => forall₂_congr fun p _ => asmPixel_eq_filterPixel_iff p

/-- An image of one pixel. -/
def onePixelImage (p : Pixel) : Image :=
  ⟨1, 1, ⟨pixelSize, fun k => if k = 0 then some p else none⟩⟩

theorem filters_agree_iff_forty : FiltersAgree (onePixelImage ⟨40, 40, 40⟩) := by
  apply (filters_agree_iff (by decide)).mpr
  intro k hk p hp
  rw [Nat.lt_one_iff.mp hk] at hp
  rw [← Option.some.inj hp]
  decide

/-- On the darkest grey, the sum for the blue colour is 937 thousandths. -/
theorem filters_disagree : ¬ FiltersAgree (onePixelImage ⟨1, 1, 1⟩) := by
  intro h
  have hpixel := (filtersAgree_iff_pixels (by decide)).mp h 0 (by decide) _ rfl
  revert hpixel
  decide

end LowLevel.Analysis
