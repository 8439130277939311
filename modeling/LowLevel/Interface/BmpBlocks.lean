import LowLevel.Interface.BmpReading
import LowLevel.Program.ImageTransformer

/-!
# The blocks that `from_bmp` leaves

The loops of `from_bmp` store pixels and leave every pointer as it is. So what the caller
finds depends on the two allocations and on the header: no image, an image whose data was
never assigned, one with a null pointer for data, or one with both blocks.
-/

set_option autoImplicit false

namespace LowLevel.Interface

open LowLevel.Library LowLevel.Program.ImageRotation LowLevel.Program.Bmp
open LowLevel.Program.ImageTransformer

/-- From `p` to `q` no block was handed out or released, and no pointer assigned. -/
structure SameBlocks (p q : Process) : Prop where
  grants_eq : q.grants = p.grants
  sizes_eq : q.sizes = p.sizes
  images_eq : q.images = p.images
  img_eq : q.img = p.img
  freed_eq : q.freed = p.freed

theorem SameBlocks.trans {p q r : Process} (h : SameBlocks p q) (h' : SameBlocks q r) :
    SameBlocks p r where
  grants_eq := h'.grants_eq.trans h.grants_eq
  sizes_eq := h'.sizes_eq.trans h.sizes_eq
  images_eq := h'.images_eq.trans h.images_eq
  img_eq := h'.img_eq.trans h.img_eq
  freed_eq := h'.freed_eq.trans h.freed_eq

/-! ## The loops -/

variable {p : Process}

theorem readColumns_sameBlocks (data n cur : ℕ) (p : Process) :
    SameBlocks p (readColumns data n cur p).2 := by
  induction n generalizing p cur with
  | zero => exact ⟨rfl, rfl, rfl, rfl, rfl⟩
  | succ n ih =>
      rw [readColumns_succ]
      dsimp only
      split_ifs
      · exact ⟨rfl, rfl, rfl, rfl, rfl⟩
      · exact ⟨(ih _ _).grants_eq, (ih _ _).sizes_eq, (ih _ _).images_eq, (ih _ _).img_eq,
          (ih _ _).freed_eq⟩

/-- **The loops** leave the blocks. -/
theorem readRows_sameBlocks (data width padding n cur : ℕ) (p : Process) :
    SameBlocks p (readRows data width padding n cur p).2 := by
  induction n generalizing p cur with
  | zero => exact ⟨rfl, rfl, rfl, rfl, rfl⟩
  | succ n ih =>
      have hcols := readColumns_sameBlocks data width cur p
      rw [readRows_succ]
      rcases hrun : readColumns data width cur p with ⟨_ | cur', p'⟩
      · rw [hrun] at hcols
        exact hcols
      · rw [hrun] at hcols
        have hseek : SameBlocks p { p' with pos := p'.pos + padding } :=
          ⟨hcols.grants_eq, hcols.sizes_eq, hcols.images_eq, hcols.img_eq, hcols.freed_eq⟩
        exact hseek.trans (ih _ _)

/-! ## The exits of `from_bmp` -/

/-- The process when the source file is open and nothing is allocated. -/
def started (content : List Byte) (grants : List Bool) : Process :=
  { Process.opened content with grants := grants }

/-- The file has a header of the type. -/
def HasHeader (content : List Byte) : Prop :=
  sizeofBmpHeader ≤ content.length ∧
    (BmpHeader.ofBytes (content.take sizeofBmpHeader)).bfType = bmpType

variable {content : List Byte} {grants : List Bool}

/-- Without a block for the image. -/
theorem fromBmp_of_refused (content : List Byte) (hgrant : grants.head? = some false) :
    (fromBmp (started content grants)).1 = .noEnoughMemory ∧
      (fromBmp (started content grants)).2.img = .null := by
  rw [fromBmp_run, malloc_of_refused _ hgrant]
  exact ⟨rfl, rfl⟩

/-- With a block for the image, but no header. -/
theorem fromBmp_of_not_hasHeader (hgrant : grants.head? ≠ some false)
    (hheader : ¬ HasHeader content) :
    (fromBmp (started content grants)).1 ≠ .ok ∧
      (fromBmp (started content grants)).2.img = .heap 0 ∧
      ((fromBmp (started content grants)).2.images 0).data = .indeterminate ∧
      (fromBmp (started content grants)).2.freed = [] := by
  rw [fromBmp_run, malloc_of_head _ hgrant]
  dsimp only [started, Process.opened]
  rw [List.drop_zero, List.length_take]
  by_cases hlen : content.length < sizeofBmpHeader
  · rw [if_pos (by omega)]
    exact ⟨nofun, rfl, rfl, rfl⟩
  · have htype : (BmpHeader.ofBytes (content.take sizeofBmpHeader)).bfType ≠ bmpType :=
      fun h => hheader ⟨by omega, h⟩
    rw [if_neg (by omega), if_pos htype]
    exact ⟨nofun, rfl, rfl, rfl⟩

/-- The process when `from_bmp` has read the header: the image is block 0. -/
def headed (content : List Byte) (grants : List Bool) : Process :=
  let p := started content grants
  { p with
    grants := grants.tail
    sizes := [sizeofImage]
    images := Function.update p.images 0 ⟨none, none, .indeterminate⟩
    pixels := Function.update p.pixels 0 fun _ => none
    img := .heap 0
    pos := sizeofBmpHeader }

/-- With a header the rest of `from_bmp` runs. -/
theorem fromBmp_of_hasHeader (hgrant : grants.head? ≠ some false) (hheader : HasHeader content) :
    fromBmp (started content grants) =
      fromHeader 0 (BmpHeader.ofBytes (content.take sizeofBmpHeader)) (headed content grants) := by
  have hlen : (content.take sizeofBmpHeader).length = sizeofBmpHeader :=
    List.length_take_of_le hheader.1
  rw [fromBmp_run, headed, malloc_of_head _ hgrant]
  dsimp only [started, Process.opened]
  rw [List.drop_zero, if_neg (by omega), if_neg (not_not.mpr hheader.2), hlen, Nat.zero_add]
  rfl

/-- No image but its own has pixels assigned. -/
theorem fromHeader_other {id id' : ℕ} (header : BmpHeader) (p : Process) (hid : id' ≠ id) :
    (fromHeader id header p).2.images id' = p.images id' ∨
      (fromHeader id header p).2.images id' = ⟨none, none, .indeterminate⟩ := by
  unfold fromHeader
  by_cases hgrant : (withDims id header p).2.grants.head? = some false
  · rw [malloc_of_refused _ hgrant]
    exact .inl ((Function.update_of_ne hid _ _).trans (Function.update_of_ne hid _ _))
  · rw [malloc_of_head _ hgrant]
    dsimp only
    rw [(readRows_sameBlocks _ _ _ _ _ _).images_eq]
    rcases eq_or_ne id' p.sizes.length with rfl | hid'
    · exact .inr ((Function.update_of_ne hid _ _).trans (Function.update_self ..))
    · exact .inl ((Function.update_of_ne hid _ _).trans
        ((Function.update_of_ne hid' _ _).trans (Function.update_of_ne hid _ _)))

/-- With a header, but no block for the pixels. -/
theorem fromBmp_of_refused_pixels (hgrant : grants.head? ≠ some false)
    (hheader : HasHeader content) (hpixels : grants.tail.head? = some false) :
    (fromBmp (started content grants)).1 ≠ .ok ∧
      (fromBmp (started content grants)).2.img = .heap 0 ∧
      ((fromBmp (started content grants)).2.images 0).data = .null ∧
      (fromBmp (started content grants)).2.freed = [.null] ∧
      (fromBmp (started content grants)).2.sizes.length = 1 := by
  rw [fromBmp_of_hasHeader hgrant hheader]
  unfold fromHeader
  rw [malloc_of_refused _ hpixels]
  exact ⟨nofun, rfl, rfl, rfl, rfl⟩

/-- The process when the loops of `from_bmp` start: the image is block 0, its pixels are
block 1. -/
structure RowsStart (content : List Byte) (grants : List Bool) (header : BmpHeader)
    (q : Process) : Prop where
  content_eq : q.content = content
  pos_eq : q.pos = header.bOffBits.toNat
  grants_eq : q.grants = grants.drop 2
  sizes_eq : q.sizes =
    [sizeofImage, mul64 (mul64 pixelSize header.biWidth.toNat) header.biHeight.toNat]
  image_eq : q.images 0 = ⟨some header.biWidth.toNat, some header.biHeight.toNat, .heap 1⟩
  img_eq : q.img = .heap 0
  freed_eq : q.freed = []
  stores_eq : q.stores = []

/-- With a header and both blocks `from_bmp` is its loops, on block 1. -/
theorem fromBmp_of_blocks (hgrant : grants.head? ≠ some false) (hheader : HasHeader content)
    (hpixels : grants.tail.head? ≠ some false) {header : BmpHeader}
    (heq : BmpHeader.ofBytes (content.take sizeofBmpHeader) = header) :
    ∃ q, RowsStart content grants header q ∧ fromBmp (started content grants) =
      readRows 1 header.biWidth.toNat (calcPadding header.biWidth.toNat) header.biHeight.toNat 0
        q := by
  have htail : grants.tail.tail = grants.drop 2 := by
    cases grants with
    | nil => rfl
    | cons _ grants => exact List.drop_one.symm
  rw [fromBmp_of_hasHeader hgrant hheader, heq]
  unfold fromHeader
  rw [malloc_of_head _ hpixels]
  exact ⟨_, ⟨rfl, rfl, htail, rfl, rfl, rfl, rfl, rfl⟩, rfl⟩

/-- What the loops leave as it is. -/
theorem fromBmp_of_granted (hgrant : grants.head? ≠ some false) (hheader : HasHeader content)
    (hpixels : grants.tail.head? ≠ some false) :
    (fromBmp (started content grants)).2.img = .heap 0 ∧
      ((fromBmp (started content grants)).2.images 0).data = .heap 1 ∧
      (fromBmp (started content grants)).2.freed = [] ∧
      (fromBmp (started content grants)).2.sizes.length = 2 ∧
      (fromBmp (started content grants)).2.grants = grants.drop 2 := by
  obtain ⟨q, hstart, hrun⟩ := fromBmp_of_blocks hgrant hheader hpixels rfl
  rw [hrun, (readRows_sameBlocks _ _ _ _ _ _).img_eq, (readRows_sameBlocks _ _ _ _ _ _).images_eq,
    (readRows_sameBlocks _ _ _ _ _ _).freed_eq, (readRows_sameBlocks _ _ _ _ _ _).sizes_eq,
    (readRows_sameBlocks _ _ _ _ _ _).grants_eq, hstart.image_eq, hstart.sizes_eq]
  exact ⟨hstart.img_eq, rfl, hstart.freed_eq, rfl, hstart.grants_eq⟩

/-! ## Releasing -/

/-- Releasing an image in memory: its data, then itself. -/
theorem clearImagesMemory_heap (id : ℕ) (images : List Ptr) (p : Process) :
    clearImagesMemory (.heap id :: images) p =
      clearImagesMemory images { p with freed := p.freed ++ [(p.images id).data, .heap id] } := by
  show clearImagesMemory images
    { p with freed := p.freed ++ [(p.images id).data] ++ [.heap id] } = _
  rw [List.append_assoc]
  rfl

theorem leave_one (id code : ℕ) (p : Process) : leave [.heap id] code p =
    (.exit code, { p with freed := p.freed ++ [(p.images id).data, .heap id] }) := by
  unfold leave
  rw [Stateful.bind_apply, clearImagesMemory_heap]
  rfl

theorem leave_two (id id' code : ℕ) (p : Process) : leave [.heap id, .heap id'] code p =
    (.exit code, { p with freed := p.freed ++
      [(p.images id).data, .heap id, (p.images id').data, .heap id'] }) := by
  unfold leave
  rw [Stateful.bind_apply, clearImagesMemory_heap, clearImagesMemory_heap]
  show (Outcome.exit code, _) = _
  rw [List.append_assoc]
  rfl

/-! ## The image that a transformation makes -/

/-- From `p` to `q` the image got the next block, with `data` for its pixels, and `blocks` were
handed out behind it. -/
structure Placed (result : Image) (data : Ptr) (blocks : List ℕ) (p q : Process) : Prop where
  sizes_eq : q.sizes = p.sizes ++ sizeofImage :: blocks
  image_eq : q.images p.sizes.length = ⟨some result.width, some result.height, data⟩
  images_eq : ∀ id < p.sizes.length, q.images id = p.images id
  unset : ∀ id > p.sizes.length,
    q.images id = p.images id ∨ q.images id = ⟨none, none, .indeterminate⟩
  freed_eq : q.freed = p.freed
  stores_eq : q.stores = p.stores

/-- Without a block for the image. -/
theorem placeImage_of_refused (result : Image) (hgrant : p.grants.head? = some false) :
    placeImage result p = (none, { p with grants := p.grants.tail }) := by
  unfold placeImage
  rw [Stateful.bind_apply, malloc_of_refused _ hgrant]
  rfl

/-- The process when the block for the image is handed out and its dimensions are assigned. -/
def dimensioned (result : Image) (p : Process) : Process :=
  { p with
    grants := p.grants.tail
    sizes := p.sizes ++ [sizeofImage]
    images := Function.update p.images p.sizes.length
      ⟨some result.width, some result.height, .indeterminate⟩
    pixels := Function.update p.pixels p.sizes.length fun _ => none }

/-- With the block for the image the rest of `init_image` and the loop run. -/
theorem placeImage_run (result : Image) (hgrant : p.grants.head? ≠ some false) :
    placeImage result p =
      match malloc result.data.bytes (dimensioned result p) with
      | (none, q) =>
          (if result.width * result.height = 0 then some (.heap p.sizes.length) else none,
            (modifyImage p.sizes.length ({ · with data := .null }) q).2)
      | (some data, q) =>
          (some (.heap p.sizes.length),
            let q := (modifyImage p.sizes.length ({ · with data := .heap data }) q).2
            { q with pixels := Function.update q.pixels data result.data.cells }) := by
  have hdims : Function.update (Function.update p.images p.sizes.length
      ⟨none, none, .indeterminate⟩) p.sizes.length
      ⟨some result.width, some result.height, .indeterminate⟩ =
        Function.update p.images p.sizes.length
          ⟨some result.width, some result.height, .indeterminate⟩ := Function.update_idem ..
  unfold placeImage
  rw [Stateful.bind_apply, malloc_of_head _ hgrant]
  dsimp only
  rw [Stateful.bind_apply, Stateful.bind_apply]
  dsimp only [modifyImage]
  rw [Stateful.modify_apply]
  dsimp only
  rw [Function.update_self, hdims]
  unfold dimensioned
  generalize malloc result.data.bytes _ = answer
  obtain ⟨_ | data, q⟩ := answer <;> rfl

/-- Without a block for the pixels. -/
theorem placeImage_of_refused_pixels (result : Image) (hgrant : p.grants.head? ≠ some false)
    (hpixels : p.grants.tail.head? = some false) :
    (placeImage result p).1 =
        (if result.width * result.height = 0 then some (.heap p.sizes.length) else none) ∧
      Placed result .null [] p (placeImage result p).2 := by
  have hother : ∀ id ≠ p.sizes.length, ∀ cell, Function.update (dimensioned result p).images
      p.sizes.length cell id = p.images id := fun id hid cell =>
    (Function.update_of_ne hid _ _).trans (Function.update_of_ne hid _ _)
  have himage : (dimensioned result p).images p.sizes.length =
      ⟨some result.width, some result.height, .indeterminate⟩ := Function.update_self ..
  rw [placeImage_run result hgrant, malloc_of_refused _ hpixels]
  refine ⟨rfl, rfl, (Function.update_self ..).trans ?_, fun id hid => hother id hid.ne _,
    fun id hid => .inl (hother id hid.ne' _), rfl, rfl⟩
  dsimp only
  rw [himage]

/-- With both blocks. -/
theorem placeImage_of_blocks (result : Image) (hgrant : p.grants.head? ≠ some false)
    (hpixels : p.grants.tail.head? ≠ some false) :
    (placeImage result p).1 = some (.heap p.sizes.length) ∧
      Placed result (.heap (p.sizes.length + 1)) [result.data.bytes] p (placeImage result p).2 := by
  have hlen : (dimensioned result p).sizes.length = p.sizes.length + 1 := List.length_append
  have hother : ∀ id ≠ p.sizes.length, ∀ cell cell', Function.update (Function.update
      (dimensioned result p).images (p.sizes.length + 1) cell) p.sizes.length cell' id =
        if id = p.sizes.length + 1 then cell else p.images id := by
    intro id hid cell cell'
    rw [Function.update_of_ne hid, Function.update_apply]
    exact if_congr Iff.rfl rfl (Function.update_of_ne hid _ _)
  have himage : Function.update (dimensioned result p).images (p.sizes.length + 1)
      ⟨none, none, .indeterminate⟩ p.sizes.length =
        ⟨some result.width, some result.height, .indeterminate⟩ :=
    (Function.update_of_ne (Nat.ne_of_lt (Nat.lt_succ_self _)) _ _).trans (Function.update_self ..)
  rw [placeImage_run result hgrant, malloc_of_head _ hpixels, hlen]
  refine ⟨rfl, List.append_assoc .., (Function.update_self ..).trans ?_,
    fun id hid => (hother id hid.ne _ _).trans (if_neg (by omega)), fun id hid => ?_, rfl, rfl⟩
  · dsimp only
    rw [himage]
  · by_cases hid' : id = p.sizes.length + 1
    · exact .inr ((hother id hid.ne' _ _).trans (if_pos hid'))
    · exact .inl ((hother id hid.ne' _ _).trans (if_neg hid'))

/-- The two blocks of an image that a transformation makes. -/
theorem placeImage_of_granted (result : Image) (hgrants : ∀ granted ∈ p.grants, granted = true) :
    (placeImage result p).1 = some (.heap p.sizes.length) ∧
      Placed result (.heap (p.sizes.length + 1)) [result.data.bytes] p (placeImage result p).2 := by
  have hhead : ∀ l : List Bool, (∀ granted ∈ l, granted = true) → l.head? ≠ some false :=
    fun l hl hfalse => absurd (hl false (List.mem_of_mem_head? hfalse)) (by decide)
  exact placeImage_of_blocks result (hhead _ hgrants)
    (hhead _ fun granted hgranted => hgrants granted (List.mem_of_mem_tail hgranted))

/-! ## `main` -/

theorem transform_of_not_ok (angle : ℤ) (g : Garbage) (out : Option OutFile) {p : Process}
    (h : (fromBmp p).1 ≠ .ok) :
    transform angle g out p = leave [(fromBmp p).2.img] 1 (fromBmp p).2 := by
  unfold transform
  rw [Stateful.bind_apply]
  generalize (fromBmp p).1 = status at h ⊢
  cases status
  case ok => exact absurd rfl h
  all_goals rfl

/-- `main` with an image that was read, when the allocations of `init_image` succeed: both
images are released, whatever becomes of the output file. -/
theorem transform_of_ok (angle : ℤ) (g : Garbage) (out : Option OutFile) {p : Process} {id : ℕ}
    (h : (fromBmp p).1 = .ok) (himg : (fromBmp p).2.img = .heap id)
    (hgrants : ∀ granted ∈ (fromBmp p).2.grants, granted = true) :
    ∃ code result, transform angle g out p =
      leave [.heap id, .heap (fromBmp p).2.sizes.length] code
        (placeImage result (fromBmp p).2).2 := by
  set q := (fromBmp p).2 with hq
  set result := rotated angle (Process.image q id)
  have hplace : (placeImage result q).1 = some (.heap q.sizes.length) :=
    (placeImage_of_granted result hgrants).1
  unfold transform
  rw [Stateful.bind_apply, h]
  dsimp only
  rw [Stateful.bind_apply, Stateful.get_apply, ← hq]
  dsimp only
  rw [himg]
  dsimp only
  rw [Stateful.bind_apply, hplace]
  cases out with
  | none => exact ⟨1, result, rfl⟩
  | some out =>
      dsimp only
      cases (toBmp g result out).1 with
      | error => exact ⟨1, result, rfl⟩
      | ok => exact ⟨0, result, rfl⟩

end LowLevel.Interface
