import LowLevel.Analysis.RowPadding
import LowLevel.Interface.BmpBlocks
import LowLevel.Interface.RotationLoop

/-!
# The sizes of the pixel buffers

`from_bmp` and `init_image` ask for `3 * width * height` bytes modulo `2 ^ 64`, and the loops
count up to the width and the height. The buffers hold what the loops store exactly when the
product does not wrap around, which a header of 32-bit dimensions does not ensure.
-/

set_option autoImplicit false

namespace LowLevel.Analysis

open LowLevel.Library LowLevel.Interface LowLevel.Program.ImageRotation LowLevel.Program.Bmp
open LowLevel.Program.ImageTransformer

variable {header : BmpHeader} {content : List Byte} {grants : List Bool}

/-- The transformations, each with the accesses of its loop. -/
def transformations : List ((Image → Image) × RotationLoop) :=
  [(copyImage, copyImageLoop), (rotate90, rotate90Loop), (rotate90Reverse, rotate90ReverseLoop),
    (rotate180, rotate180Loop)]

theorem performs_of_mem_transformations {t : (Image → Image) × RotationLoop}
    (ht : t ∈ transformations) (source : Image) : t.1 source = t.2.perform source := by
  simp only [transformations, List.mem_cons, List.not_mem_nil, or_false] at ht
  rcases ht with rfl | rfl | rfl | rfl
  · exact copyImage_eq source
  · exact rotate90_eq source
  · exact rotate90Reverse_eq source
  · exact rotate180_eq source

/-- No buffer is too small for what is stored in it: not the block of `from_bmp` for the pixels
of a file with this header, whatever follows in the file and whatever `malloc` answers, and
not the block of `init_image` for a transformation of an image that was read from one. -/
structure BuffersSuffice (header : BmpHeader) : Prop where
  reading : ∀ content grants, content.take sizeofBmpHeader = header.bytes →
    3 * (fromBmp (started content grants)).2.stores.length ≤
      (fromBmp (started content grants)).2.sizes.getD 1 0
  rotating : ∀ content grants, content.take sizeofBmpHeader = header.bytes →
    (fromBmp (started content grants)).1 = .ok → ∀ t ∈ transformations,
    3 * (t.2.accesses (Process.image (fromBmp (started content grants)).2 0)).length ≤
      (t.1 (Process.image (fromBmp (started content grants)).2 0)).data.bytes

/-! ## Reading -/

theorem hasHeader_of_take (htype : header.bfType = bmpType)
    (hstart : content.take sizeofBmpHeader = header.bytes) : HasHeader content := by
  have hlen := congrArg List.length hstart
  rw [length_header, List.length_take] at hlen
  refine ⟨by omega, ?_⟩
  rw [hstart, ofBytes_bytes, htype]

theorem dims_mul_lt (header : BmpHeader) :
    header.biHeight.toNat * header.biWidth.toNat < 2 ^ 64 :=
  calc header.biHeight.toNat * header.biWidth.toNat < 2 ^ 32 * 2 ^ 32 :=
        Nat.mul_lt_mul'' header.biHeight.isLt header.biWidth.isLt
    _ = 2 ^ 64 := by norm_num

/-- The size that `from_bmp` asks for. -/
theorem mul64_mul64 (w h : ℕ) : mul64 (mul64 pixelSize w) h = 3 * w * h % 2 ^ 64 := by
  unfold mul64 pixelSize
  rw [Nat.mod_mul_mod]

/-- With both blocks `from_bmp` is its loops. -/
theorem fromBmp_of_take (htype : header.bfType = bmpType)
    (hstart : content.take sizeofBmpHeader = header.bytes) (hgrant : grants.head? ≠ some false)
    (hpixels : grants.tail.head? ≠ some false) :
    ∃ q, RowsStart content grants header q ∧ fromBmp (started content grants) =
      readRows 1 header.biWidth.toNat (calcPadding header.biWidth.toNat) header.biHeight.toNat 0
        q :=
  fromBmp_of_blocks hgrant (hasHeader_of_take htype hstart) hpixels
    (by rw [hstart, ofBytes_bytes])

/-- Without one of the blocks nothing is stored. -/
theorem stores_of_refused (htype : header.bfType = bmpType)
    (hstart : content.take sizeofBmpHeader = header.bytes)
    (hrefused : grants.head? = some false ∨ grants.tail.head? = some false) :
    (fromBmp (started content grants)).2.stores = [] ∧
      (fromBmp (started content grants)).1 = .noEnoughMemory := by
  by_cases hgrant : grants.head? = some false
  · rw [fromBmp_run, malloc_of_refused _ hgrant]
    exact ⟨rfl, rfl⟩
  · rw [fromBmp_of_hasHeader hgrant (hasHeader_of_take htype hstart)]
    unfold fromHeader
    rw [malloc_of_refused _ (hrefused.resolve_left hgrant)]
    exact ⟨rfl, rfl⟩

/-- A file that holds every pixel of a header has all of them stored. -/
theorem exists_all_stored (htype : header.bfType = bmpType) : ∃ content,
    content.take sizeofBmpHeader = header.bytes ∧
      (fromBmp (started content [])).2.stores.length =
        header.biHeight.toNat * header.biWidth.toNat ∧
      (fromBmp (started content [])).2.sizes.getD 1 0 =
        3 * header.biWidth.toNat * header.biHeight.toNat % 2 ^ 64 := by
  set stride := pixelSize * header.biWidth.toNat + calcPadding header.biWidth.toNat with hstride
  set content := header.bytes ++
    List.replicate (header.bOffBits.toNat + header.biHeight.toNat * stride) 0 with hcontent
  have hstart : content.take sizeofBmpHeader = header.bytes := by
    rw [hcontent, ← length_header header, List.take_left]
  obtain ⟨q, hq, hrun⟩ :=
    fromBmp_of_take htype hstart (show ([] : List Bool).head? ≠ some false by decide) (by decide)
  have hin : InFile q.content q.pos stride header.biWidth.toNat header.biHeight.toNat := by
    intro i hi j hj
    have hrow : (i + 1) * stride ≤ header.biHeight.toNat * stride := Nat.mul_le_mul_right _ hi
    have hpixel : pixelSize * (j + 1) ≤ pixelSize * header.biWidth.toNat :=
      Nat.mul_le_mul_left _ hj
    rw [Nat.succ_mul] at hrow
    rw [Nat.mul_succ] at hpixel
    rw [hq.content_eq, hq.pos_eq, hcontent, List.length_append, List.length_replicate]
    omega
  refine ⟨content, hstart, ?_, ?_⟩
  · rw [hrun, readRows_stores_length hin (by rw [Nat.zero_add]; exact dims_mul_lt header),
      hq.stores_eq, List.length_nil, Nat.zero_add]
  · rw [hrun, (readRows_sameBlocks _ _ _ _ _ _).sizes_eq, hq.sizes_eq, mul64_mul64]
    rfl

/-- A header whose product wraps around has a file that overruns the buffer. -/
theorem lt_of_buffersSuffice (htype : header.bfType = bmpType) (h : BuffersSuffice header) :
    3 * header.biWidth.toNat * header.biHeight.toNat < 2 ^ 64 := by
  obtain ⟨content, hstart, hstores, hsize⟩ := exists_all_stored htype
  have hfits := h.reading content [] hstart
  have hwrap := Nat.mod_lt (3 * header.biWidth.toNat * header.biHeight.toNat)
    (show 0 < 2 ^ 64 by norm_num)
  have hcount : 3 * (header.biHeight.toNat * header.biWidth.toNat) =
      3 * header.biWidth.toNat * header.biHeight.toNat := by ring
  rw [hstores, hsize, hcount] at hfits
  omega

/-! ## Rotating -/

/-- The buffer of a transformation, and the number of its stores. -/
theorem transformation_sizes {source : Image} {t : (Image → Image) × RotationLoop}
    (ht : t ∈ transformations) (hsize : source.width * source.height < 2 ^ 64) :
    (t.1 source).data.bytes = 3 * source.width * source.height % 2 ^ 64 ∧
      (t.2.accesses source).length = source.width * source.height := by
  have hstart : (t.2.start source).width * (t.2.start source).height < 2 ^ 64 := by
    rw [RotationLoop.start_size]
    exact hsize
  constructor
  · rw [performs_of_mem_transformations ht, perform_eq, (filled_roatate _ hstart).bytes_eq]
    exact mul64_mul64 source.width source.height
  · have hstores : (t.2.accesses source).map (fun a => a.1.wrap (2 ^ 64)) =
        List.range (source.width * source.height) := RotationLoop.map_store hsize
    have hlen := congrArg List.length hstores
    rwa [List.length_map, List.length_range] at hlen

/-- **When the buffers suffice**: when `3 * width * height` does not wrap around. -/
theorem buffersSuffice_iff (header : BmpHeader) (htype : header.bfType = bmpType) :
    BuffersSuffice header ↔ 3 * header.biWidth.toNat * header.biHeight.toNat < 2 ^ 64 := by
  refine ⟨lt_of_buffersSuffice htype, fun hsize => ⟨?_, ?_⟩⟩
  · intro content grants hstart
    by_cases hrefused : grants.head? = some false ∨ grants.tail.head? = some false
    · rw [(stores_of_refused htype hstart hrefused).1]
      exact Nat.zero_le _
    · obtain ⟨hgrant, hpixels⟩ := not_or.mp hrefused
      obtain ⟨q, hq, hrun⟩ := fromBmp_of_take htype hstart hgrant hpixels
      have hcount := readRows_stores_length_le 1 header.biWidth.toNat
        (calcPadding header.biWidth.toNat) header.biHeight.toNat 0 q
      have hproduct : 3 * (header.biHeight.toNat * header.biWidth.toNat) =
          3 * header.biWidth.toNat * header.biHeight.toNat := by ring
      rw [hq.stores_eq, List.length_nil] at hcount
      rw [hrun, (readRows_sameBlocks _ _ _ _ _ _).sizes_eq, hq.sizes_eq, mul64_mul64,
        Nat.mod_eq_of_lt hsize]
      show _ ≤ 3 * header.biWidth.toNat * header.biHeight.toNat
      omega
  · intro content grants hstart hok t ht
    by_cases hrefused : grants.head? = some false ∨ grants.tail.head? = some false
    · rw [(stores_of_refused htype hstart hrefused).2] at hok
      cases hok
    · obtain ⟨hgrant, hpixels⟩ := not_or.mp hrefused
      obtain ⟨q, hq, hrun⟩ := fromBmp_of_take htype hstart hgrant hpixels
      set source := Process.image (fromBmp (started content grants)).2 0 with hsource
      have hcell : (fromBmp (started content grants)).2.images 0 =
          ⟨some header.biWidth.toNat, some header.biHeight.toNat, .heap 1⟩ := by
        rw [hrun, (readRows_sameBlocks _ _ _ _ _ _).images_eq, hq.image_eq]
      have hw : source.width = header.biWidth.toNat := by
        rw [hsource, Process.image, hcell]
        rfl
      have hh : source.height = header.biHeight.toNat := by
        rw [hsource, Process.image, hcell]
        rfl
      have hpixels : source.width * source.height < 2 ^ 64 := by
        rw [hw, hh, Nat.mul_comm]
        exact dims_mul_lt header
      obtain ⟨hbytes, hcount⟩ := transformation_sizes ht hpixels
      rw [hbytes, hcount, hw, hh, Nat.mod_eq_of_lt hsize, Nat.mul_assoc]

/-- The highest picture of the greatest width whose buffers suffice. -/
theorem buffersSuffice_widest : BuffersSuffice (headerOf 4294967295 1431655765) :=
  (buffersSuffice_iff (headerOf 4294967295 1431655765) rfl).mpr (by decide)

/-- The product of these dimensions, three bytes each, is `2 ^ 64 + 4394`. -/
theorem not_buffersSuffice_wrapped : ¬ BuffersSuffice (headerOf 4293443238 1432163965) := by
  intro h
  have hlt := lt_of_buffersSuffice rfl h
  exact absurd hlt (by decide)

end LowLevel.Analysis
