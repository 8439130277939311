import LowLevel.Interface.BmpBlocks

/-!
# What the image transformer releases

When the image block is allocated and the file has a header of the BMP type, every pointer
passed to `free` is null or a block that `malloc` handed out and that was not released
before. Otherwise `from_bmp` leaves a pointer that `main` must not release as it does: no
image, or an image whose data was never assigned.
-/

set_option autoImplicit false

namespace LowLevel.Analysis

open LowLevel.Library LowLevel.Interface LowLevel.Program.ImageRotation LowLevel.Program.Bmp
open LowLevel.Program.ImageTransformer

/-- The pointers were passed to `free` safely, in this order, when `n` blocks were handed
out: each is null, or one of the blocks and not among those before it. -/
def FreedSafely (n : ℕ) (freed : List Ptr) : Prop :=
  ∀ l ptr l', freed = l ++ ptr :: l' → ptr = .null ∨ ∃ id < n, ptr = .heap id ∧ ptr ∉ l

/-- **The run releases memory safely**: `clear_images_memory` follows no pointer without an
image behind it, and each pointer passed to `free` may be. -/
def ReleasesSafely (run : Outcome × Process) : Prop :=
  (∀ ptr, run.1 ≠ .follows ptr) ∧ FreedSafely run.2.sizes.length run.2.freed

variable {n : ℕ} {freed : List Ptr} {ptr : Ptr}

theorem freedSafely_nil (n : ℕ) : FreedSafely n [] := by
  intro l ptr l' h
  exact absurd h (by simp)

/-- One more pointer. -/
theorem FreedSafely.concat (h : FreedSafely n freed)
    (hptr : ptr = .null ∨ ∃ id < n, ptr = .heap id ∧ ptr ∉ freed) :
    FreedSafely n (freed ++ [ptr]) := by
  intro l ptr' l' heq
  rcases List.eq_nil_or_concat l' with rfl | ⟨l'', last, rfl⟩
  · obtain ⟨rfl, hlast⟩ := List.append_inj' heq rfl
    obtain rfl : ptr = ptr' := List.singleton_inj.mp hlast
    exact hptr
  · rw [List.concat_eq_append, ← List.cons_append, ← List.append_assoc] at heq
    exact h l ptr' l'' (List.append_inj' heq rfl).1

theorem FreedSafely.heap (h : FreedSafely n freed) (id : ℕ) (hid : id < n)
    (hfresh : Ptr.heap id ∉ freed) : FreedSafely n (freed ++ [.heap id]) :=
  h.concat (.inr ⟨id, hid, rfl, hfresh⟩)

/-- A pointer that was never assigned may not be released. -/
theorem not_freedSafely_indeterminate (h : Ptr.indeterminate ∈ freed) : ¬ FreedSafely n freed := by
  intro hsafe
  obtain ⟨l, l', heq⟩ := List.append_of_mem h
  rcases hsafe l _ l' heq with hnull | ⟨id, -, hheap, -⟩
  · cases hnull
  · cases hheap

variable {content : List Byte} {grants : List Bool} {angle : ℤ} {g : Garbage}
  {out : Option OutFile}

/-- Without a block for the image `main` follows a null pointer. -/
theorem transform_of_refused (hgrant : grants.head? = some false) :
    (transform angle g out (started content grants)).1 = .follows .null := by
  have hleft := fromBmp_of_refused content hgrant
  rw [transform_of_not_ok angle g out (by rw [hleft.1]; decide), hleft.2]
  rfl

/-- Without a header `main` releases data that was never assigned. -/
theorem transform_of_not_hasHeader (hgrant : grants.head? ≠ some false)
    (hheader : ¬ HasHeader content) :
    Ptr.indeterminate ∈ (transform angle g out (started content grants)).2.freed := by
  obtain ⟨hstatus, himg, hdata, hfreed⟩ := fromBmp_of_not_hasHeader hgrant hheader
  rw [transform_of_not_ok angle g out hstatus, himg, leave_one, hdata, hfreed]
  exact List.mem_cons_self

/-- With a header, but no block for the pixels. -/
theorem releasesSafely_of_refused_pixels (hgrant : grants.head? ≠ some false)
    (hheader : HasHeader content) (hpixels : grants.tail.head? = some false) :
    ReleasesSafely (transform angle g out (started content grants)) := by
  obtain ⟨hstatus, himg, hdata, hfreed, hsizes⟩ := fromBmp_of_refused_pixels hgrant hheader hpixels
  rw [transform_of_not_ok angle g out hstatus, himg, leave_one, hdata, hfreed]
  refine ⟨fun ptr => nofun, ?_⟩
  show FreedSafely (fromBmp _).2.sizes.length ([] ++ [.null] ++ [.null] ++ [.heap 0])
  rw [hsizes]
  exact (((freedSafely_nil 1).concat (.inl rfl)).concat (.inl rfl)).heap 0 (by decide) (by decide)

/-- With a header and both blocks. -/
theorem releasesSafely_of_granted (hgrant : grants.head? ≠ some false)
    (hheader : HasHeader content) (hpixels : grants.tail.head? ≠ some false)
    (hgrants : ∀ granted ∈ grants.drop 2, granted = true) :
    ReleasesSafely (transform angle g out (started content grants)) := by
  obtain ⟨himg, hdata, hfreed, hsizes, hrest⟩ := fromBmp_of_granted hgrant hheader hpixels
  by_cases hstatus : (fromBmp (started content grants)).1 = .ok
  · rw [← hrest] at hgrants
    obtain ⟨code, result, hrun⟩ := transform_of_ok angle g out hstatus himg hgrants
    obtain ⟨-, hplaced⟩ := placeImage_of_granted result hgrants
    rw [hrun, leave_two, hplaced.images_eq 0 (by omega), hdata, hplaced.image_eq, hplaced.freed_eq,
      hfreed, hsizes]
    refine ⟨fun ptr => nofun, ?_⟩
    show FreedSafely (placeImage _ _).2.sizes.length
      ([] ++ [.heap 1] ++ [.heap 0] ++ [.heap 3] ++ [.heap 2])
    rw [hplaced.sizes_eq, List.length_append, hsizes]
    have hread := ((freedSafely_nil 4).heap 1 (by decide) (by decide)).heap 0 (by decide)
      (by decide)
    exact (hread.heap 3 (by decide) (by decide)).heap 2 (by decide) (by decide)
  · rw [transform_of_not_ok angle g out hstatus, himg, leave_one, hdata, hfreed]
    refine ⟨fun ptr => nofun, ?_⟩
    show FreedSafely (fromBmp _).2.sizes.length ([] ++ [.heap 1] ++ [.heap 0])
    rw [hsizes]
    exact ((freedSafely_nil 2).heap 1 (by decide) (by decide)).heap 0 (by decide) (by decide)

/-- **Releasing is safe** exactly when the block of the image is allocated and the file
starts with a header of the BMP type. -/
theorem releases_safely_iff (content : List Byte) (grants : List Bool) (angle : ℤ) (g : Garbage)
    (out : Option OutFile) (hgrants : ∀ granted ∈ grants.drop 2, granted = true) :
    ReleasesSafely (transform angle g out (started content grants)) ↔
      grants.head? ≠ some false ∧ HasHeader content := by
  constructor
  · intro hsafe
    have hgrant : grants.head? ≠ some false :=
      fun hgrant => hsafe.1 _ (transform_of_refused hgrant)
    refine ⟨hgrant, ?_⟩
    by_contra hheader
    exact not_freedSafely_indeterminate (transform_of_not_hasHeader hgrant hheader) hsafe.2
  · rintro ⟨hgrant, hheader⟩
    by_cases hpixels : grants.tail.head? = some false
    · exact releasesSafely_of_refused_pixels hgrant hheader hpixels
    · exact releasesSafely_of_granted hgrant hheader hpixels hgrants

/-- The header of an image of one pixel. -/
def onePixelHeader : BmpHeader := createBmpHeader ⟨1, 1, ⟨3, fun _ => none⟩⟩

/-- A file that ends behind its header, with no memory for the pixels. -/
theorem releases_safely_iff_header_only :
    ReleasesSafely (transform 90 ⟨fun _ => ⟨0, 0, 0⟩, fun _ _ => 0⟩ none
      (started onePixelHeader.bytes [true, false])) := by
  have htake : onePixelHeader.bytes.take sizeofBmpHeader = onePixelHeader.bytes :=
    List.take_of_length_le (length_header onePixelHeader).le
  have hheader : HasHeader onePixelHeader.bytes :=
    ⟨(length_header onePixelHeader).ge, by rw [htake, ofBytes_bytes]; rfl⟩
  exact (releases_safely_iff onePixelHeader.bytes [true, false] 90
    ⟨fun _ => ⟨0, 0, 0⟩, fun _ _ => 0⟩ none (fun _ h => absurd h List.not_mem_nil)).mpr
    ⟨by decide, hheader⟩

/-- With a file that is not a BMP file data is released that was never assigned. -/
theorem not_bmp_releases_unassigned :
    (transform 90 ⟨fun _ => ⟨0, 0, 0⟩, fun _ _ => 0⟩ (some .opened) (started [0x4D] [])).2.freed =
        [.indeterminate, .heap 0] ∧
      ¬ ReleasesSafely (transform 90 ⟨fun _ => ⟨0, 0, 0⟩, fun _ _ => 0⟩ (some .opened)
        (started [0x4D] [])) := by
  have hfreed : (transform 90 ⟨fun _ => ⟨0, 0, 0⟩, fun _ _ => 0⟩ (some .opened)
      (started [0x4D] [])).2.freed = [.indeterminate, .heap 0] := by decide
  refine ⟨hfreed, fun hsafe => not_freedSafely_indeterminate ?_ hsafe.2⟩
  rw [hfreed]
  exact List.mem_cons_self

end LowLevel.Analysis
