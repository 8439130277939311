import LowLevel.Analysis.FileClasses
import LowLevel.Analysis.MemoryRelease
import LowLevel.Interface.RotationLoop
import LowLevel.Program.TransformerMain
import Mathlib.Data.List.GetD

/-!
# The memory of a run of the command

A run whose source file starts with a header, and is not too big, releases each block at most
once, releases nothing else, and stores pixels in blocks that hold them. Every step keeps this:
reading the file, making the turned image, releasing the images.
-/

set_option autoImplicit false

namespace LowLevel.Analysis

open LowLevel.Library LowLevel.Interface LowLevel.Program.ImageRotation LowLevel.Program.Bmp
open LowLevel.Program.ImageTransformer LowLevel.Program.AngleInput

/-- **The memory is used soundly**: what was passed to `free` may be, every pixel that `from_bmp`
stored lies in its block, and so does every pixel of an image in memory. -/
structure MemorySound (p : Process) : Prop where
  frees : FreedSafely p.sizes.length p.freed
  stores : ∀ s ∈ p.stores, pixelSize * (s.2 + 1) ≤ p.sizes.getD s.1 0
  buffers : ∀ id data, (p.images id).data = .heap data →
    pixelSize * ((p.images id).width.getD 0 * (p.images id).height.getD 0) ≤ p.sizes.getD data 0

/-- The block for the image is granted, the file starts with a header of the BMP type, and the
bytes of the pixels can be counted. -/
structure Readable (content : List Byte) (grants : List Bool) : Prop where
  granted : grants.head? ≠ some false
  hasHeader : HasHeader content
  size_lt : 3 * ((headerIn content).biWidth.toNat * (headerIn content).biHeight.toNat) < 2 ^ 64

variable {p q : Process} {content : List Byte} {grants : List Bool} {result img : Image}

theorem FreedSafely.mono {n m : ℕ} {freed : List Ptr} (h : FreedSafely n freed) (hle : n ≤ m) :
    FreedSafely m freed := by
  intro l ptr l' heq
  exact (h l ptr l' heq).imp_right fun ⟨id, hid, hrest⟩ => ⟨id, hid.trans_le hle, hrest⟩

/-- More blocks leave the sizes of those there are. -/
theorem getD_le_append (sizes blocks : List ℕ) (id : ℕ) :
    sizes.getD id 0 ≤ (sizes ++ blocks).getD id 0 := by
  rcases Nat.lt_or_ge id sizes.length with hid | hid
  · rw [List.getD_append _ _ _ _ hid]
  · rw [List.getD_eq_default _ _ hid]
    exact Nat.zero_le _

/-! ## The steps -/

/-- Releasing what may be released. -/
theorem MemorySound.release {freed : List Ptr} (h : MemorySound p)
    (hfreed : FreedSafely p.sizes.length freed) : MemorySound { p with freed := freed } :=
  ⟨hfreed, h.stores, h.buffers⟩

/-- **Making an image** whose pixels fit into the block that was asked for. -/
theorem MemorySound.placed {data : Ptr} {blocks : List ℕ} (h : MemorySound p)
    (hplaced : Placed result data blocks p q)
    (hdata : data = .null ∨ data = .heap (p.sizes.length + 1) ∧ blocks = [result.data.bytes])
    (hfits : pixelSize * (result.width * result.height) ≤ result.data.bytes) : MemorySound q where
  frees := by
    rw [hplaced.freed_eq, hplaced.sizes_eq]
    exact h.frees.mono (by simp)
  stores := by
    intro s hs
    rw [hplaced.stores_eq] at hs
    rw [hplaced.sizes_eq]
    exact (h.stores s hs).trans (getD_le_append ..)
  buffers := by
    intro id data' hdata'
    rw [hplaced.sizes_eq]
    rcases Nat.lt_trichotomy id p.sizes.length with hid | rfl | hid
    · rw [hplaced.images_eq id hid] at hdata' ⊢
      exact (h.buffers id data' hdata').trans (getD_le_append ..)
    · rw [hplaced.image_eq] at hdata' ⊢
      rcases hdata with rfl | ⟨rfl, rfl⟩
      · cases hdata'
      · obtain rfl : p.sizes.length + 1 = data' := Ptr.heap.inj hdata'
        rw [List.getD_append_right _ _ _ _ (Nat.le_add_right _ _), Nat.add_sub_cancel_left]
        exact hfits
    · rcases hplaced.unset id hid with hsame | hunset
      · rw [hsame] at hdata' ⊢
        exact (h.buffers id data' hdata').trans (getD_le_append ..)
      · rw [hunset] at hdata'
        cases hdata'

/-- The images other than the one that `from_bmp` makes have no pixels. -/
theorem Readable.other (h : Readable content grants) {id : ℕ} (hid : id ≠ 0) :
    (fromBmp (started content grants)).2.images id = ⟨none, none, .indeterminate⟩ := by
  rw [fromBmp_of_hasHeader h.granted h.hasHeader]
  rcases fromHeader_other (BmpHeader.ofBytes (content.take sizeofBmpHeader))
    (headed content grants) hid with hsame | hunset
  · exact hsame.trans (Function.update_of_ne hid _ _)
  · exact hunset

/-- With no block for the pixels `from_bmp` fails. -/
theorem Readable.of_refused (h : Readable content grants)
    (hpixels : grants.tail.head? = some false) :
    (fromBmp (started content grants)).1 = .noEnoughMemory ∧
      MemorySound (fromBmp (started content grants)).2 := by
  obtain ⟨-, -, hdata, hfreed, hsizes⟩ :=
    fromBmp_of_refused_pixels h.granted h.hasHeader hpixels
  refine ⟨?_, ?_, ?_, fun id data hdata' => ?_⟩
  · rw [fromBmp_of_hasHeader h.granted h.hasHeader, fromHeader, malloc_of_refused _ hpixels]
  · rw [hfreed, hsizes]
    exact (freedSafely_nil 1).concat (.inl rfl)
  · rw [fromBmp_of_hasHeader h.granted h.hasHeader, fromHeader, malloc_of_refused _ hpixels]
    exact fun s hs => absurd hs List.not_mem_nil
  · rcases eq_or_ne id 0 with rfl | hid
    · rw [hdata] at hdata'
      cases hdata'
    · rw [h.other hid] at hdata'
      cases hdata'

/-- With both blocks the pixels are stored in block 1, which holds them. -/
theorem Readable.of_granted (h : Readable content grants)
    (hpixels : grants.tail.head? ≠ some false) :
    (fromBmp (started content grants)).2.images 0 = ⟨some (headerIn content).biWidth.toNat,
        some (headerIn content).biHeight.toNat, .heap 1⟩ ∧
      MemorySound (fromBmp (started content grants)).2 := by
  set header := headerIn content with hheader
  have hsize : pixelSize * (header.biHeight.toNat * header.biWidth.toNat) < 2 ^ 64 := by
    rw [Nat.mul_comm header.biHeight.toNat]
    exact h.size_lt
  have hbytes : mul64 (mul64 pixelSize header.biWidth.toNat) header.biHeight.toNat =
      pixelSize * (header.biHeight.toNat * header.biWidth.toNat) := by
    unfold mul64
    rw [Nat.mod_mul_mod, Nat.mul_assoc, Nat.mul_comm header.biWidth.toNat, Nat.mod_eq_of_lt hsize]
  have hcount : 0 + header.biHeight.toNat * header.biWidth.toNat < 2 ^ 64 := by
    unfold pixelSize at hsize
    omega
  obtain ⟨q, hq, hrun⟩ := fromBmp_of_blocks h.granted h.hasHeader hpixels hheader.symm
  have hsame := readRows_sameBlocks 1 header.biWidth.toNat (calcPadding header.biWidth.toNat)
    header.biHeight.toNat 0 q
  have hwithin : StoresWithin q (readRows 1 header.biWidth.toNat
      (calcPadding header.biWidth.toNat) header.biHeight.toNat 0 q).2 1 0 _ :=
    readRows_stores hcount
  obtain ⟨l, hl, hin⟩ := hwithin
  have himage : (fromBmp (started content grants)).2.images 0 =
      ⟨some header.biWidth.toNat, some header.biHeight.toNat, .heap 1⟩ := by
    rw [hrun, hsame.images_eq, hq.image_eq]
  have hsizes : (fromBmp (started content grants)).2.sizes =
      [sizeofImage, pixelSize * (header.biHeight.toNat * header.biWidth.toNat)] := by
    rw [hrun, hsame.sizes_eq, hq.sizes_eq, hbytes]
  refine ⟨himage, ?_, fun s hs => ?_, fun id data hdata => ?_⟩
  · rw [hrun, hsame.freed_eq, hq.freed_eq]
    exact freedSafely_nil _
  · rw [hrun, hl, hq.stores_eq, List.nil_append] at hs
    obtain ⟨hblock, -, hlt⟩ := hin s hs
    rw [hsizes, hblock]
    exact Nat.mul_le_mul_left pixelSize (by omega)
  · rcases eq_or_ne id 0 with rfl | hid
    · rw [himage] at hdata ⊢
      obtain rfl : 1 = data := Ptr.heap.inj hdata
      rw [hsizes, Nat.mul_comm header.biHeight.toNat]
      exact le_rfl
    · rw [h.other hid] at hdata
      cases hdata

/-- **Reading**: the image is block 0. Its pixels are block 1, and nothing is released yet, or
there was no memory for them and the run has failed. -/
theorem Readable.leaves (h : Readable content grants) :
    MemorySound (fromBmp (started content grants)).2 ∧
      (fromBmp (started content grants)).2.img = .heap 0 ∧
      ((fromBmp (started content grants)).2.freed = [] ∧
          (fromBmp (started content grants)).2.sizes.length = 2 ∧
          (fromBmp (started content grants)).2.images 0 =
            ⟨some (headerIn content).biWidth.toNat, some (headerIn content).biHeight.toNat,
              .heap 1⟩ ∨
        (fromBmp (started content grants)).1 = .noEnoughMemory ∧
          (fromBmp (started content grants)).2.freed = [.null] ∧
          (fromBmp (started content grants)).2.sizes.length = 1 ∧
          ((fromBmp (started content grants)).2.images 0).data = .null) := by
  by_cases hpixels : grants.tail.head? = some false
  · obtain ⟨-, himg, hdata, hfreed, hlength⟩ :=
      fromBmp_of_refused_pixels h.granted h.hasHeader hpixels
    obtain ⟨hstatus, hsound⟩ := h.of_refused hpixels
    exact ⟨hsound, himg, .inr ⟨hstatus, hfreed, hlength, hdata⟩⟩
  · obtain ⟨himg, -, hfreed, hlength, -⟩ := fromBmp_of_granted h.granted h.hasHeader hpixels
    obtain ⟨himage, hsound⟩ := h.of_granted hpixels
    exact ⟨hsound, himg, .inl ⟨hfreed, hlength, himage⟩⟩

/-- Releasing the image when the run has failed. -/
theorem Readable.clear (h : Readable content grants) :
    MemorySound (clearImagesMemory [.heap 0] (fromBmp (started content grants)).2).2 := by
  obtain ⟨hsound, -, hread⟩ := h.leaves
  rw [clearImagesMemory_heap]
  refine hsound.release ?_
  rcases hread with ⟨hfreed, hlength, himage⟩ | ⟨-, hfreed, hlength, hdata⟩
  · rw [hfreed, hlength, himage]
    exact ((freedSafely_nil 2).heap 1 (by decide) (by decide)).heap 0 (by decide) (by decide)
  · rw [hfreed, hlength, hdata]
    exact (((freedSafely_nil 1).concat (.inl rfl)).concat (.inl rfl)).heap 0 (by decide) (by decide)

/-! ## The run -/

/-- Before anything is allocated. -/
theorem memorySound_opened (content : List Byte) : MemorySound (Process.opened content) :=
  ⟨freedSafely_nil 0, fun _ hs => absurd hs List.not_mem_nil, fun _ _ => nofun⟩

/-- The block that a transformation asks for holds the pixels of its result. -/
theorem rotated_fits (angle : ℤ) (hsize : pixelSize * (img.width * img.height) < 2 ^ 64) :
    pixelSize * ((rotated angle img).width * (rotated angle img).height) =
      (rotated angle img).data.bytes := by
  have hperforms : ∃ loop : RotationLoop, rotated angle img = loop.perform img := by
    unfold rotated
    split
    · split_ifs
      · exact ⟨_, copyImage_eq img⟩
      · exact ⟨_, rotate180_eq img⟩
    · split <;> split_ifs
      · exact ⟨_, rotate90Reverse_eq img⟩
      · exact ⟨_, rotate90_eq img⟩
      · exact ⟨_, rotate90_eq img⟩
      · exact ⟨_, rotate90Reverse_eq img⟩
  obtain ⟨loop, hloop⟩ := hperforms
  have hstart : (loop.start img).width * (loop.start img).height < 2 ^ 64 := by
    rw [RotationLoop.start_size]
    unfold pixelSize at hsize
    omega
  have hfilled := filled_roatate (fun i j => img.load ((loop.index img.width img.height i j).wrap
    (2 ^ 64))) hstart
  rw [hloop, perform_eq, hfilled.width_eq, hfilled.height_eq, hfilled.bytes_eq,
    RotationLoop.start_size]
  show _ = mul64 (mul64 pixelSize img.width) img.height
  unfold mul64
  rw [Nat.mod_mul_mod, Nat.mul_assoc, Nat.mod_eq_of_lt hsize]

theorem leave_memory (images : List Ptr) (code : ℕ) (p : Process) :
    (leave images code p).2 = (clearImagesMemory images p).2 := by
  unfold leave
  rw [Stateful.bind_apply]
  rcases clearImagesMemory images p with ⟨_ | ptr, q⟩ <;> rfl

theorem fail_memory (images : List Ptr) (name : String) (files : Files) (p : Process) :
    (fail images name files p).memory = (clearImagesMemory images p).2 := by
  rw [← leave_memory images 1]
  unfold fail
  rcases leave images 1 p with ⟨_ | _, q⟩ <;> rfl

variable {world : World} {argv : List Name} {files : Files} {angle : ℤ} {out : Name}

/-- Whatever becomes of the file, both images are released when there are two. -/
theorem writeTransformed_memory (world : World) (angle : ℤ) (out : Name) (files : Files) (img : ℕ)
    (p : Process) :
    (writeTransformed world angle out files img p).memory =
      match placeImage (rotated angle (Process.image p img)) p with
      | (none, q) => q
      | (some rotatedImg, q) => (clearImagesMemory [.heap img, rotatedImg] q).2 := by
  unfold writeTransformed
  dsimp only
  rcases placeImage (rotated angle (Process.image p img)) p with ⟨_ | rotatedImg, q⟩
  · rfl
  dsimp only
  split_ifs
  · rcases toBmp world.garbage (rotated angle (Process.image p img)) ⟨[], [], world.outcomes⟩ with
      ⟨_ | _, f⟩
    · exact leave_memory _ 0 q
    · exact fail_memory ..
  · exact fail_memory ..

/-- Releasing the source image in blocks 0 and 1 and the turned one. -/
theorem MemorySound.clear {data : Ptr} {blocks : List ℕ} (h : MemorySound q)
    (hplaced : Placed result data blocks p q) (hfreed : p.freed = []) (hlength : p.sizes.length = 2)
    (himage : (p.images 0).data = .heap 1)
    (hdata : data = .null ∨ data = .heap (p.sizes.length + 1) ∧ blocks = [result.data.bytes]) :
    MemorySound (clearImagesMemory [.heap 0, .heap p.sizes.length] q).2 := by
  rw [clearImagesMemory_heap, clearImagesMemory_heap]
  refine h.release ?_
  dsimp only
  rw [hplaced.freed_eq, hfreed, hplaced.images_eq 0 (by omega), himage, hplaced.image_eq, hlength,
    hplaced.sizes_eq, List.length_append, hlength]
  have hread : FreedSafely (2 + (sizeofImage :: blocks).length) ([] ++ [.heap 1] ++ [.heap 0]) :=
    ((freedSafely_nil _).heap 1 (by omega) (by decide)).heap 0 (by omega) (by decide)
  rcases hdata with rfl | ⟨rfl, rfl⟩
  · exact (hread.concat (.inl rfl)).heap 2 (by simp) (by decide)
  · rw [hlength]
    exact (hread.heap 3 (by simp) (by decide)).heap 2 (by simp) (by decide)

/-- **From the image to the file**, with the source image in blocks 0 and 1. -/
theorem writeTransformed_sound (h : MemorySound p) (hfreed : p.freed = [])
    (hlength : p.sizes.length = 2) (himage : (p.images 0).data = .heap 1)
    (hsize : pixelSize * ((Process.image p 0).width * (Process.image p 0).height) < 2 ^ 64) :
    MemorySound (writeTransformed world angle out files 0 p).memory := by
  rw [writeTransformed_memory]
  set result := rotated angle (Process.image p 0)
  have hfits : pixelSize * (result.width * result.height) ≤ result.data.bytes :=
    (rotated_fits angle hsize).le
  by_cases hgrant : p.grants.head? = some false
  · rw [placeImage_of_refused result hgrant]
    exact ⟨h.frees, h.stores, h.buffers⟩
  by_cases hpixels : p.grants.tail.head? = some false
  · obtain ⟨hptr, hplaced⟩ := placeImage_of_refused_pixels result hgrant hpixels
    have hsound := h.placed hplaced (.inl rfl) hfits
    have hclear := hsound.clear hplaced hfreed hlength himage (.inl rfl)
    rcases hplace : placeImage result p with ⟨ptr, q⟩
    rw [hplace] at hptr hsound hclear
    obtain rfl : ptr = _ := hptr
    split_ifs with hempty
    · exact hclear
    · exact hsound
  · obtain ⟨hptr, hplaced⟩ := placeImage_of_blocks result hgrant hpixels
    have hsound := h.placed hplaced (.inr ⟨rfl, rfl⟩) hfits
    have hclear := hsound.clear hplaced hfreed hlength himage (.inr ⟨rfl, rfl⟩)
    rcases hplace : placeImage result p with ⟨ptr, q⟩
    rw [hplace] at hptr hsound hclear
    obtain rfl : ptr = _ := hptr
    exact hclear

/-- The source file can be read, if the run comes to open it. -/
def SourceReadable (world : World) (argv : List Name) (files : Files) : Prop :=
  ∀ prog source out strAngle rest angle content, argv = prog :: source :: out :: strAngle :: rest →
    readAngle strAngle 0 = (.valid, angle) → files source = some content →
      Readable content world.grants

theorem report_append_ne (name hint : String) : report name ++ hint ≠ "" := by
  intro h
  have hlength := congrArg String.length h
  simp [report] at hlength

theorem report_ne (name : String) : report name ≠ "" := by
  have happend := report_append_ne name ""
  rwa [String.append_empty] at happend

/-- **What a run does** when its source file can be read: it refuses the command line or the file,
or reads the file and goes on by the status. -/
theorem command_cases (h : SourceReadable world argv files) :
    (∃ message, message ≠ "" ∧ command world argv files = refuse message files) ∨
      ∃ prog source out strAngle rest angle content status q,
        argv = prog :: source :: out :: strAngle :: rest ∧ readAngle strAngle 0 = (.valid, angle) ∧
          files source = some content ∧ Readable content world.grants ∧
          fromBmp (started content world.grants) = (status, q) ∧
          command world argv files =
            if status = .ok then writeTransformed world angle out files 0 q
            else fail [.heap 0] (readStatusName status) files q := by
  match argv with
  | [] => exact .inl ⟨_, report_append_ne _ _, rfl⟩
  | [_] => exact .inl ⟨_, report_append_ne _ _, rfl⟩
  | [_, _] => exact .inl ⟨_, report_append_ne _ _, rfl⟩
  | [_, _, _] => exact .inl ⟨_, report_append_ne _ _, rfl⟩
  | prog :: source :: out :: strAngle :: rest =>
      rcases hangle : readAngle strAngle 0 with ⟨status, angle⟩
      cases status
      case formatError => exact .inl ⟨_, report_append_ne _ _, by rw [command, hangle]⟩
      case valueError => exact .inl ⟨_, report_append_ne _ _, by rw [command, hangle]⟩
      cases hsource : files source with
      | none => exact .inl ⟨_, report_ne _, by rw [command, hangle]; dsimp only; rw [hsource]⟩
      | some content =>
          have hreadable := h prog source out strAngle rest angle content rfl hangle hsource
          obtain ⟨-, himg, -⟩ := hreadable.leaves
          rcases hread : fromBmp (started content world.grants) with ⟨status, q⟩
          rw [hread] at himg
          refine .inr ⟨prog, source, out, strAngle, rest, angle, content, status, q, rfl, hangle,
            hsource, hreadable, hread, ?_⟩
          unfold started at hread
          unfold command
          dsimp only
          rw [hangle]
          dsimp only
          rw [hsource]
          dsimp only
          rw [hread]
          dsimp only at himg
          cases status <;> dsimp only <;> rw [himg] <;> rfl

/-- **A run uses its memory soundly** when its source file can be read. -/
theorem command_memorySound (h : SourceReadable world argv files) :
    MemorySound (command world argv files).memory := by
  obtain ⟨message, -, hrun⟩ | ⟨prog, source, out, strAngle, rest, angle, content, status, q, -, -,
    -, hreadable, hread, hrun⟩ := command_cases h
  · rw [hrun]
    exact memorySound_opened []
  obtain ⟨hsound, -, hleaves⟩ := hreadable.leaves
  have hclear := hreadable.clear
  rw [hread] at hsound hleaves hclear
  rw [hrun]
  split_ifs with hok
  · obtain ⟨hfreed, hlength, himage⟩ := hleaves.resolve_right fun hrefused =>
      ReadBmpStatus.noConfusion (hok.symm.trans hrefused.1)
    refine writeTransformed_sound hsound hfreed hlength (by rw [himage]) ?_
    rw [Process.image, himage]
    exact hreadable.size_lt
  · rw [fail_memory]
    exact hclear

end LowLevel.Analysis
