import LowLevel.Analysis.TransformedFiles

/-!
# What a run leaves when something fails

Whatever the command line, the files, the memory and the disk are, when the source file can be read:
only the output file is touched, and only when an image has been read. When a call of `fwrite` fails
it holds a proper beginning of the file that belongs to the image, and the run fails. When none does
the exit code is 0, and the file holds what is left of it when it is closed.
-/

set_option autoImplicit false

namespace LowLevel.Analysis

open LowLevel.Library LowLevel.Interface LowLevel.Program.ImageRotation LowLevel.Program.Bmp
open LowLevel.Program.ImageTransformer LowLevel.Program.AngleInput

variable {g : Garbage} {img : Image} {f : OutFile}

/-- The writer has appended the beginning of `bs`, and all of it if `whole`. -/
def Appended (f f' : OutFile) (bs : List Byte) (whole : Prop) : Prop :=
  ∃ written, f'.bytes = f.bytes ++ written ∧ written <+: bs ∧ (whole ↔ written = bs)

/-- More bytes behind a whole piece. -/
theorem Appended.trans {f₁ f₂ f₃ : OutFile} {bs bs' : List Byte} {whole whole' : Prop}
    (h : Appended f₁ f₂ bs whole) (hwhole : whole) (h' : Appended f₂ f₃ bs' whole') :
    Appended f₁ f₃ (bs ++ bs') whole' := by
  obtain ⟨written, hbytes, -, hall⟩ := h
  obtain ⟨written', hbytes', hbegin', hall'⟩ := h'
  obtain rfl := hall.mp hwhole
  refine ⟨written ++ written', by rw [hbytes', hbytes, List.append_assoc], ?_, ?_⟩
  · exact (List.prefix_append_right_inj written).mpr hbegin'
  · rw [hall', List.append_cancel_left_eq]

/-- Nothing more behind a piece that is not whole. -/
theorem Appended.stop {f₁ f₂ : OutFile} {bs : List Byte} {whole whole' : Prop} (bs' : List Byte)
    (h : Appended f₁ f₂ bs whole) (hcut : ¬ whole) (hcut' : ¬ whole') :
    Appended f₁ f₂ (bs ++ bs') whole' := by
  obtain ⟨written, hbytes, hbegin, hall⟩ := h
  refine ⟨written, hbytes, hbegin.trans (List.prefix_append bs bs'),
    fun hwhole => absurd hwhole hcut', fun heq => ?_⟩
  have hlength := hbegin.length_le
  rw [heq, List.length_append] at hlength
  obtain rfl : bs' = [] := List.length_eq_zero_iff.mp (by omega)
  exact absurd (hall.mpr (by rw [heq, List.append_nil])) hcut

/-- **One call** of `fwrite` with something to write. -/
theorem fwrite_appended {source : Source} {bs : List Byte} {size nmemb : ℕ}
    (hlength : bs.length = size * nmemb) (hpos : 0 < size * nmemb) :
    Appended f (fwrite source bs size nmemb f).2 bs
      ((fwrite source bs size nmemb f).1 = nmemb) := by
  unfold fwrite
  dsimp only
  rw [if_neg hpos.ne']
  split
  case h_1 k _ =>
      split
      case isTrue hcut =>
          refine ⟨bs.take k, rfl, List.take_prefix k bs, ?_⟩
          have hfew := Nat.div_lt_of_lt_mul hcut
          refine ⟨fun hall => absurd hall hfew.ne, fun hall => ?_⟩
          have := congrArg List.length hall
          rw [List.length_take] at this
          omega
      case isFalse => exact ⟨bs, rfl, List.prefix_refl bs, iff_of_true rfl rfl⟩
  case h_2 => exact ⟨bs, rfl, List.prefix_refl bs, iff_of_true rfl rfl⟩

/-- A call that has nothing to write. -/
theorem fwrite_nothing {source : Source} {bs : List Byte} {size nmemb : ℕ}
    (hzero : size * nmemb = 0) :
    (fwrite source bs size nmemb f).1 = 0 ∧ (fwrite source bs size nmemb f).2.bytes = f.bytes := by
  unfold fwrite
  dsimp only
  rw [if_pos hzero]
  exact ⟨rfl, rfl⟩

/-- **The loop over the rows**, which stops at the first call that fails. A row without pixels
counts as a failure. -/
theorem writeRows_appended {rowSize padding : ℕ} (hpadding : 0 < padding) (n i : ℕ) :
    Appended f (writeRows g img rowSize padding n i f).2 (rows (rowBytes g img rowSize padding) n i)
      ((writeRows g img rowSize padding n i f).1 = .ok) := by
  induction n generalizing f i with
  | zero => exact ⟨[], (List.append_nil _).symm, List.nil_prefix, iff_of_true rfl rfl⟩
  | succ n ih =>
      rw [writeRows_succ, rows_succ, rowBytes, List.append_assoc]
      dsimp only
      set row := fwrite (.row i) (dataBytes g img (mul64 i img.width) rowSize) rowSize 1 f with hr
      set zeros := fwrite .zeroPadding (zeroPaddingBytes g i padding) 1 padding row.2 with hz
      have hlength : (zeroPaddingBytes g i padding).length = padding := by simp [zeroPaddingBytes]
      rcases Nat.eq_zero_or_pos rowSize with rfl | hpos
      · -- `fwrite` of no bytes returns 0, not 1
        obtain ⟨hcount, hbytes⟩ : row.1 = 0 ∧ row.2.bytes = f.bytes :=
          fwrite_nothing (Nat.zero_mul 1)
        rw [if_pos (by rw [hcount]; decide)]
        refine ⟨[], by rw [hbytes, List.append_nil], List.nil_prefix, ?_⟩
        refine iff_of_false WriteBmpStatus.noConfusion fun hnil => ?_
        have := congrArg List.length hnil
        simp only [List.length_nil, List.length_append, hlength] at this
        omega
      have hrow : Appended f row.2 _ (row.1 = 1) :=
        fwrite_appended (by simp [dataBytes]) (Nat.mul_pos hpos one_pos)
      have hzeros : Appended row.2 zeros.2 _ (zeros.1 = padding) :=
        fwrite_appended (by rw [hlength, Nat.one_mul]) (Nat.mul_pos one_pos hpadding)
      split_ifs with hdata hpadded
      · exact hrow.stop _ hdata not_false
      · exact hrow.trans (not_not.mp hdata) (hzeros.stop _ hpadded not_false)
      · exact hrow.trans (not_not.mp hdata) (hzeros.trans (not_not.mp hpadded) (ih (i + 1)))

/-- The whole file of an image: the header and the rows. -/
def fileOf (g : Garbage) (img : Image) : List Byte :=
  (createBmpHeader img).bytes ++
    rows (rowBytes g img (mul64 img.width pixelSize) (calcPadding img.width)) img.height 0

/-- **`to_bmp`** writes the beginning of the file, and all of it when it returns
`WRITE_BMP_OK`. -/
theorem toBmp_appended (g : Garbage) (img : Image) (f : OutFile) :
    Appended f (toBmp g img f).2 (fileOf g img) ((toBmp g img f).1 = .ok) := by
  have hheader : Appended f _ _ ((fwrite .header (createBmpHeader img).bytes sizeofBmpHeader 1
      f).1 = 1) := fwrite_appended (length_header _) (by decide)
  rw [toBmp_run]
  dsimp only
  split_ifs with hwhole
  · exact hheader.stop _ hwhole not_false
  · exact hheader.trans (not_not.mp hwhole) (writeRows_appended (calcPadding_bounds _).1 _ _)

/-! ## The command -/

variable {world : World} {argv : List Name} {files : Files} {p : Process}

/-- The run comes to an image, to be turned by `angle` into the file `out`. -/
def Reads (world : World) (argv : List Name) (files : Files) (out : Name) (angle : ℤ)
    (image : Image) : Prop :=
  ∃ prog source strAngle rest content q img,
    argv = prog :: source :: out :: strAngle :: rest ∧ readAngle strAngle 0 = (.valid, angle) ∧
      files source = some content ∧ fromBmp (started content world.grants) = (.ok, q) ∧
      q.img = .heap img ∧ image = Process.image q img

/-- The run has failed: with the exit code 1 and a message, or where it follows the null pointer of
a block that was refused. -/
def Failed (run : CommandRun) : Prop :=
  run.outcome = .exit 1 ∧ run.stderr ≠ "" ∨ run.outcome = .follows .null ∧ run.stderr = ""

/-- Releasing images that are there ends the run with the code. -/
theorem leave_heap (ids : List ℕ) (code : ℕ) (p : Process) :
    (leave (ids.map .heap) code p).1 = .exit code := by
  suffices hclear : (clearImagesMemory (ids.map .heap) p).1 = none by
    unfold leave
    rw [Stateful.bind_apply, hclear]
    rfl
  induction ids generalizing p with
  | nil => rfl
  | cons id ids ih =>
      rw [List.map_cons, clearImagesMemory_heap]
      exact ih _

/-- A failure once images have been made. -/
theorem fail_failed (ids : List ℕ) (name : String) (files : Files) (p : Process) :
    Failed (fail (ids.map .heap) name files p) ∧
      (fail (ids.map .heap) name files p).files = files := by
  have hexit := leave_heap ids 1 p
  unfold fail
  rcases hleave : leave (ids.map .heap) 1 p with ⟨outcome, q⟩
  rw [hleave] at hexit
  obtain rfl : outcome = .exit 1 := hexit
  exact ⟨.inl ⟨rfl, report_ne name⟩, rfl⟩

/-- A failure before. -/
theorem refuse_failed {message : String} (hmessage : message ≠ "") (files : Files) :
    Failed (refuse message files) ∧ (refuse message files).files = files :=
  ⟨.inl ⟨rfl, hmessage⟩, rfl⟩

/-- The pointer of a new image is a block. -/
theorem placeImage_block {result : Image} {ptr : Ptr} (h : (placeImage result p).1 = some ptr) :
    ptr = .heap p.sizes.length := by
  by_cases hgrant : p.grants.head? = some false
  · rw [placeImage_of_refused result hgrant] at h
    cases h
  by_cases hpixels : p.grants.tail.head? = some false
  · rw [(placeImage_of_refused_pixels result hgrant hpixels).1, Option.ite_none_right_eq_some] at h
    exact (Option.some.inj h.2).symm
  · rw [(placeImage_of_blocks result hgrant hpixels).1] at h
    exact (Option.some.inj h).symm

/-- Closing a file leaves a beginning of what was accepted. -/
theorem onDisk_prefix (world : World) (accepted : List Byte) :
    world.onDisk accepted <+: accepted := by
  unfold World.onDisk
  split
  · exact List.prefix_refl accepted
  · exact List.take_prefix _ accepted

/-- What the calls of `fwrite` accept of the file of an image. -/
def acceptedBytes (world : World) (image : Image) : List Byte :=
  (toBmp world.garbage image ⟨[], [], world.outcomes⟩).2.bytes

/-- How a run ends that has `image` to write into the file `out`. -/
inductive Ends (world : World) (files : Files) (out : Name) (image : Image)
    (run : CommandRun) : Prop where
  /-- Every call of `fwrite` has succeeded. -/
  | complete (hwhole : acceptedBytes world image = fileOf world.garbage image)
      (hcompleted : Completed files out (world.onDisk (fileOf world.garbage image)) run)
  /-- A call of `fwrite` has failed. -/
  | cut (hcut : acceptedBytes world image ≠ fileOf world.garbage image) (hfailed : Failed run)
      (bytes : List Byte) (hbegin : bytes <+: fileOf world.garbage image)
      (hproper : bytes ≠ fileOf world.garbage image)
      (hfiles : run.files = Function.update files out (some bytes))
  /-- The file was not opened. -/
  | untouched (hfailed : Failed run) (hfiles : run.files = files)

/-- **From the image to the file**. -/
theorem writeTransformed_ends (world : World) (angle : ℤ) (out : Name) (files : Files) (img : ℕ)
    (p : Process) :
    Ends world files out (rotated angle (Process.image p img))
      (writeTransformed world angle out files img p) := by
  unfold writeTransformed
  dsimp only
  set result := rotated angle (Process.image p img)
  rcases hplace : placeImage result p with ⟨_ | ptr, q⟩
  case none => exact .untouched (.inr ⟨rfl, rfl⟩) rfl
  obtain rfl := placeImage_block (congrArg Prod.fst hplace)
  dsimp only
  split_ifs with hopen
  · obtain ⟨written, hbytes, hbegin, hwhole⟩ :=
      toBmp_appended world.garbage result ⟨[], [], world.outcomes⟩
    rw [List.nil_append] at hbytes
    have haccepted : acceptedBytes world result = written := hbytes
    rcases hwrite : toBmp world.garbage result ⟨[], [], world.outcomes⟩ with ⟨status, f⟩
    rw [hwrite] at hbytes hwhole
    obtain rfl : f.bytes = written := hbytes
    cases status with
    | ok =>
        dsimp only
        rw [leave_two, hwhole.mp rfl]
        exact .complete (haccepted.trans (hwhole.mp rfl)) ⟨rfl, rfl, rfl⟩
    | error =>
        have hcut : f.bytes ≠ fileOf world.garbage result :=
          fun heq => WriteBmpStatus.noConfusion (hwhole.mpr heq)
        have hdisk := onDisk_prefix world f.bytes
        obtain ⟨hfailed, hfiles⟩ := fail_failed [img, p.sizes.length] writeErrorName
          (Function.update files out (some (world.onDisk f.bytes))) q
        refine .cut (haccepted ▸ hcut) hfailed (world.onDisk f.bytes) (hdisk.trans hbegin)
          (fun heq => ?_) hfiles
        -- what is left would be longer than what was accepted
        exact hcut (hbegin.eq_of_length_le (heq ▸ hdisk.length_le))
  · obtain ⟨hfailed, hfiles⟩ := fail_failed [img, p.sizes.length] fileProcErrorName files q
    exact .untouched hfailed hfiles

/-- **Every run of the command** whose source file can be read, whatever the system answers, uses
its memory soundly. Either the files are as they were and the run has failed, or it comes to an
image. Then it leaves the file of the turned image, as far as closing it keeps it, with the exit
code 0 when `fwrite` has accepted all of it, and else a proper beginning of it and a failure, unless
the output file was not opened. No file but `out` changes. -/
theorem command_ends (world : World) (argv : List Name) (files : Files)
    (hsource : SourceReadable world argv files) :
    MemorySound (command world argv files).memory ∧
      (Failed (command world argv files) ∧ (command world argv files).files = files ∨
        ∃ out angle image, Reads world argv files out angle image ∧
          Ends world files out (rotated angle image) (command world argv files)) := by
  refine ⟨command_memorySound hsource, ?_⟩
  obtain ⟨message, hmessage, hrun⟩ | ⟨prog, source, out, strAngle, rest, angle, content, status, q,
    hargv, hangle, hopened, hreadable, hread, hrun⟩ := command_cases hsource
  · rw [hrun]
    exact .inl (refuse_failed hmessage files)
  rw [hrun]
  split_ifs with hok
  · obtain ⟨-, himg, -⟩ := hreadable.leaves
    rw [hread] at himg
    refine .inr ⟨out, angle, Process.image q 0, ?_, writeTransformed_ends ..⟩
    exact ⟨prog, source, strAngle, rest, content, q, 0, hargv, hangle, hopened, hok ▸ hread, himg,
      rfl⟩
  · exact .inl (fail_failed [0] _ files q)

/-- A system that grants everything, but keeps only sixty bytes of a file that is closed. -/
def lossyWorld : World := { grantingWorld with kept := some 60 }

/-- From the file `a` to the file `b` by 90 degrees. -/
def turnOnce (world : World) : CommandRun :=
  command world [[], [0x61], [0x62], [0x39, 0x30]] fun _ => some twoByThreeFile

/-- A run that ends well although the last 18 bytes of the file are lost: `main` does not look at
what `fclose` returns. -/
theorem command_ends_lossy :
    MemorySound (turnOnce lossyWorld).memory ∧ (turnOnce lossyWorld).outcome = .exit 0 ∧
      ((turnOnce lossyWorld).files [0x62]).map List.length = some 60 ∧
      ((turnOnce grantingWorld).files [0x62]).map List.length = some 78 := by
  have hreadable : Readable twoByThreeFile lossyWorld.grants :=
    readable_of_decoded decoded_twoByThreeFile (by decide) nofun
  have hends := command_ends lossyWorld [[], [0x61], [0x62], [0x39, 0x30]]
    (fun _ => some twoByThreeFile) (sourceReadable_of rfl hreadable)
  exact ⟨hends.1, by decide +kernel, by decide +kernel, by decide +kernel⟩

end LowLevel.Analysis
