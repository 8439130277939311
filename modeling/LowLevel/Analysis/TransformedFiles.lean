import LowLevel.Analysis.AngleAcceptance
import LowLevel.Analysis.DecodedFiles
import LowLevel.Analysis.RotationGroup
import LowLevel.Analysis.RunMemory

/-!
# The command turns the picture in the file

When the system serves the run, the command leaves a file that holds the picture of the source
file, turned by the angle, and touches no other file. So a sequence of runs, each reading what the
one before it wrote, turns the picture by the sum of the angles. The files have their rows as
`to_bmp` writes them.
-/

set_option autoImplicit false

namespace LowLevel.Analysis

open LowLevel.Library LowLevel.Interface LowLevel.Program.ImageRotation LowLevel.Program.Bmp
open LowLevel.Program.ImageTransformer LowLevel.Program.AngleInput

variable {world : World} {files : Files} {source out strAngle prog : Name} {rest : List Name}
  {content : List Byte} {pic : Picture Pixel} {angle : ℤ} {p : Process} {img : ℕ}

/-- Every block is granted, the file can be written, no `fwrite` fails, and closing the file loses
nothing. -/
structure Serves (world : World) (out : Name) : Prop where
  grants : ∀ granted ∈ world.grants, granted = true
  openable : world.openable out = true
  outcomes : world.outcomes = []
  kept : world.kept = none

/-- The run has ended with the exit code 0 and without a message, and has written one file. -/
structure Completed (files : Files) (out : Name) (written : List Byte) (run : CommandRun) :
    Prop where
  outcome_eq : run.outcome = .exit 0
  stderr_eq : run.stderr = ""
  files_eq : run.files = Function.update files out (some written)

/-- A whole numeral of an allowed angle is taken. -/
theorem readAngle_of_spells (hangle : angle ∈ rotationAllowedAngles) (h : Spells strAngle angle)
    (res : ℤ) : readAngle strAngle res = (.valid, angle) := by
  have hpasses := passes_of_mem hangle
  have hread := readAngle_append h (show ∀ b ∈ ([] : List Byte).head?, ¬ IsDigit b from nofun) res
  rw [List.append_nil] at hread
  exact Prod.ext (hread.1.mpr hpasses.1) ((hread.2 hpasses.1).trans hpasses.2)

/-- From the image in memory to the file: the picture is turned. -/
theorem writeTransformed_turns (files : Files) (hworld : Serves world out)
    (hangle : angle ∈ rotationAllowedAngles) (hgrants : ∀ granted ∈ p.grants, granted = true)
    (hpic : picture (Process.image p img) = pic.map some) (hpos : 0 < pic.cols * pic.rows)
    (hcols : pic.cols < 2 ^ 32) (hrows : pic.rows < 2 ^ 32) :
    ∃ written, Completed files out written (writeTransformed world angle out files img p) ∧
      decoded written = some (Picture.turn^[quarterTurns angle] pic) := by
  set result := rotated angle (Process.image p img) with hresult
  have hsize : pic.cols * pic.rows < 2 ^ 64 :=
    (Nat.mul_lt_mul'' hcols hrows).trans_le (by norm_num)
  have hdims : (Process.image p img).width = pic.cols ∧ (Process.image p img).height = pic.rows :=
    ⟨congrArg Picture.cols hpic, congrArg Picture.rows hpic⟩
  have hturned : picture result = (Picture.turn^[quarterTurns angle] pic).map some := by
    rw [hresult, picture_rotated hangle (by rw [hdims.1, hdims.2]; exact hsize), hpic,
      Picture.map_turn_iterate]
  have hwidth : result.width = (Picture.turn^[quarterTurns angle] pic).cols :=
    congrArg Picture.cols hturned
  have hheight : result.height = (Picture.turn^[quarterTurns angle] pic).rows :=
    congrArg Picture.rows hturned
  obtain ⟨hcols', hrows'⟩ := Picture.dims_iterate_turn hcols hrows (quarterTurns angle)
  have hsize' : result.width * result.height = pic.cols * pic.rows := by
    rw [hwidth, hheight, Picture.size_iterate_turn]
  have hpos' : 0 < result.width := Nat.pos_of_mul_pos_right (hsize' ▸ hpos)
  have hmul : 0 < mul64 result.width pixelSize := by
    rw [mul64_pixelSize (row_lt (hwidth ▸ hcols'))]
    exact Nat.mul_pos (by decide) hpos'
  have hok : (toBmp world.garbage result ⟨[], [], world.outcomes⟩).1 = .ok :=
    (toBmp_of_no_failure hmul hworld.outcomes).1
  refine ⟨(toBmp world.garbage result ⟨[], [], world.outcomes⟩).2.bytes, ?_,
    decoded_toBmp hpos' (hwidth ▸ hcols') (hheight ▸ hrows') (hsize' ▸ hsize) rfl hok hturned⟩
  have hplace := (placeImage_of_granted result hgrants).1
  rcases hrun : placeImage result p with ⟨rotatedImg, q⟩
  rw [hrun] at hplace
  obtain rfl : rotatedImg = _ := hplace
  unfold writeTransformed
  dsimp only
  rw [← hresult, hrun]
  dsimp only
  rw [if_pos hworld.openable]
  rcases hwrite : toBmp world.garbage result ⟨[], [], world.outcomes⟩ with ⟨status, f⟩
  rw [hwrite] at hok
  obtain rfl : status = .ok := hok
  dsimp only
  rw [leave_two, World.onDisk, hworld.kept]
  exact ⟨rfl, rfl, rfl⟩

/-- The run up to the image in memory. -/
theorem command_of_read {q : Process} (hangle : readAngle strAngle 0 = (.valid, angle))
    (hsource : files source = some content)
    (hread : fromBmp (started content world.grants) = (.ok, q)) (himg : q.img = .heap img) :
    command world (prog :: source :: out :: strAngle :: rest) files =
      writeTransformed world angle out files img q := by
  unfold started at hread
  simp only [command, hangle, hsource, hread, himg]

/-- A file that holds a picture can be read. -/
theorem readable_of_decoded {grants : List Bool} (hdecoded : decoded content = some pic)
    (hsize : 3 * (pic.cols * pic.rows) < 2 ^ 64) (hgrants : ∀ granted ∈ grants, granted = true) :
    Readable content grants := by
  rw [decoded, Option.ite_none_right_eq_some, Option.some.injEq] at hdecoded
  obtain ⟨hclass, rfl⟩ := hdecoded
  obtain ⟨hlength, htype, -⟩ := (classOf_iff content).2.2.2.mp hclass
  refine ⟨fun hfalse => ?_, ⟨hlength, htype⟩, hsize⟩
  exact absurd (hgrants false (List.mem_of_mem_head? hfalse)) (by decide)

/-- The source file is the one that is named. -/
theorem sourceReadable_of (hsource : files source = some content)
    (h : Readable content world.grants) :
    SourceReadable world (prog :: source :: out :: strAngle :: rest) files := by
  intro prog' source' out' strAngle' rest' angle' content' hargv hangle hsource'
  obtain ⟨-, rfl, -⟩ : prog = prog' ∧ source = source' ∧ _ :=
    (List.cons.inj hargv).imp_right List.cons.inj
  obtain rfl : content = content' := Option.some.inj (hsource.symm.trans hsource')
  exact h

/-- **One run**: the file that is written holds the picture of the source file, turned by the
angle, every other file is as it was, and the memory is used soundly. -/
theorem command_turns (prog : Name) (rest : List Name) (hworld : Serves world out)
    (hsource : files source = some content) (hdecoded : decoded content = some pic)
    (hpos : 0 < pic.cols * pic.rows) (hsize : 3 * (pic.cols * pic.rows) < 2 ^ 64)
    (hangle : angle ∈ rotationAllowedAngles) (hspells : Spells strAngle angle) :
    ∃ written, Completed files out written
        (command world (prog :: source :: out :: strAngle :: rest) files) ∧
      decoded written = some (Picture.turn^[quarterTurns angle] pic) ∧
      MemorySound (command world (prog :: source :: out :: strAngle :: rest) files).memory := by
  obtain ⟨hcols, hrows⟩ := dims_of_decoded hdecoded
  obtain ⟨q, hread, himg, hgrants, -, -, hpic⟩ :=
    fromBmp_of_decoded hdecoded (by omega) hworld.grants
  obtain ⟨written, hrun, hwritten⟩ :=
    writeTransformed_turns files hworld hangle hgrants hpic hpos hcols hrows
  have hreadable := readable_of_decoded hdecoded hsize hworld.grants
  refine ⟨written, ?_, hwritten, command_memorySound (sourceReadable_of hsource hreadable)⟩
  rw [command_of_read (readAngle_of_spells hangle hspells 0) hsource hread himg]
  exact hrun

/-- A call of the command: what the system answers, the file to write, and the angle. -/
structure Call where
  world : World
  out : Name
  strAngle : Name

/-- The file that the last call writes, when the first one reads `source`. -/
def target (source : Name) (calls : List Call) : Name := calls.foldl (fun _ call => call.out) source

/-- Calls of the command, each for the file that the call before it has written: how they end,
and the files they leave. -/
def pipeline (prog : Name) : List Call → Name → Files → List CommandRun × Files
  | [], _, files => ([], files)
  | call :: calls, source, files =>
      let run := command call.world [prog, source, call.out, call.strAngle] files
      let (runs, files) := pipeline prog calls call.out run.files
      (run :: runs, files)

/-- The calls are served, and ask for these angles. -/
inductive Asks : List Call → List ℤ → Prop where
  | nil : Asks [] []
  | cons {call : Call} {calls : List Call} {angle : ℤ} {angles : List ℤ}
      (hworld : Serves call.world call.out) (hangle : angle ∈ rotationAllowedAngles)
      (hspells : Spells call.strAngle angle) (hcalls : Asks calls angles) :
      Asks (call :: calls) (angle :: angles)

theorem allowed_mod {angle : ℤ} (h : angle ∈ rotationAllowedAngles) : angle % 90 = 0 := by
  have hninety : ∀ a ∈ rotationAllowedAngles, a % 90 = 0 := by decide
  exact hninety angle h

/-- Quarter turns add up, modulo four of them. -/
theorem turn_quarterTurns_add {a b : ℤ} (ha : a % 90 = 0) (pic : Picture Pixel) :
    Picture.turn^[quarterTurns b] (Picture.turn^[quarterTurns a] pic) =
      Picture.turn^[quarterTurns (a + b)] pic := by
  rw [← Function.iterate_add_apply, ← Picture.turn_iterate_mod,
    ← Picture.turn_iterate_mod _ (quarterTurns (a + b))]
  congr 1
  unfold quarterTurns
  omega

/-- **A sequence of runs** turns the picture by the sum of the angles: every run ends with the
exit code 0 and without a message and uses its memory soundly, and when the angles add up to whole
turns the last file holds the picture of the first one again. -/
theorem pipeline_turns (prog : Name) {calls : List Call} {angles : List ℤ}
    (hcalls : Asks calls angles) (hsource : files source = some content)
    (hdecoded : decoded content = some pic) (hpos : 0 < pic.cols * pic.rows)
    (hsize : 3 * (pic.cols * pic.rows) < 2 ^ 64) :
    (∀ run ∈ (pipeline prog calls source files).1,
        run.outcome = .exit 0 ∧ run.stderr = "" ∧ MemorySound run.memory) ∧
      ∃ written, (pipeline prog calls source files).2 (target source calls) = some written ∧
        decoded written = some (Picture.turn^[quarterTurns angles.sum] pic) ∧
        (angles.sum % 360 = 0 → decoded written = decoded content) := by
  suffices hturned : (∀ run ∈ (pipeline prog calls source files).1,
      run.outcome = .exit 0 ∧ run.stderr = "" ∧ MemorySound run.memory) ∧
        ∃ written, (pipeline prog calls source files).2 (target source calls) = some written ∧
          decoded written = some (Picture.turn^[quarterTurns angles.sum] pic) by
    obtain ⟨hruns, written, hlast, hwritten⟩ := hturned
    refine ⟨hruns, written, hlast, hwritten, fun hsum => ?_⟩
    have hnone : quarterTurns angles.sum = 0 := by
      unfold quarterTurns
      omega
    rw [hwritten, hnone, hdecoded, Function.iterate_zero, id]
  induction hcalls generalizing source files content pic with
  | nil => exact ⟨nofun, content, hsource, hdecoded⟩
  | @cons call calls angle angles hworld hangle hspells hcalls ih =>
      obtain ⟨written, hrun, hwritten, hsound⟩ :=
        command_turns prog [] hworld hsource hdecoded hpos hsize hangle hspells
      have hcells := Picture.size_iterate_turn pic (quarterTurns angle)
      obtain ⟨hruns, last, hlast, hturned⟩ :=
        ih (Function.update_self call.out (some written) files) hwritten (hcells ▸ hpos)
          (hcells ▸ hsize)
      rw [turn_quarterTurns_add (allowed_mod hangle), ← List.sum_cons] at hturned
      rw [← hrun.files_eq] at hruns hlast
      refine ⟨fun run hmem => ?_, last, hlast, hturned⟩
      rcases List.mem_cons.mp hmem with rfl | hmem
      · exact ⟨hrun.outcome_eq, hrun.stderr_eq, hsound⟩
      · exact hruns run hmem

/-- The picture of `twoByThree`. -/
def twoByThreePicture : Picture Pixel := ⟨2, 3, fun i j => ⟨BitVec.ofNat 8 (i * 3 + j), 0, 0⟩⟩

/-- A file with this picture. -/
def twoByThreeFile : List Byte := (toBmp allOnes twoByThree .opened).2.bytes

theorem decoded_twoByThreeFile : decoded twoByThreeFile = some twoByThreePicture :=
  decoded_toBmp (by decide) (by decide) (by decide) (by decide) rfl
    (toBmp_of_no_failure (by decide) rfl).1 rfl

/-- A system that grants everything. -/
def grantingWorld : World := ⟨[], fun _ => true, [], none, allOnes⟩

/-- From the file `a` to the file `b` by 90 degrees, and back by -90 degrees. -/
def thereAndBack : List Call :=
  [⟨grantingWorld, [0x62], [0x39, 0x30]⟩, ⟨grantingWorld, [0x61], [0x2d, 0x39, 0x30]⟩]

theorem asks_thereAndBack : Asks thereAndBack [90, -90] := by
  have hserves : ∀ out, Serves grantingWorld out := fun out => ⟨nofun, rfl, rfl, rfl⟩
  have hplus : Spells [0x39, 0x30] 90 :=
    ⟨[], [], [0x39, 0x30], rfl, nofun, by decide, by decide, .unsigned⟩
  have hminus : Spells [0x2d, 0x39, 0x30] (-90) :=
    ⟨[], [0x2d], [0x39, 0x30], rfl, nofun, by decide, by decide, .minus⟩
  exact .cons (hserves _) (by decide) hplus (.cons (hserves _) (by decide) hminus .nil)

/-- The picture of the file `a` is there again. -/
theorem pipeline_turns_back :
    ∃ written, (pipeline [] thereAndBack [0x61] fun _ => some twoByThreeFile).2 [0x61] =
        some written ∧ decoded written = some twoByThreePicture := by
  have hturned := @pipeline_turns (fun _ => some twoByThreeFile) [0x61] twoByThreeFile
    twoByThreePicture [] thereAndBack [90, -90] asks_thereAndBack rfl decoded_twoByThreeFile
    (by decide) (by decide)
  have htarget : target [0x61] thereAndBack = [0x61] := rfl
  rw [htarget] at hturned
  refine hturned.2.imp fun written hwritten => ⟨hwritten.1, ?_⟩
  exact (hwritten.2.2 (by decide)).trans decoded_twoByThreeFile

end LowLevel.Analysis
