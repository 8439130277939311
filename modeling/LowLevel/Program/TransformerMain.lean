import LowLevel.Program.AngleInput
import LowLevel.Program.ImageTransformer

/-!
# The image transformer as a command

`main` of `Image Rotation C/solution` from the command line to the exit code, with the files that
it opens and what it writes to `stderr`. The names of the statuses are those of `enum_naming.c`.
-/

set_option autoImplicit false

namespace LowLevel.Program.ImageTransformer

open LowLevel.Library LowLevel.Program.ImageRotation LowLevel.Program.Bmp
open LowLevel.Program.AngleInput

/-- A string of the command line, without the NUL behind it. -/
abbrev Name := List Byte

/-- The files, by their names. -/
abbrev Files := Name → Option (List Byte)

/-- What the system will answer: which blocks `malloc` grants, which files `fopen` opens for
writing, how many bytes of a `fwrite` are accepted, and how many of the accepted bytes are in the
file when its stream is closed, if some are lost; and what memory holds that was never written. -/
structure World where
  grants : List Bool
  openable : Name → Bool
  outcomes : List (Option ℕ)
  kept : Option ℕ
  garbage : Garbage

/-- What the file holds in the end of the bytes that `fwrite` has accepted. Closing the stream
writes out what is still buffered, in `fclose` or when the process ends; `main` looks at the result
of neither. -/
def World.onDisk (world : World) (accepted : List Byte) : List Byte :=
  match world.kept with
  | none => accepted
  | some n => accepted.take n

/-- How a run of the command ends, with the memory of the process at that time. -/
structure CommandRun where
  outcome : Outcome
  stderr : String
  files : Files
  memory : Process

/-! ## enum_naming.c -/

/-- `file_proc_status_names[FILE_PROC_ERROR]`. -/
def fileProcErrorName : String := "FILE_PROC_ERROR"

/-- `validate_input_args_status_names[ARGS_ERROR]`. -/
def argsErrorName : String := "ARGS_ERROR"

/-- `write_status_names[WRITE_BMP_ERROR]`. -/
def writeErrorName : String := "WRITE_ERROR"

/-- `read_status_names`. -/
def readStatusName : ReadBmpStatus → String
  | .ok => "READ_BMP_OK"
  | .invalidSignature => "READ_BMP_INVALID_SIGNATURE"
  | .invalidBits => "READ_BMP_INVALID_BITS"
  | .invalidHeader => "READ_BMP_INVALID_HEADER"
  | .noEnoughMemory => "READ_BMP_NO_ENOUGH_MEMORY"

/-- `validate_angle_status_names`. -/
def validateAngleStatusName : ValidateAngleStatus → String
  | .valid => "ANGLE_VALID"
  | .formatError => "ANGLE_FORMAT_ERROR"
  | .valueError => "ANGLE_VALUE_ERROR"

/-- `fprintf(stderr, "\n\n%s\n\n", name)`. -/
def report (name : String) : String := "\n\n" ++ name ++ "\n\n"

/-! ## `main` -/

/-- `return 1` with a message, before anything is allocated. -/
def refuse (message : String) (files : Files) : CommandRun :=
  ⟨.exit 1, message, files, Process.opened []⟩

/-- `clear_images_memory`, the message and `return 1`. When the images cannot be released the
run does not come to the message. -/
def fail (images : List Ptr) (name : String) (files : Files) (p : Process) : CommandRun :=
  match leave images 1 p with
  | (.exit code, p) => ⟨.exit code, report name, files, p⟩
  | (.follows ptr, p) => ⟨.follows ptr, "", files, p⟩

/-- From the image that was read to the file that is written. -/
def writeTransformed (world : World) (angle : ℤ) (out : Name) (files : Files) (img : ℕ)
    (p : Process) : CommandRun :=
  let result := rotated angle (Process.image p img)
  match placeImage result p with
  | (none, p) => ⟨.follows .null, "", files, p⟩
  | (some rotatedImg, p) =>
      if world.openable out then
        let (status, f) := toBmp world.garbage result ⟨[], [], world.outcomes⟩
        let files := Function.update files out (some (world.onDisk f.bytes))
        match status with
        | .error => fail [.heap img, rotatedImg] writeErrorName files p
        | .ok =>
            let left := leave [.heap img, rotatedImg] 0 p
            ⟨left.1, "", files, left.2⟩
      else fail [.heap img, rotatedImg] fileProcErrorName files p

/-- `main(argc, argv)`. -/
def command (world : World) (argv : List Name) (files : Files) : CommandRun :=
  match argv with
  | _ :: source :: out :: strAngle :: _ =>
      match readAngle strAngle 0 with
      | (.valid, angle) =>
          match files source with
          | none => refuse (report fileProcErrorName) files
          | some content =>
              let p := { Process.opened content with grants := world.grants }
              match fromBmp p with
              | (.ok, p) =>
                  match p.img with
                  | .heap img => writeTransformed world angle out files img p
                  | ptr => ⟨.follows ptr, "", files, p⟩
              | (status, p) => fail [p.img] (readStatusName status) files p
      | (status, _) =>
          refuse (report (validateAngleStatusName status) ++
            "Angle allowed values: 0, 90, -90, 180, -180, 270, -270\n\n") files
  | _ =>
      refuse (report argsErrorName ++
        "Input format: ./image-transformer <source-image> <transformed-image> <angle>\n\n") files

end LowLevel.Program.ImageTransformer
