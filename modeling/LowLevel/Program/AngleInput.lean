import LowLevel.Library.Decimal
import LowLevel.Program.ImageRotation

/-!
# The angle on the command line

`convert_to_int`, `angle_is_allowed` and `read_angle` of `console_io.c` in `Image Rotation
C/solution`. A string is its characters without the NUL behind them; `long` has 64 bits, `int`
has 32, and a conversion to `int16_t` keeps the 16 lowest bits.
-/

set_option autoImplicit false

namespace LowLevel.Program.AngleInput

open LowLevel.Library LowLevel.Program.ImageRotation

def longMin : ℤ := -2 ^ 63

/-- `LONG_MAX`, which `strtol` also returns for what is larger. -/
def longMax : ℤ := 2 ^ 63 - 1

def intMin : ℤ := -2 ^ 31

def intMax : ℤ := 2 ^ 31 - 1

/-- The conversion to `int16_t`. -/
def toInt16 (v : ℤ) : ℤ := v.bmod (2 ^ 16)

/-- `isspace`, in the locale "C". -/
def IsSpace (b : Byte) : Prop := b = 0x20 ∨ 0x09 ≤ b.toNat ∧ b.toNat ≤ 0x0d

instance (b : Byte) : Decidable (IsSpace b) := inferInstanceAs (Decidable (_ ∨ _))

/-- `strtol(string, &end, 10)`: the number, and how far `end` is from `string`. A number out of
range is the limit that it exceeds. -/
def strtol (string : List Byte) : ℤ × ℕ :=
  let spaces := string.takeWhile fun b => decide (IsSpace b)
  let text := string.drop spaces.length
  let digits := signedDigits text
  let value : ℤ := if text.head? = some 0x2d then -decimalValue digits else decimalValue digits
  if digits = [] then (0, 0)
  else (max longMin (min longMax value), spaces.length + signLength text + digits.length)

/-- What is stored in `*num`, if the conversion succeeds. -/
def convertToInt (string : List Byte) : Option ℤ :=
  let (res, fin) := strtol string
  if fin = 0 then none
  else if res = longMax ∨ res = longMin then none
  else if intMax < res ∨ res < intMin then none
  else some (toInt16 res)

/-- `angle_is_allowed`, on the value that was narrowed to 16 bits. -/
def angleIsAllowed (angle : ℤ) : Bool := rotationAllowedAngles.any (· == angle)

/-- `validate_angle_status`. -/
inductive ValidateAngleStatus where
  | valid
  | formatError
  | valueError
  deriving DecidableEq, Repr

/-- The status, and what `*res` is then. -/
def readAngle (angle : List Byte) (res : ℤ) : ValidateAngleStatus × ℤ :=
  match convertToInt angle with
  | none => (.formatError, res)
  | some tempRes => if angleIsAllowed tempRes then (.valid, tempRes) else (.valueError, res)

end LowLevel.Program.AngleInput
