import LowLevel.Program.ImageRotation

/-!
# The BMP codec

`bmp.h` and `serialization.c` of `Image Rotation C/solution`; `image/bmp.c` of `Sepia Filter
C, ASM` is the same text. `from_bmp` runs on a `Process`: the input file and its position,
what `malloc` will answer, the blocks it handed out with what is stored in them, and the
pointers passed to `free`. `to_bmp` runs on an `OutFile`, whose `outcomes` list, call after
call, how many bytes of a `fwrite` are accepted when not all are.
-/

set_option autoImplicit false

namespace LowLevel.Program.Bmp

open LowLevel.Library LowLevel.Program.ImageRotation

/-! ## bmp.h -/

/-- The packed header: 54 bytes, little-endian. -/
structure BmpHeader where
  bfType : BitVec 16
  bfileSize : BitVec 32
  bfReserved : BitVec 32
  bOffBits : BitVec 32
  biSize : BitVec 32
  biWidth : BitVec 32
  biHeight : BitVec 32
  biPlanes : BitVec 16
  biBitCount : BitVec 16
  biCompression : BitVec 32
  biSizeImage : BitVec 32
  biXPelsPerMeter : BitVec 32
  biYPelsPerMeter : BitVec 32
  biClrUsed : BitVec 32
  biClrImportant : BitVec 32
  deriving DecidableEq, Repr

namespace BmpHeader

/-- The object representation of the header. -/
def bytes (h : BmpHeader) : List Byte :=
  leBytes 2 h.bfType.toNat ++ leBytes 4 h.bfileSize.toNat ++ leBytes 4 h.bfReserved.toNat ++
    leBytes 4 h.bOffBits.toNat ++ leBytes 4 h.biSize.toNat ++ leBytes 4 h.biWidth.toNat ++
    leBytes 4 h.biHeight.toNat ++ leBytes 2 h.biPlanes.toNat ++ leBytes 2 h.biBitCount.toNat ++
    leBytes 4 h.biCompression.toNat ++ leBytes 4 h.biSizeImage.toNat ++
    leBytes 4 h.biXPelsPerMeter.toNat ++ leBytes 4 h.biYPelsPerMeter.toNat ++
    leBytes 4 h.biClrUsed.toNat ++ leBytes 4 h.biClrImportant.toNat

/-- The `n`-byte field at `offset`. -/
def field (bs : List Byte) (offset n : ℕ) : BitVec (8 * n) :=
  BitVec.ofNat (8 * n) (leNat ((bs.drop offset).take n))

/-- The header that 54 bytes are the representation of. -/
def ofBytes (bs : List Byte) : BmpHeader where
  bfType := field bs 0 2
  bfileSize := field bs 2 4
  bfReserved := field bs 6 4
  bOffBits := field bs 10 4
  biSize := field bs 14 4
  biWidth := field bs 18 4
  biHeight := field bs 22 4
  biPlanes := field bs 26 2
  biBitCount := field bs 28 2
  biCompression := field bs 30 4
  biSizeImage := field bs 34 4
  biXPelsPerMeter := field bs 38 4
  biYPelsPerMeter := field bs 42 4
  biClrUsed := field bs 46 4
  biClrImportant := field bs 50 4

end BmpHeader

/-- `sizeof(bmp_header)`. -/
def sizeofBmpHeader : ℕ := 54

/-- `sizeof(image)`. -/
def sizeofImage : ℕ := 24

/-- The macro `calc_padding`, which is four where no padding is needed. -/
def calcPadding (width : ℕ) : ℕ := 4 - mul64 width pixelSize % 4

/-- `BMP_TYPE`. -/
def bmpType : BitVec 16 := 0x4D42

/-- `BI_HEADER_SIZE`. -/
def biHeaderSize : ℕ := 54

/-- `DIB_HEADER_SIZE`. -/
def dibHeaderSize : ℕ := 40

/-- `BI_PLANES_USED`. -/
def biPlanesUsed : ℕ := 1

/-- `BI_BITS_PER_PIXEL`. -/
def biBitsPerPixel : ℕ := 24

/-- `BI_XPELS_PER_METER`. -/
def biXpelsPerMeter : ℕ := 2835

/-- `BI_YPELS_PER_METER`. -/
def biYpelsPerMeter : ℕ := 2835

/-! ## `from_bmp` -/

/-- `read_bmp_status`. -/
inductive ReadBmpStatus where
  | ok
  | invalidSignature
  | invalidBits
  | invalidHeader
  | noEnoughMemory
  deriving DecidableEq, Repr

/-- What a pointer passed around here points to: nothing, the block `malloc` handed out as
its `id`-th, the caller's variable, or nothing that was ever assigned. -/
inductive Ptr where
  | null
  | heap (id : ℕ)
  | variable
  | indeterminate
  deriving DecidableEq, Repr

/-- A `struct image` in memory, with the fields assigned so far. -/
structure ImageCell where
  width : Option ℕ
  height : Option ℕ
  data : Ptr
  deriving DecidableEq, Repr

/-- The process around `from_bmp`: `content` and `pos` are the input file, `grants` what
`malloc` answers, `sizes` the sizes of the blocks handed out, `images` and `pixels` what is
stored in them, `img` the variable of the caller. `stores` records the pixels stored to,
block and index; the code does not read it. -/
structure Process where
  content : List Byte
  pos : ℕ
  grants : List Bool
  sizes : List ℕ
  images : ℕ → ImageCell
  pixels : ℕ → ℕ → Option Pixel
  img : Ptr
  freed : List Ptr
  stores : List (ℕ × ℕ)

/-- The process when the file is opened; no `malloc` will fail. -/
def Process.opened (content : List Byte) : Process where
  content := content
  pos := 0
  grants := []
  sizes := []
  images := fun _ => ⟨none, none, .indeterminate⟩
  pixels := fun _ _ => none
  img := .indeterminate
  freed := []
  stores := []

/-- A fresh block, its contents unset, or a null pointer. -/
def malloc (size : ℕ) : StateM Process (Option ℕ) := fun p =>
  match p.grants.head? with
  | some false => (none, { p with grants := p.grants.tail })
  | _ =>
      (some p.sizes.length, { p with
        grants := p.grants.tail
        sizes := p.sizes ++ [size]
        images := Function.update p.images p.sizes.length ⟨none, none, .indeterminate⟩
        pixels := Function.update p.pixels p.sizes.length fun _ => none })

/-- A call of `free`: what it releases is judged from the record. -/
def free (ptr : Ptr) : StateM Process Unit :=
  modify fun p => { p with freed := p.freed ++ [ptr] }

/-- Up to `n` bytes from the position on. -/
def fread (n : ℕ) : StateM Process (List Byte) := fun p =>
  let bs := (p.content.drop p.pos).take n
  (bs, { p with pos := p.pos + bs.length })

/-- `fseek(in, offset, SEEK_SET)`. -/
def fseekSet (offset : ℕ) : StateM Process Unit := modify fun p => { p with pos := offset }

/-- `fseek(in, offset, SEEK_CUR)`. -/
def fseekCur (offset : ℕ) : StateM Process Unit :=
  modify fun p => { p with pos := p.pos + offset }

/-- Assign to fields of the image in block `id`. -/
def modifyImage (id : ℕ) (f : ImageCell → ImageCell) : StateM Process Unit :=
  modify fun p => { p with images := Function.update p.images id (f (p.images id)) }

/-- `data[k] = pixel`, for the buffer in block `id`. -/
def storePixel (id k : ℕ) (pixel : Pixel) : StateM Process Unit :=
  modify fun p => { p with
    pixels := Function.update p.pixels id (Function.update (p.pixels id) k (some pixel))
    stores := p.stores ++ [(id, k)] }

/-- The inner loop for `n` more columns; nothing when a pixel is cut short, else
`curr_pixel`. -/
def readColumns (data : ℕ) : ℕ → ℕ → StateM Process (Option ℕ)
  | 0, currPixel => return some currPixel
  | n + 1, currPixel => do
      let colours ← fread pixelSize
      if colours.length < pixelSize then return none
      storePixel data currPixel ⟨colours.getD 0 0, colours.getD 1 0, colours.getD 2 0⟩
      readColumns data n (add64 currPixel 1)

/-- The outer loop for `n` more rows. -/
def readRows (data width padding : ℕ) : ℕ → ℕ → StateM Process ReadBmpStatus
  | 0, _ => return .ok
  | n + 1, currPixel => do
      match ← readColumns data width currPixel with
      | none => return .invalidBits
      | some currPixel =>
          fseekCur padding
          readRows data width padding n currPixel

/-- `from_bmp`. -/
def fromBmp : StateM Process ReadBmpStatus := do
  match ← malloc sizeofImage with
  | none =>
      modify fun p => { p with img := .null }
      free .variable
      return .noEnoughMemory
  | some img =>
      modify fun p => { p with img := .heap img }
      let bs ← fread sizeofBmpHeader
      if bs.length < sizeofBmpHeader then return .invalidHeader
      let header := BmpHeader.ofBytes bs
      if header.bfType ≠ bmpType then return .invalidSignature
      let width := header.biWidth.toNat
      let height := header.biHeight.toNat
      modifyImage img fun c => { c with width := some width, height := some height }
      match ← malloc (mul64 (mul64 pixelSize width) height) with
      | none =>
          modifyImage img fun c => { c with data := .null }
          free .null
          return .noEnoughMemory
      | some data =>
          modifyImage img fun c => { c with data := .heap data }
          fseekSet header.bOffBits.toNat
          readRows data width (calcPadding width) height 0

/-! ## `to_bmp` -/

/-- `write_bmp_status`. -/
inductive WriteBmpStatus where
  | ok
  | error
  deriving DecidableEq, Repr

/-- What memory holds that the code reads without having written it: the pixels never
stored to, and for each row the bytes behind `zero_padding`. -/
structure Garbage where
  pixel : ℕ → Pixel
  beyond : ℕ → ℕ → Byte

/-- The object that a `fwrite` starts to read at. -/
inductive Source where
  | header
  | row (i : ℕ)
  | zeroPadding
  deriving DecidableEq, Repr

/-- A call of `fwrite`. -/
structure FwriteCall where
  source : Source
  size : ℕ
  nmemb : ℕ
  deriving DecidableEq, Repr

/-- The output file: the bytes it holds, the calls of `fwrite` made, and for the calls to
come the number of bytes accepted when the call fails. -/
structure OutFile where
  bytes : List Byte
  calls : List FwriteCall
  outcomes : List (Option ℕ)

/-- The file when it is opened; no `fwrite` will fail. -/
def OutFile.opened : OutFile := ⟨[], [], []⟩

/-- `fwrite` of the `size * nmemb` bytes `bs`: the number of elements written. -/
def fwrite (source : Source) (bs : List Byte) (size nmemb : ℕ) : StateM OutFile ℕ := fun f =>
  let f' := { f with calls := f.calls ++ [⟨source, size, nmemb⟩], outcomes := f.outcomes.tail }
  if size * nmemb = 0 then (0, f')
  else
    match f.outcomes.head? with
    | some (some k) =>
        if k < size * nmemb then (k / size, { f' with bytes := f.bytes ++ bs.take k })
        else (nmemb, { f' with bytes := f.bytes ++ bs })
    | _ => (nmemb, { f' with bytes := f.bytes ++ bs })

/-- The `k`-th byte of a pixel. -/
def Pixel.byte (p : Pixel) (k : ℕ) : Byte := if k = 0 then p.b else if k = 1 then p.g else p.r

/-- The `n` bytes at `data + first`. -/
def dataBytes (g : Garbage) (img : Image) (first n : ℕ) : List Byte :=
  (List.range n).map fun k =>
    Pixel.byte ((img.load (first + k / pixelSize)).getD (g.pixel (first + k / pixelSize)))
      (k % pixelSize)

/-- The `n` bytes at `zero_padding`, which has three. -/
def zeroPaddingBytes (g : Garbage) (i n : ℕ) : List Byte :=
  (List.range n).map fun k => if k < 3 then 0 else g.beyond i k

/-- `create_bmp_header`. -/
def createBmpHeader (img : Image) : BmpHeader :=
  let rowSize := mul64 img.width pixelSize
  let dataSize := mul64 (add64 rowSize (calcPadding img.width)) img.height
  { bfType := bmpType
    bfileSize := BitVec.ofNat 32 (add64 dataSize biHeaderSize)
    bfReserved := 0
    bOffBits := BitVec.ofNat 32 biHeaderSize
    biSize := BitVec.ofNat 32 dibHeaderSize
    biWidth := BitVec.ofNat 32 img.width
    biHeight := BitVec.ofNat 32 img.height
    biPlanes := BitVec.ofNat 16 biPlanesUsed
    biBitCount := BitVec.ofNat 16 biBitsPerPixel
    biCompression := 0
    biSizeImage := BitVec.ofNat 32 dataSize
    biXPelsPerMeter := BitVec.ofNat 32 biXpelsPerMeter
    biYPelsPerMeter := BitVec.ofNat 32 biYpelsPerMeter
    biClrUsed := 0
    biClrImportant := 0 }

/-- The loop over the rows, for `n` more rows from row `i` on. -/
def writeRows (g : Garbage) (img : Image) (rowSize padding : ℕ) :
    ℕ → ℕ → StateM OutFile WriteBmpStatus
  | 0, _ => return .ok
  | n + 1, i => do
      let currentRow := mul64 i img.width
      if (← fwrite (.row i) (dataBytes g img currentRow rowSize) rowSize 1) ≠ 1 then
        return .error
      if (← fwrite .zeroPadding (zeroPaddingBytes g i padding) 1 padding) ≠ padding then
        return .error
      writeRows g img rowSize padding n (i + 1)

/-- `to_bmp`. -/
def toBmp (g : Garbage) (img : Image) : StateM OutFile WriteBmpStatus := do
  if (← fwrite .header (createBmpHeader img).bytes sizeofBmpHeader 1) ≠ 1 then return .error
  writeRows g img (mul64 img.width pixelSize) (calcPadding img.width) img.height 0

end LowLevel.Program.Bmp
