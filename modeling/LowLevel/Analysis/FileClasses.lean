import LowLevel.Analysis.RowPadding

/-!
# What `from_bmp` makes of a file

When the allocations succeed the length of the file, its signature and the places of its
pixels decide what `from_bmp` returns: a file without a whole header, one of another type,
one that ends before the last byte of some pixel, and one that is read.
-/

set_option autoImplicit false

namespace LowLevel.Analysis

open LowLevel.Library LowLevel.Interface LowLevel.Program.ImageRotation LowLevel.Program.Bmp

/-- The header that the first 54 bytes of a file are. -/
def headerIn (content : List Byte) : BmpHeader :=
  BmpHeader.ofBytes (content.take sizeofBmpHeader)

/-- Where byte `k` of pixel `j` of row `i` stands. -/
def byteIndex (header : BmpHeader) (i j k : ℕ) : ℕ :=
  header.bOffBits.toNat +
    i * (pixelSize * header.biWidth.toNat + calcPadding header.biWidth.toNat) +
    pixelSize * j + k

/-- Some byte of a pixel lies past the end of the file. -/
def CutShort (content : List Byte) : Prop :=
  ∃ i < (headerIn content).biHeight.toNat, ∃ j < (headerIn content).biWidth.toNat,
    ∃ k < pixelSize, content.length ≤ byteIndex (headerIn content) i j k

instance (content : List Byte) : Decidable (CutShort content) :=
  inferInstanceAs (Decidable (∃ i < _, ∃ j < _, ∃ k < _, _))

/-- The class of a file. -/
def classOf (content : List Byte) : ReadBmpStatus :=
  if content.length < sizeofBmpHeader then .invalidHeader
  else if (headerIn content).bfType ≠ bmpType then .invalidSignature
  else if CutShort content then .invalidBits
  else .ok

/-- **The classes of files**: what `from_bmp` returns, what it leaves when it returns
`READ_BMP_OK`, and which indices it stores to. -/
structure Classified (p : Process) : Prop where
  invalidHeader_iff : (fromBmp p).1 = .invalidHeader ↔ p.content.length < sizeofBmpHeader
  invalidSignature_iff : (fromBmp p).1 = .invalidSignature ↔
    sizeofBmpHeader ≤ p.content.length ∧ (headerIn p.content).bfType ≠ bmpType
  invalidBits_iff : (fromBmp p).1 = .invalidBits ↔ sizeofBmpHeader ≤ p.content.length ∧
    (headerIn p.content).bfType = bmpType ∧ CutShort p.content
  ok_iff : (fromBmp p).1 = .ok ↔ sizeofBmpHeader ≤ p.content.length ∧
    (headerIn p.content).bfType = bmpType ∧ ¬ CutShort p.content
  pixels : (fromBmp p).1 = .ok → ∃ id data, (fromBmp p).2.img = .heap id ∧
    (fromBmp p).2.images id = ⟨some (headerIn p.content).biWidth.toNat,
      some (headerIn p.content).biHeight.toNat, .heap data⟩ ∧
    ∀ i < (headerIn p.content).biHeight.toNat, ∀ j < (headerIn p.content).biWidth.toNat,
      ∃ pixel, (fromBmp p).2.pixels data (i * (headerIn p.content).biWidth.toNat + j) =
          some pixel ∧
        ∀ k < pixelSize,
          p.content[byteIndex (headerIn p.content) i j k]? = some (Pixel.byte pixel k)
  stores : ∃ data l, (fromBmp p).2.stores = p.stores ++ l ∧ ∀ s ∈ l, s.1 = data ∧
    s.2 < (headerIn p.content).biWidth.toNat * (headerIn p.content).biHeight.toNat

variable {p : Process}

/-- A file is cut short when some pixel is not in it. -/
theorem cutShort_iff (content : List Byte) :
    CutShort content ↔ ¬ InFile content (headerIn content).bOffBits.toNat
      (pixelSize * (headerIn content).biWidth.toNat + calcPadding (headerIn content).biWidth.toNat)
      (headerIn content).biWidth.toNat (headerIn content).biHeight.toNat := by
  constructor
  · rintro ⟨i, hi, j, hj, k, hk, hcut⟩ hin
    have := hin i hi j hj
    unfold byteIndex at hcut
    omega
  · intro hin
    unfold InFile at hin
    push Not at hin
    obtain ⟨i, hi, j, hj, hcut⟩ := hin
    refine ⟨i, hi, j, hj, 2, by decide, ?_⟩
    unfold byteIndex
    unfold pixelSize at hcut ⊢
    omega

/-- The conditions of the classes exclude each other. -/
theorem classOf_iff (content : List Byte) :
    (classOf content = .invalidHeader ↔ content.length < sizeofBmpHeader) ∧
      (classOf content = .invalidSignature ↔
        sizeofBmpHeader ≤ content.length ∧ (headerIn content).bfType ≠ bmpType) ∧
      (classOf content = .invalidBits ↔ sizeofBmpHeader ≤ content.length ∧
        (headerIn content).bfType = bmpType ∧ CutShort content) ∧
      (classOf content = .ok ↔ sizeofBmpHeader ≤ content.length ∧
        (headerIn content).bfType = bmpType ∧ ¬ CutShort content) := by
  unfold classOf
  by_cases hlen : content.length < sizeofBmpHeader
  · simp [hlen]
  · by_cases htype : (headerIn content).bfType = bmpType
    · by_cases hcut : CutShort content
      · simp [hlen, htype, hcut, Nat.not_lt.mp hlen]
      · simp [hlen, htype, hcut, Nat.not_lt.mp hlen]
    · simp [hlen, htype, Nat.not_lt.mp hlen]

/-- A file without a whole header of the type stores nothing. -/
theorem fromBmp_of_noHeader (hgrants : ∀ granted ∈ p.grants, granted = true) (hpos : p.pos = 0)
    (hheader : p.content.length < sizeofBmpHeader ∨ (headerIn p.content).bfType ≠ bmpType) :
    (fromBmp p).1 = classOf p.content ∧ (fromBmp p).2.stores = p.stores := by
  rw [fromBmp_run, malloc_of_granted _ hgrants, classOf]
  dsimp only
  rw [hpos, List.drop_zero, List.length_take]
  by_cases hlen : p.content.length < sizeofBmpHeader
  · rw [if_pos (by omega), if_pos hlen]
    exact ⟨rfl, rfl⟩
  · have htype : (headerIn p.content).bfType ≠ bmpType := hheader.resolve_left hlen
    rw [if_neg (by omega), if_neg hlen, if_pos htype, if_pos (by exact htype)]
    exact ⟨rfl, rfl⟩

/-- A file with a header of the type is of the class that its length leaves. -/
theorem fromBmp_of_startsWith (h : StartsWith p (headerIn p.content))
    (hsize : (headerIn p.content).biHeight.toNat * (headerIn p.content).biWidth.toNat < 2 ^ 64) :
    (fromBmp p).1 = classOf p.content := by
  rw [classOf, if_neg (Nat.not_lt.mpr h.le_length), if_neg (not_not.mpr h.bfType_eq)]
  by_cases hcut : CutShort p.content
  · rw [if_pos hcut]
    exact h.fromBmp_of_cut hsize ((cutShort_iff p.content).mp hcut)
  · rw [if_neg hcut]
    rw [cutShort_iff, not_not] at hcut
    obtain ⟨p', hrun, -⟩ := h.fromBmp_of_holdsRows hsize hcut.holdsRows
    rw [hrun]

/-- **Classification**: whatever the file contains, `from_bmp` returns the class of the
file when the allocations succeed and the pixels fit in memory. -/
theorem fromBmp_classifies (p : Process) (hgrants : ∀ granted ∈ p.grants, granted = true)
    (hpos : p.pos = 0)
    (hsize : sizeofBmpHeader ≤ p.content.length → 3 * (headerIn p.content).biWidth.toNat *
      (headerIn p.content).biHeight.toNat < 2 ^ 64) : Classified p := by
  by_cases hheader : sizeofBmpHeader ≤ p.content.length ∧ (headerIn p.content).bfType = bmpType
  · have hstarts : StartsWith p (headerIn p.content) :=
      ⟨hgrants, hpos, hheader.1, rfl, hheader.2⟩
    have hsize : (headerIn p.content).biHeight.toNat * (headerIn p.content).biWidth.toNat <
        2 ^ 64 := by
      have := hsize hheader.1
      rw [Nat.mul_assoc, Nat.mul_comm (headerIn p.content).biWidth.toNat] at this
      omega
    have hclass := fromBmp_of_startsWith hstarts hsize
    obtain ⟨data, l, hl, hin⟩ := hstarts.fromBmp_stores hsize
    obtain ⟨hshort, hsignature, hbits, hok⟩ := classOf_iff p.content
    rw [← hclass] at hshort hsignature hbits hok
    refine ⟨hshort, hsignature, hbits, hok, fun h => ?_, data, l, hl, fun s hs => ?_⟩
    · have hwhole := (hok.mp h).2.2
      rw [cutShort_iff, not_not] at hwhole
      obtain ⟨p', hrun, id, block, himg, himage, hpixels⟩ :=
        hstarts.fromBmp_of_holdsRows hsize hwhole.holdsRows
      rw [hrun]
      exact ⟨id, block, himg, himage, fun i hi j hj =>
        ⟨_, hpixels i hi j hj, hwhole.holdsRows i hi j hj⟩⟩
    · rw [Nat.mul_comm]
      exact ⟨(hin s hs).1, (hin s hs).2.2⟩
  · have hnone : p.content.length < sizeofBmpHeader ∨ (headerIn p.content).bfType ≠ bmpType := by
      rwa [not_and_or, Nat.not_le] at hheader
    obtain ⟨hclass, hstores⟩ := fromBmp_of_noHeader hgrants hpos hnone
    obtain ⟨hshort, hsignature, hbits, hok⟩ := classOf_iff p.content
    rw [← hclass] at hshort hsignature hbits hok
    refine ⟨hshort, hsignature, hbits, hok, fun h => ?_, 0, [], ?_, fun s hs => ?_⟩
    · obtain ⟨hlen, htype, -⟩ := hok.mp h
      exact absurd ⟨hlen, htype⟩ hheader
    · rw [hstores, List.append_nil]
    · exact absurd hs List.not_mem_nil

/-- A file of two rows of three pixels that ends in the middle of the last pixel. -/
theorem fromBmp_classifies_cut_short :
    Classified (.opened ((headerOf 3 2).bytes ++ List.replicate 22 0)) := by
  have htake : ((headerOf 3 2).bytes ++ List.replicate 22 0).take sizeofBmpHeader =
      (headerOf 3 2).bytes := by
    rw [← length_header (headerOf 3 2), List.take_left']
    rfl
  refine fromBmp_classifies (.opened ((headerOf 3 2).bytes ++ List.replicate 22 0))
    (fun _ h => absurd h List.not_mem_nil) rfl fun _ => ?_
  show 3 * (headerIn ((headerOf 3 2).bytes ++ _)).biWidth.toNat * _ < _
  rw [headerIn, Process.opened, htake, ofBytes_bytes]
  decide

end LowLevel.Analysis
