import LowLevel.Interface.BmpReading
import LowLevel.Interface.ImagePicture
import LowLevel.Library.Rows

/-!
# What `to_bmp` writes

A run of `to_bmp` that returns `WRITE_BMP_OK` has written the header and then, row after
row, the bytes of the row and `calc_padding` bytes from `zero_padding` on; `fwrite` returns
the number it was asked for only when every byte was accepted.
-/

set_option autoImplicit false

namespace LowLevel.Interface

open LowLevel.Library LowLevel.Program.ImageRotation LowLevel.Program.Bmp

variable {f : OutFile} {g : Garbage} {img : Image}

/-! ## `fwrite` -/

theorem fwrite_calls (source : Source) (bs : List Byte) (size nmemb : ℕ) (f : OutFile) :
    (fwrite source bs size nmemb f).2.calls = f.calls ++ [⟨source, size, nmemb⟩] := by
  unfold fwrite
  dsimp only
  split_ifs
  · rfl
  · split
    · split_ifs
      · rfl
      · rfl
    · rfl

/-- A call that returns what it was asked for has written everything. -/
theorem fwrite_bytes {source : Source} {bs : List Byte} {size nmemb : ℕ} (hsize : 0 < size)
    (hnmemb : 0 < nmemb) (hall : (fwrite source bs size nmemb f).1 = nmemb) :
    (fwrite source bs size nmemb f).2.bytes = f.bytes ++ bs := by
  have hpos : size * nmemb ≠ 0 := Nat.mul_ne_zero hsize.ne' hnmemb.ne'
  unfold fwrite at hall ⊢
  dsimp only at hall ⊢
  rw [if_neg hpos] at hall ⊢
  split at hall
  · next k _ =>
      split_ifs at hall with hcut
      · -- fewer bytes than asked for are fewer elements
        have := Nat.div_lt_of_lt_mul hcut
        omega
      · rw [if_neg hcut]
  · rfl

/-- A call that meets no failure returns what it was asked for. -/
theorem fwrite_of_no_failure {source : Source} {bs : List Byte} {size nmemb : ℕ}
    (hsize : 0 < size) (hnmemb : 0 < nmemb) (hout : f.outcomes = []) :
    (fwrite source bs size nmemb f).1 = nmemb ∧
      (fwrite source bs size nmemb f).2.outcomes = [] := by
  have hpos : size * nmemb ≠ 0 := Nat.mul_ne_zero hsize.ne' hnmemb.ne'
  unfold fwrite
  dsimp only
  rw [if_neg hpos, hout]
  exact ⟨rfl, rfl⟩

/-! ## The loop over the rows -/

variable {rowSize padding n i : ℕ}

theorem writeRows_succ (g : Garbage) (img : Image) (rowSize padding n i : ℕ) (f : OutFile) :
    writeRows g img rowSize padding (n + 1) i f =
      let row := fwrite (.row i) (dataBytes g img (mul64 i img.width) rowSize) rowSize 1 f
      let zeros := fwrite .zeroPadding (zeroPaddingBytes g i padding) 1 padding row.2
      if row.1 ≠ 1 then (.error, row.2)
      else if zeros.1 ≠ padding then (.error, zeros.2)
      else writeRows g img rowSize padding n (i + 1) zeros.2 := by
  rw [writeRows]
  dsimp only
  rw [Stateful.bind_apply, Stateful.ite_apply]
  split_ifs
  · rfl
  · rw [Stateful.bind_apply, Stateful.ite_apply]
    rw [if_pos ‹_›]
    rfl
  · rw [Stateful.bind_apply, Stateful.ite_apply]
    rw [if_neg ‹_›]

/-- The bytes of row `i` and behind it. -/
def rowBytes (g : Garbage) (img : Image) (rowSize padding i : ℕ) : List Byte :=
  dataBytes g img (mul64 i img.width) rowSize ++ zeroPaddingBytes g i padding

theorem length_rowBytes : (rowBytes g img rowSize padding i).length = rowSize + padding := by
  simp [rowBytes, dataBytes, zeroPaddingBytes]

/-- **The loop** writes its rows one after another. -/
theorem writeRows_bytes (hrow : 0 < rowSize) (hpadding : 0 < padding)
    (hok : (writeRows g img rowSize padding n i f).1 = .ok) :
    (writeRows g img rowSize padding n i f).2.bytes =
      f.bytes ++ rows (rowBytes g img rowSize padding) n i := by
  induction n generalizing f i with
  | zero => exact (List.append_nil _).symm
  | succ n ih =>
      rw [writeRows_succ] at hok ⊢
      dsimp only at hok ⊢
      split_ifs at hok ⊢ with hdata hzeros
      rw [ih hok, fwrite_bytes one_pos hpadding (not_not.mp hzeros),
        fwrite_bytes hrow one_pos (not_not.mp hdata), rows_succ, rowBytes]
      simp only [List.append_assoc]

/-- The calls that read `zero_padding` all ask for `padding` bytes. -/
theorem writeRows_zeroPadding_calls {c : FwriteCall}
    (hc : c ∈ (writeRows g img rowSize padding n i f).2.calls) (hsource : c.source = .zeroPadding) :
    c ∈ f.calls ∨ c = ⟨.zeroPadding, 1, padding⟩ := by
  induction n generalizing f i with
  | zero => exact .inl hc
  | succ n ih =>
      rw [writeRows_succ] at hc
      dsimp only at hc
      -- a call made by the row itself does not read `zero_padding`
      have hrow : ∀ c' : FwriteCall, c' ∈ f.calls ++ [⟨.row i, rowSize, 1⟩] →
          c'.source = .zeroPadding → c' ∈ f.calls := by
        intro c' hc' hsource'
        rcases List.mem_append.mp hc' with hold | hnew
        · exact hold
        · rw [List.mem_singleton.mp hnew] at hsource'
          cases hsource'
      have hzeros : c ∈ (f.calls ++ [⟨.row i, rowSize, 1⟩]) ++ [⟨.zeroPadding, 1, padding⟩] →
          c ∈ f.calls ∨ c = ⟨.zeroPadding, 1, padding⟩ := by
        intro hc'
        rcases List.mem_append.mp hc' with hold | hnew
        · exact .inl (hrow c hold hsource)
        · exact .inr (List.mem_singleton.mp hnew)
      split_ifs at hc
      · rw [fwrite_calls] at hc
        exact .inl (hrow c hc hsource)
      · rw [fwrite_calls, fwrite_calls] at hc
        exact hzeros hc
      · rcases ih hc with hold | hnew
        · rw [fwrite_calls, fwrite_calls] at hold
          exact hzeros hold
        · exact .inr hnew

/-- A call once made stays made. -/
theorem mem_writeRows_calls {c : FwriteCall} (hc : c ∈ f.calls) :
    c ∈ (writeRows g img rowSize padding n i f).2.calls := by
  induction n generalizing f i with
  | zero => exact hc
  | succ n ih =>
      rw [writeRows_succ]
      dsimp only
      split_ifs
      · rw [fwrite_calls]
        exact List.mem_append_left _ hc
      · rw [fwrite_calls, fwrite_calls]
        exact List.mem_append_left _ (List.mem_append_left _ hc)
      · apply ih
        rw [fwrite_calls, fwrite_calls]
        exact List.mem_append_left _ (List.mem_append_left _ hc)

/-- Without a failing call the loop comes to its end, and every row asks for `padding`
bytes of `zero_padding`. -/
theorem writeRows_of_no_failure (hrow : 0 < rowSize) (hpadding : 0 < padding)
    (hout : f.outcomes = []) :
    (writeRows g img rowSize padding n i f).1 = .ok ∧
      (0 < n → ⟨.zeroPadding, 1, padding⟩ ∈
        (writeRows g img rowSize padding n i f).2.calls) := by
  induction n generalizing f i with
  | zero => exact ⟨rfl, fun h => absurd h (lt_irrefl 0)⟩
  | succ n ih =>
      set row := fwrite (.row i) (dataBytes g img (mul64 i img.width) rowSize) rowSize 1 f with hr
      set zeros := fwrite .zeroPadding (zeroPaddingBytes g i padding) 1 padding row.2 with hz
      obtain ⟨hdata, hout₁⟩ : row.1 = 1 ∧ row.2.outcomes = [] :=
        fwrite_of_no_failure hrow one_pos hout
      obtain ⟨hzeros, hout₂⟩ : zeros.1 = padding ∧ zeros.2.outcomes = [] :=
        fwrite_of_no_failure one_pos hpadding hout₁
      have hrun : writeRows g img rowSize padding (n + 1) i f =
          writeRows g img rowSize padding n (i + 1) zeros.2 := by
        rw [writeRows_succ]
        dsimp only
        rw [← hr, ← hz, if_neg (not_not.mpr hdata), if_neg (not_not.mpr hzeros)]
      rw [hrun]
      refine ⟨(ih hout₂).1, fun _ => ?_⟩
      apply mem_writeRows_calls
      rw [hz, fwrite_calls]
      exact List.mem_append_right _ List.mem_cons_self

/-! ## `to_bmp` -/

theorem toBmp_run (g : Garbage) (img : Image) (f : OutFile) :
    toBmp g img f =
      let header := fwrite .header (createBmpHeader img).bytes sizeofBmpHeader 1 f
      if header.1 ≠ 1 then (.error, header.2)
      else writeRows g img (mul64 img.width pixelSize) (calcPadding img.width) img.height 0
        header.2 := by
  unfold toBmp
  rw [Stateful.bind_apply, Stateful.ite_apply]
  rfl

/-- The padding of the code is one to four bytes. -/
theorem calcPadding_bounds (width : ℕ) : 1 ≤ calcPadding width ∧ calcPadding width ≤ 4 := by
  unfold calcPadding
  omega

/-- The header comes first, then the rows. -/
theorem toBmp_bytes (hrow : 0 < mul64 img.width pixelSize) (hok : (toBmp g img f).1 = .ok) :
    (toBmp g img f).2.bytes = f.bytes ++ (createBmpHeader img).bytes ++
      rows (rowBytes g img (mul64 img.width pixelSize) (calcPadding img.width)) img.height 0 := by
  rw [toBmp_run] at hok ⊢
  dsimp only at hok ⊢
  split_ifs at hok ⊢ with hheader
  rw [writeRows_bytes hrow (calcPadding_bounds _).1 hok,
    fwrite_bytes (by decide) one_pos (not_not.mp hheader)]

/-- Without a failing call `to_bmp` comes to its end, and asks for `calc_padding` bytes of
`zero_padding` if there is a row. -/
theorem toBmp_of_no_failure (hrow : 0 < mul64 img.width pixelSize) (hout : f.outcomes = []) :
    (toBmp g img f).1 = .ok ∧ (0 < img.height →
      ⟨.zeroPadding, 1, calcPadding img.width⟩ ∈ (toBmp g img f).2.calls) := by
  set header := fwrite .header (createBmpHeader img).bytes sizeofBmpHeader 1 f with hh
  obtain ⟨hheader, hout'⟩ : header.1 = 1 ∧ header.2.outcomes = [] :=
    fwrite_of_no_failure (by decide) one_pos hout
  have hrun : toBmp g img f = writeRows g img (mul64 img.width pixelSize)
      (calcPadding img.width) img.height 0 header.2 := by
    rw [toBmp_run]
    dsimp only
    rw [← hh, if_neg (not_not.mpr hheader)]
  rw [hrun]
  exact writeRows_of_no_failure hrow (calcPadding_bounds _).1 hout'

/-- Every call that reads `zero_padding` asks for `calc_padding` bytes. -/
theorem toBmp_zeroPadding_calls {c : FwriteCall} (hempty : f.calls = [])
    (hc : c ∈ (toBmp g img f).2.calls) (hsource : c.source = .zeroPadding) :
    c = ⟨.zeroPadding, 1, calcPadding img.width⟩ := by
  have hheader : c ∉ f.calls ++ [⟨.header, sizeofBmpHeader, 1⟩] := by
    rw [hempty, List.nil_append, List.mem_singleton]
    rintro rfl
    cases hsource
  rw [toBmp_run] at hc
  dsimp only at hc
  split_ifs at hc
  · rw [fwrite_calls] at hc
    exact absurd hc hheader
  · rcases writeRows_zeroPadding_calls hc hsource with hold | hnew
    · rw [fwrite_calls] at hold
      exact absurd hold hheader
    · exact hnew

/-! ## The rows in the file -/

/-- The pixel in memory at row `i`, column `j`. -/
def pixelAt (g : Garbage) (img : Image) (i j : ℕ) : Pixel :=
  (img.load (i * img.width + j)).getD (g.pixel (i * img.width + j))

theorem getElem?_dataBytes {first n j k : ℕ} (hk : k < pixelSize) (hn : pixelSize * j + k < n) :
    (dataBytes g img first n)[pixelSize * j + k]? =
      some (Pixel.byte ((img.load (first + j)).getD (g.pixel (first + j))) k) := by
  have hdiv : (pixelSize * j + k) / pixelSize = j := by
    rw [Nat.mul_add_div (by decide), Nat.div_eq_of_lt hk, Nat.add_zero]
  have hmod : (pixelSize * j + k) % pixelSize = k := by
    rw [Nat.mul_add_mod, Nat.mod_eq_of_lt hk]
  rw [dataBytes, List.getElem?_map, List.getElem?_range hn, Option.map_some, hdiv, hmod]

/-- The bytes of a row are few enough for a width of 32 bits. -/
theorem row_lt {width : ℕ} (hwidth : width < 2 ^ 32) : width * pixelSize < 2 ^ 64 := by
  unfold pixelSize
  omega

theorem mul64_pixelSize {width : ℕ} (hrow : width * pixelSize < 2 ^ 64) :
    mul64 width pixelSize = pixelSize * width := by
  unfold mul64
  rw [Nat.mod_eq_of_lt hrow, Nat.mul_comm]

/-- **Writing**: the pixels of the image stand in the file behind the header, in rows that
are `calc_padding` bytes longer than their pixels. -/
theorem holdsRows_toBmp (hrow : img.width * pixelSize < 2 ^ 64)
    (hsize : img.width * img.height < 2 ^ 64) (hempty : f.bytes = [])
    (hok : (toBmp g img f).1 = .ok) :
    HoldsRows (toBmp g img f).2.bytes sizeofBmpHeader
      (pixelSize * img.width + calcPadding img.width) img.width img.height (pixelAt g img) := by
  intro i hi j hj k hk
  have hmul := mul64_pixelSize hrow
  have hfirst : mul64 i img.width = i * img.width := by
    have hlt := index_lt hi hj
    exact Nat.mod_eq_of_lt (by omega)
  have hin : pixelSize * j + k < pixelSize * img.width := by
    unfold pixelSize at hk ⊢
    omega
  rw [toBmp_bytes (by rw [hmul]; omega) hok, hempty, List.nil_append, hmul,
    List.getElem?_append_right (by rw [length_header]; omega), length_header,
    show sizeofBmpHeader + i * (pixelSize * img.width + calcPadding img.width) +
        pixelSize * j + k - sizeofBmpHeader =
      i * (pixelSize * img.width + calcPadding img.width) + (pixelSize * j + k) by omega,
    getElem?_rows (fun _ _ => length_rowBytes) hi (by omega), Nat.zero_add, rowBytes,
    List.getElem?_append_left (by simpa [dataBytes] using hin), hfirst,
    getElem?_dataBytes hk hin]
  rfl

/-- The file is the header and the rows long. -/
theorem length_toBmp (hpos : 0 < img.width) (hrow : img.width * pixelSize < 2 ^ 64)
    (hempty : f.bytes = []) (hok : (toBmp g img f).1 = .ok) :
    (toBmp g img f).2.bytes.length =
      sizeofBmpHeader + img.height * (pixelSize * img.width + calcPadding img.width) := by
  have hmul := mul64_pixelSize hrow
  have hwidth : 0 < pixelSize * img.width := Nat.mul_pos (by decide) hpos
  rw [toBmp_bytes (by rw [hmul]; exact hwidth) hok, hempty, List.nil_append, List.length_append,
    length_header, length_rows fun _ _ => length_rowBytes, hmul]

/-- The file starts with the header. -/
theorem toBmp_starts (hpos : 0 < img.width) (hrow : img.width * pixelSize < 2 ^ 64)
    (hempty : f.bytes = []) (hok : (toBmp g img f).1 = .ok) :
    (toBmp g img f).2.bytes.take sizeofBmpHeader = (createBmpHeader img).bytes := by
  have hwidth : 0 < pixelSize * img.width := Nat.mul_pos (by decide) hpos
  rw [toBmp_bytes (by rw [mul64_pixelSize hrow]; exact hwidth) hok, hempty, List.nil_append,
    ← length_header (createBmpHeader img), List.take_left]

end LowLevel.Interface
