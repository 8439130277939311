import LowLevel.Library.Fuel
import LowLevel.Program.Bmp

/-!
# What `from_bmp` reads

The packed header is read back from its own bytes, and `from_bmp` is two nested loops over
the file: pixel `j` of row `i` is taken from `3 * j` bytes after the start of the row, and
the rows start `3 * width + padding` bytes apart. `InFile` says that the three bytes of a
pixel are there; the loops return `READ_BMP_OK` exactly when that holds of every pixel.
-/

set_option autoImplicit false

namespace LowLevel.Interface

open LowLevel.Library LowLevel.Program.ImageRotation LowLevel.Program.Bmp

/-! ## The header -/

/-- The packed header is 54 bytes. -/
theorem length_header (h : BmpHeader) : h.bytes.length = sizeofBmpHeader := by
  simp [BmpHeader.bytes, sizeofBmpHeader]

/-- A field behind another is found behind it. -/
theorem field_skip {m v offset n : ℕ} {rest : List Byte} (h : m ≤ offset) :
    BmpHeader.field (leBytes m v ++ rest) offset n = BmpHeader.field rest (offset - m) n := by
  unfold BmpHeader.field
  rw [List.drop_append, List.drop_eq_nil_of_le (by rw [length_leBytes]; exact h), length_leBytes,
    List.nil_append]

/-- The first field is read back. -/
theorem field_head {n : ℕ} (v : BitVec (8 * n)) (rest : List Byte) :
    BmpHeader.field (leBytes n v.toNat ++ rest) 0 n = v := by
  have hlt : v.toNat < 256 ^ n := by
    have := v.isLt
    rwa [Nat.pow_mul] at this
  unfold BmpHeader.field
  rw [List.drop_zero, List.take_append_of_le_length (by rw [length_leBytes]),
    List.take_of_length_le (by rw [length_leBytes]), leNat_leBytes_of_lt hlt, BitVec.ofNat_toNat,
    BitVec.setWidth_eq]

/-- **The header** is read back from its bytes. -/
theorem ofBytes_bytes (h : BmpHeader) : BmpHeader.ofBytes h.bytes = h := by
  obtain ⟨t, s, r, o, z, w, ht, p, b, c, si, x, y, u, im⟩ := h
  have hlast : leBytes 4 im.toNat = leBytes 4 im.toNat ++ [] := (List.append_nil _).symm
  simp only [BmpHeader.ofBytes, BmpHeader.bytes, List.append_assoc, BmpHeader.mk.injEq]
  rw [hlast]
  refine ⟨field_head (n := 2) t _, ?_, ?_, ?_, ?_, ?_, ?_, ?_, ?_, ?_, ?_, ?_, ?_, ?_, ?_⟩
  all_goals
    repeat rw [field_skip (by decide)]
  · exact field_head (n := 4) s _
  · exact field_head (n := 4) r _
  · exact field_head (n := 4) o _
  · exact field_head (n := 4) z _
  · exact field_head (n := 4) w _
  · exact field_head (n := 4) ht _
  · exact field_head (n := 2) p _
  · exact field_head (n := 2) b _
  · exact field_head (n := 4) c _
  · exact field_head (n := 4) si _
  · exact field_head (n := 4) x _
  · exact field_head (n := 4) y _
  · exact field_head (n := 4) u _
  · exact field_head (n := 4) im _

/-! ## The loops -/

/-- The pixel whose three bytes start at `pos`. -/
def pixelOf (content : List Byte) (pos : ℕ) : Pixel :=
  ⟨content.getD pos 0, content.getD (pos + 1) 0, content.getD (pos + 2) 0⟩

/-- The process after `n` pixels were read from its position on and stored from index
`cur` of the block `data` on. -/
def afterColumns (p : Process) (data n cur : ℕ) : Process :=
  { p with
    pos := p.pos + pixelSize * n
    pixels := Function.update p.pixels data fun k =>
      if cur ≤ k ∧ k < cur + n then some (pixelOf p.content (p.pos + pixelSize * (k - cur)))
      else p.pixels data k
    stores := p.stores ++ (List.range n).map fun j => (data, cur + j) }

variable {p : Process} {data n cur width padding : ℕ}

theorem afterColumns_zero : afterColumns p data 0 cur = p := by
  have hpixels : (fun k => if cur ≤ k ∧ k < cur + 0
      then some (pixelOf p.content (p.pos + pixelSize * (k - cur))) else p.pixels data k) =
      p.pixels data := by
    funext k
    rw [if_neg (by omega)]
  unfold afterColumns
  rw [hpixels, Function.update_eq_self]
  simp

/-- One column, then the rest. -/
theorem afterColumns_succ :
    afterColumns (afterColumns p data 1 cur) data n (cur + 1) =
      afterColumns p data (n + 1) cur := by
  unfold afterColumns
  simp only [Process.mk.injEq, Function.update_self, Function.update_idem, List.append_assoc,
    true_and]
  refine ⟨by unfold pixelSize; omega, ?_, ?_⟩
  · congr 1
    funext k
    by_cases hrest : cur + 1 ≤ k ∧ k < cur + 1 + n
    · have hk : p.pos + pixelSize * 1 + pixelSize * (k - (cur + 1)) =
          p.pos + pixelSize * (k - cur) := by
        unfold pixelSize
        omega
      rw [if_pos hrest, if_pos (by omega), hk]
    · rw [if_neg hrest]
      by_cases hfirst : k = cur
      · rw [if_pos (by omega), if_pos (by omega)]
      · rw [if_neg (by omega), if_neg (by omega)]
  · have hnext : ∀ j, (data, cur + 1 + j) = ((fun j => (data, cur + j)) ∘ Nat.succ) j := by
      intro j
      rw [Function.comp_apply, Nat.succ_eq_add_one, Nat.add_assoc, Nat.add_comm 1 j]
    rw [List.range_succ_eq_map (n := n), List.map_cons, List.map_map,
      ← List.map_congr_left fun j _ => hnext j]
    rfl

theorem readColumns_succ (data n cur : ℕ) (p : Process) :
    readColumns data (n + 1) cur p =
      let bs := (p.content.drop p.pos).take pixelSize
      if bs.length < pixelSize then (none, { p with pos := p.pos + bs.length })
      else readColumns data n (add64 cur 1)
        (storePixel data cur ⟨bs.getD 0 0, bs.getD 1 0, bs.getD 2 0⟩
          { p with pos := p.pos + bs.length }).2 := by
  have hrun : readColumns data (n + 1) cur p =
      (let bs := (p.content.drop p.pos).take pixelSize
      if bs.length < pixelSize then pure none
      else do
        storePixel data cur ⟨bs.getD 0 0, bs.getD 1 0, bs.getD 2 0⟩
        readColumns data n (add64 cur 1) : StateM Process (Option ℕ))
        { p with pos := p.pos + ((p.content.drop p.pos).take pixelSize).length } := rfl
  rw [hrun]
  dsimp only
  split_ifs
  · rfl
  · rfl

/-- A pixel that is cut short ends the loop. -/
theorem readColumns_of_lt (hpos : p.content.length < p.pos + pixelSize) :
    readColumns data (n + 1) cur p = (none, { p with
      pos := p.pos + ((p.content.drop p.pos).take pixelSize).length }) := by
  have hlen : ((p.content.drop p.pos).take pixelSize).length < pixelSize := by
    rw [List.length_take, List.length_drop]
    unfold pixelSize at hpos ⊢
    omega
  rw [readColumns_succ]
  dsimp only
  rw [if_pos hlen]

/-- A pixel that is there is stored. -/
theorem readColumns_of_le (hpos : p.pos + pixelSize ≤ p.content.length) :
    readColumns data (n + 1) cur p =
      readColumns data n (add64 cur 1) (afterColumns p data 1 cur) := by
  have hlen : ((p.content.drop p.pos).take pixelSize).length = pixelSize := by
    rw [List.length_take, List.length_drop]
    omega
  have hbyte : ∀ k < pixelSize, ((p.content.drop p.pos).take pixelSize).getD k 0 =
      p.content.getD (p.pos + k) 0 := by
    intro k hk
    rw [List.getD_eq_getElem?_getD, List.getD_eq_getElem?_getD, List.getElem?_take_of_lt hk,
      List.getElem?_drop]
  have hpixel : pixelOf p.content (p.pos + pixelSize * (cur - cur)) =
      ⟨((p.content.drop p.pos).take pixelSize).getD 0 0,
        ((p.content.drop p.pos).take pixelSize).getD 1 0,
        ((p.content.drop p.pos).take pixelSize).getD 2 0⟩ := by
    rw [hbyte 0 (by decide), hbyte 1 (by decide), hbyte 2 (by decide), Nat.sub_self]
    rfl
  rw [readColumns_succ]
  dsimp only
  rw [hlen, if_neg (lt_irrefl _), ← hpixel]
  congr 1
  show Process.mk _ _ _ _ _ _ _ _ _ = Process.mk _ _ _ _ _ _ _ _ _
  congr 2
  funext k
  by_cases hk : k = cur
  · rw [hk, Function.update_self, if_pos (by omega)]
  · rw [Function.update_of_ne hk, if_neg (by omega)]

/-- **The inner loop** over columns that are in the file. -/
theorem readColumns_of_inFile (hin : ∀ j < n, p.pos + pixelSize * j + pixelSize ≤ p.content.length)
    (hcur : cur + n < 2 ^ 64) :
    readColumns data n cur p = (some (cur + n), afterColumns p data n cur) := by
  induction n generalizing p cur with
  | zero =>
      rw [afterColumns_zero]
      rfl
  | succ n ih =>
      have hfirst : p.pos + pixelSize ≤ p.content.length := hin 0 (by omega)
      have hnext : add64 cur 1 = cur + 1 := Nat.mod_eq_of_lt (by omega)
      rw [readColumns_of_le hfirst, hnext, ih, afterColumns_succ]
      · congr 2
        omega
      · intro j hj
        have hj := hin (j + 1) (by omega)
        show p.pos + pixelSize * 1 + pixelSize * j + pixelSize ≤ p.content.length
        unfold pixelSize at hj ⊢
        omega
      · omega

/-- The inner loop over columns of which one is cut short. -/
theorem readColumns_of_cut {j : ℕ} (hj : j < n)
    (hcut : p.content.length < p.pos + pixelSize * j + pixelSize) :
    (readColumns data n cur p).1 = none := by
  induction n generalizing p cur j with
  | zero => omega
  | succ n ih =>
      by_cases hfirst : p.pos + pixelSize ≤ p.content.length
      · rw [readColumns_of_le hfirst]
        cases j with
        | zero =>
            rw [Nat.mul_zero, Nat.add_zero] at hcut
            omega
        | succ j =>
            apply ih (j := j) (by omega)
            show p.content.length < p.pos + pixelSize * 1 + pixelSize * j + pixelSize
            unfold pixelSize at hcut ⊢
            omega
      · rw [readColumns_of_lt (Nat.not_le.mp hfirst)]

theorem readRows_succ (data width padding n cur : ℕ) (p : Process) :
    readRows data width padding (n + 1) cur p =
      match readColumns data width cur p with
      | (none, p') => (.invalidBits, p')
      | (some cur', p') =>
          readRows data width padding n cur' { p' with pos := p'.pos + padding } := by
  have hrun : readRows data width padding (n + 1) cur p =
      (readColumns data width cur >>= _ : StateM Process ReadBmpStatus) p := rfl
  rw [hrun, Stateful.bind_apply]
  rcases readColumns data width cur p with ⟨_ | cur', p'⟩
  · rfl
  · rfl

/-- The bytes of `height` rows of `width` pixels, `stride` bytes apart from `pos` on, are
in the file. -/
def InFile (content : List Byte) (pos stride width height : ℕ) : Prop :=
  ∀ i < height, ∀ j < width, pos + i * stride + pixelSize * j + pixelSize ≤ content.length

/-- The first row, and the others. -/
theorem inFile_succ {content : List Byte} {pos stride : ℕ} :
    InFile content pos stride width (n + 1) ↔
      (∀ j < width, pos + pixelSize * j + pixelSize ≤ content.length) ∧
        InFile content (pos + stride) stride width n := by
  constructor
  · intro h
    refine ⟨fun j hj => ?_, fun i hi j hj => ?_⟩
    · have := h 0 (by omega) j hj
      omega
    · have := h (i + 1) (by omega) j hj
      rw [Nat.succ_mul] at this
      omega
  · rintro ⟨hfirst, hothers⟩ i hi j hj
    cases i with
    | zero =>
        have := hfirst j hj
        omega
    | succ i =>
        have := hothers i (by omega) j hj
        rw [Nat.succ_mul]
        omega

/-- `p'` is `p` after the pixels of `n` rows were stored from index `cur` on. -/
structure RowsRead (p p' : Process) (data width padding n cur : ℕ) : Prop where
  img_eq : p'.img = p.img
  images_eq : p'.images = p.images
  freed_eq : p'.freed = p.freed
  pixel_eq : ∀ i < n, ∀ j < width, p'.pixels data (cur + (i * width + j)) =
    some (pixelOf p.content (p.pos + i * (pixelSize * width + padding) + pixelSize * j))
  other_eq : ∀ k, k < cur ∨ cur + n * width ≤ k → p'.pixels data k = p.pixels data k

/-- **The loops** over rows that are in the file. -/
theorem readRows_of_inFile
    (hin : InFile p.content p.pos (pixelSize * width + padding) width n)
    (hcur : cur + n * width < 2 ^ 64) :
    ∃ p', readRows data width padding n cur p = (.ok, p') ∧
      RowsRead p p' data width padding n cur := by
  induction n generalizing p cur with
  | zero => exact ⟨p, rfl, rfl, rfl, rfl, fun i hi => absurd hi (by omega), fun k _ => rfl⟩
  | succ n ih =>
      have hwidth : (n + 1) * width = n * width + width := by ring
      obtain ⟨hrow, hothers⟩ := inFile_succ.mp hin
      have hstep : readColumns data width cur p = (some (cur + width), _) :=
        readColumns_of_inFile hrow (by omega)
      have hrest : cur + width + n * width < 2 ^ 64 := by omega
      set q : Process := { afterColumns p data width cur with
        pos := (afterColumns p data width cur).pos + padding } with hq
      have hqpos : q.pos = p.pos + (pixelSize * width + padding) := by
        simp only [hq, afterColumns]
        omega
      have hqin : InFile q.content q.pos (pixelSize * width + padding) width n := by
        rw [hqpos]
        exact hothers
      obtain ⟨p', hrun, hread⟩ := ih hqin hrest
      refine ⟨p', ?_, hread.img_eq, hread.images_eq, hread.freed_eq, fun i hi j hj => ?_,
        fun k hk => ?_⟩
      · rw [readRows_succ, hstep]
        exact hrun
      · cases i with
        | zero =>
            rw [hread.other_eq _ (by omega)]
            show Function.update p.pixels data _ data _ = _
            rw [Function.update_self, if_pos (by omega), Nat.zero_mul, Nat.zero_add, Nat.zero_mul,
              Nat.add_zero, Nat.add_sub_cancel_left]
        | succ i =>
            have hindex : cur + ((i + 1) * width + j) = cur + width + (i * width + j) := by ring
            rw [hindex, hread.pixel_eq i (by omega) j hj, hqpos, Nat.succ_mul]
            congr 2
            omega
      · rw [hread.other_eq k (by omega)]
        show Function.update p.pixels data _ data _ = _
        rw [Function.update_self, if_neg (by omega)]

/-- The loops over rows of which one is cut short. -/
theorem readRows_of_cut (hin : ¬ InFile p.content p.pos (pixelSize * width + padding) width n)
    (hcur : cur + n * width < 2 ^ 64) :
    (readRows data width padding n cur p).1 = .invalidBits := by
  induction n generalizing p cur with
  | zero => exact absurd (fun i hi => absurd hi (by omega)) hin
  | succ n ih =>
      have hwidth : (n + 1) * width = n * width + width := by ring
      rw [readRows_succ]
      by_cases hrow : ∀ j < width, p.pos + pixelSize * j + pixelSize ≤ p.content.length
      · rw [readColumns_of_inFile hrow (by omega)]
        apply ih _ (by omega)
        intro hothers
        simp only [afterColumns, Nat.add_assoc] at hothers
        exact hin (inFile_succ.mpr ⟨hrow, hothers⟩)
      · push Not at hrow
        obtain ⟨j, hj, hcut⟩ := hrow
        have hnone : (readColumns data width cur p).1 = none := readColumns_of_cut hj hcut
        rcases hcols : readColumns data width cur p with ⟨c, p'⟩
        rw [hcols] at hnone
        subst hnone
        rfl

/-! ## The stores of the loops -/

/-- From `p` to `q` only the indices from `lo` up to `hi` of the block `data` were stored
to. -/
def StoresWithin (p q : Process) (data lo hi : ℕ) : Prop :=
  ∃ l, q.stores = p.stores ++ l ∧ ∀ s ∈ l, s.1 = data ∧ lo ≤ s.2 ∧ s.2 < hi

theorem StoresWithin.refl {lo hi : ℕ} : StoresWithin p p data lo hi :=
  ⟨[], (List.append_nil _).symm, fun _ hs => absurd hs List.not_mem_nil⟩

theorem StoresWithin.trans {q r : Process} {lo mid hi : ℕ} (h : StoresWithin p q data lo mid)
    (h' : StoresWithin q r data mid hi) (hlo : lo ≤ mid) (hhi : mid ≤ hi) :
    StoresWithin p r data lo hi := by
  obtain ⟨l, hq, hl⟩ := h
  obtain ⟨l', hr, hl'⟩ := h'
  refine ⟨l ++ l', by rw [hr, hq, List.append_assoc], fun s hs => ?_⟩
  rcases List.mem_append.mp hs with hs | hs
  · obtain ⟨hblock, hge, hlt⟩ := hl s hs
    exact ⟨hblock, hge, by omega⟩
  · obtain ⟨hblock, hge, hlt⟩ := hl' s hs
    exact ⟨hblock, by omega, hlt⟩

/-- Wherever the inner loop ends, it stored to the columns it counted. -/
theorem readColumns_stores (hcur : cur + n < 2 ^ 64) :
    StoresWithin p (readColumns data n cur p).2 data cur (cur + n) ∧
      ∀ cur', (readColumns data n cur p).1 = some cur' → cur' = cur + n := by
  induction n generalizing p cur with
  | zero =>
      refine ⟨StoresWithin.refl, fun cur' h => ?_⟩
      exact (Option.some.inj h).symm
  | succ n ih =>
      have hnext : add64 cur 1 = cur + 1 := Nat.mod_eq_of_lt (by omega)
      have hsum : cur + 1 + n = cur + (n + 1) := by omega
      have hone : StoresWithin p (afterColumns p data 1 cur) data cur (cur + 1) := by
        refine ⟨[(data, cur)], rfl, fun s hs => ?_⟩
        rw [List.mem_singleton.mp hs]
        exact ⟨rfl, le_rfl, Nat.lt_succ_self cur⟩
      by_cases hfirst : p.pos + pixelSize ≤ p.content.length
      · rw [readColumns_of_le hfirst, hnext, ← hsum]
        have hrest : StoresWithin (afterColumns p data 1 cur) _ data (cur + 1) (cur + 1 + n) ∧ _ :=
          ih (by omega)
        exact ⟨hone.trans hrest.1 (by omega) (by omega), hrest.2⟩
      · rw [readColumns_of_lt (Nat.not_le.mp hfirst)]
        exact ⟨⟨[], (List.append_nil _).symm, fun _ hs => absurd hs List.not_mem_nil⟩,
          fun _ h => absurd h (Option.some_ne_none _).symm⟩

/-- **The stores of the loops** stay below the number of pixels, however they end. -/
theorem readRows_stores (hcur : cur + n * width < 2 ^ 64) :
    StoresWithin p (readRows data width padding n cur p).2 data cur (cur + n * width) := by
  induction n generalizing p cur with
  | zero => exact StoresWithin.refl
  | succ n ih =>
      have hwidth : (n + 1) * width = n * width + width := by ring
      have hrow : StoresWithin p (readColumns data width cur p).2 data cur (cur + width) ∧ _ :=
        readColumns_stores (by omega)
      rw [readRows_succ]
      rcases hcols : readColumns data width cur p with ⟨_ | cur', p'⟩
      · obtain ⟨⟨l, hl, hin⟩, -⟩ := hrow
        rw [hcols] at hl
        refine ⟨l, hl, fun s hs => ?_⟩
        obtain ⟨hblock, hge, hlt⟩ := hin s hs
        exact ⟨hblock, hge, by omega⟩
      · rw [hcols] at hrow
        have hcur' : cur' = cur + width := hrow.2 cur' rfl
        subst hcur'
        have hrest : StoresWithin { p' with pos := p'.pos + padding } _ data (cur + width)
            (cur + width + n * width) := ih (by omega)
        rw [show cur + (n + 1) * width = cur + width + n * width by omega]
        exact StoresWithin.trans hrow.1 hrest (by omega) (by omega)

/-- The inner loop stores at most its columns. -/
theorem readColumns_stores_length_le (data n cur : ℕ) (p : Process) :
    (readColumns data n cur p).2.stores.length ≤ p.stores.length + n := by
  induction n generalizing p cur with
  | zero => exact le_rfl
  | succ n ih =>
      by_cases hfirst : p.pos + pixelSize ≤ p.content.length
      · have hone : (afterColumns p data 1 cur).stores.length = p.stores.length + 1 :=
          List.length_append
        have hrest := ih (add64 cur 1) (afterColumns p data 1 cur)
        rw [readColumns_of_le hfirst]
        omega
      · rw [readColumns_of_lt (Nat.not_le.mp hfirst)]
        exact Nat.le_add_right _ _

/-- **The loops** store at most the pixels of the image, -/
theorem readRows_stores_length_le (data width padding n cur : ℕ) (p : Process) :
    (readRows data width padding n cur p).2.stores.length ≤ p.stores.length + n * width := by
  induction n generalizing p cur with
  | zero => exact Nat.le_add_right _ _
  | succ n ih =>
      have hwidth : (n + 1) * width = n * width + width := by ring
      have hrow := readColumns_stores_length_le data width cur p
      rw [readRows_succ]
      rcases hcols : readColumns data width cur p with ⟨_ | cur', p'⟩
      · rw [hcols] at hrow
        exact hrow.trans (by omega)
      · rw [hcols] at hrow
        exact (ih cur' _).trans (by dsimp only at hrow ⊢; omega)

/-- and all of them when they are in the file. -/
theorem readRows_stores_length
    (hin : InFile p.content p.pos (pixelSize * width + padding) width n)
    (hcur : cur + n * width < 2 ^ 64) :
    (readRows data width padding n cur p).2.stores.length = p.stores.length + n * width := by
  induction n generalizing p cur with
  | zero => rw [Nat.zero_mul]; rfl
  | succ n ih =>
      have hwidth : (n + 1) * width = n * width + width := by ring
      obtain ⟨hrow, hothers⟩ := inFile_succ.mp hin
      have hcount : (afterColumns p data width cur).stores.length = p.stores.length + width := by
        simp [afterColumns]
      rw [readRows_succ, readColumns_of_inFile hrow (by omega)]
      dsimp only
      rw [ih _ (by omega)]
      · dsimp only
        omega
      · simp only [afterColumns, Nat.add_assoc]
        exact hothers

/-! ## `from_bmp` -/

theorem fread_apply (n : ℕ) (p : Process) :
    fread n p = ((p.content.drop p.pos).take n,
      { p with pos := p.pos + ((p.content.drop p.pos).take n).length }) := rfl

/-- `(*img)->width` and `(*img)->height` are assigned. -/
def withDims (id : ℕ) (header : BmpHeader) : StateM Process Unit :=
  modifyImage id fun c =>
    { c with width := some header.biWidth.toNat, height := some header.biHeight.toNat }

/-- `from_bmp`, once the header is read and `p` is the process then. -/
def fromHeader (id : ℕ) (header : BmpHeader) (p : Process) : ReadBmpStatus × Process :=
  match malloc (mul64 (mul64 pixelSize header.biWidth.toNat) header.biHeight.toNat)
      (withDims id header p).2 with
  | (none, q) => (.noEnoughMemory, (free .null (modifyImage id ({ · with data := .null }) q).2).2)
  | (some data, q) =>
      readRows data header.biWidth.toNat (calcPadding header.biWidth.toNat) header.biHeight.toNat 0
        (fseekSet header.bOffBits.toNat (modifyImage id ({ · with data := .heap data }) q).2).2

/-- **The exits of `from_bmp`**, in the order it takes them. -/
theorem fromBmp_run (p : Process) :
    fromBmp p =
      match malloc sizeofImage p with
      | (none, q) => (.noEnoughMemory, (free .variable { q with img := .null }).2)
      | (some id, q) =>
          let bs := (q.content.drop q.pos).take sizeofBmpHeader
          let q' := { q with img := .heap id, pos := q.pos + bs.length }
          if bs.length < sizeofBmpHeader then (.invalidHeader, q')
          else if (BmpHeader.ofBytes bs).bfType ≠ bmpType then (.invalidSignature, q')
          else fromHeader id (BmpHeader.ofBytes bs) q' := by
  unfold fromBmp
  rw [Stateful.bind_apply]
  rcases malloc sizeofImage p with ⟨_ | id, q⟩
  · rfl
  dsimp only
  rw [Stateful.bind_apply, Stateful.modify_apply, Stateful.bind_apply, fread_apply]
  dsimp only
  rw [Stateful.ite_apply, Stateful.ite_apply]
  split_ifs
  · rfl
  · rfl
  unfold fromHeader
  rw [Stateful.bind_apply, Stateful.bind_apply]
  unfold withDims
  rcases malloc _ _ with ⟨_ | data, q'⟩
  · rfl
  · rfl

theorem malloc_of_refused (size : ℕ) (hgrant : p.grants.head? = some false) :
    malloc size p = (none, { p with grants := p.grants.tail }) := by
  unfold malloc
  rw [hgrant]

theorem malloc_of_head (size : ℕ) (hgrant : p.grants.head? ≠ some false) :
    malloc size p = (some p.sizes.length, { p with
      grants := p.grants.tail
      sizes := p.sizes ++ [size]
      images := Function.update p.images p.sizes.length ⟨none, none, .indeterminate⟩
      pixels := Function.update p.pixels p.sizes.length fun _ => none }) := by
  unfold malloc
  split
  · next hhead => exact absurd hhead hgrant
  · rfl

theorem malloc_of_granted (size : ℕ) (hgrants : ∀ b ∈ p.grants, b = true) :
    malloc size p = (some p.sizes.length, { p with
      grants := p.grants.tail
      sizes := p.sizes ++ [size]
      images := Function.update p.images p.sizes.length ⟨none, none, .indeterminate⟩
      pixels := Function.update p.pixels p.sizes.length fun _ => none }) :=
  malloc_of_head size fun hhead => absurd (hgrants false (List.mem_of_mem_head? hhead)) (by decide)

/-- What `from_bmp` has set up when it comes to the loops: block `id` is the image, block
`data` its pixels. -/
structure HeaderRead (p q : Process) (header : BmpHeader) (id data : ℕ) : Prop where
  content_eq : q.content = p.content
  pos_eq : q.pos = header.bOffBits.toNat
  img_eq : q.img = .heap id
  images_eq : q.images id = ⟨some header.biWidth.toNat, some header.biHeight.toNat, .heap data⟩
  stores_eq : q.stores = p.stores

/-- The file of the process is about to be read and starts with `header`, which is of the
BMP type; every allocation will succeed. -/
structure StartsWith (p : Process) (header : BmpHeader) : Prop where
  grants : ∀ granted ∈ p.grants, granted = true
  pos_eq : p.pos = 0
  le_length : sizeofBmpHeader ≤ p.content.length
  header_eq : BmpHeader.ofBytes (p.content.take sizeofBmpHeader) = header
  bfType_eq : header.bfType = bmpType

/-- Past the header and the two allocations `from_bmp` is the loops. -/
theorem fromBmp_of_header {header : BmpHeader} (h : StartsWith p header) :
    ∃ id data q, HeaderRead p q header id data ∧
      fromBmp p = readRows data header.biWidth.toNat (calcPadding header.biWidth.toNat)
        header.biHeight.toNat 0 q := by
  obtain ⟨hgrants, hpos, hlen, hstart, htype⟩ := h
  have hgrants' : ∀ b ∈ p.grants.tail, b = true := fun b hb => hgrants b (List.mem_of_mem_tail hb)
  have htake : (p.content.take sizeofBmpHeader).length = sizeofBmpHeader := by
    rw [List.length_take, Nat.min_eq_left hlen]
  rw [fromBmp_run, malloc_of_granted _ hgrants]
  dsimp only
  rw [hpos, List.drop_zero, htake, hstart, if_neg (lt_irrefl _), if_neg (not_not.mpr htype)]
  unfold fromHeader
  rw [malloc_of_granted _ hgrants']
  dsimp only
  refine ⟨p.sizes.length, (p.sizes ++ [sizeofImage]).length, _, ?_, rfl⟩
  refine ⟨rfl, rfl, rfl, ?_, rfl⟩
  have hne : p.sizes.length ≠ (p.sizes ++ [sizeofImage]).length := by
    rw [List.length_append, List.length_singleton]
    omega
  simp only [fseekSet, modifyImage, withDims, Stateful.modify_apply, Function.update_self,
    Function.update_of_ne hne]

/-! ## Reading rows that are there -/

/-- `*img` is an image of `height` rows of `width` pixels, which are `pix`. -/
def Loaded (p : Process) (width height : ℕ) (pix : ℕ → ℕ → Pixel) : Prop :=
  ∃ id data, p.img = .heap id ∧ p.images id = ⟨some width, some height, .heap data⟩ ∧
    ∀ i < height, ∀ j < width, p.pixels data (i * width + j) = some (pix i j)

/-- `height` rows of `width` pixels, which are `pix`, stand in the file, `stride` bytes
apart from `pos` on. -/
def HoldsRows (content : List Byte) (pos stride width height : ℕ) (pix : ℕ → ℕ → Pixel) : Prop :=
  ∀ i < height, ∀ j < width, ∀ k < pixelSize,
    content[pos + i * stride + pixelSize * j + k]? = some (Pixel.byte (pix i j) k)

namespace HoldsRows

variable {content : List Byte} {pos stride height : ℕ} {pix : ℕ → ℕ → Pixel}

theorem inFile (h : HoldsRows content pos stride width height pix) :
    InFile content pos stride width height := by
  intro i hi j hj
  have hlast := h i hi j hj 2 (by decide)
  have hlt := (List.getElem?_eq_some_iff.mp hlast).1
  unfold pixelSize at hlt ⊢
  omega

theorem pixelOf_eq (h : HoldsRows content pos stride width height pix) {i j : ℕ}
    (hi : i < height) (hj : j < width) :
    pixelOf content (pos + i * stride + pixelSize * j) = pix i j := by
  have hbyte : ∀ k < pixelSize,
      content.getD (pos + i * stride + pixelSize * j + k) 0 = Pixel.byte (pix i j) k := by
    intro k hk
    rw [List.getD_eq_getElem?_getD, h i hi j hj k hk, Option.getD_some]
  have hfirst := hbyte 0 (by decide)
  rw [Nat.add_zero] at hfirst
  unfold pixelOf
  rw [hfirst, hbyte 1 (by decide), hbyte 2 (by decide)]
  rfl

end HoldsRows

/-- The bytes of a pixel that is in the file. -/
theorem getElem?_pixelOf {content : List Byte} {pos k : ℕ}
    (hpos : pos + pixelSize ≤ content.length) (hk : k < pixelSize) :
    content[pos + k]? = some (Pixel.byte (pixelOf content pos) k) := by
  have hbyte : content[pos + k]? = some (content.getD (pos + k) 0) := by
    rw [List.getD_eq_getElem?_getD, List.getElem?_eq_getElem (by omega), Option.getD_some]
  rw [hbyte]
  match k, hk with
  | 0, _ => rfl
  | 1, _ => rfl
  | 2, _ => rfl

/-- Rows that are in the file hold the pixels that are read from it. -/
theorem InFile.holdsRows {content : List Byte} {pos stride height : ℕ}
    (h : InFile content pos stride width height) :
    HoldsRows content pos stride width height
      fun i j => pixelOf content (pos + i * stride + pixelSize * j) :=
  fun i hi j hj _ hk => getElem?_pixelOf (h i hi j hj) hk

/-- The file of the process is about to be read and starts with a header of these values;
every allocation will succeed. -/
structure Opens (p : Process) (offset width height : ℕ) : Prop where
  grants : ∀ granted ∈ p.grants, granted = true
  pos_eq : p.pos = 0
  starts : ∃ header : BmpHeader, p.content.take sizeofBmpHeader = header.bytes ∧
    header.bfType = bmpType ∧ header.bOffBits.toNat = offset ∧
    header.biWidth.toNat = width ∧ header.biHeight.toNat = height

theorem Opens.startsWith {offset width height : ℕ} (h : Opens p offset width height) :
    ∃ header, StartsWith p header ∧ header.bOffBits.toNat = offset ∧
      header.biWidth.toNat = width ∧ header.biHeight.toNat = height := by
  obtain ⟨header, hstart, htype, hdims⟩ := h.starts
  have hlen := congrArg List.length hstart
  rw [length_header, List.length_take] at hlen
  exact ⟨header, ⟨h.grants, h.pos_eq, by omega, by rw [hstart, ofBytes_bytes], htype⟩, hdims⟩

variable {header : BmpHeader} {pix : ℕ → ℕ → Pixel}

/-- Rows that are in the file are read. -/
theorem StartsWith.fromBmp_of_holdsRows (h : StartsWith p header)
    (hsize : header.biHeight.toNat * header.biWidth.toNat < 2 ^ 64)
    (hrows : HoldsRows p.content header.bOffBits.toNat
      (pixelSize * header.biWidth.toNat + calcPadding header.biWidth.toNat)
      header.biWidth.toNat header.biHeight.toNat pix) :
    ∃ p', fromBmp p = (.ok, p') ∧ Loaded p' header.biWidth.toNat header.biHeight.toNat pix := by
  obtain ⟨id, data, q, hq, hrun⟩ := fromBmp_of_header h
  rw [← hq.content_eq, ← hq.pos_eq] at hrows
  rw [← Nat.zero_add (header.biHeight.toNat * header.biWidth.toNat)] at hsize
  obtain ⟨p', hloops, hread⟩ := readRows_of_inFile hrows.inFile hsize
  refine ⟨p', hrun.trans hloops, id, data, hread.img_eq.trans hq.img_eq, ?_, fun i hi j hj => ?_⟩
  · rw [hread.images_eq, hq.images_eq]
  · have hpixel := hread.pixel_eq i hi j hj
    rw [Nat.zero_add] at hpixel
    rw [hpixel, hrows.pixelOf_eq hi hj]

/-- Rows of which one is not whole are refused. -/
theorem StartsWith.fromBmp_of_cut (h : StartsWith p header)
    (hsize : header.biHeight.toNat * header.biWidth.toNat < 2 ^ 64)
    (hcut : ¬ InFile p.content header.bOffBits.toNat
      (pixelSize * header.biWidth.toNat + calcPadding header.biWidth.toNat)
      header.biWidth.toNat header.biHeight.toNat) :
    (fromBmp p).1 = .invalidBits := by
  obtain ⟨id, data, q, hq, hrun⟩ := fromBmp_of_header h
  rw [← hq.content_eq, ← hq.pos_eq] at hcut
  rw [← Nat.zero_add (header.biHeight.toNat * header.biWidth.toNat)] at hsize
  rw [hrun]
  exact readRows_of_cut hcut hsize

/-- Only the pixels of the image are stored to. -/
theorem StartsWith.fromBmp_stores (h : StartsWith p header)
    (hsize : header.biHeight.toNat * header.biWidth.toNat < 2 ^ 64) :
    ∃ data, StoresWithin p (fromBmp p).2 data 0
      (header.biHeight.toNat * header.biWidth.toNat) := by
  obtain ⟨id, data, q, hq, hrun⟩ := fromBmp_of_header h
  rw [← Nat.zero_add (header.biHeight.toNat * header.biWidth.toNat)] at hsize ⊢
  have hloops : StoresWithin q (fromBmp p).2 data 0
      (0 + header.biHeight.toNat * header.biWidth.toNat) := by
    rw [hrun]
    exact readRows_stores hsize
  unfold StoresWithin at hloops ⊢
  rw [hq.stores_eq] at hloops
  exact ⟨data, hloops⟩

variable {offset height : ℕ}

/-- **Reading**: `from_bmp` returns the pixels of a file whose rows are as far apart as
`calc_padding` has it. -/
theorem fromBmp_of_holdsRows (h : Opens p offset width height) (hsize : height * width < 2 ^ 64)
    (hrows : HoldsRows p.content offset (pixelSize * width + calcPadding width) width height pix) :
    ∃ p', fromBmp p = (.ok, p') ∧ Loaded p' width height pix := by
  obtain ⟨header, hstarts, rfl, rfl, rfl⟩ := h.startsWith
  exact hstarts.fromBmp_of_holdsRows hsize hrows

/-- A file that ends before its last row, at the distance `calc_padding` has, is refused. -/
theorem fromBmp_of_cut (h : Opens p offset width height) (hsize : height * width < 2 ^ 64)
    (hcut : ¬ InFile p.content offset (pixelSize * width + calcPadding width) width height) :
    (fromBmp p).1 = .invalidBits := by
  obtain ⟨header, hstarts, rfl, rfl, rfl⟩ := h.startsWith
  exact hstarts.fromBmp_of_cut hsize hcut

end LowLevel.Interface
