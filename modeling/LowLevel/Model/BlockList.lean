import LowLevel.Library.Tiling
import LowLevel.Program.Allocator

/-!
# The heap as lists of blocks

What the allocator maintains, without the bytes: a block is an address, a capacity and a
status, and the heap is a list of chains. The first chain is the one that starts at
`HEAP_START`; the others are what `grow_heap` cut off when the block it was handed was
not the tail. `Layout` says that the blocks of all chains together tile the mapped
memory, that none is undersized and that the first chain starts at `HEAP_START`.
-/

set_option autoImplicit false

namespace LowLevel.Model

open LowLevel.Library
open LowLevel.Program.Allocator (Mapping heapStart)

/-- A block: where its header starts, how many bytes its contents have, its status. -/
structure Block where
  addr : ℕ
  cap : ℕ
  free : Bool
  deriving DecidableEq, Repr

namespace Block

/-- The first byte behind the block, whose header takes 17 bytes. -/
def stop (b : Block) : ℕ := b.addr + 17 + b.cap

/-- The byte at `x` is in the header or the contents of the block. -/
def Holds (b : Block) (x : ℕ) : Prop := b.addr ≤ x ∧ x < b.addr + 17 + b.cap

/-- The byte at `x` is in the contents of the block. -/
def InContents (b : Block) (x : ℕ) : Prop := b.addr + 17 ≤ x ∧ x < b.addr + 17 + b.cap

/-- The byte at `x` is in the header of the block. -/
def InHeader (b : Block) (x : ℕ) : Prop := b.addr ≤ x ∧ x < b.addr + 17

instance (b : Block) (x : ℕ) : Decidable (b.Holds x) := inferInstanceAs (Decidable (_ ∧ _))

instance (b : Block) (x : ℕ) : Decidable (b.InContents x) :=
  inferInstanceAs (Decidable (_ ∧ _))

/-- `c` directly follows `b` in memory and both are free. -/
def Mergeable (b c : Block) : Prop := b.free = true ∧ c.free = true ∧ c.addr = b.stop

instance (b c : Block) : Decidable (b.Mergeable c) := inferInstanceAs (Decidable (_ ∧ _ ∧ _))

/-- `b` with the block behind it taken in. -/
def merge (b c : Block) : Block := { b with cap := b.cap + 17 + c.cap }

/-- The block marked taken. -/
def take (b : Block) : Block := { b with free := false }

/-- The block marked free. -/
def release (b : Block) : Block := { b with free := true }

/-- The blocks an allocation of `query` bytes makes of the free block `b`: the part handed
out and, when what is left can hold a header and a minimal block, the rest. -/
def carve (query : ℕ) (b : Block) : List Block :=
  if query + 17 + 24 ≤ b.cap then
    [⟨b.addr, query, false⟩, ⟨b.addr + 17 + query, b.cap - query - 17, true⟩]
  else [b.take]

end Block

/-- The address a chain starts at, `n` when it is empty. -/
def headAddr : List Block → ℕ → ℕ
  | [], n => n
  | b :: _, _ => b.addr

@[simp] theorem headAddr_nil (n : ℕ) : headAddr [] n = n := rfl

@[simp] theorem headAddr_cons (b : Block) (bs : List Block) (n : ℕ) :
    headAddr (b :: bs) n = b.addr := rfl

theorem headAddr_append (l₁ l₂ : List Block) (n : ℕ) :
    headAddr (l₁ ++ l₂) n = headAddr l₁ (headAddr l₂ n) := by
  cases l₁ <;> rfl

/-- A stretch of a chain somewhere among the chains of a heap. -/
structure Place where
  before : List (List Block)
  pre : List Block
  post : List Block
  after : List (List Block)

/-- The heap with `mid` at the place. -/
def Place.fill (p : Place) (mid : List Block) : List (List Block) :=
  p.before ++ (p.pre ++ mid ++ p.post) :: p.after

/-- The blocks at the place and the others, in an order that does not matter. -/
theorem Place.perm_fill (p : Place) (mid : List Block) :
    (p.fill mid).flatten.Perm (mid ++ (p.fill []).flatten) := by
  simp only [Place.fill, List.flatten_append, List.flatten_cons, List.append_assoc,
    List.nil_append]
  calc p.before.flatten ++ (p.pre ++ (mid ++ (p.post ++ p.after.flatten)))
      = (p.before.flatten ++ p.pre) ++ (mid ++ (p.post ++ p.after.flatten)) := by simp
    _ |>.Perm (mid ++ ((p.before.flatten ++ p.pre) ++ (p.post ++ p.after.flatten))) :=
        List.perm_append_comm_assoc _ _ _
    _ = _ := by simp

/-- A block of the heap is at the place or outside it. -/
theorem Place.mem_fill {p : Place} {mid : List Block} {b : Block} :
    b ∈ (p.fill mid).flatten ↔ b ∈ mid ∨ b ∈ (p.fill []).flatten := by
  rw [(p.perm_fill mid).mem_iff, List.mem_append]

/-- The depth at a point is what the place contributes plus the rest. -/
theorem Place.depth_fill (p : Place) (mid : List Block) (x : ℕ) :
    depth Block.Holds (p.fill mid).flatten x =
      depth Block.Holds mid x + depth Block.Holds (p.fill []).flatten x := by
  rw [depth_eq_of_perm (p.perm_fill mid), depth_append]

/-- The first of two blocks at a place is at a place of its own. -/
theorem Place.fill_pair (p : Place) (b c : Block) :
    p.fill [b, c] = (⟨p.before, p.pre, c :: p.post, p.after⟩ : Place).fill [b] := by
  simp [Place.fill]

section

variable (before after : List (List Block)) (pre bs : List Block) (b : Block)

/-- The first block of a stretch, as a place of its own. -/
theorem Place.fill_cons : (⟨before, pre, [], after⟩ : Place).fill (b :: bs) =
    (⟨before, pre, bs, after⟩ : Place).fill [b] := by
  simp [Place.fill]

/-- The stretch behind a block. -/
theorem Place.fill_behind : (⟨before, pre, bs, after⟩ : Place).fill [b] =
    (⟨before, pre ++ [b], [], after⟩ : Place).fill bs := by
  simp [Place.fill]

end

/-- Every block of the heap is at some place. -/
theorem Place.exists_fill {chains : List (List Block)} {b : Block}
    (hb : b ∈ chains.flatten) : ∃ p : Place, chains = p.fill [b] := by
  obtain ⟨c, hc, hbc⟩ := List.mem_flatten.mp hb
  obtain ⟨before, after, rfl⟩ := List.append_of_mem hc
  obtain ⟨pre, post, rfl⟩ := List.append_of_mem hbc
  exact ⟨⟨before, pre, post, after⟩, by simp [Place.fill]⟩

/-- The blocks of all chains lie in mapped memory, apart from one another, none of them at
zero. -/
structure Sound (chains : List (List Block)) (mapped : List Mapping) : Prop where
  single : ∀ x, depth Block.Holds chains.flatten x ≤ 1
  mapped : ∀ b ∈ chains.flatten, ∀ x, b.Holds x → Program.Allocator.Mapped mapped x
  low : ∀ b ∈ chains.flatten, 0 < b.addr
  high : ∀ b ∈ chains.flatten, b.addr + 17 + b.cap ≤ 2 ^ 64

namespace Sound

variable {chains : List (List Block)} {mapped : List Mapping} {p : Place}
variable {mid : List Block} {b c : Block}

/-- A block at the place shares no byte with a block outside it. -/
theorem apart (h : Sound (p.fill mid) mapped) (hb : b ∈ mid)
    (hc : c ∈ (p.fill []).flatten) {x : ℕ} (hx : b.Holds x) : ¬ c.Holds x := by
  intro hcx
  have hle := h.single x
  rw [p.depth_fill] at hle
  have hmid : 0 < depth Block.Holds mid x := depth_pos_iff.mpr ⟨b, hb, hx⟩
  have hout : 0 < depth Block.Holds (p.fill []).flatten x := depth_pos_iff.mpr ⟨c, hc, hcx⟩
  omega

/-- An edit that covers the same bytes with blocks inside the address space is sound. -/
theorem replace {mid' : List Block} (h : Sound (p.fill mid) mapped)
    (hdepth : ∀ x, depth Block.Holds mid' x = depth Block.Holds mid x)
    (hlow : ∀ b ∈ mid', 0 < b.addr) (hhigh : ∀ b ∈ mid', b.addr + 17 + b.cap ≤ 2 ^ 64) :
    Sound (p.fill mid') mapped where
  single x := by
    rw [p.depth_fill, hdepth, ← p.depth_fill]
    exact h.single x
  mapped b hb x hx := by
    rcases Place.mem_fill.mp hb with hb | hb
    · have hpos : 0 < depth Block.Holds mid' x := depth_pos_iff.mpr ⟨b, hb, hx⟩
      rw [hdepth] at hpos
      obtain ⟨c, hc, hcx⟩ := depth_pos_iff.mp hpos
      exact h.mapped c (Place.mem_fill.mpr (.inl hc)) x hcx
    · exact h.mapped b (Place.mem_fill.mpr (.inr hb)) x hx
  low b hb := (Place.mem_fill.mp hb).elim (hlow b) fun hb => h.low b (Place.mem_fill.mpr (.inr hb))
  high b hb :=
    (Place.mem_fill.mp hb).elim (hhigh b) fun hb => h.high b (Place.mem_fill.mpr (.inr hb))

/-- The bounds of a block at the place. -/
theorem bounds (h : Sound (p.fill mid) mapped) (hb : b ∈ mid) :
    0 < b.addr ∧ b.addr + 17 + b.cap ≤ 2 ^ 64 :=
  have hmem := Place.mem_fill.mpr (.inl hb)
  ⟨h.low b hmem, h.high b hmem⟩

/-- Two adjacent blocks cover what their merge covers. -/
theorem depth_merge (hadj : c.addr = b.stop) (x : ℕ) :
    depth Block.Holds [b.merge c] x = depth Block.Holds [b, c] x := by
  unfold Block.stop at hadj
  refine (depth_pair_eq ?_ ?_).symm
  · unfold Block.Holds Block.merge
    dsimp only
    omega
  · unfold Block.Holds
    omega

/-- The two parts of a block cover what the block covers. -/
theorem depth_split {query : ℕ} (hfit : query + 17 ≤ b.cap) (free : Bool) (x : ℕ) :
    depth Block.Holds [⟨b.addr, query, free⟩, ⟨b.addr + 17 + query, b.cap - query - 17, true⟩] x =
      depth Block.Holds [b] x := by
  refine depth_pair_eq ?_ ?_
  · unfold Block.Holds
    dsimp only
    omega
  · unfold Block.Holds
    dsimp only
    omega

/-- Merging two adjacent blocks is sound. -/
theorem merge (h : Sound (p.fill [b, c]) mapped) (hadj : c.addr = b.stop) :
    Sound (p.fill [b.merge c]) mapped := by
  obtain ⟨hlow, -⟩ := h.bounds (b := b) (by simp)
  obtain ⟨-, hhigh⟩ := h.bounds (b := c) (by simp)
  refine h.replace (depth_merge hadj) ?_ ?_
  all_goals
    unfold Block.stop at hadj
    simp only [List.mem_singleton, forall_eq, Block.merge]
    omega

/-- Changing the status of a block is sound. -/
theorem status (h : Sound (p.fill [b]) mapped) (free : Bool) :
    Sound (p.fill [{ b with free := free }]) mapped := by
  obtain ⟨hlow, hhigh⟩ := h.bounds (b := b) (by simp)
  refine h.replace (fun x => rfl) ?_ ?_
  all_goals simpa only [List.mem_singleton, forall_eq]

/-- Cutting a block in two is sound. -/
theorem split {query : ℕ} (h : Sound (p.fill [b]) mapped) (hfit : query + 17 ≤ b.cap)
    (free : Bool) :
    Sound (p.fill [⟨b.addr, query, free⟩,
      ⟨b.addr + 17 + query, b.cap - query - 17, true⟩]) mapped := by
  obtain ⟨hlow, hhigh⟩ := h.bounds (b := b) (by simp)
  refine h.replace (depth_split hfit free) ?_ ?_
  all_goals
    simp only [List.forall_mem_cons, List.not_mem_nil, false_imp_iff, implies_true, and_true]
    omega

/-- Two different blocks of the heap share no byte. -/
theorem apart_of_ne (h : Sound chains mapped) (hb : b ∈ chains.flatten)
    (hc : c ∈ chains.flatten) (hne : b ≠ c) {x : ℕ} (hx : b.Holds x) : ¬ c.Holds x := by
  obtain ⟨p, rfl⟩ := Place.exists_fill hb
  refine h.apart (b := b) (by simp) ?_ hx
  rcases Place.mem_fill.mp hc with hc | hc
  · exact absurd (List.mem_singleton.mp hc).symm hne
  · exact hc

/-- No two blocks of the heap share a byte. -/
theorem pairwise (h : Sound chains mapped) :
    chains.flatten.Pairwise fun b c => ∀ x, b.Holds x → ¬ c.Holds x :=
  pairwise_of_depth_le_one h.single

/-- The blocks of the heap have different addresses. -/
theorem nodup_addr (h : Sound chains mapped) : (chains.flatten.map Block.addr).Nodup := by
  rw [List.Nodup, List.pairwise_map]
  refine h.pairwise.imp fun {b c} hbc heq => ?_
  exact hbc b.addr ⟨le_rfl, by omega⟩ ⟨heq.ge, by omega⟩

/-- A block is found by its address. -/
theorem eq_of_addr_eq (h : Sound chains mapped) (hb : b ∈ chains.flatten)
    (hc : c ∈ chains.flatten) (heq : b.addr = c.addr) : b = c := by
  by_contra hne
  exact h.apart_of_ne hb hc hne (x := b.addr) ⟨le_rfl, by omega⟩ ⟨heq.ge, by omega⟩

/-- No block reaches over the root of a heap. -/
theorem cap_le {main : List Block} {det : List (List Block)} (h : Sound (main :: det) mapped)
    (hroot : headAddr main 0 = heapStart) (hb : b ∈ (main :: det).flatten) :
    b.cap + 17 + heapStart ≤ 2 ^ 64 := by
  cases main with
  | nil => exact absurd hroot (by decide)
  | cons r rs =>
      have haddr : r.addr = heapStart := hroot
      have hr : r ∈ ((r :: rs) :: det).flatten := by simp
      have hhigh := h.high b hb
      by_cases hne : b = r
      · rw [hne] at hhigh ⊢
        omega
      · have hapart := h.apart_of_ne hb hr hne (x := heapStart)
        have hcap := h.high r hr
        unfold heapStart at *
        unfold Block.Holds at hapart
        omega

end Sound

/-- The blocks of all chains tile the mapped memory, the first chain starting at
`HEAP_START`. -/
structure Layout (chains : List (List Block)) (mapped : List Mapping) : Prop where
  tiling : ∀ x, depth Block.Holds chains.flatten x = depth Mapping.Holds mapped x
  single : ∀ x, depth Mapping.Holds mapped x ≤ 1
  sized : ∀ m ∈ mapped, 0 < m.size
  low : ∀ b ∈ chains.flatten, 4096 ≤ b.addr
  cap : ∀ b ∈ chains.flatten, 24 ≤ b.cap
  high : ∀ b ∈ chains.flatten, b.addr + 17 + b.cap ≤ 2 ^ 64
  root : headAddr (chains.headD []) 0 = heapStart

namespace Layout

variable {chains : List (List Block)} {mapped : List Mapping} {p : Place}
variable {mid : List Block} {b c : Block}

/-- A byte is in one block when it is mapped, and in none when it is not. -/
theorem depth_eq (h : Layout chains mapped) (x : ℕ) :
    depth Block.Holds chains.flatten x = if Program.Allocator.Mapped mapped x then 1 else 0 := by
  have hsingle := h.single x
  rw [h.tiling x]
  split_ifs with hx
  · have hpos : 0 < depth Mapping.Holds mapped x := depth_pos_iff.mpr hx
    omega
  · exact Nat.eq_zero_of_not_pos fun hpos => hx (depth_pos_iff.mp hpos)

/-- Every byte of a block is mapped. -/
theorem mapped_of_holds (h : Layout chains mapped) (hb : b ∈ chains.flatten)
    {x : ℕ} (hx : b.Holds x) : Program.Allocator.Mapped mapped x := by
  have hpos : 0 < depth Block.Holds chains.flatten x := depth_pos_iff.mpr ⟨b, hb, hx⟩
  rw [h.tiling] at hpos
  exact depth_pos_iff.mp hpos

/-- A heap with a layout is sound. -/
theorem sound (h : Layout chains mapped) : Sound chains mapped where
  single x := by
    rw [h.tiling]
    exact h.single x
  mapped _ hb _ hx := h.mapped_of_holds hb hx
  low b hb := lt_of_lt_of_le (by norm_num) (h.low b hb)
  high := h.high

/-- An edit that covers the same bytes with sound blocks keeps the layout. -/
theorem replace {mid' : List Block} (h : Layout (p.fill mid) mapped)
    (hdepth : ∀ x, depth Block.Holds mid' x = depth Block.Holds mid x)
    (hhead : ∀ n, headAddr mid' n = headAddr mid n)
    (hlow : ∀ b ∈ mid', 4096 ≤ b.addr) (hcap : ∀ b ∈ mid', 24 ≤ b.cap)
    (hhigh : ∀ b ∈ mid', b.addr + 17 + b.cap ≤ 2 ^ 64) : Layout (p.fill mid') mapped where
  tiling x := by rw [p.depth_fill, hdepth, ← p.depth_fill, h.tiling]
  single := h.single
  sized := h.sized
  low b hb := (Place.mem_fill.mp hb).elim (hlow b) fun hb => h.low b (Place.mem_fill.mpr (.inr hb))
  cap b hb := (Place.mem_fill.mp hb).elim (hcap b) fun hb => h.cap b (Place.mem_fill.mpr (.inr hb))
  high b hb :=
    (Place.mem_fill.mp hb).elim (hhigh b) fun hb => h.high b (Place.mem_fill.mpr (.inr hb))
  root := by
    have hroot := h.root
    unfold Place.fill at hroot ⊢
    cases hbefore : p.before with
    | nil =>
        rw [hbefore] at hroot
        simpa only [List.nil_append, List.headD_cons, headAddr_append, hhead] using hroot
    | cons d ds =>
        rw [hbefore] at hroot
        exact hroot

/-- The bounds of a block at the place. -/
theorem bounds (h : Layout (p.fill mid) mapped) (hb : b ∈ mid) :
    4096 ≤ b.addr ∧ 24 ≤ b.cap ∧ b.addr + 17 + b.cap ≤ 2 ^ 64 :=
  have hmem := Place.mem_fill.mpr (.inl hb)
  ⟨h.low b hmem, h.cap b hmem, h.high b hmem⟩

/-- Merging two adjacent blocks keeps the layout. -/
theorem merge (h : Layout (p.fill [b, c]) mapped) (hadj : c.addr = b.stop) :
    Layout (p.fill [b.merge c]) mapped := by
  obtain ⟨hlow, hcap, -⟩ := h.bounds (b := b) (by simp)
  obtain ⟨-, -, hhigh⟩ := h.bounds (b := c) (by simp)
  refine h.replace (Sound.depth_merge hadj) (fun n => rfl) ?_ ?_ ?_
  all_goals
    unfold Block.stop at hadj
    simp only [List.mem_singleton, forall_eq, Block.merge]
    omega

/-- Changing the status of a block keeps the layout. -/
theorem status (h : Layout (p.fill [b]) mapped) (free : Bool) :
    Layout (p.fill [{ b with free := free }]) mapped := by
  obtain ⟨hlow, hcap, hhigh⟩ := h.bounds (b := b) (by simp)
  refine h.replace (fun x => rfl) (fun n => rfl) ?_ ?_ ?_
  all_goals simpa only [List.mem_singleton, forall_eq]

/-- Cutting a block in two keeps the layout. -/
theorem split {query : ℕ} (h : Layout (p.fill [b]) mapped) (hq : 24 ≤ query)
    (hfit : query + 17 + 24 ≤ b.cap) (free : Bool) :
    Layout (p.fill [⟨b.addr, query, free⟩,
      ⟨b.addr + 17 + query, b.cap - query - 17, true⟩]) mapped := by
  obtain ⟨hlow, hcap, hhigh⟩ := h.bounds (b := b) (by simp)
  refine h.replace (Sound.depth_split (by omega) free) (fun n => rfl) ?_ ?_ ?_
  all_goals
    simp only [List.forall_mem_cons, List.not_mem_nil, false_imp_iff, implies_true, and_true]
    omega

/-- Carving an allocation out of a block keeps the layout. -/
theorem carve {query : ℕ} (h : Layout (p.fill [b]) mapped) (hq : 24 ≤ query) :
    Layout (p.fill (b.carve query)) mapped := by
  unfold Block.carve
  split_ifs with hfit
  · exact h.split hq hfit false
  · exact h.status false

/-- The first chain is not empty. -/
theorem root_ne {main : List Block} {det : List (List Block)} (h : Layout (main :: det) mapped) :
    headAddr main 0 ≠ 0 := by
  have hroot : headAddr main 0 = heapStart := h.root
  rw [hroot]
  decide

/-- No block reaches over the root of the heap. -/
theorem cap_le (h : Layout chains mapped) (hb : b ∈ chains.flatten) :
    b.cap + 17 + heapStart ≤ 2 ^ 64 := by
  cases chains with
  | nil => exact absurd hb (by simp)
  | cons main det => exact h.sound.cap_le h.root hb

end Layout

/-! ## Taken blocks -/

/-- The taken blocks of a chain, in order. -/
def taken (bs : List Block) : List Block := bs.filter fun b => !b.free

@[simp] theorem taken_nil : taken [] = [] := rfl

@[simp] theorem taken_append (l₁ l₂ : List Block) : taken (l₁ ++ l₂) = taken l₁ ++ taken l₂ :=
  List.filter_append ..

theorem taken_cons_of_free {b : Block} (h : b.free = true) (bs : List Block) :
    taken (b :: bs) = taken bs := by
  simp [taken, h]

theorem taken_cons_of_taken {b : Block} (h : b.free = false) (bs : List Block) :
    taken (b :: bs) = b :: taken bs := by
  simp [taken, h]

theorem mem_taken {b : Block} {bs : List Block} : b ∈ taken bs ↔ b ∈ bs ∧ b.free = false := by
  simp [taken]

/-- The byte at `x` is in the contents of a taken block. -/
def TakenContents (chains : List (List Block)) (x : ℕ) : Prop :=
  ∃ b ∈ chains.flatten, b.free = false ∧ b.InContents x

end LowLevel.Model
