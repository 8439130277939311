import LowLevel.Model.BlockList

/-!
# Block headers in memory

The bridge from bytes to blocks. `HeaderAt m b next` says that the memory has the header
of the block `b` at its address, `Chain` that consecutive blocks are linked through
their headers, `Stands` that the state holds sound chains, wherever they are, and
`Represents` that it holds the heap. The accessors of the source return what `HeaderAt`
records, and `block_init` writes it.

`Spared keep s s'` bounds what a stretch of code stores: nothing it stores to is in
`keep`. `Within keep s s'` adds that it neither calls `mmap` nor changes what is mapped.
-/

set_option autoImplicit false

namespace LowLevel.Interface

open LowLevel.Library LowLevel.Model LowLevel.Program.Allocator

/-- The memory has the header of `b`, whose link is `next`, at the address of `b`. -/
structure HeaderAt (m : Mem) (b : Block) (next : ℕ) : Prop where
  next_eq : readNat m b.addr 8 = next
  capacity_eq : readNat m (b.addr + 8) 8 = b.cap
  isFree_eq : (readNat m (b.addr + 16) 1 != 0) = b.free

/-- A header depends only on its own 17 bytes. -/
theorem HeaderAt.congr {m m' : Mem} {b : Block} {next : ℕ} (h : HeaderAt m b next)
    (hm : ∀ x, b.InHeader x → m' x = m x) : HeaderAt m' b next := by
  have hread : ∀ k n, k + n ≤ 17 → readNat m' (b.addr + k) n = readNat m (b.addr + k) n := by
    intro k n hk
    exact readNat_congr fun i hi => hm _ ⟨by omega, by omega⟩
  exact ⟨(hread 0 8 (by omega)).trans h.next_eq, (hread 8 8 (by omega)).trans h.capacity_eq,
    by rw [hread 16 1 (by omega)]; exact h.isFree_eq⟩

/-- A link is a quadword. -/
theorem HeaderAt.next_lt {m : Mem} {b : Block} {next : ℕ} (h : HeaderAt m b next) :
    next < 2 ^ 64 := by
  rw [← h.next_eq]
  exact readNat_lt m b.addr 8

/-- The chain `bs` is linked through its headers and its last link is `n`. -/
def Chain (m : Mem) : List Block → ℕ → Prop
  | [], _ => True
  | b :: bs, n => HeaderAt m b (headAddr bs n) ∧ Chain m bs n

theorem chain_append {m : Mem} (l₁ l₂ : List Block) (n : ℕ) :
    Chain m (l₁ ++ l₂) n ↔ Chain m l₁ (headAddr l₂ n) ∧ Chain m l₂ n := by
  induction l₁ with
  | nil => simp [Chain]
  | cons b l₁ ih =>
      simp only [List.cons_append, Chain, ih, headAddr_append]
      tauto

/-- A chain depends only on the headers of its blocks. -/
theorem Chain.congr {m m' : Mem} {bs : List Block} {n : ℕ} (h : Chain m bs n)
    (hm : ∀ b ∈ bs, ∀ x, b.InHeader x → m' x = m x) : Chain m' bs n := by
  induction bs with
  | nil => trivial
  | cons b bs ih =>
      exact ⟨h.1.congr (hm b (by simp)), ih h.2 fun c hc => hm c (by simp [hc])⟩

/-- The state holds `chains`: they are sound and every chain is linked through memory and
ends with a null link. -/
structure Stands (s : State) (chains : List (List Block)) : Prop where
  sound : Sound chains s.mapped
  linked : ∀ c ∈ chains, Chain s.mem c 0

/-- The state holds the heap `chains`: the layout is sound and every chain is linked
through memory and ends with a null link. -/
structure Represents (s : State) (chains : List (List Block)) : Prop where
  layout : Layout chains s.mapped
  linked : ∀ c ∈ chains, Chain s.mem c 0

theorem Represents.stands {s : State} {chains : List (List Block)} (h : Represents s chains) :
    Stands s chains := ⟨h.layout.sound, h.linked⟩

/-- The first chain by itself. -/
theorem Stands.main {s : State} {main : List Block} {det : List (List Block)}
    (h : Stands s (main :: det)) : Stands s [main] where
  sound :=
    { single := fun x => by
        have hle := h.sound.single x
        rw [List.flatten_cons, depth_append] at hle ⊢
        rw [List.flatten_nil, depth_nil]
        omega
      mapped := fun b hb => h.sound.mapped b (by simp at hb; simp [hb])
      low := fun b hb => h.sound.low b (by simp at hb; simp [hb])
      high := fun b hb => h.sound.high b (by simp at hb; simp [hb]) }
  linked c hc := h.linked c (by simp at hc; simp [hc])

/-- Sound chains that are laid out as a heap. -/
theorem Stands.represents {s : State} {chains : List (List Block)} (h : Stands s chains)
    (hlayout : Layout chains s.mapped) : Represents s chains := ⟨hlayout, h.linked⟩

/-! ## What a stretch of code stores -/

/-- From `s` to `s'` nothing in `keep` is stored to. -/
structure Spared (keep : ℕ → Prop) (s s' : State) : Prop where
  mem_eq : ∀ x, keep x → s'.mem x = s.mem x
  stores : ∃ w, s'.written = w ++ s.written ∧
    ∀ r ∈ w, ∀ x, r.1 ≤ x → x < r.1 + r.2 → ¬ keep x

namespace Spared

variable {keep keep' : ℕ → Prop} {s s₁ s₂ : State}

theorem trans (h₁ : Spared keep s s₁) (h₂ : Spared keep s₁ s₂) : Spared keep s s₂ := by
  obtain ⟨w₁, hw₁, hk₁⟩ := h₁.stores
  obtain ⟨w₂, hw₂, hk₂⟩ := h₂.stores
  refine ⟨fun x hx => (h₂.mem_eq x hx).trans (h₁.mem_eq x hx), ⟨w₂ ++ w₁, ?_, ?_⟩⟩
  · rw [hw₂, hw₁, List.append_assoc]
  · intro r hr
    exact (List.mem_append.mp hr).elim (hk₂ r) (hk₁ r)

/-- Code that leaves a set alone leaves every part of it alone. -/
theorem mono (h : Spared keep s s₁) (hk : ∀ x, keep' x → keep x) : Spared keep' s s₁ := by
  obtain ⟨w, hw, hkw⟩ := h.stores
  exact ⟨fun x hx => h.mem_eq x (hk x hx),
    ⟨w, hw, fun r hr x h₁ h₂ hx => hkw r hr x h₁ h₂ (hk x hx)⟩⟩

/-- Code that leaves memory and the record of stores as they are. -/
theorem of_eq (hmem : s₁.mem = s.mem) (hwritten : s₁.written = s.written) :
    Spared keep s s₁ :=
  ⟨fun x _ => by rw [hmem], ⟨[], hwritten, by simp⟩⟩

end Spared

/-- From `s` to `s'` nothing in `keep` is stored to, and only the memory, the record of
stores and the output change. -/
structure Within (keep : ℕ → Prop) (s s' : State) : Prop extends Spared keep s s' where
  mapped_eq : s'.mapped = s.mapped
  requests_eq : s'.requests = s.requests
  answers_eq : s'.answers = s.answers
  padding_eq : s'.padding = s.padding

namespace Within

variable {keep keep' : ℕ → Prop} {s s₁ s₂ : State}

theorem refl (keep : ℕ → Prop) (s : State) : Within keep s s :=
  ⟨Spared.of_eq rfl rfl, rfl, rfl, rfl, rfl⟩

theorem trans (h₁ : Within keep s s₁) (h₂ : Within keep s₁ s₂) : Within keep s s₂ :=
  ⟨h₁.toSpared.trans h₂.toSpared, h₂.mapped_eq.trans h₁.mapped_eq,
    h₂.requests_eq.trans h₁.requests_eq, h₂.answers_eq.trans h₁.answers_eq,
    h₂.padding_eq.trans h₁.padding_eq⟩

/-- Code that leaves a set alone leaves every part of it alone. -/
theorem mono (h : Within keep s s₁) (hk : ∀ x, keep' x → keep x) : Within keep' s s₁ :=
  ⟨h.toSpared.mono hk, h.mapped_eq, h.requests_eq, h.answers_eq, h.padding_eq⟩

end Within

/-! ## Accesses that do not fault -/

/-- Reading or storing mapped bytes does not fault. -/
theorem run_touch {s : State} {a n : ℕ} (h : ∀ i < n, Mapped s.mapped (a + i)) :
    (touch a n).run s = .ok ((), s) := by
  have hnone : firstUnmapped s.mapped a n = none := by
    unfold firstUnmapped
    rw [List.find?_eq_none]
    intro x hx
    obtain ⟨i, hi, rfl⟩ := List.mem_map.mp hx
    simpa using h i (List.mem_range.mp hi)
  show touch a n s = .ok ((), s)
  unfold touch
  rw [hnone]

/-- An access to bytes of which the first is not mapped is a segmentation fault. -/
theorem run_touch_unmapped {s : State} {a n : ℕ} (h : ¬ Mapped s.mapped a) :
    (touch a (n + 1)).run s = .error (.segv a) := by
  have hsome : firstUnmapped s.mapped a (n + 1) = some a := by
    unfold firstUnmapped
    rw [List.range_succ_eq_map, List.map_cons, List.find?_cons_of_pos (by simpa using h)]
    rfl
  show touch a (n + 1) s = .error (.segv a)
  unfold touch
  rw [hsome]

/-- So is reading a word there. -/
theorem run_load_unmapped {s : State} {a n : ℕ} (h : ¬ Mapped s.mapped a) :
    (load a (n + 1)).run s = .error (.segv a) :=
  run_bind_of_error (run_touch_unmapped h)

/-- A mapped word is read as the memory has it. -/
theorem run_load {s : State} {a n : ℕ} (h : ∀ i < n, Mapped s.mapped (a + i)) :
    (load a n).run s = .ok (readNat s.mem a n, s) := by
  unfold load
  rw [run_bind_of_ok (run_touch h)]
  rfl

/-- The state after storing `bs` at `a`. -/
def stored (s : State) (a : ℕ) (bs : List Byte) : State :=
  { s with mem := writeBytes s.mem a bs, written := (a, bs.length) :: s.written }

/-- Storing to mapped bytes replaces them. -/
theorem run_store {s : State} {a : ℕ} {bs : List Byte}
    (h : ∀ i < bs.length, Mapped s.mapped (a + i)) :
    (store a bs).run s = .ok ((), stored s a bs) := by
  unfold store
  rw [run_bind_of_ok (run_touch h)]
  rfl

/-- A store leaves alone whatever is outside its range. -/
theorem within_stored {keep : ℕ → Prop} {s : State} {a : ℕ} {bs : List Byte}
    (h : ∀ x, a ≤ x → x < a + bs.length → ¬ keep x) : Within keep s (stored s a bs) := by
  refine ⟨⟨fun x hx => writeBytes_of_outside ?_, ⟨[(a, bs.length)], rfl, ?_⟩⟩,
    rfl, rfl, rfl, rfl⟩
  · by_contra hin
    exact h x (by omega) (by omega) hx
  · simpa using h

/-! ## The accessors at a block of the heap -/

section Accessors

variable {s : State} {b : Block} {next : ℕ}

/-- Every byte of the block is mapped, and the block is not at zero. -/
structure Held (s : State) (b : Block) : Prop where
  mapped : ∀ x, b.Holds x → Mapped s.mapped x
  low : 0 < b.addr
  high : b.addr + 17 + b.cap ≤ 2 ^ 64

theorem Stands.held {chains : List (List Block)} (h : Stands s chains)
    (hb : b ∈ chains.flatten) : Held s b :=
  ⟨h.sound.mapped b hb, h.sound.low b hb, h.sound.high b hb⟩

theorem Held.addr_ne (h : Held s b) : b.addr ≠ 0 := Nat.pos_iff_ne_zero.mp h.low

theorem Held.range (h : Held s b) {k n : ℕ} (hk : k + n ≤ 17) :
    ∀ i < n, Mapped s.mapped (b.addr + k + i) :=
  fun i hi => h.mapped _ ⟨by omega, by omega⟩

theorem run_loadNext (ho : Held s b) (hh : HeaderAt s.mem b next) :
    (loadNext b.addr).run s = .ok (next, s) := by
  have := run_load (ho.range (k := 0) (n := 8) (by omega))
  rw [Nat.add_zero, hh.next_eq] at this
  exact this

theorem run_loadCapacity (ho : Held s b) (hh : HeaderAt s.mem b next) :
    (loadCapacity b.addr).run s = .ok (⟨b.cap⟩, s) := by
  unfold loadCapacity
  rw [run_bind_of_ok (run_load (ho.range (k := 8) (n := 8) (by omega))), hh.capacity_eq]
  rfl

theorem run_loadIsFree (ho : Held s b) (hh : HeaderAt s.mem b next) :
    (loadIsFree b.addr).run s = .ok (b.free, s) := by
  unfold loadIsFree
  rw [run_bind_of_ok (run_load (ho.range (k := 16) (n := 1) (by omega))), ← hh.isFree_eq]
  rfl

theorem run_blockAfter (ho : Held s b) (hh : HeaderAt s.mem b next) :
    (blockAfter b.addr).run s = .ok (b.stop % SIZE, s) := by
  unfold blockAfter
  rw [run_bind_of_ok (run_loadCapacity ho hh)]
  rfl

theorem run_blockIsBigEnough (ho : Held s b) (hh : HeaderAt s.mem b next) (query : ℕ) :
    (blockIsBigEnough query b.addr).run s = .ok (decide (query ≤ b.cap), s) := by
  unfold blockIsBigEnough
  rw [run_bind_of_ok (run_loadCapacity ho hh)]
  rfl

end Accessors

/-! ## What `block_init` leaves -/

@[simp] theorem length_headerBytes (padding : ℕ → Byte) (addr next capacity : ℕ)
    (isFree : Bool) : (headerBytes padding addr next capacity isFree).length = 24 := by
  simp [headerBytes]

/-- The stored object representation is a header. -/
theorem headerAt_writeBytes {m : Mem} {padding : ℕ → Byte} {b : Block} {next : ℕ}
    (hnext : next < 2 ^ 64) (hcap : b.cap < 2 ^ 64) :
    HeaderAt (writeBytes m b.addr (headerBytes padding b.addr next b.cap b.free)) b next := by
  set pad := (List.range 7).map fun i => padding (b.addr + offsetofContents + i) with hpad
  refine ⟨?_, ?_, ?_⟩
  · have := readNat_writeBytes (m := m) (a := b.addr) (v := next) (n := 8) (p := [])
      (q := leBytes 8 b.cap ++ leBytes 1 b.free.toNat ++ pad) (by omega)
    simpa [headerBytes, hpad] using this
  · have := readNat_writeBytes (m := m) (a := b.addr) (v := b.cap) (n := 8)
      (p := leBytes 8 next) (q := leBytes 1 b.free.toNat ++ pad) (by omega)
    simpa [headerBytes, hpad] using this
  · have := readNat_writeBytes (m := m) (a := b.addr) (v := b.free.toNat) (n := 1)
      (p := leBytes 8 next ++ leBytes 8 b.cap) (q := pad)
      (by cases b.free <;> simp)
    simp only [List.length_append, length_leBytes] at this
    simp only [headerBytes, ← hpad, this]
    cases b.free <;> rfl

/-- The state after `block_init` made the free block `b` linked to `next`. -/
def initialized (s : State) (b : Block) (next : ℕ) : State :=
  stored s b.addr (headerBytes s.padding b.addr next b.cap true)

/-- `block_init` on 24 mapped bytes. -/
theorem run_blockInit {s : State} {addr size next : ℕ}
    (hmapped : ∀ i < 24, Mapped s.mapped (addr + i)) (hlow : 17 ≤ size) (hhigh : size ≤ 2 ^ 64) :
    (blockInit addr ⟨size⟩ next).run s =
      .ok ((), initialized s ⟨addr, size - 17, true⟩ next) := by
  have hcap : (capacityFromSize ⟨size⟩).bytes = size - 17 := by
    simp only [capacityFromSize, SIZE, offsetofContents]
    omega
  unfold blockInit
  rw [run_bind_of_ok (show (get : Heap State).run s = .ok (s, s) from rfl), hcap]
  exact run_store (by simpa using hmapped)

/-- `block_init` leaves a header. -/
theorem headerAt_initialized {s : State} {b : Block} {next : ℕ} (hfree : b.free = true)
    (hnext : next < 2 ^ 64) (hcap : b.cap < 2 ^ 64) :
    HeaderAt (initialized s b next).mem b next := by
  unfold initialized stored
  rw [← hfree]
  exact headerAt_writeBytes hnext hcap

/-- `block_init` stores to the first 24 bytes of the block only. -/
theorem within_initialized {keep : ℕ → Prop} {s : State} {b : Block} {next : ℕ}
    (h : ∀ x, b.addr ≤ x → x < b.addr + 24 → ¬ keep x) :
    Within keep s (initialized s b next) :=
  within_stored (by simpa using h)

end LowLevel.Interface
