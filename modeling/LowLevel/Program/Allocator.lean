import LowLevel.Library.Memory
import LowLevel.Library.Fuel

/-!
# The memory allocator

`Memory Allocator C/src/mem.c` with the headers it includes, function by function. The
heap is a byte-addressed memory: a `struct block_header` at address `b` has `next` at
`b`, `capacity` at `b + 8`, `is_free` at `b + 16` and its contents from `b + 17` on. The
structure is padded to 24 bytes, so the structure assignment in `block_init` also leaves
unspecified bytes in the first seven bytes of the contents (`State.padding`).

`size_t` and pointers are naturals below `2 ^ 64` and wrap there. An access to a byte
that `mmap` has not handed out is a segmentation fault. What `mmap` answers is an input:
`State.answers` lists, call after call, the address the kernel settles on, or nothing
when it refuses; a proposal that is not a free, page-aligned range is refused.
-/

set_option autoImplicit false

namespace LowLevel.Program.Allocator

open LowLevel.Library

/-! ## The machine under the allocator -/

/-- The number of values of a `size_t`. -/
def SIZE : ℕ := 2 ^ 64

/-- `offsetof(struct block_header, contents)`. -/
def offsetofContents : ℕ := 17

/-- The page size of x86-64 Linux. -/
def getpagesize : ℕ := 4096

/-- `BLOCK_MIN_CAPACITY`. -/
def blockMinCapacity : ℕ := 24

/-- `REGION_MIN_SIZE`, two pages. -/
def regionMinSize : ℕ := 2 * 4096

/-- `HEAP_START`, the address asked for first. -/
def heapStart : ℕ := 0x04040000

/-- A range of mapped pages. -/
structure Mapping where
  addr : ℕ
  size : ℕ
  deriving DecidableEq, Repr

/-- One call of `mmap`: the address and length asked for, and whether the flags hold
`MAP_FIXED_NOREPLACE`. -/
structure Request where
  addr : ℕ
  length : ℕ
  noreplace : Bool
  deriving DecidableEq, Repr

/-- Why a run stops without returning. -/
inductive Fault where
  | segv (addr : ℕ)
  | outOfFuel
  deriving DecidableEq, Repr

/-- The process as the allocator sees it. `written`, `requests` and `unmaps` record the byte
ranges stored to and the calls of `mmap` and `munmap`; the code reads none of them. -/
structure State where
  mem : Mem
  mapped : List Mapping
  answers : List (Option ℕ)
  padding : ℕ → Byte
  requests : List Request
  unmaps : List Mapping
  written : List (ℕ × ℕ)
  stdout : List Char

/-- An allocator function. -/
abbrev Heap (α : Type) := StateT State (Except Fault) α

/-- The mapping holds the byte at `x`. -/
def Mapping.Holds (m : Mapping) (x : ℕ) : Prop := m.addr ≤ x ∧ x < m.addr + m.size

instance (m : Mapping) (x : ℕ) : Decidable (m.Holds x) :=
  inferInstanceAs (Decidable (_ ∧ _))

/-- The byte at `x` is mapped. -/
def Mapped (ms : List Mapping) (x : ℕ) : Prop := ∃ m ∈ ms, m.Holds x

instance (ms : List Mapping) (x : ℕ) : Decidable (Mapped ms x) :=
  inferInstanceAs (Decidable (∃ m ∈ ms, m.Holds x))

/-- The first unmapped byte among the `n` bytes at `a`. -/
def firstUnmapped (ms : List Mapping) (a n : ℕ) : Option ℕ :=
  ((List.range n).map (a + ·)).find? fun x => !decide (Mapped ms x)

/-- What the kernel may hand out: a page-aligned range inside the address space, not at
zero, that meets no mapped range. -/
def Grantable (ms : List Mapping) (a len : ℕ) : Prop :=
  0 < a ∧ a % getpagesize = 0 ∧ a + len ≤ SIZE ∧
    ∀ m ∈ ms, a + len ≤ m.addr ∨ m.addr + m.size ≤ a

instance (ms : List Mapping) (a len : ℕ) : Decidable (Grantable ms a len) :=
  inferInstanceAs (Decidable (_ ∧ _ ∧ _ ∧ _))

/-- Stop unless the `n` bytes at `a` are mapped. -/
def touch (a n : ℕ) : Heap Unit := fun s =>
  match firstUnmapped s.mapped a n with
  | some x => .error (.segv x)
  | none => .ok ((), s)

/-- Read the `n`-byte word at `a`. -/
def load (a n : ℕ) : Heap ℕ := do
  touch a n
  return readNat (← get).mem a n

/-- Store the bytes `bs` at `a`. -/
def store (a : ℕ) (bs : List Byte) : Heap Unit := do
  touch a bs.length
  modify fun s =>
    { s with mem := writeBytes s.mem a bs, written := (a, bs.length) :: s.written }

/-! ## The block header (mem_internals.h) -/

/-- `block_capacity`: the bytes of a block without its header. -/
structure BlockCapacity where
  bytes : ℕ

/-- `block_size`: the bytes of a block with its header. -/
structure BlockSize where
  bytes : ℕ

/-- `size_from_capacity`; the sum wraps. -/
def sizeFromCapacity (cap : BlockCapacity) : BlockSize :=
  ⟨(cap.bytes + offsetofContents) % SIZE⟩

/-- `capacity_from_size`; the difference wraps. -/
def capacityFromSize (sz : BlockSize) : BlockCapacity :=
  ⟨(sz.bytes + (SIZE - offsetofContents)) % SIZE⟩

/-- `struct region`. -/
structure Region where
  addr : ℕ
  size : ℕ
  «extends» : Bool

/-- `REGION_INVALID`. -/
def regionInvalid : Region := ⟨0, 0, false⟩

/-- `region_is_invalid`: only the address is looked at. -/
def regionIsInvalid (r : Region) : Bool := r.addr == 0

/-- `block->next`. -/
def loadNext (block : ℕ) : Heap ℕ := load block 8

/-- `block->capacity`. -/
def loadCapacity (block : ℕ) : Heap BlockCapacity := do
  return ⟨← load (block + 8) 8⟩

/-- `block->is_free`. -/
def loadIsFree (block : ℕ) : Heap Bool := do
  return (← load (block + 16) 1) != 0

/-- `block->next = next`. -/
def storeNext (block next : ℕ) : Heap Unit := store block (leBytes 8 next)

/-- `block->is_free = free`. -/
def storeIsFree (block : ℕ) (free : Bool) : Heap Unit :=
  store (block + 16) (leBytes 1 free.toNat)

/-- The object representation of a `struct block_header` stored at `addr`: the three
fields, then the padding up to the alignment of the structure. -/
def headerBytes (padding : ℕ → Byte) (addr next capacity : ℕ) (isFree : Bool) : List Byte :=
  leBytes 8 next ++ leBytes 8 capacity ++ leBytes 1 isFree.toNat ++
    (List.range 7).map fun i => padding (addr + offsetofContents + i)

/-- `block_init`: the whole structure is assigned, its padding included. -/
def blockInit (addr : ℕ) (blockSz : BlockSize) (next : ℕ) : Heap Unit := do
  let padding := (← get).padding
  store addr (headerBytes padding addr next (capacityFromSize blockSz).bytes true)

/-! ## Regions -/

/-- `size_max`. -/
def sizeMax (x y : ℕ) : ℕ := if x ≥ y then x else y

/-- `block_is_big_enough`. -/
def blockIsBigEnough (query block : ℕ) : Heap Bool := do
  return decide ((← loadCapacity block).bytes ≥ query)

/-- `pages_count`: the pages that hold so many bytes. -/
def pagesCount (mem : ℕ) : ℕ := mem / getpagesize + (if mem % getpagesize > 0 then 1 else 0)

/-- `round_pages`; the product wraps for the largest queries. -/
def roundPages (mem : ℕ) : ℕ := getpagesize * pagesCount mem % SIZE

/-- `region_actual_size`: whole pages, two at least. -/
def regionActualSize (query : ℕ) : ℕ := sizeMax (roundPages query) regionMinSize

/-- `map_pages`: one call of `mmap`; `none` is `MAP_FAILED`. -/
def mapPages (addr length : ℕ) (noreplace : Bool) : Heap (Option ℕ) := fun s =>
  let s' := { s with
    requests := s.requests ++ [⟨addr, length, noreplace⟩]
    answers := s.answers.tail }
  match s.answers.head? with
  | some (some a) =>
      if Grantable s.mapped a length then
        .ok (some a, { s' with mapped := ⟨a, length⟩ :: s.mapped })
      else .ok (none, s')
  | _ => .ok (none, s')

/-- `alloc_region`: at the address that is asked for, and else wherever the kernel puts it. -/
def allocRegion (addr query : ℕ) : Heap Region := do
  let query := regionActualSize ((query + offsetofContents) % SIZE)
  match ← mapPages addr query true with
  | some allocated =>
      blockInit allocated ⟨query⟩ 0
      return ⟨allocated, query, true⟩
  | none =>
      match ← mapPages addr query false with
      | none => return regionInvalid
      | some allocated =>
          blockInit allocated ⟨query⟩ 0
          return ⟨allocated, query, false⟩

/-- `heap_init`: a region at `HEAP_START`, as one free block. -/
def heapInit (initial : ℕ) : Heap ℕ := do
  let region ← allocRegion heapStart initial
  if regionIsInvalid region then return 0
  return region.addr

/-! ## Splitting and merging blocks -/

/-- `block_splittable`: the sum on the left wraps. -/
def blockSplittable (block query : ℕ) : Heap Bool := do
  if !(← loadIsFree block) then return false
  return decide ((query + offsetofContents + blockMinCapacity) % SIZE ≤
    (← loadCapacity block).bytes)

/-- `split_if_too_big`: the query is rounded up only behind the test. -/
def splitIfTooBig (block query : ℕ) : Heap Bool := do
  if !(← blockSplittable block query) then return false
  let query := if query < blockMinCapacity then blockMinCapacity else query
  let originalSize := sizeFromCapacity (← loadCapacity block)
  let newSize := sizeFromCapacity ⟨query⟩
  let nextSplittedBlockPointer := (block + newSize.bytes) % SIZE
  let originalNextBlock ← loadNext block
  blockInit block newSize nextSplittedBlockPointer
  blockInit nextSplittedBlockPointer
    ⟨(originalSize.bytes + (SIZE - newSize.bytes)) % SIZE⟩ originalNextBlock
  return true

/-- `block_after`: the address behind the contents. -/
def blockAfter (block : ℕ) : Heap ℕ := do
  return (block + offsetofContents + (← loadCapacity block).bytes) % SIZE

/-- `blocks_continuous`. -/
def blocksContinuous (fst snd : ℕ) : Heap Bool := do
  return snd == (← blockAfter fst)

/-- `mergeable`: both free, and one right behind the other. -/
def mergeable (fst snd : ℕ) : Heap Bool := do
  if !(← loadIsFree fst) then return false
  if !(← loadIsFree snd) then return false
  blocksContinuous fst snd

/-- `try_merge_with_next`: the next block is absorbed with its header. -/
def tryMergeWithNext (block : ℕ) : Heap Bool := do
  if block = 0 then return false
  let next ← loadNext block
  if next = 0 then return false
  if !(← mergeable block next) then return false
  let nextAfterMerge ← loadNext next
  let size := sizeFromCapacity (← loadCapacity block)
  let nextSize := sizeFromCapacity (← loadCapacity next)
  blockInit block ⟨(size.bytes + nextSize.bytes) % SIZE⟩ nextAfterMerge
  return true

/-- `while (try_merge_with_next(block)) { body }`. -/
def whileMerging (body : Heap Unit) : ℕ → ℕ → Heap Unit
  | 0, _ => throw .outOfFuel
  | n + 1, block => do
      if ← tryMergeWithNext block then
        body
        whileMerging body n block
      else return ()

/-! ## Searching the heap and growing it -/

/-- The type field of `struct block_search_result`. -/
inductive SearchType where
  | foundGoodBlock
  | reachedEndNotFound
  | corrupted
  deriving DecidableEq, Repr

/-- `struct block_search_result`. -/
structure BlockSearchResult where
  type : SearchType
  block : ℕ
  deriving DecidableEq, Repr

/-- The `while` loop of `find_good_or_last` at the block `block`. -/
def findLoop : ℕ → ℕ → ℕ → ℕ → Heap BlockSearchResult
  | 0, _, _, _ => throw .outOfFuel
  | n + 1, block, last, sz => do
      if block = 0 then return ⟨.reachedEndNotFound, last⟩
      if !(← loadIsFree block) then
        let next ← loadNext block
        findLoop n next last sz
      else
        whileMerging (return ()) n block
        if ← blockIsBigEnough sz block then return ⟨.foundGoodBlock, block⟩
        let next ← loadNext block
        findLoop n next block sz

/-- `find_good_or_last`: a null block is corrupted. -/
def findGoodOrLast (fuel block sz : ℕ) : Heap BlockSearchResult := do
  if block = 0 then return ⟨.corrupted, 0⟩
  findLoop fuel block block sz

/-- `try_memalloc_existing`: what is found is split and taken. -/
def tryMemallocExisting (fuel query block : ℕ) : Heap BlockSearchResult := do
  let newBlockResult ← findGoodOrLast fuel block query
  if newBlockResult.type = .corrupted ∨ newBlockResult.type = .reachedEndNotFound then
    return newBlockResult
  let _ ← splitIfTooBig newBlockResult.block query
  storeIsFree newBlockResult.block false
  return newBlockResult

/-- `grow_heap`: the region is asked for behind the last block. -/
def growHeap (last query : ℕ) : Heap ℕ := do
  if last = 0 then return 0
  let newlyAllocated ← allocRegion (← blockAfter last) query
  if newlyAllocated.addr = 0 then return 0
  storeNext last newlyAllocated.addr
  if newlyAllocated.extends then
    if ← tryMergeWithNext last then return last
  loadNext last

/-- `memalloc`. The block of the second search is returned whatever its type. -/
def memalloc (fuel query heapStart : ℕ) : Heap ℕ := do
  if heapStart = 0 then return 0
  let query := if query < blockMinCapacity then blockMinCapacity else query
  let result ← tryMemallocExisting fuel query heapStart
  if result.type = .corrupted then return 0
  if result.type = .foundGoodBlock then return result.block
  if (← growHeap result.block (sizeFromCapacity ⟨query⟩).bytes) = 0 then return 0
  return (← tryMemallocExisting fuel query heapStart).block

/-- `_malloc`. -/
def malloc (fuel query : ℕ) : Heap ℕ := do
  let addr ← memalloc fuel query heapStart
  if addr ≠ 0 then return (addr + offsetofContents) % SIZE else return 0

/-- `block_get_header`; the difference wraps. -/
def blockGetHeader (contents : ℕ) : ℕ := (contents + (SIZE - offsetofContents)) % SIZE

/-- The text goes to the standard output. -/
def printf (text : String) : Heap Unit :=
  modify fun s => { s with stdout := s.stdout ++ text.toList }

/-- `_free`: the block is released and merged with the free ones behind it. -/
def free (fuel mem : ℕ) : Heap Unit := do
  if mem = 0 then return ()
  let header := blockGetHeader mem
  storeIsFree header true
  whileMerging (printf "a") fuel header

/-! ## Giving the heap back -/

/-- What is left of a mapping without the bytes from `start` on and below `stop`. -/
def Mapping.without (start stop : ℕ) (m : Mapping) : List Mapping :=
  [⟨m.addr, min (m.addr + m.size) start - m.addr⟩,
    ⟨max m.addr stop, m.addr + m.size - max m.addr stop⟩].filter (0 < ·.size)

/-- The pages that hold the `len` bytes at `addr` are a range that `munmap` accepts. -/
def Unmappable (addr len : ℕ) : Prop :=
  addr % getpagesize = 0 ∧ 0 < len ∧ addr + getpagesize * pagesCount len ≤ SIZE

instance (addr len : ℕ) : Decidable (Unmappable addr len) :=
  inferInstanceAs (Decidable (_ ∧ _ ∧ _))

/-- `munmap`: whole pages are taken out of the address space, and read as zero should they be
handed out again. On a range that is not page-aligned, empty or outside the address space it
fails, which no caller looks at. -/
def munmap (addr len : ℕ) : Heap Unit := fun s =>
  let s' := { s with unmaps := s.unmaps ++ [⟨addr, len⟩] }
  let stop := addr + getpagesize * pagesCount len
  if Unmappable addr len then
    .ok ((), { s' with
      mem := fun x => if addr ≤ x ∧ x < stop then 0 else s.mem x
      mapped := s.mapped.flatMap (Mapping.without addr stop) })
  else .ok ((), s')

/-- The `while` loop of `unmap_from_pointer`: the header it stops at and the size so far. -/
def unmapLoop : ℕ → ℕ → ℕ → Heap (ℕ × ℕ)
  | 0, _, _ => throw .outOfFuel
  | n + 1, currHeader, lenToUnmap => do
      if (← loadNext currHeader) = 0 then return (currHeader, lenToUnmap)
      if !(← blocksContinuous currHeader (← loadNext currHeader)) then
        return (currHeader, lenToUnmap)
      let size := sizeFromCapacity (← loadCapacity currHeader)
      let next ← loadNext currHeader
      unmapLoop n next ((lenToUnmap + size.bytes) % SIZE)

/-- `unmap_from_pointer`: one run of adjacent blocks is unmapped, and the next block returned. -/
def unmapFromPointer (fuel currHeader : ℕ) : Heap ℕ := do
  let start := currHeader
  let (currHeader, lenToUnmap) ← unmapLoop fuel currHeader 0
  let size := sizeFromCapacity (← loadCapacity currHeader)
  let lenToUnmap := (lenToUnmap + size.bytes) % SIZE
  let next ← loadNext currHeader
  munmap start (roundPages lenToUnmap)
  return next

/-- The `while` loop of `heap_term`. -/
def termLoop : ℕ → ℕ → Heap Unit
  | 0, _ => throw .outOfFuel
  | n + 1, currHeader => do
      if currHeader = 0 then return ()
      let next ← unmapFromPointer n currHeader
      termLoop n next

/-- `heap_term`, from `HEAP_START` on. -/
def heapTerm (fuel : ℕ) : Heap Unit := termLoop fuel heapStart

end LowLevel.Program.Allocator
