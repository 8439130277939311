import Mathlib.Data.List.Chain
import LowLevel.Model.Memalloc

/-!
# Segments of a chain

`heap_term` follows the chain from segment to segment: a segment is a maximal stretch of blocks
each of which starts where the one before it in the chain stops, free or not. A chain is
`Anchored` when every block starts a page or directly follows the block before it. Then every
segment starts a page, and the pages that hold one segment hold no byte of another, although a
segment need not end with a page.
-/

set_option autoImplicit false

namespace LowLevel.Model

open LowLevel.Library
open LowLevel.Program.Allocator (Mapping getpagesize pagesCount)

variable {b c : Block} {bs : List Block} {m m' : Mapping}

/-- The last block of the segment that starts with `b`, and the blocks behind it. -/
def firstSegment : Block → List Block → Block × List Block
  | b, [] => (b, [])
  | b, c :: cs => if c.addr = b.stop then firstSegment c cs else (b, c :: cs)

theorem segment_length (b : Block) (bs : List Block) :
    (firstSegment b bs).2.length ≤ bs.length := by
  induction bs generalizing b with
  | nil => simp [firstSegment]
  | cons c cs ih =>
      unfold firstSegment
      split_ifs
      · have := ih c
        simp only [List.length_cons]
        omega
      · simp

/-- The last block of a segment is a block of the chain. -/
theorem exists_segment (b : Block) (bs : List Block) :
    ∃ pre, b :: bs = pre ++ (firstSegment b bs).1 :: (firstSegment b bs).2 := by
  induction bs generalizing b with
  | nil => exact ⟨[], rfl⟩
  | cons c cs ih =>
      unfold firstSegment
      split_ifs
      · obtain ⟨pre, hpre⟩ := ih c
        exact ⟨b :: pre, by rw [hpre]; rfl⟩
      · exact ⟨[], rfl⟩

theorem addr_le_segment (b : Block) (bs : List Block) : b.addr ≤ (firstSegment b bs).1.addr := by
  induction bs generalizing b with
  | nil => exact le_rfl
  | cons c cs ih =>
      unfold firstSegment
      split_ifs with hadj
      · have := ih c
        unfold Block.stop at hadj
        omega
      · exact le_rfl

/-- A segment ends behind its start. -/
theorem addr_lt_segment (b : Block) (bs : List Block) : b.addr < (firstSegment b bs).1.stop := by
  have := addr_le_segment b bs
  unfold Block.stop
  omega

/-- The bytes of the segment that starts with `b`. -/
def segmentRange (b : Block) (bs : List Block) : Mapping :=
  ⟨b.addr, (firstSegment b bs).1.stop - b.addr⟩

/-- The bytes of each segment, in the order of the chain. -/
def segments : List Block → List Mapping
  | [] => []
  | b :: bs => segmentRange b bs :: segments (firstSegment b bs).2
termination_by bs => bs.length
decreasing_by
  have := segment_length b bs
  simp only [List.length_cons]
  omega

/-- The segment covers what its blocks cover. -/
theorem depth_segment (b : Block) (bs : List Block) (x : ℕ) :
    depth Block.Holds (b :: bs) x =
      (if (segmentRange b bs).Holds x then 1 else 0) +
        depth Block.Holds (firstSegment b bs).2 x := by
  have hone : ∀ b : Block, (⟨b.addr, b.stop - b.addr⟩ : Mapping).Holds x ↔ b.Holds x := by
    intro b
    unfold Mapping.Holds Block.Holds Block.stop
    dsimp only
    omega
  induction bs generalizing b with
  | nil =>
      rw [depth_cons, segmentRange, firstSegment]
      simp only [hone]
  | cons c cs ih =>
      rw [depth_cons]
      by_cases hadj : c.addr = b.stop
      · have hlast := addr_lt_segment c cs
        rw [ih c, segmentRange, segmentRange, firstSegment, if_pos hadj, ← Nat.add_assoc]
        congr 1
        refine ite_add_ite ?_ ?_
        all_goals
          unfold Block.stop at hadj
          unfold Mapping.Holds Block.Holds
          dsimp only
          omega
      · rw [segmentRange, firstSegment, if_neg hadj]
        simp only [hone]

/-- The segments cover what the chain covers. -/
theorem depth_segments (bs : List Block) (x : ℕ) :
    depth Mapping.Holds (segments bs) x = depth Block.Holds bs x := by
  induction bs using segments.induct with
  | case1 => simp [segments]
  | case2 b bs ih => rw [segments, depth_cons, ih, depth_segment]

/-! ## Chains whose segments start pages -/

/-- Every block starts a page or directly follows the block before it. -/
def Anchored (bs : List Block) : Prop :=
  bs.IsChain fun b c => c.addr = b.stop ∨ c.addr % getpagesize = 0

/-- The blocks behind a segment start a page, and are anchored. -/
theorem Anchored.segment (h : Anchored (b :: bs)) :
    Anchored (firstSegment b bs).2 ∧
      ∀ c ∈ (firstSegment b bs).2.head?, c.addr % getpagesize = 0 := by
  unfold Anchored at h ⊢
  induction bs generalizing b with
  | nil => exact ⟨.nil, by simp [firstSegment]⟩
  | cons c cs ih =>
      obtain ⟨hnext, hrest⟩ := List.isChain_cons_cons.mp h
      unfold firstSegment
      split_ifs with hadj
      · exact ih hrest
      · refine ⟨hrest, fun d hd => ?_⟩
        obtain rfl : c = d := by simpa using hd
        exact hnext.resolve_left hadj

/-- Every segment of an anchored chain starts a page, and none is empty. -/
theorem Anchored.segments (h : Anchored bs) (hhead : ∀ b ∈ bs.head?, b.addr % getpagesize = 0) :
    ∀ m ∈ segments bs, m.addr % getpagesize = 0 ∧ 0 < m.size := by
  induction bs using Model.segments.induct with
  | case1 => simp [Model.segments]
  | case2 b bs ih =>
      obtain ⟨hrest, hhead'⟩ := h.segment
      rw [Model.segments]
      intro m hm
      rcases List.mem_cons.mp hm with rfl | hm
      · have := addr_lt_segment b bs
        exact ⟨hhead b rfl, by unfold segmentRange; dsimp only; omega⟩
      · exact ih hrest hhead' m hm

/-- The pages that hold a range. -/
def pages (m : Mapping) : Mapping := ⟨m.addr, getpagesize * pagesCount m.size⟩

/-- Ranges that start pages are apart with their pages. -/
theorem pages_apart (hm : m.addr % getpagesize = 0 ∧ 0 < m.size)
    (hm' : m'.addr % getpagesize = 0 ∧ 0 < m'.size) (h : ∀ x, m.Holds x → ¬ m'.Holds x) (x : ℕ)
    (hx : (pages m).Holds x) : ¬ (pages m').Holds x := by
  have hbefore := h m.addr
  have hafter := h m'.addr
  unfold Mapping.Holds pages pagesCount getpagesize at *
  dsimp only at *
  split_ifs at hx ⊢ <;> omega

/-- The pages that hold the segments of an anchored chain are apart. -/
theorem pairwise_pages (h : Anchored bs) (hhead : ∀ b ∈ bs.head?, b.addr % getpagesize = 0)
    (hsingle : ∀ x, depth Block.Holds bs x ≤ 1) :
    ((segments bs).map pages).Pairwise fun m m' => ∀ x, m.Holds x → ¬ m'.Holds x := by
  have hsegments := h.segments hhead
  have hpair := pairwise_of_depth_le_one (show ∀ x, depth Mapping.Holds (segments bs) x ≤ 1 from
    fun x => (depth_segments bs x).trans_le (hsingle x))
  rw [List.pairwise_map]
  refine hpair.imp_of_mem fun {m m'} hm hm' hapart x => ?_
  exact pages_apart (hsegments m hm) (hsegments m' hm') hapart x

/-- The pages that hold the first segment hold no byte behind it. -/
theorem rest_apart_pages (h : Anchored (b :: bs)) (hhead : b.addr % getpagesize = 0)
    (hsingle : ∀ x, depth Block.Holds (b :: bs) x ≤ 1) (hc : c ∈ (firstSegment b bs).2) {x : ℕ}
    (hx : c.Holds x) : ¬ (pages (segmentRange b bs)).Holds x := by
  have hpair := pairwise_pages h (by simpa using hhead) hsingle
  rw [segments, List.map_cons, List.pairwise_cons] at hpair
  have hpos : 0 < depth Mapping.Holds (segments (firstSegment b bs).2) x := by
    rw [depth_segments]
    exact depth_pos_iff.mpr ⟨c, hc, hx⟩
  obtain ⟨m, hm, hmx⟩ := depth_pos_iff.mp hpos
  have hpages : (pages m).Holds x := by
    unfold Mapping.Holds pages pagesCount getpagesize at *
    dsimp only
    split_ifs <;> omega
  exact fun hfirst => hpair.1 (pages m) (List.mem_map_of_mem hm) x hfirst hpages

/-! ## What the allocator does to anchored chains -/

/-- Blocks between the same ends, anchored themselves, keep a chain anchored. -/
theorem Anchored.replace {pre mid mid' post : List Block} (h : Anchored (pre ++ mid ++ post))
    (hmid : Anchored mid') (hne : mid ≠ []) (hne' : mid' ≠ [])
    (hhead : mid'.head?.map Block.addr = mid.head?.map Block.addr)
    (hlast : mid'.getLast?.map Block.stop = mid.getLast?.map Block.stop) :
    Anchored (pre ++ mid' ++ post) := by
  obtain ⟨hleft, hpost, hright⟩ := List.isChain_append.mp h
  obtain ⟨hpre, -, hfirst⟩ := List.isChain_append.mp hleft
  refine List.isChain_append.mpr ⟨List.isChain_append.mpr ⟨hpre, hmid, ?_⟩, hpost, ?_⟩
  · intro b hb c hc
    obtain ⟨d, hd, haddr⟩ := Option.map_eq_some_iff.mp
      (hhead.symm.trans (congrArg (Option.map Block.addr) hc))
    rw [← haddr]
    exact hfirst b hb d hd
  · rw [List.getLast?_append_of_ne_nil _ hne] at hright
    rw [List.getLast?_append_of_ne_nil _ hne']
    intro b hb c hc
    obtain ⟨d, hd, hstop⟩ := Option.map_eq_some_iff.mp
      (hlast.symm.trans (congrArg (Option.map Block.stop) hb))
    rw [← hstop]
    exact hright d hd c hc

/-- Every chain is anchored. -/
def AllAnchored (chains : List (List Block)) : Prop := ∀ bs ∈ chains, Anchored bs

variable {p : Place}

/-- An edit at a place needs to be looked at in its own chain only. -/
theorem AllAnchored.edit {mid mid' : List Block} (h : AllAnchored (p.fill mid))
    (hedit : Anchored (p.pre ++ mid ++ p.post) → Anchored (p.pre ++ mid' ++ p.post)) :
    AllAnchored (p.fill mid') := by
  unfold AllAnchored Place.fill at *
  simp only [List.mem_append, List.mem_cons] at *
  rintro bs (hbs | rfl | hbs)
  · exact h bs (.inl hbs)
  · exact hedit (h _ (.inr (.inl rfl)))
  · exact h bs (.inr (.inr hbs))

theorem allAnchored_merge (hm : b.Mergeable c) (h : AllAnchored (p.fill [b, c])) :
    AllAnchored (p.fill [b.merge c]) := by
  have hstop : (b.merge c).stop = c.stop := by
    have hadj := hm.2.2
    unfold Block.stop Block.merge at *
    dsimp only
    omega
  refine h.edit fun hchain => hchain.replace (.singleton _) ?_ ?_ rfl ?_
  · simp
  · simp
  · simp [hstop]

theorem allAnchored_status (free : Bool) (h : AllAnchored (p.fill [b])) :
    AllAnchored (p.fill [{ b with free := free }]) :=
  h.edit fun hchain => hchain.replace (.singleton _) (by simp) (by simp) rfl rfl

theorem allAnchored_carve (sz : ℕ) (h : AllAnchored (p.fill [b])) :
    AllAnchored (p.fill (b.carve sz)) := by
  unfold Block.carve
  split_ifs with hsplit
  · have hadj : Anchored [⟨b.addr, sz, false⟩, ⟨b.addr + 17 + sz, b.cap - sz - 17, true⟩] :=
      List.isChain_pair.mpr (.inl rfl)
    have hstop : b.addr + 17 + sz + 17 + (b.cap - sz - 17) = b.addr + 17 + b.cap := by omega
    refine h.edit fun hchain => hchain.replace hadj (by simp) (by simp) rfl ?_
    simp [Block.stop, hstop]
  · exact allAnchored_status false h

/-- **Handing a block out** keeps the chains anchored. -/
theorem allAnchored_allocate {main : List Block} {det : List (List Block)} (sz : ℕ)
    (h : AllAnchored (main :: det)) : AllAnchored ((search sz main).allocate sz :: det) :=
  allocate_preserves allAnchored_merge (allAnchored_carve sz) h

/-- **Linking a region** behind a block keeps the chains anchored. -/
theorem allAnchored_extend {pre post : List Block} {det : List (List Block)} {last new : Block}
    (h : AllAnchored ((pre ++ last :: post) :: det)) (hnew : new.addr % getpagesize = 0)
    (ext : Bool) : AllAnchored (World.extend pre last new ext :: post :: det) := by
  have hmain : Anchored (pre ++ last :: post) := h _ List.mem_cons_self
  rw [List.append_cons] at hmain
  obtain ⟨hleft, hpost, -⟩ := List.isChain_append.mp hmain
  have hlinked : AllAnchored ((⟨[], pre, [], post :: det⟩ : Place).fill [last, new]) := by
    intro bs hbs
    simp only [Place.fill, List.nil_append, List.append_nil, List.mem_cons] at hbs
    rcases hbs with rfl | rfl | hbs
    · rw [List.append_cons]
      refine List.isChain_append.mpr ⟨hleft, .singleton new, fun b _ c hc => .inr ?_⟩
      obtain rfl : new = c := by simpa using hc
      exact hnew
    · exact hpost
    · exact h bs (List.mem_cons_of_mem _ hbs)
  unfold World.extend
  split_ifs with hm
  · simpa [Place.fill] using allAnchored_merge hm.2 hlinked
  · simpa [Place.fill] using hlinked

/-- **Releasing a block** keeps the chains anchored. -/
theorem allAnchored_release {chains : List (List Block)} {mapped : List Mapping}
    (hsound : Sound chains mapped) (hb : b ∈ chains.flatten) (h : AllAnchored chains) :
    AllAnchored (chains.map (World.releaseAt b.addr)) := by
  obtain ⟨p, rfl⟩ := Place.exists_fill hb
  rw [World.releaseAt_fill hsound]
  exact absorb_preserves allAnchored_merge (allAnchored_status true h)

/-! ## Chains that fill regions -/

/-- The blocks follow each other in memory from `a` to `e`. -/
def Consecutive : List Block → ℕ → ℕ → Prop
  | [], a, e => a = e
  | b :: bs, a, e => b.addr = a ∧ Consecutive bs b.stop e

/-- The blocks fill the region `m`, which is made of whole pages. -/
structure Fills (bs : List Block) (m : Mapping) : Prop where
  consecutive : Consecutive bs m.addr (m.addr + m.size)
  addr_aligned : m.addr % getpagesize = 0
  size_aligned : m.size % getpagesize = 0

/-- Consecutive blocks cover what is between their ends. -/
theorem depth_consecutive {a e : ℕ} (h : Consecutive bs a e) (x : ℕ) :
    a ≤ e ∧ depth Block.Holds bs x = if a ≤ x ∧ x < e then 1 else 0 := by
  induction bs generalizing a with
  | nil =>
      obtain rfl : a = e := h
      exact ⟨le_rfl, by rw [if_neg (by omega)]; rfl⟩
  | cons b bs ih =>
      obtain ⟨rfl, hrest⟩ := h
      obtain ⟨hle, hdepth⟩ := ih hrest
      have hstop : b.addr ≤ b.stop := by
        unfold Block.stop
        omega
      refine ⟨hstop.trans hle, ?_⟩
      rw [depth_cons, hdepth]
      refine ite_add_ite ?_ ?_
      all_goals
        unfold Block.Holds
        unfold Block.stop at hle ⊢
        omega

/-- Chains that fill regions cover the regions. -/
theorem depth_fills {bss : List (List Block)} {regions : List Mapping}
    (h : List.Forall₂ Fills bss regions) (x : ℕ) :
    depth Block.Holds bss.flatten x = depth Mapping.Holds regions x := by
  induction h with
  | nil => rfl
  | cons hfills hrest ih =>
      rw [List.flatten_cons, depth_append, depth_cons, ih,
        (depth_consecutive hfills.consecutive x).2]
      rfl

/-- Every block directly follows the block before it, or a page ends between them; the chain
starts and ends with a page. -/
structure Seamless (bs : List Block) : Prop where
  chain : bs.IsChain fun b c =>
    c.addr = b.stop ∨ b.stop % getpagesize = 0 ∧ c.addr % getpagesize = 0
  head : ∀ b ∈ bs.head?, b.addr % getpagesize = 0
  last : ∀ b ∈ bs.getLast?, b.stop % getpagesize = 0

theorem Seamless.append {bs' : List Block} (h : Seamless bs) (h' : Seamless bs') :
    Seamless (bs ++ bs') where
  chain := List.isChain_append.mpr
    ⟨h.chain, h'.chain, fun b hb c hc => .inr ⟨h.last b hb, h'.head c hc⟩⟩
  head b hb := by
    cases bs with
    | nil => exact h'.head b hb
    | cons d ds => exact h.head b hb
  last b hb := by
    by_cases hne : bs' = []
    · subst hne
      exact h.last b (by simpa using hb)
    · rw [List.getLast?_append_of_ne_nil _ hne] at hb
      exact h'.last b hb

/-- Consecutive blocks that end with a page. -/
theorem Consecutive.chain_last {a e : ℕ} (h : Consecutive bs a e) (he : e % getpagesize = 0) :
    (bs.IsChain fun b c => c.addr = b.stop) ∧ ∀ b ∈ bs.getLast?, b.stop % getpagesize = 0 := by
  induction bs generalizing a with
  | nil => exact ⟨.nil, by simp⟩
  | cons b bs ih =>
      obtain ⟨-, hrest⟩ := h
      obtain ⟨hchain, hlast⟩ := ih hrest
      cases bs with
      | nil =>
          obtain rfl : b.stop = e := hrest
          exact ⟨.singleton b, by simpa using he⟩
      | cons c cs =>
          rw [List.getLast?_cons_cons]
          exact ⟨hchain.cons_cons hrest.1, hlast⟩

theorem Fills.seamless (h : Fills bs m) : Seamless bs := by
  have hend : (m.addr + m.size) % getpagesize = 0 := by
    have haddr := h.addr_aligned
    have hsize := h.size_aligned
    unfold getpagesize at *
    omega
  obtain ⟨hchain, hlast⟩ := h.consecutive.chain_last hend
  refine ⟨hchain.imp fun b c hadj => .inl hadj, fun b hb => ?_, hlast⟩
  cases bs with
  | nil => cases hb
  | cons c cs =>
      obtain rfl : c = b := by simpa using hb
      rw [h.consecutive.1]
      exact h.addr_aligned

theorem seamless_flatten {bss : List (List Block)} {regions : List Mapping}
    (h : List.Forall₂ Fills bss regions) : Seamless bss.flatten := by
  induction h with
  | nil => exact ⟨.nil, by simp, by simp⟩
  | cons hfills hrest ih => exact hfills.seamless.append ih

theorem Seamless.anchored (h : Seamless bs) : Anchored bs :=
  h.chain.imp fun _ _ hbc => hbc.imp_right And.right

/-- A segment ends with a page where the chain is seamless behind its start, and what is behind
it is seamless. -/
theorem segment_seamless (hchain : (b :: bs).IsChain fun b c =>
      c.addr = b.stop ∨ b.stop % getpagesize = 0 ∧ c.addr % getpagesize = 0)
    (hlast : ∀ c ∈ (b :: bs).getLast?, c.stop % getpagesize = 0) :
    (firstSegment b bs).1.stop % getpagesize = 0 ∧ Seamless (firstSegment b bs).2 := by
  induction bs generalizing b with
  | nil => exact ⟨hlast b rfl, .nil, by simp [firstSegment], by simp [firstSegment]⟩
  | cons c cs ih =>
      obtain ⟨hnext, hrest⟩ := List.isChain_cons_cons.mp hchain
      rw [List.getLast?_cons_cons] at hlast
      unfold firstSegment
      split_ifs with hadj
      · exact ih hrest hlast
      · obtain ⟨hstop, haddr⟩ := hnext.resolve_left hadj
        exact ⟨hstop, hrest, by simpa using haddr, hlast⟩

/-- The segments of a seamless chain are made of whole pages. -/
theorem Seamless.pages_segments (h : Seamless bs) : (segments bs).map pages = segments bs := by
  induction bs using Model.segments.induct with
  | case1 => simp [segments]
  | case2 b bs ih =>
      obtain ⟨hstop, hrest⟩ := segment_seamless h.chain h.last
      have haddr := h.head b rfl
      have hpages : pages (segmentRange b bs) = segmentRange b bs := by
        have hlt := addr_lt_segment b bs
        unfold segmentRange pages pagesCount getpagesize at *
        simp only [Mapping.mk.injEq, true_and]
        split_ifs <;> omega
      rw [segments, List.map_cons, hpages, ih hrest]

end LowLevel.Model
