import LowLevel.Model.Accounting

/-!
# Heaps that differ in how free memory is cut

Two worlds are alike when their chains coalesce to the same chains. A search passes and
finds the same in both, since it reads a chain only through its maximal free runs, and
carving, growing and releasing keep the worlds alike: what the client sees of either is
the same.
-/

set_option autoImplicit false

namespace LowLevel.Model

open LowLevel.Library
open LowLevel.Program.Allocator (Mapping Mapped Grantable SIZE heapStart)

variable {bs bs' : List Block} {b : Block} {sz : ℕ}

/-! ## Coalescing a part of a chain -/

/-- A chain coalesces from its end, so what is in front of a part does not matter. -/
theorem coalesce_append_congr (l : List Block) (h : coalesce bs = coalesce bs') :
    coalesce (l ++ bs) = coalesce (l ++ bs') := by
  induction l with
  | nil => exact h
  | cons b l ih => simp only [List.cons_append, coalesce, ih]

/-- Taking in the following free blocks is a step of coalescing. -/
theorem coalesce_absorb_cons (b : Block) (bs : List Block) :
    coalesce ((absorb b bs).1 :: (absorb b bs).2) = coalesce (b :: bs) := by
  induction bs generalizing b with
  | nil => rfl
  | cons c cs ih =>
      unfold absorb
      split_ifs with hm
      · rw [ih]
        exact (consRun_consRun_of_mergeable hm _).symm
      · rfl

/-- Coalescing keeps the bytes that the blocks hold. -/
theorem depth_coalesce (bs : List Block) (x : ℕ) :
    depth Block.Holds (coalesce bs) x = depth Block.Holds bs x := by
  induction bs with
  | nil => rfl
  | cons b bs ih =>
      rw [depth_cons, ← ih, coalesce]
      cases coalesce bs with
      | nil => simp [consRun]
      | cons c cs =>
          by_cases hm : b.Mergeable c
          · have hadj := hm.2.2
            unfold Block.stop at hadj
            have hpair : depth Block.Holds [b, c] x = depth Block.Holds [b.merge c] x := by
              refine depth_pair_eq ?_ ?_
              · unfold Block.Holds Block.merge
                dsimp only
                omega
              · unfold Block.Holds
                omega
            simp only [depth_cons, depth_nil] at hpair
            simp only [consRun, if_pos hm, depth_cons]
            omega
          · simp only [consRun, if_neg hm, depth_cons]

/-! ## Searching -/

/-- The first block with a property cuts a list in one way. -/
theorem cut_unique {α : Type} {p : α → Prop} {l₁ l₂ r₁ r₂ : List α} {a₁ a₂ : α}
    (h : l₁ ++ a₁ :: r₁ = l₂ ++ a₂ :: r₂) (h₁ : ∀ a ∈ l₁, ¬ p a) (h₂ : ∀ a ∈ l₂, ¬ p a)
    (ha₁ : p a₁) (ha₂ : p a₂) : l₁ = l₂ ∧ a₁ = a₂ ∧ r₁ = r₂ := by
  induction l₁ generalizing l₂ with
  | nil =>
      cases l₂ with
      | nil => simpa using h
      | cons c l₂ =>
          obtain ⟨rfl, -⟩ := List.cons.inj h
          exact absurd ha₁ (h₂ a₁ (by simp))
  | cons c l₁ ih =>
      cases l₂ with
      | nil =>
          obtain ⟨rfl, -⟩ := List.cons.inj h
          exact absurd ha₂ (h₁ c (by simp))
      | cons d l₂ =>
          obtain ⟨rfl, htail⟩ := List.cons.inj h
          obtain ⟨rfl, ha, hr⟩ := ih htail (fun a ha => h₁ a (by simp [ha]))
            (fun a ha => h₂ a (by simp [ha]))
          exact ⟨rfl, ha, hr⟩

/-- Two searches that came to the same. -/
inductive SameSearch : Search → Search → Prop where
  | miss (passed : List Block) : SameSearch ⟨passed, none⟩ ⟨passed, none⟩
  | hit (passed rest rest' : List Block) (b : Block) (h : coalesce rest = coalesce rest') :
      SameSearch ⟨passed, some (b, rest)⟩ ⟨passed, some (b, rest')⟩

/-- **A search** sees a chain only through its maximal free runs. -/
theorem sameSearch (sz : ℕ) (h : coalesce bs = coalesce bs') :
    SameSearch (search sz bs) (search sz bs') := by
  have hs := coalesce_search sz bs
  have hs' := coalesce_search sz bs'
  have hsome : (search sz bs).hit.isSome ↔ (search sz bs').hit.isSome := by
    rw [search_hit_isSome_iff, search_hit_isSome_iff, h]
  have hsmall : ∀ bs, ∀ b ∈ (search sz bs).passed, ¬ (b.free = true ∧ sz ≤ b.cap) := by
    rintro bs b hb ⟨hfree, hfit⟩
    have := search_passed hb hfree
    omega
  rcases hr : search sz bs with ⟨passed, hit⟩
  rcases hr' : search sz bs' with ⟨passed', hit'⟩
  rw [hr] at hs hsome
  rw [hr'] at hs' hsome
  cases hit with
  | none =>
      obtain rfl : hit' = none := by
        cases hit' with
        | none => rfl
        | some _ => simp at hsome
      simp only [List.append_nil] at hs hs'
      obtain rfl : passed = passed' := hs.symm.trans (h.trans hs')
      exact .miss passed
  | some hit =>
      obtain ⟨⟨b', rest'⟩, rfl⟩ : ∃ p, hit' = some p :=
        Option.isSome_iff_exists.mp (hsome.mp rfl)
      obtain ⟨b, rest⟩ := hit
      have hhit : (search sz bs).hit = some (b, rest) := by rw [hr]
      have hhit' : (search sz bs').hit = some (b', rest') := by rw [hr']
      obtain ⟨rfl, rfl, hrest⟩ := cut_unique (hs.symm.trans (h.trans hs'))
        (p := fun b => b.free = true ∧ sz ≤ b.cap)
        (by have := hsmall bs; rwa [hr] at this) (by have := hsmall bs'; rwa [hr'] at this)
        (search_hit hhit) (search_hit hhit')
      exact .hit passed rest rest' b hrest

/-! ## Releasing -/

/-- The blocks at the addresses `as` marked free. -/
def mark (as : List ℕ) (bs : List Block) : List Block :=
  bs.map fun b => if b.addr ∈ as then b.release else b

theorem mark_cons (as : List ℕ) (b : Block) (bs : List Block) :
    mark as (b :: bs) = (if b.addr ∈ as then b.release else b) :: mark as bs := rfl

/-- Marking at two lists of addresses, one after the other. -/
theorem mark_mark (as as' : List ℕ) (bs : List Block) :
    mark as (mark as' bs) = mark (as' ++ as) bs := by
  unfold mark
  rw [List.map_map]
  refine List.map_congr_left fun b _ => ?_
  simp only [Function.comp, List.mem_append]
  by_cases h' : b.addr ∈ as'
  · have hrelease : b.release.release = b.release := rfl
    simp only [h', true_or, if_true, hrelease, ite_self]
  · simp [h']

/-- Which addresses are marked matters, not their order. -/
theorem mark_congr {as as' : List ℕ} (h : ∀ a, a ∈ as ↔ a ∈ as') (bs : List Block) :
    mark as bs = mark as' bs := by
  unfold mark
  simp only [h]

/-- The blocks at the addresses `as` are taken. -/
def TakenAt (as : List ℕ) (bs : List Block) : Prop := ∀ b ∈ bs, b.addr ∈ as → b.free = false

/-- A maximal run starts where one of its blocks does, with the same status. -/
theorem exists_of_mem_coalesce (h : b ∈ coalesce bs) :
    ∃ c ∈ bs, c.addr = b.addr ∧ c.free = b.free := by
  induction bs generalizing b with
  | nil => cases h
  | cons d ds ih =>
      have htail : ∀ c ∈ coalesce ds, ∃ e ∈ d :: ds, e.addr = c.addr ∧ e.free = c.free := by
        intro c hc
        obtain ⟨e, he, heq⟩ := ih hc
        exact ⟨e, by simp [he], heq⟩
      rw [coalesce] at h
      cases hds : coalesce ds with
      | nil =>
          rw [hds] at h
          obtain rfl : b = d := by simpa [consRun] using h
          exact ⟨b, by simp, rfl, rfl⟩
      | cons c cs =>
          rw [hds] at h htail
          simp only [consRun] at h
          split_ifs at h
          · rcases List.mem_cons.mp h with rfl | h
            · exact ⟨d, by simp, rfl, rfl⟩
            · exact htail b (by simp [h])
          · rcases List.mem_cons.mp h with rfl | h
            · exact ⟨b, by simp, rfl, rfl⟩
            · exact htail b h

theorem TakenAt.coalesce {as : List ℕ} (h : TakenAt as bs) : TakenAt as (coalesce bs) := by
  intro b hb has
  obtain ⟨c, hc, haddr, hfree⟩ := exists_of_mem_coalesce hb
  rw [← hfree]
  exact h c hc (haddr ▸ has)

/-- **Releasing** taken blocks sees a chain only through its maximal free runs. -/
theorem coalesce_mark {as : List ℕ} (h : TakenAt as bs) :
    coalesce (mark as (coalesce bs)) = coalesce (mark as bs) := by
  induction bs with
  | nil => rfl
  | cons b bs ih =>
      have hbs : TakenAt as bs := fun c hc => h c (by simp [hc])
      have ih := ih hbs
      have htail : ∀ d, consRun d (coalesce (mark as (coalesce bs))) =
          consRun d (coalesce (mark as bs)) := fun d => by rw [ih]
      show coalesce (mark as (consRun b (coalesce bs))) = _
      cases hruns : coalesce bs with
      | nil =>
          rw [hruns] at htail
          exact htail _
      | cons c cs =>
          rw [hruns] at htail
          simp only [consRun]
          split_ifs with hm
          · -- neither of two blocks that merge is marked
            have hb : b.addr ∉ as := fun hb => by
              have := h b (by simp) hb
              rw [hm.1] at this
              cases this
            have hc : c.addr ∉ as := fun hc => by
              have := hbs.coalesce c (by rw [hruns]; simp) hc
              rw [hm.2.1] at this
              cases this
            have hself : mark as (b.merge c :: cs) = b.merge c :: mark as cs := by
              rw [mark_cons, if_neg (show (b.merge c).addr ∉ as from hb)]
            calc coalesce (mark as (b.merge c :: cs))
                = consRun (b.merge c) (coalesce (mark as cs)) := by rw [hself, coalesce]
              _ = consRun b (consRun c (coalesce (mark as cs))) :=
                  (consRun_consRun_of_mergeable hm _).symm
              _ = consRun b (coalesce (mark as (c :: cs))) := by rw [mark_cons, if_neg hc]; rfl
              _ = consRun b (coalesce (mark as bs)) := htail b
              _ = coalesce (mark as (b :: bs)) := by rw [mark_cons, if_neg hb, coalesce]
          · exact htail _

/-- Marking one block and merging it forward coalesces like marking it. -/
theorem coalesce_releaseAt {addr : ℕ} (h : (bs.map Block.addr).Nodup) :
    coalesce (World.releaseAt addr bs) = coalesce (mark [addr] bs) := by
  induction bs with
  | nil => rfl
  | cons b bs ih =>
      rw [List.map_cons, List.nodup_cons] at h
      unfold World.releaseAt
      split_ifs with hb
      · have hrest : mark [addr] bs = bs := by
          refine (List.map_congr_left fun c hc => ?_).trans (List.map_id bs)
          rw [if_neg]
          · rfl
          · intro hmem
            refine h.1 ?_
            rw [hb, ← List.mem_singleton.mp hmem]
            exact List.mem_map_of_mem hc
        rw [coalesce_absorb_cons, mark_cons, if_pos (by simp [hb]), hrest]
      · rw [mark_cons, if_neg (by simpa using hb), coalesce, ih h.2, coalesce]

theorem mem_of_mem_absorb {d : Block} (h : d ∈ (absorb b bs).2) : d ∈ bs := by
  induction bs generalizing b with
  | nil => exact h
  | cons c cs ih =>
      unfold absorb at h
      split_ifs at h
      · exact List.mem_cons_of_mem c (ih h)
      · exact h

/-- Releasing changes the block at `addr` and free blocks behind it only. -/
theorem mem_of_mem_releaseAt {addr : ℕ} {d : Block} (h : d ∈ World.releaseAt addr bs) :
    d ∈ bs ∨ d.addr = addr := by
  induction bs with
  | nil => exact .inl h
  | cons c cs ih =>
      unfold World.releaseAt at h
      split_ifs at h with hc
      · rcases List.mem_cons.mp h with rfl | h
        · exact .inr (by rw [absorb_addr]; exact hc)
        · exact .inl (List.mem_cons_of_mem c (mem_of_mem_absorb h))
      · rcases List.mem_cons.mp h with rfl | h
        · exact .inl (by simp)
        · exact (ih h).imp_left (List.mem_cons_of_mem c)

theorem mem_of_mem_mark {as : List ℕ} {d : Block} (h : d ∈ mark as bs) :
    d ∈ bs ∨ d.addr ∈ as := by
  obtain ⟨c, hc, rfl⟩ := List.mem_map.mp h
  by_cases hca : c.addr ∈ as
  · exact .inr (by rw [if_pos hca]; exact hca)
  · exact .inl (by rw [if_neg hca]; exact hc)

/-- Coalescing keeps the taken blocks. -/
theorem taken_coalesce (bs : List Block) : taken (coalesce bs) = taken bs := by
  induction bs with
  | nil => rfl
  | cons b bs ih =>
      cases hb : b.free with
      | false => rw [coalesce_cons_of_taken hb, taken_cons_of_taken hb, taken_cons_of_taken hb, ih]
      | true =>
          rw [taken_cons_of_free hb, ← ih, coalesce]
          cases coalesce bs with
          | nil => exact taken_cons_of_free hb []
          | cons c cs =>
              simp only [consRun]
              split_ifs with hm
              · have hmerge : (b.merge c).free = true := hm.1
                rw [taken_cons_of_free hmerge, taken_cons_of_free hm.2.1]
              · rw [taken_cons_of_free hb]

theorem taken_flatten_coalesce (chains : List (List Block)) :
    taken (chains.map coalesce).flatten = taken chains.flatten := by
  induction chains with
  | nil => rfl
  | cons c cs ih =>
      simp only [List.flatten_cons, List.map_cons, taken_append, taken_coalesce, ih]

/-! ## The kernel's answers -/

section Kernel

variable {ms ms' : List Mapping} {a addr len : ℕ} {answers : List (Option ℕ)}

/-- A range meets no mapping when it has no mapped byte. -/
theorem apart_iff (hms : ∀ m ∈ ms, 0 < m.size) (hlen : 0 < len) :
    (∀ m ∈ ms, a + len ≤ m.addr ∨ m.addr + m.size ≤ a) ↔
      ∀ x, a ≤ x → x < a + len → ¬ Mapped ms x := by
  constructor
  · rintro h x hlo hhi ⟨m, hm, hmx⟩
    have := h m hm
    unfold Mapping.Holds at hmx
    omega
  · intro h m hm
    have hsize := hms m hm
    by_contra hno
    push Not at hno
    exact h (max a m.addr) (le_max_left _ _) (by omega)
      ⟨m, hm, le_max_right _ _, by omega⟩

/-- The kernel's answers depend on which bytes are mapped only. -/
theorem granted_congr (hms : ∀ m ∈ ms, 0 < m.size) (hms' : ∀ m ∈ ms', 0 < m.size)
    (h : ∀ x, Mapped ms x ↔ Mapped ms' x) (hlen : 0 < len) :
    granted ms answers len = granted ms' answers len := by
  have hgrant : ∀ a, Grantable ms a len ↔ Grantable ms' a len := by
    intro a
    unfold Grantable
    rw [apart_iff hms hlen, apart_iff hms' hlen]
    simp only [h]
  unfold granted
  split
  · simp only [hgrant]
  · rfl

theorem growth_congr (hms : ∀ m ∈ ms, 0 < m.size) (hms' : ∀ m ∈ ms', 0 < m.size)
    (h : ∀ x, Mapped ms x ↔ Mapped ms' x) (hlen : 0 < len) :
    growth ms answers addr len = growth ms' answers addr len := by
  unfold growth
  rw [granted_congr hms hms' h hlen, granted_congr hms hms' h hlen]

end Kernel

/-! ## Worlds -/

namespace World

/-- The worlds differ only in how their free memory is cut. -/
structure Alike (w w' : World) : Prop where
  main_eq : coalesce w.main = coalesce w'.main
  det_eq : w.det.map coalesce = w'.det.map coalesce
  mapped_iff : ∀ x, Mapped w.mapped x ↔ Mapped w'.mapped x
  answers_eq : w.answers = w'.answers

variable {w w' w'' : World} {query : ℕ}

theorem Alike.symm (h : Alike w w') : Alike w' w :=
  ⟨h.main_eq.symm, h.det_eq.symm, fun x => (h.mapped_iff x).symm, h.answers_eq.symm⟩

theorem Alike.trans (h : Alike w w') (h' : Alike w' w'') : Alike w w'' :=
  ⟨h.main_eq.trans h'.main_eq, h.det_eq.trans h'.det_eq,
    fun x => (h.mapped_iff x).trans (h'.mapped_iff x), h.answers_eq.trans h'.answers_eq⟩

/-- Alike worlds have the same taken blocks. -/
theorem Alike.taken_eq (h : Alike w w') : taken w.chains.flatten = taken w'.chains.flatten := by
  rw [← taken_flatten_coalesce, ← taken_flatten_coalesce w'.chains]
  simp only [chains, List.map_cons, h.main_eq, h.det_eq]

/-- Two outcomes that look the same and leave alike worlds. -/
structure SameOutcome (o o' : Outcome) : Prop where
  ptr_eq : o.ptr = o'.ptr
  requests_eq : o.requests = o'.requests
  alike : Alike o.world o'.world

/-- **A request** looks the same in alike worlds. -/
theorem Alike.serve (h : Alike w w') (hw : Layout w.chains w.mapped)
    (hw' : Layout w'.chains w'.mapped) : SameOutcome (w.serve query) (w'.serve query) := by
  have hsame := sameSearch query h.main_eq
  rcases hr : search query w.main with ⟨passed, hit⟩
  rcases hr' : search query w'.main with ⟨passed', hit'⟩
  rw [hr, hr'] at hsame
  cases hsame with
  | hit _ rest rest' b hrest =>
      have hhit : (search query w.main).hit = some (b, rest) := by rw [hr]
      have hhit' : (search query w'.main).hit = some (b, rest') := by rw [hr']
      rw [serve_of_hit hhit, serve_of_hit hhit']
      refine ⟨rfl, rfl, ?_, h.det_eq, h.mapped_iff, h.answers_eq⟩
      rw [hr, hr']
      exact coalesce_append_congr passed (coalesce_append_congr (b.carve query) hrest)
  | miss =>
      -- a failed search leaves the same chain in both, so the heap grows the same way
      cases hcut : cutAtLast passed with
      | none =>
          simp only [World.serve, hr, hr', hcut]
          exact ⟨rfl, rfl, h⟩
      | some cut =>
          obtain ⟨pre, last, post⟩ := cut
          have hgrowth : growth w.mapped w.answers (last.stop % SIZE) (regionSize query) =
              growth w'.mapped w'.answers (last.stop % SIZE) (regionSize query) := by
            have hlen : 0 < regionSize query := by
              have := regionMinSize_le (((query + 17) % SIZE + 17) % SIZE)
              unfold regionSize
              omega
            rw [growth_congr hw.sized hw'.sized h.mapped_iff hlen, h.answers_eq]
          have hmiss : (search query w.main).hit = none := by rw [hr]
          have hmiss' : (search query w'.main).hit = none := by rw [hr']
          have hcuts : cutAtLast (search query w.main).passed = some (pre, last, post) := by
            rw [hr, hcut]
          have hcuts' : cutAtLast (search query w'.main).passed = some (pre, last, post) := by
            rw [hr', hcut]
          cases hregion : (growth w'.mapped w'.answers (last.stop % SIZE)
              (regionSize query)).region with
          | none =>
              rw [serve_of_refused hmiss hcuts hgrowth.symm hregion,
                serve_of_refused hmiss' hcuts' rfl hregion]
              exact ⟨rfl, rfl, rfl, h.det_eq, h.mapped_iff, rfl⟩
          | some region =>
              rw [serve_of_granted hmiss hcuts hgrowth.symm hregion rfl,
                serve_of_granted hmiss' hcuts' rfl hregion rfl]
              refine ⟨rfl, rfl, rfl, ?_, ?_, rfl⟩
              · rw [List.map_cons, List.map_cons, h.det_eq]
              · intro x
                have := h.mapped_iff x
                unfold Mapped at this ⊢
                simp only [List.exists_mem_cons_iff, this]

/-- **`_malloc`** looks the same in alike worlds. -/
theorem Alike.malloc (h : Alike w w') (hw : Layout w.chains w.mapped)
    (hw' : Layout w'.chains w'.mapped) : SameOutcome (w.malloc query) (w'.malloc query) := by
  obtain ⟨hptr, hrequests, halike⟩ : SameOutcome (w.serve (max query 24))
    (w'.serve (max query 24)) := h.serve hw hw'
  exact ⟨by simp only [World.malloc, hptr], hrequests, halike⟩

/-- Where taken blocks are, no free block is. -/
theorem takenAt_of_mem {chains : List (List Block)} {mapped : List Mapping}
    (h : Layout chains mapped) {as : List ℕ}
    (has : ∀ a ∈ as, ∃ b ∈ taken chains.flatten, b.addr = a) {c : List Block}
    (hc : c ∈ chains) : TakenAt as c := by
  intro d hd hda
  obtain ⟨b, hb, heq⟩ := has d.addr hda
  obtain ⟨hmem, hfree⟩ := mem_taken.mp hb
  rw [h.sound.eq_of_addr_eq (List.mem_flatten.mpr ⟨c, hc, hd⟩) hmem heq.symm]
  exact hfree

/-- The addresses of one chain of a heap differ. -/
theorem nodup_of_mem {chains : List (List Block)} {mapped : List Mapping}
    (h : Layout chains mapped) {c : List Block} (hc : c ∈ chains) :
    (c.map Block.addr).Nodup :=
  h.sound.nodup_addr.sublist ((List.sublist_flatten_of_mem hc).map Block.addr)

/-- **`_free`** keeps worlds alike. -/
theorem Alike.release (h : Alike w w') (hw : Layout w.chains w.mapped)
    (hw' : Layout w'.chains w'.mapped) {b : Block} (hb : b ∈ taken w.chains.flatten) :
    Alike (w.release b.addr) (w'.release b.addr) := by
  have hb' : b ∈ taken w'.chains.flatten := by
    rw [← h.taken_eq]
    exact hb
  have hrelease : ∀ w : World, Layout w.chains w.mapped → b ∈ taken w.chains.flatten →
      ∀ c ∈ w.chains, coalesce (releaseAt b.addr c) = coalesce (mark [b.addr] (coalesce c)) :=
    fun w hw hb c hc => by
      rw [coalesce_releaseAt (nodup_of_mem hw hc),
        coalesce_mark (takenAt_of_mem hw (by simpa using ⟨b, hb, rfl⟩) hc)]
  refine ⟨?_, ?_, h.mapped_iff, h.answers_eq⟩
  · show coalesce (releaseAt b.addr w.main) = coalesce (releaseAt b.addr w'.main)
    rw [hrelease w hw hb w.main (by simp [chains]), hrelease w' hw' hb' w'.main (by simp [chains]),
      h.main_eq]
  · show (w.det.map (releaseAt b.addr)).map coalesce = (w'.det.map (releaseAt b.addr)).map coalesce
    have hdet : ∀ w : World, Layout w.chains w.mapped → b ∈ taken w.chains.flatten →
        (w.det.map (releaseAt b.addr)).map coalesce =
          (w.det.map coalesce).map fun c => coalesce (mark [b.addr] c) := by
      intro w hw hb
      rw [List.map_map, List.map_map]
      exact List.map_congr_left fun c hc => hrelease w hw hb c (by simp [chains, hc])
    rw [hdet w hw hb, hdet w' hw' hb', h.det_eq]

/-- **Releasing** one block and then others coalesces like releasing them all. -/
theorem coalesce_mark_release (hw : Layout w.chains w.mapped) {b : Block} {as : List ℕ}
    (has : ∀ c ∈ w.chains, TakenAt as c) (hne : b.addr ∉ as) :
    ((w.release b.addr).chains.map fun c => coalesce (mark as c)) =
      w.chains.map fun c => coalesce (mark (b.addr :: as) c) := by
  rw [show (w.release b.addr).chains = w.chains.map (releaseAt b.addr) from rfl, List.map_map]
  refine List.map_congr_left fun c hc => ?_
  have hrelease : TakenAt as (releaseAt b.addr c) := fun d hd hda => by
    rcases mem_of_mem_releaseAt hd with hd | hd
    · exact has c hc d hd hda
    · exact absurd (hd ▸ hda) hne
  have hmark : TakenAt as (mark [b.addr] c) := fun d hd hda => by
    rcases mem_of_mem_mark hd with hd | hd
    · exact has c hc d hd hda
    · exact absurd (List.mem_singleton.mp hd ▸ hda) hne
  calc coalesce (mark as (releaseAt b.addr c))
      = coalesce (mark as (coalesce (releaseAt b.addr c))) := (coalesce_mark hrelease).symm
    _ = coalesce (mark as (coalesce (mark [b.addr] c))) := by
        rw [coalesce_releaseAt (nodup_of_mem hw hc)]
    _ = coalesce (mark as (mark [b.addr] c)) := coalesce_mark hmark
    _ = coalesce (mark (b.addr :: as) c) := by rw [mark_mark]; rfl

end World

end LowLevel.Model
