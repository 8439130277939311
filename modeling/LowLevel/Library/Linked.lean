import Mathlib.Data.List.Nodup
import Mathlib.Data.Nat.Notation

/-!
# Lists linked by their addresses

A store has cells at addresses, each with a value and the address of the next one; the address 0
holds no cell. `LinkedTo cell a cs b` says that the cells `cs`, address and value, lead from `a` to
`b`, and `Linked cell a cs` that they end at 0. Segments are put together (`linkedTo_append`), do
not depend on other cells (`LinkedTo.congr`), and where a list ends the cells are different ones
(`Linked.nodup`), so it can be grown at its last cell (`Linked.relink`).
-/

set_option autoImplicit false

namespace LowLevel.Library

variable {α : Type} {cell cell' : ℕ → Option (α × ℕ)} {a b c : ℕ} {v : α}
  {cs ds : List (ℕ × α)}

/-- The cells lead from `a` to `b`. -/
def LinkedTo (cell : ℕ → Option (α × ℕ)) : ℕ → List (ℕ × α) → ℕ → Prop
  | a, [], b => a = b
  | a, (a', v) :: cs, b =>
      a = a' ∧ a ≠ 0 ∧ ∃ next, cell a = some (v, next) ∧ LinkedTo cell next cs b

/-- The cells of a list that starts at `a`. -/
def Linked (cell : ℕ → Option (α × ℕ)) (a : ℕ) (cs : List (ℕ × α)) : Prop := LinkedTo cell a cs 0

theorem linkedTo_cons : LinkedTo cell a ((c, v) :: cs) b ↔
    a = c ∧ a ≠ 0 ∧ ∃ next, cell a = some (v, next) ∧ LinkedTo cell next cs b := Iff.rfl

theorem linkedTo_append : LinkedTo cell a (cs ++ ds) b ↔
    ∃ between, LinkedTo cell a cs between ∧ LinkedTo cell between ds b := by
  induction cs generalizing a with
  | nil => exact ⟨fun h => ⟨a, rfl, h⟩, fun ⟨_, h, h'⟩ => h ▸ h'⟩
  | cons p cs ih =>
      obtain ⟨a', v⟩ := p
      rw [List.cons_append, linkedTo_cons]
      constructor
      · rintro ⟨haddr, hne, next, hcell, hrest⟩
        obtain ⟨between, hcs, hds⟩ := ih.mp hrest
        exact ⟨between, ⟨haddr, hne, next, hcell, hcs⟩, hds⟩
      · rintro ⟨between, ⟨haddr, hne, next, hcell, hcs⟩, hds⟩
        exact ⟨haddr, hne, next, hcell, ih.mpr ⟨between, hcs, hds⟩⟩

/-- **A segment** depends on its own cells only. -/
theorem LinkedTo.congr (h : LinkedTo cell a cs b) (hsame : ∀ p ∈ cs, cell' p.1 = cell p.1) :
    LinkedTo cell' a cs b := by
  induction cs generalizing a with
  | nil => exact h
  | cons p cs ih =>
      obtain ⟨a', v⟩ := p
      obtain ⟨rfl, hne, next, hcell, hrest⟩ := h
      refine ⟨rfl, hne, next, ?_, ih hrest fun q hq => hsame q (List.mem_cons_of_mem _ hq)⟩
      rw [hsame _ List.mem_cons_self, hcell]

/-- The cells that are in the store. -/
theorem LinkedTo.exists_cell (h : LinkedTo cell a cs b) {p : ℕ × α} (hp : p ∈ cs) :
    p.1 ≠ 0 ∧ ∃ next, cell p.1 = some (p.2, next) := by
  induction cs generalizing a with
  | nil => exact absurd hp List.not_mem_nil
  | cons q cs ih =>
      obtain ⟨a', v⟩ := q
      obtain ⟨rfl, hne, next, hcell, hrest⟩ := h
      rcases List.mem_cons.mp hp with rfl | hp
      · exact ⟨hne, next, hcell⟩
      · exact ih hrest hp

/-- **The cells of a list** are determined by where it starts. -/
theorem Linked.unique (h : Linked cell a cs) (h' : Linked cell a ds) : cs = ds := by
  induction cs generalizing a ds with
  | nil =>
      cases ds with
      | nil => rfl
      | cons q ds => exact absurd (show a = 0 from h) h'.2.1
  | cons p cs ih =>
      cases ds with
      | nil => exact absurd (show a = 0 from h') h.2.1
      | cons q ds =>
          obtain ⟨b, v⟩ := p
          obtain ⟨c, w⟩ := q
          obtain ⟨rfl, -, next, hcell, hrest⟩ := h
          obtain ⟨rfl, -, next', hcell', hrest'⟩ := h'
          obtain ⟨rfl, rfl⟩ := Prod.mk.inj (Option.some.inj (hcell.symm.trans hcell'))
          rw [ih hrest hrest']

/-- A list that ends meets no cell twice. -/
theorem Linked.nodup (h : Linked cell a cs) : (cs.map Prod.fst).Nodup := by
  induction cs generalizing a with
  | nil => exact List.nodup_nil
  | cons p cs ih =>
      have hall := h
      obtain ⟨b, v⟩ := p
      obtain ⟨rfl, -, next, hcell, hrest⟩ := h
      refine List.nodup_cons.mpr ⟨fun hmem => ?_, ih hrest⟩
      -- what follows the second time is what follows the first time, and is shorter
      obtain ⟨⟨b, w⟩, hq, hb⟩ := List.mem_map.mp hmem
      obtain ⟨before, behind, rfl⟩ := List.append_of_mem hq
      obtain ⟨between, -, hagain⟩ := linkedTo_append.mp hrest
      have hstart : between = a := hagain.1.trans hb
      have hsame := congrArg List.length (Linked.unique (hstart ▸ hagain) hall)
      simp only [List.length_cons, List.length_append] at hsame
      omega

/-- **The last cell is linked** to another list. -/
theorem Linked.relink {w : α} (h : Linked cell a (cs ++ [(b, v)])) (hcell : cell' b = some (w, c))
    (hsame : ∀ p ∈ cs, cell' p.1 = cell p.1) (htail : Linked cell' c ds) :
    Linked cell' a (cs ++ (b, w) :: ds) := by
  obtain ⟨between, hcs, hlast⟩ := linkedTo_append.mp h
  obtain ⟨rfl, hne, -⟩ := hlast
  exact linkedTo_append.mpr ⟨between, hcs.congr hsame, rfl, hne, c, hcell, htail⟩

end LowLevel.Library
