import LowLevel.Interface.AssemblyOutput
import LowLevel.Library.X86.Convention

/-!
# The list of the dictionary

`string_equals` compares two strings and `find_word` goes along the list of entries, the last
one defined first, to the first whose key is the one asked for. `Compares` and `Leads` say what they
come to in a memory that holds anything at all, where each may go on for ever. A `Chain` is a
list of entries in memory.
-/

set_option autoImplicit false

namespace LowLevel.Interface.Assembly

open LowLevel.Library LowLevel.Library.X86 LowLevel.Library.X86.Memory
open LowLevel.Program.Assembly

variable {P : Program Label} {sym : Symbols} {A : Word × ℕ → Prop} {s : State} {top : Word}
  {bs cs key : List Byte}

/-! ## string_equals -/

/-- The strings at `a` and `b` are the same up to a NUL, or they differ before one. -/
inductive Compares (m : Memory) : Word → Word → Bool → Prop where
  | differ {a b : Word} (hne : m a ≠ m b) : Compares m a b false
  | equal {a b : Word} (heq : m a = m b) (hnul : m a = 0) : Compares m a b true
  | next {a b : Word} {same : Bool} (heq : m a = m b) (hne : m a ≠ 0)
      (hrest : Compares m (a + 1) (b + 1) same) : Compares m a b same

/-- Two strings that have an end. -/
theorem compares_of_cstring {m : Memory} {a b : Word} (hbs : CString m a bs)
    (hcs : CString m b cs) : Compares m a b (decide (bs = cs)) := by
  induction bs generalizing a b cs with
  | nil =>
      cases cs with
      | nil => exact .equal (by rw [hbs.eq_zero, hcs.eq_zero]) hbs.eq_zero
      | cons c cs =>
          refine .differ ?_
          rw [hbs.eq_zero, hcs.head]
          exact (hcs.nonzero c List.mem_cons_self).symm
  | cons x bs ih =>
      have hx := hbs.nonzero x List.mem_cons_self
      cases cs with
      | nil =>
          refine .differ ?_
          rw [hbs.head, hcs.eq_zero]
          exact hx
      | cons y cs =>
          by_cases hxy : x = y
          · subst hxy
            have hsame : decide (x :: bs = x :: cs) = decide (bs = cs) := by simp
            rw [hsame]
            exact .next (by rw [hbs.head, hcs.head]) (by rwa [hbs.head]) (ih hbs.tail hcs.tail)
          · rw [decide_eq_false fun h => hxy (List.cons.inj h).1]
            refine .differ ?_
            rw [hbs.head, hcs.head]
            exact hxy

theorem stringEqualsLoop_runsIn (hP : P.block = blocks sym) {a b : Word} {same : Bool}
    (hcompares : Compares s.mem a b same) (hrdi : s.reg .rdi = a) (hrsi : s.reg .rsi = b) :
    P.RunsIn A top (.at .stringEqualsLoop 0) s fun c s' => c = .at .stringEqualsEnd 0 ∧
      s'.reg .rax = (if same then s.reg .rax + 1 else s.reg .rax) ∧
      Keeps [.rax, .rdx, .rsi, .rdi] s s' ∧ s'.mem = s.mem ∧ s'.streams = s.streams := by
  generalize hm : s.mem = m at hcompares
  induction hcompares generalizing s with
  | differ hne =>
      apply RunsIn.instr hP rfl rfl rfl
      apply RunsIn.instr hP rfl rfl rfl
      apply RunsIn.jcc hP rfl (holds_ne_ofSub _ _)
      · intro _
        exact RunsIn.done ⟨rfl, rfl, by simp, hm, rfl⟩
      · intro heq
        simp [hrdi, hrsi, hm, hne] at heq
  | equal heq hnul =>
      apply RunsIn.instr hP rfl rfl rfl
      apply RunsIn.instr hP rfl rfl rfl
      apply RunsIn.jcc hP rfl (holds_ne_ofSub _ _)
      · intro hne
        simp [hrdi, hrsi, hm, heq] at hne
      intro _
      apply RunsIn.instr hP rfl rfl rfl
      apply RunsIn.jcc hP rfl (holds_e_ofLogic _)
      · intro _
        apply RunsIn.instr hP rfl rfl rfl
        apply RunsIn.fall hP rfl rfl
        exact RunsIn.done ⟨rfl, by simp, by simp, hm, rfl⟩
      · intro hne
        simp [hrdi, hm, hnul] at hne
  | next heq hne _ ih =>
      apply RunsIn.instr hP rfl rfl rfl
      apply RunsIn.instr hP rfl rfl rfl
      apply RunsIn.jcc hP rfl (holds_ne_ofSub _ _)
      · intro hdiffer
        simp [hrdi, hrsi, hm, heq] at hdiffer
      intro _
      apply RunsIn.instr hP rfl rfl rfl
      apply RunsIn.jcc hP rfl (holds_e_ofLogic _)
      · intro hnul
        simp [hrdi, hm] at hnul
        exact absurd hnul hne
      intro _
      apply RunsIn.fall hP rfl rfl
      apply RunsIn.instr hP rfl rfl rfl
      apply RunsIn.instr hP rfl rfl rfl
      apply RunsIn.jmp hP rfl
      refine RunsIn.mono (ih (by simp [hrdi]) (by simp [hrsi]) hm) ?_
      rintro c s' ⟨rfl, hrax, hkeeps, hmem, hstreams⟩
      exact ⟨rfl, by simpa using hrax, by simpa using hkeeps, hmem, hstreams⟩

/-- **`string_equals`** tells whether the strings are the same. -/
theorem stringEquals_returnsIn (hP : P.block = blocks sym) (htop : s.reg .rsp ≠ top) {same : Bool}
    (hcompares : Compares s.mem (s.reg .rdi) (s.reg .rsi) same) :
    P.ReturnsIn A top .stringEquals s fun s' => s'.reg .rax = (if same then 1 else 0) ∧
      Keeps [.rax, .rdx, .rsi, .rdi, .r8, .rsp] s s' ∧ s'.mem = s.mem ∧
      s'.streams = s.streams := by
  apply RunsIn.instr hP rfl rfl rfl
  apply RunsIn.instr hP rfl rfl rfl
  apply RunsIn.fall hP rfl rfl
  refine RunsIn.bind (stringEqualsLoop_runsIn hP hcompares (by simp) (by simp)) ?_
  rintro c s' ⟨rfl, hrax, hkeeps, hmem, hstreams⟩
  have hrsp : s'.reg .rsp = s.reg .rsp := hkeeps .rsp (by decide)
  have hkeeps' : Keeps [.rax, .rdx, .rsi, .rdi, .r8, .rsp] s s' := by
    simpa using hkeeps.mono [.rax, .rdx, .rsi, .rdi, .r8, .rsp] (by simp)
  exact RunsIn.ret hP rfl (by rwa [hrsp]) ⟨by rw [hmem, hrsp]; rfl, by simp [hrsp],
    by simpa using hrax, by simpa using hkeeps', hmem, hstreams⟩

/-- Strings that are the same and have no end. -/
theorem stringEquals_divergesIn (hP : P.block = blocks sym)
    (hnever : ∀ same, ¬ Compares s.mem (s.reg .rdi) (s.reg .rsi) same) :
    P.DivergesIn A top (.at .stringEquals 0, s) := by
  let I : Control Label → State → Prop := fun c s' => c = .at .stringEqualsLoop 0 ∧
    ∀ same, ¬ Compares s'.mem (s'.reg .rdi) (s'.reg .rsi) same
  have hstart : P.RunsIn A top (.at .stringEquals 0) s I := by
    apply RunsIn.instr hP rfl rfl rfl
    apply RunsIn.instr hP rfl rfl rfl
    apply RunsIn.fall hP rfl rfl
    exact RunsIn.done ⟨rfl, by simpa using hnever⟩
  refine Program.RunsIn.divergesIn hstart fun c s' => divergesIn_of_loop ?_
  rintro c s₁ ⟨rfl, hnever⟩
  refine ⟨_, RunsIn.goesIn hP rfl nofun nofun (Program.step_instr hP rfl rfl), .inl ?_⟩
  apply RunsIn.instr hP rfl rfl rfl
  apply RunsIn.jcc hP rfl (holds_ne_ofSub _ _)
  · intro hne
    exact absurd (.differ (by simpa using hne)) (hnever false)
  intro heq
  apply RunsIn.instr hP rfl rfl rfl
  apply RunsIn.jcc hP rfl (holds_e_ofLogic _)
  · intro hnul
    exact absurd (.equal (by simpa using heq) (by simpa using hnul)) (hnever true)
  intro hne
  apply RunsIn.fall hP rfl rfl
  apply RunsIn.instr hP rfl rfl rfl
  apply RunsIn.instr hP rfl rfl rfl
  apply RunsIn.jmp hP rfl
  refine RunsIn.done ⟨rfl, fun same hrest => hnever same (.next ?_ ?_ ?_)⟩
  · simpa using heq
  · simpa using hne
  · simpa using hrest

/-! ## The list of entries -/

/-- An entry at `a`, behind its link the key and the value, in the part `S` of the memory. -/
structure EntryAt (m : Memory) (S : Set Word) (a : Word) (key value : List Byte) : Prop where
  ne : a ≠ 0
  holdsKey : CString m (a + 8) key
  holdsValue : CString m (a + 8 + BitVec.ofNat 64 (key.length + 1)) value
  inside : ∀ x : Word, (x - a).toNat < 8 + (key.length + 1) + (value.length + 1) → x ∈ S
  short : 8 + (key.length + 1) + (value.length + 1) ≤ 2 ^ 64

/-- The entries, last one first, as a list in the part `S` of the memory that starts at `a`. -/
inductive Chain (m : Memory) (S : Set Word) : Word → List (List Byte × List Byte) → Prop where
  | nil : Chain m S 0 []
  | cons {a : Word} {key value : List Byte} {entries : List (List Byte × List Byte)}
      (hentry : EntryAt m S a key value) (hnext : Chain m S (m.read64 a) entries) :
      Chain m S a ((key, value) :: entries)

section

variable {m m' : Memory} {S : Set Word} {a : Word} {value : List Byte}
  {entries : List (List Byte × List Byte)}

theorem EntryAt.inside_key (h : EntryAt m S a key value) {x : Word}
    (hx : (x - (a + 8)).toNat < key.length + 1) : x ∈ S := by
  have hshort := h.short
  apply h.inside
  bv_omega

theorem EntryAt.inside_value (h : EntryAt m S a key value) {x : Word}
    (hx : (x - (a + 8 + BitVec.ofNat 64 (key.length + 1))).toNat < value.length + 1) : x ∈ S := by
  have hshort := h.short
  apply h.inside
  bv_omega

theorem EntryAt.congr (h : EntryAt m S a key value) (hm : ∀ x ∈ S, m' x = m x) :
    EntryAt m' S a key value where
  ne := h.ne
  holdsKey := h.holdsKey.congr fun _ hx => hm _ (h.inside_key hx)
  holdsValue := h.holdsValue.congr fun _ hx => hm _ (h.inside_value hx)
  inside := h.inside
  short := h.short

/-- A list that is not touched stays. -/
theorem Chain.congr (h : Chain m S a entries) (hm : ∀ x ∈ S, m' x = m x) :
    Chain m' S a entries := by
  induction h with
  | nil => exact .nil
  | @cons a key value entries hentry _ ih =>
      have hread : m'.read64 a = m.read64 a :=
        read64_congr fun x hx => hm x (hentry.inside x (by omega))
      apply Chain.cons (hentry.congr hm)
      rw [hread]
      exact ih

end

/-! ## The layout of the macro colon -/

/-- No character of the keys and the values is NUL. -/
def NulFree (pairs : List (List Byte × List Byte)) : Prop :=
  ∀ entry ∈ pairs, (∀ b ∈ entry.1, b ≠ 0) ∧ ∀ b ∈ entry.2, b ≠ 0

theorem length_colon (next : Word) (key value : List Byte) :
    (colon next key value).length = 8 + (key.length + 1) + (value.length + 1) := by
  simp only [colon, List.length_append, length_leBytes, List.length_singleton]

/-- What `colon` lays out at `a` is an entry with its link. -/
theorem entryAt_of_holds {m : Memory} {S : Set Word} {a next : Word} {value : List Byte}
    (hholds : m.Holds a (colon next key value)) (hne : a ≠ 0) (hkey : ∀ b ∈ key, b ≠ 0)
    (hvalue : ∀ b ∈ value, b ≠ 0) (hlen : (colon next key value).length ≤ 2 ^ 64)
    (hin : ∀ x : Word, (x - a).toNat < (colon next key value).length → x ∈ S) :
    EntryAt m S a key value ∧ m.read64 a = next := by
  rw [length_colon] at hlen hin
  unfold colon at hholds
  rw [holds_append, List.length_append, length_leBytes, List.length_append, List.length_singleton,
    holds_append, length_leBytes] at hholds
  obtain ⟨⟨hlink, hkeyAt⟩, hvalueAt⟩ := hholds
  rw [BitVec.ofNat_add, ← BitVec.add_assoc] at hvalueAt
  exact ⟨⟨hne, ⟨hkeyAt, hkey, by omega⟩, ⟨hvalueAt, hvalue, by omega⟩, hin, hlen⟩,
    hlink.read64_eq⟩

/-- The entries laid out from `a` on, behind a list that starts at `next`, lengthen the list. -/
theorem chain_of_holds {m : Memory} {S : Set Word} {a next : Word}
    {pairs entries : List (List Byte × List Byte)} (hnul : NulFree pairs)
    (hnext : Chain m S next entries) (hholds : m.Holds a (entryBytes a next pairs)) (hne : a ≠ 0)
    (hfits : a.toNat + (entryBytes a next pairs).length < 2 ^ 64)
    (hin : ∀ x : Word, (x - a).toNat < (entryBytes a next pairs).length → x ∈ S) :
    Chain m S (lastEntry a next pairs) (pairs.reverse ++ entries) := by
  induction pairs generalizing a next entries with
  | nil => exact hnext
  | cons entry pairs ih =>
      obtain ⟨key, value⟩ := entry
      have hlen := length_colon next key value
      rw [entryBytes, holds_append] at hholds
      rw [entryBytes, List.length_append] at hfits hin
      obtain ⟨hkey, hvalue⟩ := hnul (key, value) List.mem_cons_self
      obtain ⟨hentry, hlink⟩ := entryAt_of_holds (S := S) hholds.1 hne hkey hvalue (by omega)
        fun x hx => hin x (by omega)
      rw [List.reverse_cons, List.append_assoc]
      refine ih (fun entry hmem => hnul entry (List.mem_cons_of_mem _ hmem))
        (.cons hentry (by rwa [hlink])) hholds.2 ?_ ?_ fun x hx => hin x ?_
      · intro hzero
        bv_omega
      · bv_omega
      · bv_omega

/-! ## find_word -/

/-- The address of the first of the entries with the key, or zero. -/
def Found (m : Memory) (S : Set Word) (a : Word) (key : List Byte)
    (entries : List (List Byte × List Byte)) : Prop :=
  match entries.find? fun entry => entry.1 = key with
  | none => a = 0
  | some entry => EntryAt m S a key entry.2

/-- The list at `node` leads to the first entry with the key, or to its end. -/
inductive Leads (m : Memory) (key : Word) : Word → Word → Prop where
  | nil : Leads m key 0 0
  | found {node : Word} (hne : node ≠ 0) (hsame : Compares m key (node + 8) true) :
      Leads m key node node
  | next {node r : Word} (hne : node ≠ 0) (hdiffer : Compares m key (node + 8) false)
      (hrest : Leads m key (m.read64 node) r) : Leads m key node r

/-- The memory with the return address of `string_equals`. -/
def searchPushed (P : Program Label) (s : State) : Memory :=
  s.mem.write64 (s.reg .rsp - 8) (P.addr .findWordLoop 5)

theorem onlyBelow_searchPushed (P : Program Label) (s : State) :
    OnlyBelow s.mem (searchPushed P s) (s.reg .rsp) 8 :=
  onlyBelow_write64 _ (by bv_omega) (by bv_omega)

/-- Pushed again, it is the same. -/
theorem searchPushed_again {s' : State} (hmem : s'.mem = searchPushed P s)
    (hrsp : s'.reg .rsp = s.reg .rsp) : searchPushed P s' = searchPushed P s := by
  unfold searchPushed at hmem ⊢
  rw [hmem, hrsp, write64_write64_self]

section Any

variable {m : Memory} {r : Word}

/-- An entry is compared, when it has been tested that there is one. -/
theorem findWordLoop_turn (hP : P.block = blocks sym) (hne : s.reg .r13 ≠ 0)
    (hmem : searchPushed P s = m) (htop : s.reg .rsp - 8 ≠ top) {same : Bool}
    (hcompares : Compares m (s.reg .r12) (s.reg .r13 + 8) same) :
    P.RunsIn A top (.at .findWordLoop 1)
        (s.setFlags (.ofLogic (s.reg .r13 &&& s.reg .r13))) fun c s' =>
      c = (if same then .at .findWordLoop 7 else .at .findWordContinue 0) ∧
      Keeps volatile s s' ∧ s'.mem = m ∧ s'.streams = s.streams := by
  unfold searchPushed at hmem
  apply RunsIn.jcc hP rfl (holds_e_ofLogic _)
  · intro hzero
    simp at hzero
    exact absurd hzero hne
  intro _
  apply RunsIn.instr hP rfl rfl rfl
  apply RunsIn.instr hP rfl rfl rfl
  apply RunsIn.callReturns hP rfl (stringEquals_returnsIn hP (by simpa using htop)
    (show Compares _ _ _ same by
      rw [← hmem] at hcompares
      simpa [qw] using hcompares))
  rintro s₁ hrsp ⟨hrax, hkeeps, hmem₁, hstreams⟩
  replace hkeeps := hkeeps.mono (.rsp :: volatile) (by simp)
  simp at hrsp hkeeps hmem₁ hstreams
  have hkeeps' : Keeps volatile s s₁ := hkeeps.of_rsp hrsp
  replace hmem₁ := hmem₁.trans hmem
  apply RunsIn.instr hP rfl rfl rfl
  apply RunsIn.jcc hP rfl (holds_e_ofLogic _)
  · intro hzero
    cases same with
    | false => exact RunsIn.done ⟨rfl, by simpa using hkeeps', hmem₁, hstreams⟩
    | true => simp [hrax] at hzero
  · intro hone
    cases same with
    | false => simp [hrax] at hone
    | true => exact RunsIn.done ⟨rfl, by simpa using hkeeps', hmem₁, hstreams⟩

/-- An entry that is compared without end. -/
theorem findWordLoop_divergesIn (hP : P.block = blocks sym) (hne : s.reg .r13 ≠ 0)
    (hnever : ∀ same, ¬ Compares (searchPushed P s) (s.reg .r12) (s.reg .r13 + 8) same) :
    P.DivergesIn A top
      (.at .findWordLoop 1, s.setFlags (.ofLogic (s.reg .r13 &&& s.reg .r13))) := by
  let I : Control Label → State → Prop := fun c s' => c = .at .stringEquals 0 ∧
    ∀ same, ¬ Compares s'.mem (s'.reg .rdi) (s'.reg .rsi) same
  have hcalls : P.RunsIn A top (.at .findWordLoop 1)
      (s.setFlags (.ofLogic (s.reg .r13 &&& s.reg .r13))) I := by
    apply RunsIn.jcc hP rfl (holds_e_ofLogic _)
    · intro hzero
      simp at hzero
      exact absurd hzero hne
    intro _
    apply RunsIn.instr hP rfl rfl rfl
    apply RunsIn.instr hP rfl rfl rfl
    apply RunsIn.call hP rfl
    exact RunsIn.done ⟨rfl, by simpa [qw, searchPushed] using hnever⟩
  refine Program.RunsIn.divergesIn hcalls ?_
  rintro c s' ⟨rfl, hnever'⟩
  exact stringEquals_divergesIn hP hnever'

/-- The walk along the list. -/
theorem findWordLoop_runsIn (hP : P.block = blocks sym) {key node : Word}
    (hleads : Leads m key node r) (hr12 : s.reg .r12 = key) (hr13 : s.reg .r13 = node)
    (hmem : searchPushed P s = m) (htop : s.reg .rsp - 8 ≠ top) :
    P.RunsIn A top (.at .findWordLoop 0) s fun c s' => c = .at .findWordEnd 0 ∧
      s'.reg .rax = r ∧ s'.reg .r13 = r ∧ Keeps (.r13 :: volatile) s s' ∧
      OnlyBelow s.mem s'.mem (s.reg .rsp) 8 ∧ s'.streams = s.streams := by
  induction hleads generalizing s with
  | nil =>
      apply RunsIn.instr hP rfl rfl rfl
      apply RunsIn.jcc hP rfl (holds_e_ofLogic _)
      · intro _
        apply RunsIn.instr hP rfl rfl rfl
        apply RunsIn.fall hP rfl rfl
        exact RunsIn.done ⟨rfl, by simp, by simpa using hr13, by simp, .refl _ _ _, rfl⟩
      · intro hne
        simp [hr13] at hne
  | found hne hsame =>
      apply RunsIn.instr hP rfl rfl rfl
      refine RunsIn.bind (findWordLoop_turn hP (by simpa [hr13] using hne) hmem htop
        (by simpa [hr12, hr13] using hsame)) ?_
      rintro c s₁ ⟨rfl, hkeeps, hmem₁, hstreams⟩
      have hr13₁ : s₁.reg .r13 = s.reg .r13 := hkeeps .r13 (by decide)
      have hbelow := onlyBelow_searchPushed P s
      rw [hmem, ← hmem₁] at hbelow
      have hkeeps' := hkeeps.cons .r13
      apply RunsIn.instr hP rfl rfl rfl
      apply RunsIn.jmp hP rfl
      exact RunsIn.done ⟨rfl, by simp [hr13₁, hr13], by simp [hr13₁, hr13], by simpa using hkeeps',
        hbelow, hstreams⟩
  | next hne hdiffer _ ih =>
      apply RunsIn.instr hP rfl rfl rfl
      refine RunsIn.bind (findWordLoop_turn hP (by simpa [hr13] using hne) hmem htop
        (by simpa [hr12, hr13] using hdiffer)) ?_
      rintro c s₁ ⟨rfl, hkeeps, hmem₁, hstreams⟩
      have hr12₁ : s₁.reg .r12 = s.reg .r12 := hkeeps .r12 (by decide)
      have hr13₁ : s₁.reg .r13 = s.reg .r13 := hkeeps .r13 (by decide)
      have hrsp₁ : s₁.reg .rsp = s.reg .rsp := hkeeps .rsp (by decide)
      have hbelow := onlyBelow_searchPushed P s
      rw [hmem, ← hmem₁] at hbelow
      have hkeeps' := hkeeps.cons .r13
      apply RunsIn.instr hP rfl rfl rfl
      apply RunsIn.jmp hP rfl
      refine RunsIn.mono (ih (by simpa [hr12₁] using hr12) (by simp [hr13₁, hr13, hmem₁]) ?_ ?_) ?_
      · rw [← hmem] at hmem₁ ⊢
        exact searchPushed_again hmem₁ hrsp₁
      · simpa [hrsp₁] using htop
      · rintro c s' ⟨rfl, hrax, hr13', hkeeps₂, hbelow₂, hstreams₂⟩
        refine ⟨rfl, hrax, hr13', hkeeps'.trans (by simpa using hkeeps₂), ?_,
          hstreams₂.trans hstreams⟩
        exact hbelow.trans (by simpa [hrsp₁] using hbelow₂)

theorem findWord_runsIn (hP : P.block = blocks sym)
    (hleads : Leads (searchPushed P s) (s.reg .rdi) (s.reg .rsi) r)
    (htop : s.reg .rsp - 8 ≠ top) :
    P.RunsIn A top (.at .findWord 0) s fun c s' => c = .at .findWordEnd 0 ∧
      s'.reg .rax = r ∧ s'.reg .r12 = s.reg .rdi ∧ s'.reg .r13 = r ∧
      Keeps (.r12 :: .r13 :: volatile) s s' ∧ OnlyBelow s.mem s'.mem (s.reg .rsp) 8 ∧
      s'.streams = s.streams := by
  apply RunsIn.instr hP rfl rfl rfl
  apply RunsIn.instr hP rfl rfl rfl
  apply RunsIn.fall hP rfl rfl
  refine RunsIn.mono (findWordLoop_runsIn hP hleads (by simp) (by simp) (by simp [searchPushed])
    (by simpa using htop)) ?_
  rintro c s' ⟨rfl, hrax, hr13, hkeeps, hbelow, hstreams⟩
  have hr12 := hkeeps .r12 (by decide)
  have hkeeps' := hkeeps.cons .r12
  exact ⟨rfl, hrax, by simpa using hr12, hr13, by simpa using hkeeps', by simpa using hbelow,
    by simpa using hstreams⟩

/-- A list, or a key, without end. -/
theorem findWord_divergesIn (hP : P.block = blocks sym)
    (hnever : ∀ r, ¬ Leads (searchPushed P s) (s.reg .rdi) (s.reg .rsi) r)
    (htop : s.reg .rsp - 8 ≠ top) : P.DivergesIn A top (.at .findWord 0, s) := by
  let I : Control Label → State → Prop := fun c s' => c = .at .findWordLoop 0 ∧
    s'.reg .rsp = s.reg .rsp ∧ searchPushed P s' = searchPushed P s ∧
    ∀ r, ¬ Leads (searchPushed P s) (s'.reg .r12) (s'.reg .r13) r
  have hstart : P.RunsIn A top (.at .findWord 0) s I := by
    apply RunsIn.instr hP rfl rfl rfl
    apply RunsIn.instr hP rfl rfl rfl
    apply RunsIn.fall hP rfl rfl
    exact RunsIn.done ⟨rfl, by simp, by simp [searchPushed], by simpa using hnever⟩
  refine Program.RunsIn.divergesIn hstart fun c s' => divergesIn_of_loop ?_
  rintro c s₁ ⟨rfl, hrsp, hmem, hnever⟩
  have hne : s₁.reg .r13 ≠ 0 := by
    intro hzero
    rw [hzero] at hnever
    exact hnever 0 .nil
  rw [← hrsp] at htop
  refine ⟨_, RunsIn.goesIn hP rfl nofun nofun (Program.step_instr hP rfl rfl), ?_⟩
  by_cases hcompares : ∃ same, Compares (searchPushed P s) (s₁.reg .r12) (s₁.reg .r13 + 8) same
  · obtain ⟨same, hcompares⟩ := hcompares
    cases same with
    | true => exact absurd (.found hne hcompares) (hnever _)
    | false =>
        refine .inl (RunsIn.bind (findWordLoop_turn hP hne hmem htop hcompares) ?_)
        rintro c s₂ ⟨rfl, hkeeps, hmem₂, -⟩
        have hr12 : s₂.reg .r12 = s₁.reg .r12 := hkeeps .r12 (by decide)
        have hr13 : s₂.reg .r13 = s₁.reg .r13 := hkeeps .r13 (by decide)
        have hrsp₂ : s₂.reg .rsp = s.reg .rsp := (hkeeps .rsp (by decide)).trans hrsp
        apply RunsIn.instr hP rfl rfl rfl
        apply RunsIn.jmp hP rfl
        refine RunsIn.done ⟨rfl, by simpa using hrsp₂, searchPushed_again hmem₂ hrsp₂,
          fun r hrest => hnever r (.next hne hcompares ?_)⟩
        simpa [hr12, hr13, hmem₂] using hrest
  · refine .inr (findWordLoop_divergesIn hP hne fun same hsame => hcompares ⟨same, ?_⟩)
    rwa [hmem] at hsame

end Any

section

variable {S : Set Word} {a : Word} {entries : List (List Byte × List Byte)}

/-- A list that has an end leads to the first of its entries with the key. -/
theorem leads_of_chain {m : Memory} {k : Word} (hchain : Chain m S a entries)
    (hkey : CString m k key) : ∃ r, Leads m k a r ∧ Found m S r key entries := by
  induction hchain with
  | nil => exact ⟨0, .nil, rfl⟩
  | @cons a entryKey value entries hentry _ ih =>
      have hcompares := compares_of_cstring hkey hentry.holdsKey
      unfold Found
      by_cases heq : entryKey = key
      · rw [decide_eq_true heq.symm] at hcompares
        rw [List.find?_cons_of_pos (by simpa using heq)]
        exact ⟨a, .found hentry.ne hcompares, heq ▸ hentry⟩
      · rw [decide_eq_false fun h => heq h.symm] at hcompares
        rw [List.find?_cons_of_neg (by simpa using heq)]
        obtain ⟨r, hleads, hfound⟩ := ih
        exact ⟨r, .next hentry.ne hcompares hleads, hfound⟩

theorem Found.congr {m m' : Memory} (h : Found m S a key entries) (hm : ∀ x ∈ S, m' x = m x) :
    Found m' S a key entries := by
  unfold Found at h ⊢
  cases hfind : entries.find? fun entry => entry.1 = key with
  | none =>
      rw [hfind] at h
      exact h
  | some entry =>
      rw [hfind] at h
      exact EntryAt.congr h hm

/-- **`find_word`** finds the entry that was defined last with the key. -/
theorem findWord_returns (hP : P.block = blocks sym)
    (hchain : Chain s.mem S (s.reg .rsi) entries) (hkey : CString s.mem (s.reg .rdi) key)
    (hclear : Clear (s.reg .rdi) (key.length + 1) (s.reg .rsp) 8)
    (hS : ∀ x ∈ S, 8 ≤ (s.reg .rsp - 1 - x).toNat) :
    P.Returns .findWord s fun s' => Found s'.mem S (s'.reg .rax) key entries ∧
      OnlyBelow s.mem s'.mem (s.reg .rsp) 8 ∧ s'.streams = s.streams := by
  have hpushed := onlyBelow_searchPushed P s
  obtain ⟨r, hleads, hfound⟩ := leads_of_chain (hchain.congr fun x hx => hpushed x (hS x hx))
    (hkey.of_onlyBelow hpushed hclear)
  have hother : s.reg .rsp - 8 ≠ s.reg .rsp + 1 := by bv_omega
  refine Runs.bind (RunsIn.runs (findWord_runsIn (A := fun _ => True) hP hleads hother)) ?_
  rintro c s' ⟨rfl, hrax, -, -, hkeeps, hbelow, hstreams⟩
  have hrsp : s'.reg .rsp = s.reg .rsp := hkeeps .rsp (by decide)
  refine Runs.ret hP rfl ⟨by rw [hrsp, hbelow.read64_eq (by norm_num)], by simp [hrsp], ?_,
    hbelow, hstreams⟩
  have hsame : ∀ x ∈ S, s'.mem x = searchPushed P s x :=
    fun x hx => (hbelow x (hS x hx)).trans (hpushed x (hS x hx)).symm
  simpa [hrax] using hfound.congr hsame

end

end LowLevel.Interface.Assembly
