import LowLevel.Library.X86.Straight

/-!
# What a routine does before it returns

A routine that is called with the stack pointer `top` returns by a `ret` with the stack pointer
at `top` again. `P.Passes top` leads to the configurations up to this `ret`, and `P.Finishes` says
that it comes. `P.RunsIn A top c s Q` is a run that stays before the return and stores, through
the operands of its instructions, only to ranges that `A` allows. A run that does not come to `Q`
may go on for ever (`P.ComesIn`); that is shown turn by turn of the loop that it stays in
(`comesIn_of_loop`).
-/

set_option autoImplicit false

namespace LowLevel.Library.X86

open Relation

variable {L : Type}

/-! ## Accesses to memory -/

/-- The range that an operand stands for, by its address and its size. -/
def Operand.range (s : State) : Operand → List (Word × ℕ)
  | .mem a => [(s.addr a, 8)]
  | _ => []

def Operand8.range (s : State) : Operand8 → List (Word × ℕ)
  | .mem a => [(s.addr a, 1)]
  | _ => []

/-- What an instruction loads through its operands; the stack is no operand. -/
def Instr.loads (s : State) : Instr L → List (Word × ℕ)
  | .mov _ src => src.range s
  | .mov8 _ src => src.range s
  | .alu _ dst src => dst.range s ++ src.range s
  | .alu8 _ dst src => dst.range s ++ src.range s
  | .pinsrb _ a _ => [(s.addr a, 1)]
  | _ => []

/-- What an instruction stores through its operands. -/
def Instr.stores (s : State) : Instr L → List (Word × ℕ)
  | .mov dst _ => dst.range s
  | .mov8 dst _ => dst.range s
  | .alu .cmp _ _ | .alu .test _ _ => []
  | .alu _ dst _ => dst.range s
  | .alu8 .cmp _ _ | .alu8 .test _ _ => []
  | .alu8 _ dst _ => dst.range s
  | .pextrb a _ _ => [(s.addr a, 1)]
  | _ => []

/-- The range lies in the `n` bytes at `buf`. -/
def InBuffer (buf : Word) (n : ℕ) (r : Word × ℕ) : Prop :=
  ∀ x : Word, (x - r.1).toNat < r.2 → (x - buf).toNat < n

/-! ## Before the return -/

namespace Program

variable (P : Program L) (A : Word × ℕ → Prop) (top : Word)

/-- The instruction that comes next. -/
def fetch : Control L → Option (Instr L)
  | .at l i => (P.block l).code[i]?
  | _ => none

/-- The return of a routine that was called with the stack pointer `top` comes next. -/
def AtReturn (d : Control L × State) : Prop := P.fetch d.1 = some .ret ∧ d.2.reg .rsp = top

/-- What comes next stores to allowed ranges only. -/
def StoresIn (d : Control L × State) : Prop :=
  ∀ instr, P.fetch d.1 = some instr → ∀ r ∈ instr.stores d.2, A r

/-- What comes next loads from allowed ranges only and stores to them only. -/
def TouchesIn (d : Control L × State) : Prop :=
  ∀ instr, P.fetch d.1 = some instr → ∀ r ∈ instr.loads d.2 ++ instr.stores d.2, A r

/-- A step before the return. -/
def Goes (d d' : Control L × State) : Prop := P.step d = some d' ∧ ¬ P.AtReturn top d

/-- The configurations up to the return. -/
def Passes : Control L × State → Control L × State → Prop := ReflTransGen (P.Goes top)

/-- The routine comes to its return, in a state with `Q`. -/
def Finishes (f : L) (s : State) (Q : State → Prop) : Prop :=
  ∃ c' s', P.Passes (s.reg .rsp) (.at f 0, s) (c', s') ∧
    P.AtReturn (s.reg .rsp) (c', s') ∧ Q s'

/-- Up to the return all stores are to allowed ranges. -/
def StaysIn (d : Control L × State) : Prop := ∀ e, P.Passes top d e → P.StoresIn A e

/-- The return does not come. -/
def Endless (d : Control L × State) : Prop := ∀ e, P.Passes top d e → ¬ P.AtReturn top e

def GoesIn (d d' : Control L × State) : Prop := P.Goes top d d' ∧ P.StoresIn A d

/-- The run from `c` and `s`, before the return and with stores to allowed ranges only, comes to a
configuration with `Q`. -/
def RunsIn (c : Control L) (s : State) (Q : Control L → State → Prop) : Prop :=
  ∃ c' s', ReflTransGen (P.GoesIn A top) (c, s) (c', s') ∧ Q c' s'

/-- The run goes on for ever, before the return and with stores to allowed ranges only. -/
def DivergesIn (d : Control L × State) : Prop :=
  ∀ e, P.Passes top d e → ∃ e', P.GoesIn A top e e'

/-- The program never ends: there is a next step wherever it comes to. -/
def GoesOn (d : Control L × State) : Prop := ∀ e, P.Steps d e → ∃ e', P.step e = some e'

/-- The run comes to a configuration with `Q`, or goes on for ever. -/
def ComesIn (c : Control L) (s : State) (Q : Control L → State → Prop) : Prop :=
  P.RunsIn A top c s Q ∨ P.DivergesIn A top (c, s)

/-- A routine that is called before the return, with a property of the state it returns in. -/
def ReturnsIn (f : L) (s : State) (Q : State → Prop) : Prop :=
  P.RunsIn A top (.at f 0) s fun c s' =>
    c = P.goto (s.mem.read64 (s.reg .rsp)) ∧ s'.reg .rsp = s.reg .rsp + 8 ∧ Q s'

/-- A routine that is called before the return, and returns with `Q` if it returns. -/
def ComesBackIn (f : L) (s : State) (Q : State → Prop) : Prop :=
  P.ComesIn A top (.at f 0) s fun c s' =>
    c = P.goto (s.mem.read64 (s.reg .rsp)) ∧ s'.reg .rsp = s.reg .rsp + 8 ∧ Q s'

end Program

section Paths

variable {P : Program L} {A : Word × ℕ → Prop} {top : Word} {c : Control L} {s : State}
  {f : L} {d d' e : Control L × State} {Q : Control L → State → Prop}

theorem Program.Goes.unique (h : P.Goes top d d') (h' : P.Goes top d e) : d' = e :=
  Option.some.inj (h.1.symm.trans h'.1)

/-- Nothing is passed behind the return. -/
theorem Program.AtReturn.eq_of_passes (h : P.AtReturn top d) (he : P.Passes top d e) : e = d := by
  rcases he.cases_head with rfl | ⟨_, hgo, -⟩
  · rfl
  · exact absurd h hgo.2

/-- **One return**: two specifications of a routine hold of one state. -/
theorem Program.Finishes.and {Q Q' : State → Prop} (h : P.Finishes f s Q)
    (h' : P.Finishes f s Q') : ∃ s', Q s' ∧ Q' s' := by
  obtain ⟨c₁, s₁, hpasses₁, hret₁, hq⟩ := h
  obtain ⟨c₂, s₂, hpasses₂, hret₂, hq'⟩ := h'
  have hends : (c₁, s₁) = (c₂, s₂) := by
    rcases ReflTransGen.total_of_right_unique (fun _ _ _ h h' => h.unique h') hpasses₁ hpasses₂
      with hlater | hlater
    · exact (hret₁.eq_of_passes hlater).symm
    · exact hret₂.eq_of_passes hlater
  rw [Prod.mk.injEq] at hends
  exact ⟨s₁, hq, hends.2 ▸ hq'⟩

theorem Program.Finishes.mono {Q Q' : State → Prop} (h : P.Finishes f s Q)
    (hqq : ∀ s', Q s' → Q' s') : P.Finishes f s Q' := by
  obtain ⟨c', s', hpasses, hret, hq⟩ := h
  exact ⟨c', s', hpasses, hret, hqq s' hq⟩

/-- A routine that comes to its return with the return address in place returns. -/
theorem Program.Finishes.returns {Q : State → Prop} (h : P.Finishes f s fun s' =>
    s'.mem.read64 (s.reg .rsp) = s.mem.read64 (s.reg .rsp) ∧
      Q (s'.setReg .rsp (s.reg .rsp + 8))) : P.Returns f s Q := by
  obtain ⟨c', s', hpasses, ⟨hfetch, hrsp⟩, haddr, hq⟩ := h
  have hsteps : P.Steps (.at f 0, s) (c', s') :=
    ReflTransGen.mono (fun _ _ hgo => hgo.1) _ _ hpasses
  cases c' with
  | «at» l i =>
      have hstep := Program.step_ret rfl (s := s') hfetch
      rw [hrsp, haddr] at hstep
      exact ⟨_, _, hsteps.tail hstep, rfl, by simp, hq⟩
  | outside v => cases hfetch
  | exited status => cases hfetch

theorem Program.Endless.not_finishes {Q : State → Prop}
    (h : P.Endless (s.reg .rsp) (.at f 0, s)) : ¬ P.Finishes f s Q := by
  rintro ⟨c', s', hpasses, hret, -⟩
  exact h _ hpasses hret

/-- A configuration that is passed is on the run or behind it. -/
theorem passes_cases (h : ReflTransGen (P.GoesIn A top) d d') (he : P.Passes top d e) :
    (∃ e', P.GoesIn A top e e') ∨ P.Passes top d' e := by
  induction h using ReflTransGen.head_induction_on with
  | refl => exact .inr he
  | head hgo _ ih =>
      rcases he.cases_head with rfl | ⟨_, hgo', hrest⟩
      · exact .inl ⟨_, hgo⟩
      · rw [hgo'.unique hgo.1] at hrest
        exact ih hrest

theorem Program.RunsIn.staysIn (h : P.RunsIn A top c s Q)
    (hq : ∀ c' s', Q c' s' → P.StaysIn A top (c', s')) : P.StaysIn A top (c, s) := by
  obtain ⟨c', s', hrun, hq'⟩ := h
  intro e he
  rcases passes_cases hrun he with ⟨_, hgo⟩ | hbehind
  · exact hgo.2
  · exact hq c' s' hq' e hbehind

theorem Program.RunsIn.divergesIn (h : P.RunsIn A top c s Q)
    (hq : ∀ c' s', Q c' s' → P.DivergesIn A top (c', s')) : P.DivergesIn A top (c, s) := by
  obtain ⟨c', s', hrun, hq'⟩ := h
  intro e he
  rcases passes_cases hrun he with hon | hbehind
  · exact hon
  · exact hq c' s' hq' e hbehind

theorem Program.DivergesIn.staysIn (h : P.DivergesIn A top d) : P.StaysIn A top d := by
  intro e he
  obtain ⟨_, hgo⟩ := h e he
  exact hgo.2

theorem Program.DivergesIn.endless (h : P.DivergesIn A top d) : P.Endless top d := by
  intro e he
  obtain ⟨_, hgo⟩ := h e he
  exact hgo.1.2

/-- A routine that does not return keeps the program from its end. -/
theorem Program.DivergesIn.goesOn (h : P.DivergesIn A top d) : P.GoesOn d := by
  have hpasses : ∀ e, P.Steps d e → P.Passes top d e := by
    intro e he
    induction he with
    | refl => exact .refl
    | tail _ hstep ih =>
        obtain ⟨e', hgo⟩ := h _ ih
        rw [hgo.1.1] at hstep
        exact ih.tail (Option.some.inj hstep ▸ hgo.1)
  intro e he
  obtain ⟨e', hgo⟩ := h e (hpasses e he)
  exact ⟨e', hgo.1.1⟩

/-- A run to where the program does not end. -/
theorem Program.Runs.goesOn (h : P.Runs c s Q)
    (hq : ∀ c' s', Q c' s' → P.GoesOn (c', s')) : P.GoesOn (c, s) := by
  obtain ⟨c', s', hsteps, hq'⟩ := h
  intro e he
  have hunique : Relator.RightUnique fun d d' => P.step d = some d' :=
    fun _ _ _ hd hd' => Option.some.inj (hd.symm.trans hd')
  rcases ReflTransGen.total_of_right_unique hunique he hsteps with hon | hbehind
  · rcases hon.cases_head with rfl | ⟨e', hstep, -⟩
    · exact hq c' s' hq' _ .refl
    · exact ⟨e', hstep⟩
  · exact hq c' s' hq' e hbehind

/-- The return itself stores nothing. -/
theorem Program.AtReturn.staysIn (h : P.AtReturn top d) : P.StaysIn A top d := by
  intro e he instr hfetch r hr
  rw [h.eq_of_passes he, h.1] at hfetch
  rw [← Option.some.inj hfetch] at hr
  cases hr

/-- **Loops**: when each turn comes back to the invariant, or comes to `Q`, or goes on for ever,
the run comes to `Q` or goes on for ever. -/
theorem comesIn_of_loop {I : Control L → State → Prop}
    (hturn : ∀ c s, I c s → ∃ d, P.GoesIn A top (c, s) d ∧
      P.ComesIn A top d.1 d.2 fun c' s' => I c' s' ∨ Q c' s')
    (h : I c s) : P.ComesIn A top c s Q := by
  by_cases hcomes : P.RunsIn A top c s Q
  · exact .inl hcomes
  -- every configuration that is passed is on the way to a turn, or to no end
  have hway : ∀ e, P.Passes top (c, s) e → ReflTransGen (P.GoesIn A top) (c, s) e ∧
      (P.RunsIn A top e.1 e.2 I ∨ P.DivergesIn A top e) := by
    intro e he
    induction he with
    | refl => exact ⟨.refl, .inl ⟨c, s, .refl, h⟩⟩
    | tail _ hgo ih =>
        obtain ⟨hpath, ⟨c', s', hrun, hi⟩ | hdiverges⟩ := ih
        · rcases hrun.cases_head with heq | ⟨e', hgo', hrest⟩
          · obtain ⟨d, hgo', hrest⟩ := hturn c' s' hi
            rw [← heq] at hgo'
            rw [hgo.unique hgo'.1]
            refine ⟨hpath.tail hgo', ?_⟩
            rcases hrest with ⟨c₁, s₁, hrun₁, hi₁ | hq₁⟩ | hdiverges
            · exact .inl ⟨c₁, s₁, hrun₁, hi₁⟩
            · exact absurd ⟨c₁, s₁, (hpath.tail hgo').trans hrun₁, hq₁⟩ hcomes
            · exact .inr hdiverges
          · rw [hgo.unique hgo'.1]
            exact ⟨hpath.tail hgo', .inl ⟨c', s', hrest, hi⟩⟩
        · obtain ⟨e', hgo'⟩ := hdiverges _ .refl
          rw [hgo.unique hgo'.1]
          exact ⟨hpath.tail hgo', .inr fun e₁ he₁ => hdiverges e₁ (.head hgo'.1 he₁)⟩
  refine .inr fun e he => ?_
  obtain ⟨-, ⟨c', s', hrun, hi⟩ | hdiverges⟩ := hway e he
  · rcases hrun.cases_head with heq | ⟨e', hgo, -⟩
    · obtain ⟨d, hgo, -⟩ := hturn c' s' hi
      rw [← heq] at hgo
      exact ⟨d, hgo⟩
    · exact ⟨e', hgo⟩
  · exact hdiverges e .refl

/-- **Loops without end**: each turn comes back to the invariant. -/
theorem divergesIn_of_loop {I : Control L → State → Prop}
    (hturn : ∀ c s, I c s → ∃ d, P.GoesIn A top (c, s) d ∧ P.ComesIn A top d.1 d.2 I)
    (h : I c s) : P.DivergesIn A top (c, s) := by
  have hcomes : P.ComesIn A top c s fun _ _ => False := by
    refine comesIn_of_loop (I := I) (fun c s hi => ?_) h
    simpa only [or_false] using hturn c s hi
  rcases hcomes with ⟨_, _, -, hnot⟩ | hdiverges
  · exact hnot.elim
  · exact hdiverges

end Paths

/-! ## The rules -/

namespace RunsIn

variable {P : Program L} {B : L → Block L} {A : Word × ℕ → Prop} {top : Word} {c : Control L}
  {s s' : State} {l l' f : L} {i : ℕ} {Q R : Control L → State → Prop}

theorem done (h : Q c s) : P.RunsIn A top c s Q := ⟨c, s, .refl, h⟩

theorem step {c' : Control L} (hgo : P.GoesIn A top (c, s) (c', s'))
    (h : P.RunsIn A top c' s' Q) : P.RunsIn A top c s Q := by
  obtain ⟨c'', s'', hrun, hq⟩ := h
  exact ⟨c'', s'', .head hgo hrun, hq⟩

/-- One run after the other. -/
theorem bind (h : P.RunsIn A top c s Q) (h' : ∀ c' s', Q c' s' → P.RunsIn A top c' s' R) :
    P.RunsIn A top c s R := by
  obtain ⟨c', s', hrun, hq⟩ := h
  obtain ⟨c'', s'', hrun', hr⟩ := h' c' s' hq
  exact ⟨c'', s'', hrun.trans hrun', hr⟩

theorem mono (h : P.RunsIn A top c s Q) (hqr : ∀ c' s', Q c' s' → R c' s') :
    P.RunsIn A top c s R := by
  obtain ⟨c', s', hrun, hq⟩ := h
  exact ⟨c', s', hrun, hqr c' s' hq⟩

/-- It is a run. -/
theorem runs (h : P.RunsIn A top c s Q) : P.Runs c s Q := by
  obtain ⟨c', s', hrun, hq⟩ := h
  exact ⟨c', s', ReflTransGen.mono (fun _ _ hgo => hgo.1.1) _ _ hrun, hq⟩

/-- What it comes to is passed. -/
theorem passes (h : P.RunsIn A top c s Q) : ∃ c' s', P.Passes top (c, s) (c', s') ∧ Q c' s' := by
  obtain ⟨c', s', hrun, hq⟩ := h
  exact ⟨c', s', ReflTransGen.mono (fun _ _ hgo => hgo.1) _ _ hrun, hq⟩

/-- The run of a routine to its return. -/
theorem finishes {Q : State → Prop} (h : P.RunsIn A (s.reg .rsp) (.at f 0) s fun c s' =>
    P.AtReturn (s.reg .rsp) (c, s') ∧ Q s') : P.Finishes f s Q := by
  obtain ⟨c', s', hpasses, hret, hq⟩ := passes h
  exact ⟨c', s', hpasses, hret, hq⟩

section Rules

variable (hP : P.block = B)
include hP

theorem goesIn {instr : Instr L} {d : Control L × State} (hcode : (B l).code[i]? = some instr)
    (hret : instr ≠ .ret) (hstores : ∀ r ∈ instr.stores s, A r)
    (hstep : P.step (.at l i, s) = some d) : P.GoesIn A top (.at l i, s) d := by
  subst hP
  refine ⟨⟨hstep, ?_⟩, ?_⟩
  · rintro ⟨hfetch, -⟩
    exact hret (Option.some.inj (hcode.symm.trans hfetch))
  · intro instr' hfetch
    rw [← Option.some.inj (hcode.symm.trans hfetch)]
    exact hstores

/-- An instruction that stores to allowed ranges. -/
theorem store {instr : Instr L} (hcode : (B l).code[i]? = some instr)
    (hexec : instr.exec s = some s') (hstores : ∀ r ∈ instr.stores s, A r)
    (h : P.RunsIn A top (.at l (i + 1)) s' Q) : P.RunsIn A top (.at l i) s Q := by
  refine step (goesIn hP hcode ?_ hstores (Program.step_instr hP hcode hexec)) h
  rintro rfl
  cases hexec

/-- An instruction that does not store. -/
theorem instr {instr : Instr L} (hcode : (B l).code[i]? = some instr)
    (hexec : instr.exec s = some s') (hstores : instr.stores s = [])
    (h : P.RunsIn A top (.at l (i + 1)) s' Q) : P.RunsIn A top (.at l i) s Q :=
  store hP hcode hexec (fun _ hr => absurd (hstores ▸ hr) List.not_mem_nil) h

/-- The end of a block. -/
theorem fall (hcode : (B l).code[i]? = none) (hnext : (B l).next = some l')
    (h : P.RunsIn A top (.at l' 0) s Q) : P.RunsIn A top (.at l i) s Q := by
  refine step ⟨⟨Program.step_fall hP hcode hnext, ?_⟩, ?_⟩ h
  · subst hP
    rintro ⟨hfetch, -⟩
    exact absurd (hcode.symm.trans hfetch) nofun
  · subst hP
    intro instr hfetch
    exact absurd (hcode.symm.trans hfetch) nofun

theorem jmp (hcode : (B l).code[i]? = some (.jmp l')) (h : P.RunsIn A top (.at l' 0) s Q) :
    P.RunsIn A top (.at l i) s Q :=
  step (goesIn hP hcode nofun nofun (Program.step_jmp hP hcode)) h

/-- A conditional jump, by the value of its condition. -/
theorem jcc {cond : Cond} {taken : Prop} [Decidable taken]
    (hcode : (B l).code[i]? = some (.jcc cond l'))
    (hcond : cond.holds s.flags = some (decide taken))
    (hjump : taken → P.RunsIn A top (.at l' 0) s Q)
    (hnot : ¬ taken → P.RunsIn A top (.at l (i + 1)) s Q) : P.RunsIn A top (.at l i) s Q := by
  by_cases htaken : taken
  · exact step (goesIn hP hcode nofun nofun (Program.step_jcc_taken hP hcode hcond htaken))
      (hjump htaken)
  · exact step (goesIn hP hcode nofun nofun (Program.step_jcc_not_taken hP hcode hcond htaken))
      (hnot htaken)

theorem call (hcode : (B l).code[i]? = some (.call f))
    (h : P.RunsIn A top (.at f 0) (s.push (P.addr l (i + 1))) Q) : P.RunsIn A top (.at l i) s Q :=
  step (goesIn hP hcode nofun nofun (Program.step_call hP hcode)) h

/-- The return of a routine that was called on the way. -/
theorem ret (hcode : (B l).code[i]? = some .ret) (hrsp : s.reg .rsp ≠ top)
    (h : Q (P.goto (s.mem.read64 (s.reg .rsp))) (s.setReg .rsp (s.reg .rsp + 8))) :
    P.RunsIn A top (.at l i) s Q := by
  refine step ⟨⟨Program.step_ret hP hcode, ?_⟩, ?_⟩ (done h)
  · exact fun hret => hrsp hret.2
  · subst hP
    intro instr hfetch
    rw [← Option.some.inj (hcode.symm.trans hfetch)]
    nofun

/-- The return of the routine. -/
theorem atReturn (hcode : (B l).code[i]? = some .ret) (hrsp : s.reg .rsp = top) :
    P.AtReturn top (.at l i, s) := by
  subst hP
  exact ⟨hcode, hrsp⟩

/-- A division of a quadword alone. -/
theorem div {r : Reg} (hcode : (B l).code[i]? = some (.div r)) (hrdx : s.reg .rdx = 0)
    (hr : s.reg r ≠ 0)
    (h : P.RunsIn A top (.at l (i + 1)) (((s.setFlags .undefined).setReg .rax
      (s.reg .rax / s.reg r)).setReg .rdx (s.reg .rax % s.reg r)) Q) :
    P.RunsIn A top (.at l i) s Q :=
  instr hP hcode (Instr.exec_div hrdx hr) rfl h

/-- The system call `write` on the standard output. -/
theorem write (hcode : (B l).code[i]? = some .syscall) (hrax : s.reg .rax = 1)
    (hrdi : s.reg .rdi = 1)
    (h : ∀ s', s'.streams = { s.streams with
        stdout := s.streams.stdout ++ s.mem.bytes (s.reg .rsi) (s.reg .rdx).toNat } →
      s'.mem = s.mem → Keeps [.rax, .rcx, .r11] s s' → P.RunsIn A top (.at l (i + 1)) s' Q) :
    P.RunsIn A top (.at l i) s Q := by
  obtain ⟨s', hsys, -, hstreams, hmem, hkeeps⟩ :=
    State.exists_syscall (State.call_write hrax hrdi) rfl
  exact step (goesIn hP hcode nofun nofun (Program.step_syscall hP hcode (by rw [hrax]; decide)
    hsys)) (h s' hstreams hmem hkeeps)

/-- The system call `read` on the standard input. -/
theorem read (hcode : (B l).code[i]? = some .syscall) (hrax : s.reg .rax = 0)
    (hrdi : s.reg .rdi = 0)
    (h : ∀ s', s'.reg .rax =
        BitVec.ofNat 64 (s.streams.stdin.take (s.reg .rdx).toNat).length →
      s'.streams = { s.streams with stdin := s.streams.stdin.drop (s.reg .rdx).toNat } →
      s'.mem = s.mem.store (s.reg .rsi) (s.streams.stdin.take (s.reg .rdx).toNat) →
      Keeps [.rax, .rcx, .r11] s s' → P.RunsIn A top (.at l (i + 1)) s' Q) :
    P.RunsIn A top (.at l i) s Q := by
  obtain ⟨s', hsys, hrax', hstreams, hmem, hkeeps⟩ :=
    State.exists_syscall (State.call_read hrax hrdi) rfl
  exact step (goesIn hP hcode nofun nofun (Program.step_syscall hP hcode (by rw [hrax]; decide)
    hsys)) (h s' hrax' hstreams hmem hkeeps)

/-- **A call of a routine** with a specification. -/
theorem callReturns {Q : State → Prop} (hcode : (B l).code[i]? = some (.call f))
    (hf : P.ReturnsIn A top f (s.push (P.addr l (i + 1))) Q)
    (h : ∀ s', s'.reg .rsp = s.reg .rsp → Q s' → P.RunsIn A top (.at l (i + 1)) s' R) :
    P.RunsIn A top (.at l i) s R := by
  have hlt : i < (B l).code.length := (List.getElem?_eq_some_iff.mp hcode).1
  refine call hP hcode (bind hf ?_)
  rintro c s' ⟨rfl, hrsp, hq⟩
  have haddr : (s.push (P.addr l (i + 1))).mem.read64 ((s.push (P.addr l (i + 1))).reg .rsp) =
      P.addr l (i + 1) := by
    simp
  rw [haddr, Runs.goto_addr hP hlt]
  apply h s' _ hq
  rw [hrsp, State.reg_push, if_pos rfl]
  bv_omega

end Rules

/-- **A stretch of a block** runs to the instruction behind it. -/
theorem straight (hP : P.block = B) (pre : List (Instr L)) {instrs rest : List (Instr L)}
    (hcode : (B l).code = pre ++ (instrs ++ rest)) (hexec : execAll s instrs = some s')
    (hstores : ∀ instr ∈ instrs, ∀ s, ∀ r ∈ instr.stores s, A r)
    (h : P.RunsIn A top (.at l (pre.length + instrs.length)) s' Q) :
    P.RunsIn A top (.at l pre.length) s Q := by
  induction instrs generalizing s pre with
  | nil =>
      rw [Option.some.inj hexec]
      exact h
  | cons instr instrs ih =>
      obtain ⟨s₁, hfirst, hrest⟩ := Option.bind_eq_some_iff.mp hexec
      have hget : (B l).code[pre.length]? = some instr := by
        rw [hcode, List.getElem?_append_right le_rfl, Nat.sub_self]
        rfl
      refine store hP hget hfirst (hstores instr List.mem_cons_self s) ?_
      have hnext := ih (pre ++ [instr]) (by rw [hcode, List.append_assoc]; rfl) hrest
        fun instr' hmem => hstores instr' (List.mem_cons_of_mem instr hmem)
      rw [List.length_append, List.length_singleton] at hnext
      refine hnext ?_
      rw [Nat.add_assoc, Nat.add_comm 1]
      exact h

/-- **Pops one after another** take the stack pointer up by a quadword each. -/
theorem pops (hP : P.block = B) (rs : List Reg) (hcode : rs.map .pop <+: (B l).code.drop i)
    (hrs : .rsp ∉ rs) :
    P.RunsIn A top (.at l i) s fun c s' => c = .at l (i + rs.length) ∧
      s'.reg .rsp = s.reg .rsp + BitVec.ofNat 64 (8 * rs.length) ∧ Keeps (.rsp :: rs) s s' := by
  induction rs generalizing s i with
  | nil => exact done ⟨rfl, by simp, .refl _ _⟩
  | cons r rs ih =>
      obtain ⟨rest, hrest⟩ := hcode
      have hget : (B l).code[i]? = some (.pop r) := by
        rw [← Nat.add_zero i, ← List.getElem?_drop, ← hrest]
        rfl
      have hnext : rs.map .pop <+: (B l).code.drop (i + 1) :=
        ⟨rest, by rw [← List.tail_drop, ← hrest]; rfl⟩
      have hne : Reg.rsp ≠ r := fun heq => hrs (heq ▸ List.mem_cons_self)
      have hrs' : .rsp ∉ rs := fun hmem => hrs (List.mem_cons_of_mem r hmem)
      refine instr hP hget rfl rfl (mono (ih hnext hrs') ?_)
      rintro c s' ⟨rfl, hrsp, hkeeps⟩
      refine ⟨by rw [List.length_cons, Nat.add_assoc, Nat.add_comm 1], ?_, ?_⟩
      · have hadd : s.reg .rsp + 8 + BitVec.ofNat 64 (8 * rs.length) =
            s.reg .rsp + BitVec.ofNat 64 (8 * (rs.length + 1)) := by bv_omega
        rw [hrsp, List.length_cons, ← hadd]
        simp [hne]
      · have hkeeps' := hkeeps.mono (.rsp :: r :: rs) (by simp +contextual)
        simpa using hkeeps'

end RunsIn

/-! ## Runs that may have no end -/

namespace ComesIn

variable {P : Program L} {B : L → Block L} {A : Word × ℕ → Prop} {top : Word} {c : Control L}
  {s : State} {l f : L} {i : ℕ} {Q R : Control L → State → Prop}

theorem done (h : Q c s) : P.ComesIn A top c s Q := .inl (RunsIn.done h)

/-- First a run. -/
theorem of_runsIn (h : P.RunsIn A top c s fun c' s' => P.ComesIn A top c' s' Q) :
    P.ComesIn A top c s Q := by
  obtain ⟨c', s', hrun, ⟨c'', s'', hrun', hq⟩ | hdiverges⟩ := h
  · exact .inl ⟨c'', s'', hrun.trans hrun', hq⟩
  · refine .inr (Program.RunsIn.divergesIn (Q := fun c₁ s₁ => (c₁, s₁) = (c', s'))
      ⟨c', s', hrun, rfl⟩ fun c₁ s₁ heq => ?_)
    rw [heq]
    exact hdiverges

theorem bind (h : P.ComesIn A top c s Q) (h' : ∀ c' s', Q c' s' → P.ComesIn A top c' s' R) :
    P.ComesIn A top c s R := by
  rcases h with hrun | hdiverges
  · exact of_runsIn (RunsIn.mono hrun h')
  · exact .inr hdiverges

theorem mono (h : P.ComesIn A top c s Q) (hqr : ∀ c' s', Q c' s' → R c' s') :
    P.ComesIn A top c s R :=
  bind h fun c' s' hq => done (hqr c' s' hq)

/-- **A call of a routine** that may not return. -/
theorem callReturns (hP : P.block = B) {Q : State → Prop}
    (hcode : (B l).code[i]? = some (.call f))
    (hf : P.ComesBackIn A top f (s.push (P.addr l (i + 1))) Q)
    (h : ∀ s', s'.reg .rsp = s.reg .rsp → Q s' → P.ComesIn A top (.at l (i + 1)) s' R) :
    P.ComesIn A top (.at l i) s R := by
  rcases hf with hreturns | hdiverges
  · exact of_runsIn (RunsIn.callReturns hP hcode hreturns fun s' hrsp hq =>
      RunsIn.done (h s' hrsp hq))
  · exact of_runsIn (RunsIn.call hP hcode (RunsIn.done (.inr hdiverges)))

end ComesIn

end LowLevel.Library.X86
