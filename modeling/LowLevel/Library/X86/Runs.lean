import LowLevel.Library.X86.Machine
import Mathlib.Logic.Relation

/-!
# Runs of programs

`P.Runs c s Q` says that the run of `P` from control `c` and state `s` comes to a control and
a state with `Q`. There is one rule for each kind of instruction, `Runs.bind` puts two runs
together, and `Returns` is the form of a specification of a routine: run from its label, with
the return address on the stack, it comes back there with a property of the state.
-/

set_option autoImplicit false

namespace LowLevel.Library.X86

variable {L : Type}

/-! ## What the conditions say -/

section Flags

variable {w : ℕ} (a b : BitVec w)

/-- Sign and overflow of a difference tell the signed order. -/
theorem msb_sub_ne_ssubOverflow :
    ((a - b).msb != BitVec.ssubOverflow a b) = decide (a.toInt < b.toInt) := by
  by_cases hover : BitVec.ssubOverflow a b = true
  · have hcases := BitVec.ssubOverflow_eq a b
    rw [hover] at hcases ⊢
    have ha : a.msb = decide (a.toInt < 0) := BitVec.msb_eq_toInt
    have hb : b.msb = decide (b.toInt < 0) := BitVec.msb_eq_toInt
    rcases hd : (a - b).msb with _ | _
    · -- a negative number less a number that is not
      rw [hd, ha, hb] at hcases
      have : a.toInt < 0 ∧ 0 ≤ b.toInt := by simpa using hcases
      simp only [Bool.bne_true, Bool.not_false, true_eq_decide_iff]
      omega
    · rw [hd, ha, hb] at hcases
      have : 0 ≤ a.toInt ∧ b.toInt < 0 := by simpa using hcases
      simp only [Bool.bne_true, Bool.not_true, false_eq_decide_iff]
      omega
  · have hsub := BitVec.toInt_sub_of_not_ssubOverflow hover
    rw [Bool.not_eq_true] at hover
    rw [hover, BitVec.msb_eq_toInt, hsub, Bool.bne_false, decide_eq_decide]
    omega

/-- The zero flag of a comparison. -/
theorem sub_beq_zero : (a - b == 0) = decide (a = b) := by
  rw [Bool.beq_eq_decide_eq, decide_eq_decide]
  rw [BitVec.sub_eq_iff_eq_add]
  show a = 0#w + b ↔ a = b
  rw [BitVec.zero_add]

/-- `je` behind `cmp`. -/
@[simp] theorem holds_e_ofSub : Cond.e.holds (.ofSub a b) = some (decide (a = b)) := by
  rw [← sub_beq_zero]
  rfl

@[simp] theorem holds_ne_ofSub : Cond.ne.holds (.ofSub a b) = some (decide (a ≠ b)) := by
  rw [decide_not, ← sub_beq_zero]
  rfl

/-- `jl` behind `cmp` compares signed numbers. -/
@[simp] theorem holds_l_ofSub :
    Cond.l.holds (.ofSub a b) = some (decide (a.toInt < b.toInt)) := by
  rw [← msb_sub_ne_ssubOverflow]
  rfl

@[simp] theorem holds_ge_ofSub :
    Cond.ge.holds (.ofSub a b) = some (decide (b.toInt ≤ a.toInt)) := by
  have hnot : decide (b.toInt ≤ a.toInt) = !((a - b).msb != BitVec.ssubOverflow a b) := by
    rw [msb_sub_ne_ssubOverflow, ← decide_not, decide_eq_decide, Int.not_lt]
  rw [hnot, bne, Bool.not_not]
  rfl

@[simp] theorem holds_g_ofSub :
    Cond.g.holds (.ofSub a b) = some (decide (b.toInt < a.toInt)) := by
  have hg : Cond.g.holds (.ofSub a b) =
      some (!(a - b == 0) && !((a - b).msb != BitVec.ssubOverflow a b)) := by
    rw [bne, Bool.not_not]
    rfl
  rw [hg, msb_sub_ne_ssubOverflow, sub_beq_zero, ← decide_not, ← decide_not, ← Bool.decide_and]
  congr 1
  rw [decide_eq_decide, ← BitVec.toInt_inj]
  omega

/-- `je` behind `test` of a register with itself. -/
@[simp] theorem holds_e_ofLogic : Cond.e.holds (.ofLogic a) = some (decide (a = 0)) := rfl

@[simp] theorem holds_ne_ofLogic : Cond.ne.holds (.ofLogic a) = some (decide (a ≠ 0)) := by
  rw [decide_not]
  rfl

end Flags

/-! ## What an update changes -/

namespace State

variable (s : State) (r r' : Reg) (v : Word) (f : Flags) (m : Memory) (x x' : Xmm) (u : Lanes)

/-- The registers after a store into one of them. -/
@[simp] theorem reg_setReg : (s.setReg r v).reg r' = if r' = r then v else s.reg r' :=
  Function.update_apply s.reg r v r'

@[simp] theorem xmm_setReg : (s.setReg r v).xmm = s.xmm := rfl
@[simp] theorem flags_setReg : (s.setReg r v).flags = s.flags := rfl
@[simp] theorem mem_setReg : (s.setReg r v).mem = s.mem := rfl
@[simp] theorem streams_setReg : (s.setReg r v).streams = s.streams := rfl

@[simp] theorem reg_setFlags : (s.setFlags f).reg = s.reg := rfl
@[simp] theorem xmm_setFlags : (s.setFlags f).xmm = s.xmm := rfl
@[simp] theorem flags_setFlags : (s.setFlags f).flags = f := rfl
@[simp] theorem mem_setFlags : (s.setFlags f).mem = s.mem := rfl
@[simp] theorem streams_setFlags : (s.setFlags f).streams = s.streams := rfl

@[simp] theorem reg_setMem : (s.setMem m).reg = s.reg := rfl
@[simp] theorem xmm_setMem : (s.setMem m).xmm = s.xmm := rfl
@[simp] theorem flags_setMem : (s.setMem m).flags = s.flags := rfl
@[simp] theorem mem_setMem : (s.setMem m).mem = m := rfl
@[simp] theorem streams_setMem : (s.setMem m).streams = s.streams := rfl

@[simp] theorem reg_setXmm : (s.setXmm x u).reg = s.reg := rfl
@[simp] theorem xmm_setXmm : (s.setXmm x u).xmm x' = if x' = x then u else s.xmm x' :=
  Function.update_apply s.xmm x u x'
@[simp] theorem flags_setXmm : (s.setXmm x u).flags = s.flags := rfl
@[simp] theorem mem_setXmm : (s.setXmm x u).mem = s.mem := rfl
@[simp] theorem streams_setXmm : (s.setXmm x u).streams = s.streams := rfl

/-- A push moves the stack pointer down by a quadword, and stores there. -/
@[simp] theorem reg_push :
    (s.push v).reg r = if r = .rsp then s.reg .rsp - 8 else s.reg r := by
  simp [push]

@[simp] theorem mem_push : (s.push v).mem = s.mem.write64 (s.reg .rsp - 8) v := rfl
@[simp] theorem xmm_push : (s.push v).xmm = s.xmm := rfl
@[simp] theorem streams_push : (s.push v).streams = s.streams := rfl

variable (i : Reg) (d : Word) (b : Byte) (a : Addr)

@[simp] theorem addr_base : s.addr ⟨r, none, d⟩ = s.reg r + d := rfl
@[simp] theorem addr_index : s.addr ⟨r, some i, d⟩ = s.reg r + s.reg i + d := rfl
@[simp] theorem read_reg : s.read (.reg r) = s.reg r := rfl
@[simp] theorem read_imm : s.read (.imm v) = v := rfl
@[simp] theorem read_mem : s.read (.mem a) = s.mem.read64 (s.addr a) := rfl
@[simp] theorem read8_reg : s.read8 (.reg r) = (s.reg r).setWidth 8 := rfl
@[simp] theorem read8_imm : s.read8 (.imm b) = b := rfl
@[simp] theorem read8_mem : s.read8 (.mem a) = s.mem (s.addr a) := rfl

/-- The byte that was stored is read back. -/
@[simp] theorem setWidth_setLow : (setLow v b).setWidth 8 = b := by
  have hb := b.isLt
  apply BitVec.eq_of_toNat_eq
  unfold setLow
  rw [BitVec.toNat_setWidth, BitVec.toNat_ofNat]
  omega

/-- A register below 256 is its lowest byte. -/
theorem toNat_setLow (hv : v.toNat < 256) : (setLow v b).toNat = b.toNat := by
  have hb := b.isLt
  unfold setLow
  rw [BitVec.toNat_ofNat]
  omega

end State

/-- The registers other than `rs` are as they were. -/
def Keeps (rs : List Reg) (s s' : State) : Prop := ∀ r ∉ rs, s'.reg r = s.reg r

namespace Keeps

variable {rs : List Reg} {s s' s'' : State}

/-- No step changes no register. -/
@[simp] theorem refl (rs : List Reg) (s : State) : Keeps rs s s := fun _ _ => rfl

/-- Two runs in a row that keep the same registers. -/
theorem trans (h : Keeps rs s s') (h' : Keeps rs s' s'') : Keeps rs s s'' :=
  fun r hr => (h' r hr).trans (h r hr)

/-- More registers may change than do. -/
theorem mono (h : Keeps rs s s') (rs' : List Reg) (hsub : ∀ r ∈ rs, r ∈ rs') : Keeps rs' s s' :=
  fun r hr => h r fun hmem => hr (hsub r hmem)

/-- One register more may change. -/
theorem cons (h : Keeps rs s s') (r : Reg) : Keeps (r :: rs) s s' :=
  h.mono _ fun _ => List.mem_cons_of_mem r

/-- The state at the start matters only by the registers that are kept. -/
theorem iff_of_left (h : ∀ r ∉ rs, s''.reg r = s.reg r) : Keeps rs s'' s' ↔ Keeps rs s s' :=
  forall₂_congr fun r hr => by rw [h r hr]

/-- The state at the end matters only by the registers that are kept. -/
theorem iff_of_right (h : ∀ r ∉ rs, s''.reg r = s'.reg r) : Keeps rs s s'' ↔ Keeps rs s s' :=
  forall₂_congr fun r hr => by rw [h r hr]

section

variable (r : Reg) (v : Word) (f : Flags) (m : Memory) (x : Xmm) (u : Lanes)

/-- A store into a register that may change. -/
theorem reg_setReg_eq (hr : r ∈ rs) : ∀ r' ∉ rs, (s.setReg r v).reg r' = s.reg r' := by
  intro r' hr'
  rw [State.reg_setReg, if_neg]
  rintro rfl
  exact hr' hr

/-- A push, where the stack pointer may change. -/
theorem reg_push_eq (hr : .rsp ∈ rs) : ∀ r' ∉ rs, (s.push v).reg r' = s.reg r' := by
  intro r' hr'
  rw [State.reg_push, if_neg]
  rintro rfl
  exact hr' hr

@[simp] theorem setReg_left (hr : r ∈ rs) : Keeps rs (s.setReg r v) s' ↔ Keeps rs s s' :=
  iff_of_left (reg_setReg_eq r v hr)

@[simp] theorem setReg_right (hr : r ∈ rs) : Keeps rs s (s'.setReg r v) ↔ Keeps rs s s' :=
  iff_of_right (reg_setReg_eq r v hr)

@[simp] theorem push_left (hr : .rsp ∈ rs) : Keeps rs (s.push v) s' ↔ Keeps rs s s' :=
  iff_of_left (reg_push_eq v hr)

@[simp] theorem push_right (hr : .rsp ∈ rs) : Keeps rs s (s'.push v) ↔ Keeps rs s s' :=
  iff_of_right (reg_push_eq v hr)

@[simp] theorem setFlags_left : Keeps rs (s.setFlags f) s' ↔ Keeps rs s s' := Iff.rfl
@[simp] theorem setFlags_right : Keeps rs s (s'.setFlags f) ↔ Keeps rs s s' := Iff.rfl
@[simp] theorem setMem_left : Keeps rs (s.setMem m) s' ↔ Keeps rs s s' := Iff.rfl
@[simp] theorem setMem_right : Keeps rs s (s'.setMem m) ↔ Keeps rs s s' := Iff.rfl
@[simp] theorem setXmm_left : Keeps rs (s.setXmm x u) s' ↔ Keeps rs s s' := Iff.rfl
@[simp] theorem setXmm_right : Keeps rs s (s'.setXmm x u) ↔ Keeps rs s s' := Iff.rfl

end

end Keeps

namespace Program

variable (P : Program L)

/-- Some steps lead from one configuration to the other. -/
def Steps : Control L × State → Control L × State → Prop :=
  Relation.ReflTransGen fun c c' => P.step c = some c'

/-- The run from `c` and `s` comes to a configuration with `Q`. -/
def Runs (c : Control L) (s : State) (Q : Control L → State → Prop) : Prop :=
  ∃ c' s', P.Steps (c, s) (c', s') ∧ Q c' s'

/-- Run from its label with the return address on the stack, the routine returns there, the
address taken off, in a state with `Q`. -/
def Returns (f : L) (s : State) (Q : State → Prop) : Prop :=
  P.Runs (.at f 0) s fun c s' =>
    c = P.goto (s.mem.read64 (s.reg .rsp)) ∧ s'.reg .rsp = s.reg .rsp + 8 ∧ Q s'

end Program

/-! ## System calls -/

namespace State

variable {s t : State} {v next : Word}

/-- A system call that returns `v` with the state `t` loses `rax`, `rcx` and `r11`. -/
theorem exists_syscall (hcall : s.call = some (v, t)) (hreg : t.reg = s.reg) :
    ∃ s', s.syscall next = some s' ∧ s'.reg .rax = v ∧ s'.streams = t.streams ∧
      s'.mem = t.mem ∧ Keeps [.rax, .rcx, .r11] s s' := by
  refine ⟨((t.setReg .rax v).setReg .rcx next).setReg .r11 s.flags.word, ?_, ?_, rfl, rfl,
    fun r hr => ?_⟩
  · unfold State.syscall
    rw [hcall]
    rfl
  · simp
  · simp only [List.mem_cons, List.not_mem_nil, or_false, not_or] at hr
    simp [hr, hreg]

/-- `read` on the standard input. -/
theorem call_read (hrax : s.reg .rax = 0) (hrdi : s.reg .rdi = 0) : s.call =
    some (BitVec.ofNat 64 (s.streams.stdin.take (s.reg .rdx).toNat).length, { s with
      mem := s.mem.store (s.reg .rsi) (s.streams.stdin.take (s.reg .rdx).toNat)
      streams := { s.streams with stdin := s.streams.stdin.drop (s.reg .rdx).toNat } }) := by
  unfold State.call State.readCall
  rw [if_pos hrax, if_pos hrdi]

/-- `write` on the standard output. -/
theorem call_write (hrax : s.reg .rax = 1) (hrdi : s.reg .rdi = 1) : s.call =
    some (s.reg .rdx, { s with streams := { s.streams with
      stdout := s.streams.stdout ++ s.mem.bytes (s.reg .rsi) (s.reg .rdx).toNat } }) := by
  unfold State.call State.writeCall
  rw [if_neg (by rw [hrax]; decide), if_pos hrax, if_pos hrdi]

end State

/-- A division of a quadword alone. -/
theorem Instr.exec_div {s : State} {r : Reg} (hrdx : s.reg .rdx = 0) (hr : s.reg r ≠ 0) :
    (Instr.div r : Instr L).exec s = some (((s.setFlags .undefined).setReg .rax
      (s.reg .rax / s.reg r)).setReg .rdx (s.reg .rax % s.reg r)) := by
  have hpos : (s.reg r).toNat ≠ 0 := fun hzero => hr (BitVec.eq_of_toNat_eq hzero)
  have hquot : ¬ 2 ^ 64 ≤ (s.reg .rax).toNat / (s.reg r).toNat :=
    Nat.not_le.mpr ((Nat.div_le_self _ _).trans_lt (s.reg .rax).isLt)
  have hlow : (s.reg .rdx).toNat * 2 ^ 64 + (s.reg .rax).toNat = (s.reg .rax).toNat := by
    rw [hrdx]
    exact Nat.zero_add _
  unfold Instr.exec
  simp only [hlow]
  rw [if_neg (not_or.mpr ⟨hpos, hquot⟩), ← BitVec.toNat_udiv, ← BitVec.toNat_umod,
    BitVec.ofNat_toNat, BitVec.ofNat_toNat, BitVec.setWidth_eq, BitVec.setWidth_eq]

/-! ## One step -/

namespace Program

variable {P : Program L} {B : L → Block L} {s s' : State} {l l' f : L} {i : ℕ}

section

variable (hP : P.block = B)
include hP

/-- An instruction that goes on to the next one. -/
theorem step_instr {instr : Instr L} (hcode : (B l).code[i]? = some instr)
    (hexec : instr.exec s = some s') : P.step (.at l i, s) = some (.at l (i + 1), s') := by
  have hmap : (instr.exec s).map (Control.at l (i + 1), ·) = some (.at l (i + 1), s') := by
    rw [hexec]
    rfl
  clear hexec
  subst hP
  unfold step
  dsimp only
  rw [hcode]
  cases instr
  case jmp | jcc | call | ret | syscall => cases hmap
  all_goals exact hmap

/-- The end of a block. -/
theorem step_fall (hcode : (B l).code[i]? = none) (hnext : (B l).next = some l') :
    P.step (.at l i, s) = some (.at l' 0, s) := by
  subst hP
  unfold step
  dsimp only
  rw [hcode, hnext]
  rfl

/-- A jump goes to the first instruction of its block. -/
theorem step_jmp (hcode : (B l).code[i]? = some (.jmp l')) :
    P.step (.at l i, s) = some (.at l' 0, s) := by
  subst hP
  unfold step
  dsimp only
  rw [hcode]

section

variable {cond : Cond} {taken : Prop} [Decidable taken]
  (hcode : (B l).code[i]? = some (.jcc cond l'))
  (hcond : cond.holds s.flags = some (decide taken))
include hcode hcond

/-- A conditional jump, by the value of its condition. -/
theorem step_jcc :
    P.step (.at l i, s) = some (if decide taken then .at l' 0 else .at l (i + 1), s) := by
  subst hP
  unfold step
  dsimp only
  rw [hcode]
  dsimp only
  rw [hcond]
  rfl

/-- A conditional jump whose condition holds. -/
theorem step_jcc_taken (htaken : taken) : P.step (.at l i, s) = some (.at l' 0, s) := by
  rw [step_jcc hP hcode hcond, decide_eq_true htaken]
  rfl

/-- A conditional jump whose condition does not hold. -/
theorem step_jcc_not_taken (htaken : ¬ taken) :
    P.step (.at l i, s) = some (.at l (i + 1), s) := by
  rw [step_jcc hP hcode hcond, decide_eq_false htaken]
  rfl

end

/-- A call pushes the address behind it. -/
theorem step_call (hcode : (B l).code[i]? = some (.call f)) :
    P.step (.at l i, s) = some (.at f 0, s.push (P.addr l (i + 1))) := by
  subst hP
  unfold step
  dsimp only
  rw [hcode]

/-- A return goes where the quadword on top of the stack points. -/
theorem step_ret (hcode : (B l).code[i]? = some .ret) : P.step (.at l i, s) =
    some (P.goto (s.mem.read64 (s.reg .rsp)), s.setReg .rsp (s.reg .rsp + 8)) := by
  subst hP
  unfold step
  dsimp only
  rw [hcode]

/-- A system call other than the exit goes on behind it. -/
theorem step_syscall (hcode : (B l).code[i]? = some .syscall) (hrax : s.reg .rax ≠ exitNumber)
    (hcall : s.syscall (P.addr l (i + 1)) = some s') :
    P.step (.at l i, s) = some (.at l (i + 1), s') := by
  subst hP
  unfold step
  dsimp only
  rw [hcode]
  dsimp only
  rw [if_neg hrax, hcall]
  rfl

end

end Program

namespace Runs

variable {P : Program L} {B : L → Block L} {c : Control L} {s s' : State} {l l' f : L} {i : ℕ}
  {Q R : Control L → State → Prop}

theorem done (h : Q c s) : P.Runs c s Q := ⟨c, s, .refl, h⟩

/-- A step, and the run behind it. -/
theorem step {c' : Control L} (hstep : P.step (c, s) = some (c', s')) (h : P.Runs c' s' Q) :
    P.Runs c s Q := by
  obtain ⟨c'', s'', hsteps, hq⟩ := h
  exact ⟨c'', s'', .head hstep hsteps, hq⟩

/-- One run after the other. -/
theorem bind (h : P.Runs c s Q) (h' : ∀ c' s', Q c' s' → P.Runs c' s' R) : P.Runs c s R := by
  obtain ⟨c', s', hsteps, hq⟩ := h
  obtain ⟨c'', s'', hsteps', hr⟩ := h' c' s' hq
  exact ⟨c'', s'', hsteps.trans hsteps', hr⟩

/-- A weaker postcondition. -/
theorem mono (h : P.Runs c s Q) (hqr : ∀ c' s', Q c' s' → R c' s') : P.Runs c s R := by
  obtain ⟨c', s', hsteps, hq⟩ := h
  exact ⟨c', s', hsteps, hqr c' s' hq⟩

section Rules

variable (hP : P.block = B)
include hP

/-- An instruction that goes on to the next one. -/
theorem instr {instr : Instr L} (hcode : (B l).code[i]? = some instr)
    (hexec : instr.exec s = some s') (h : P.Runs (.at l (i + 1)) s' Q) :
    P.Runs (.at l i) s Q :=
  step (Program.step_instr hP hcode hexec) h

/-- A division of a quadword alone. -/
theorem div {r : Reg} (hcode : (B l).code[i]? = some (.div r)) (hrdx : s.reg .rdx = 0)
    (hr : s.reg r ≠ 0)
    (h : P.Runs (.at l (i + 1)) (((s.setFlags .undefined).setReg .rax (s.reg .rax / s.reg r)).setReg
      .rdx (s.reg .rax % s.reg r)) Q) : P.Runs (.at l i) s Q :=
  instr hP hcode (Instr.exec_div hrdx hr) h

/-- The end of a block. -/
theorem fall (hcode : (B l).code[i]? = none) (hnext : (B l).next = some l')
    (h : P.Runs (.at l' 0) s Q) : P.Runs (.at l i) s Q :=
  step (Program.step_fall hP hcode hnext) h

theorem jmp (hcode : (B l).code[i]? = some (.jmp l')) (h : P.Runs (.at l' 0) s Q) :
    P.Runs (.at l i) s Q :=
  step (Program.step_jmp hP hcode) h

/-- A conditional jump, by the value of its condition. -/
theorem jcc {cond : Cond} {taken : Prop} [Decidable taken]
    (hcode : (B l).code[i]? = some (.jcc cond l'))
    (hcond : cond.holds s.flags = some (decide taken))
    (hjump : taken → P.Runs (.at l' 0) s Q) (hnot : ¬ taken → P.Runs (.at l (i + 1)) s Q) :
    P.Runs (.at l i) s Q := by
  by_cases htaken : taken
  · exact step (Program.step_jcc_taken hP hcode hcond htaken) (hjump htaken)
  · exact step (Program.step_jcc_not_taken hP hcode hcond htaken) (hnot htaken)

theorem call (hcode : (B l).code[i]? = some (.call f))
    (h : P.Runs (.at f 0) (s.push (P.addr l (i + 1))) Q) : P.Runs (.at l i) s Q :=
  step (Program.step_call hP hcode) h

/-- A return, which is where a routine ends. -/
theorem ret (hcode : (B l).code[i]? = some .ret)
    (h : Q (P.goto (s.mem.read64 (s.reg .rsp))) (s.setReg .rsp (s.reg .rsp + 8))) :
    P.Runs (.at l i) s Q :=
  step (Program.step_ret hP hcode) (done h)

/-- The exit status is the low byte of `rdi`. -/
theorem exit (hcode : (B l).code[i]? = some .syscall) (hrax : s.reg .rax = exitNumber)
    (h : Q (.exited ((s.reg .rdi).toNat % 256)) s) : P.Runs (.at l i) s Q := by
  refine step ?_ (done h)
  subst hP
  unfold Program.step
  dsimp only
  rw [hcode]
  dsimp only
  rw [if_pos hrax]

theorem syscall (hcode : (B l).code[i]? = some .syscall) (hrax : s.reg .rax ≠ exitNumber)
    (hcall : s.syscall (P.addr l (i + 1)) = some s') (h : P.Runs (.at l (i + 1)) s' Q) :
    P.Runs (.at l i) s Q :=
  step (Program.step_syscall hP hcode hrax hcall) h

/-- A system call that returns `v` with the state `t`. -/
theorem sysReturns {v : Word} {t : State} (hcode : (B l).code[i]? = some .syscall)
    (hexit : s.reg .rax ≠ exitNumber) (hcall : s.call = some (v, t)) (hreg : t.reg = s.reg)
    (h : ∀ s', s'.reg .rax = v → s'.streams = t.streams → s'.mem = t.mem →
      Keeps [.rax, .rcx, .r11] s s' → P.Runs (.at l (i + 1)) s' Q) :
    P.Runs (.at l i) s Q := by
  obtain ⟨s', hsys, hrax, hstreams, hmem, hkeeps⟩ := State.exists_syscall hcall hreg
  exact syscall hP hcode hexit hsys (h s' hrax hstreams hmem hkeeps)

/-- The system call `write` on the standard output. -/
theorem write (hcode : (B l).code[i]? = some .syscall) (hrax : s.reg .rax = 1)
    (hrdi : s.reg .rdi = 1)
    (h : ∀ s', s'.streams = { s.streams with
        stdout := s.streams.stdout ++ s.mem.bytes (s.reg .rsi) (s.reg .rdx).toNat } →
      s'.mem = s.mem → Keeps [.rax, .rcx, .r11] s s' → P.Runs (.at l (i + 1)) s' Q) :
    P.Runs (.at l i) s Q :=
  sysReturns hP hcode (by rw [hrax]; decide) (State.call_write hrax hrdi) rfl fun s' _ => h s'

/-- The system call `write` on the standard error output. -/
theorem writeErr (hcode : (B l).code[i]? = some .syscall) (hrax : s.reg .rax = 1)
    (hrdi : s.reg .rdi = 2)
    (h : ∀ s', s'.streams = { s.streams with
        stderr := s.streams.stderr ++ s.mem.bytes (s.reg .rsi) (s.reg .rdx).toNat } →
      s'.mem = s.mem → Keeps [.rax, .rcx, .r11] s s' → P.Runs (.at l (i + 1)) s' Q) :
    P.Runs (.at l i) s Q := by
  have hcall : s.call = some s.writeCall := by
    unfold State.call
    rw [if_neg (by rw [hrax]; decide), if_pos hrax]
  unfold State.writeCall at hcall
  rw [if_neg (by rw [hrdi]; decide), if_pos hrdi] at hcall
  exact sysReturns hP hcode (by rw [hrax]; decide) hcall rfl fun s' _ => h s'

/-- The system call `read` on the standard input. -/
theorem read (hcode : (B l).code[i]? = some .syscall) (hrax : s.reg .rax = 0)
    (hrdi : s.reg .rdi = 0)
    (h : ∀ s', s'.reg .rax =
        BitVec.ofNat 64 (s.streams.stdin.take (s.reg .rdx).toNat).length →
      s'.streams = { s.streams with stdin := s.streams.stdin.drop (s.reg .rdx).toNat } →
      s'.mem = s.mem.store (s.reg .rsi) (s.streams.stdin.take (s.reg .rdx).toNat) →
      Keeps [.rax, .rcx, .r11] s s' → P.Runs (.at l (i + 1)) s' Q) :
    P.Runs (.at l i) s Q :=
  sysReturns hP hcode (by rw [hrax]; decide) (State.call_read hrax hrdi) rfl h

/-- An address that `call` pushes is that of the instruction behind it. -/
theorem goto_addr (hcode : i < (B l).code.length) :
    P.goto (P.addr l (i + 1)) = .at l (i + 1) := by
  subst hP
  unfold Program.goto
  rw [P.locate_addr l (i + 1) hcode]

/-- **A call of a routine** with a specification. -/
theorem callReturns {Q : State → Prop} (hcode : (B l).code[i]? = some (.call f))
    (hf : P.Returns f (s.push (P.addr l (i + 1))) Q)
    (h : ∀ s', s'.reg .rsp = s.reg .rsp → Q s' → P.Runs (.at l (i + 1)) s' R) :
    P.Runs (.at l i) s R := by
  have hlt : i < (B l).code.length := (List.getElem?_eq_some_iff.mp hcode).1
  refine call hP hcode (bind hf ?_)
  rintro c s' ⟨rfl, hrsp, hq⟩
  have haddr : (s.push (P.addr l (i + 1))).mem.read64 ((s.push (P.addr l (i + 1))).reg .rsp) =
      P.addr l (i + 1) := by
    simp
  rw [haddr, goto_addr hP hlt]
  apply h s' _ hq
  rw [hrsp, State.reg_push, if_pos rfl]
  bv_omega

end Rules

end Runs

end LowLevel.Library.X86
