import LowLevel.Library.X86.Memory
import Mathlib.Logic.Function.Basic
import Mathlib.Data.Rat.Floor

/-!
# A subset of x86-64

Programs are blocks of instructions under labels; a block without a final jump runs on into
the next one. An `Instr` acts on a `State`: registers, flags, memory and the standard streams
of the process. A flag that an instruction leaves undefined is `none`, and a jump on it is a
fault, as are a division that does not fit and whatever else has no meaning here.

Memory is not protected and code is not in it. A `Program` says at which address each
instruction was put, so that `call` has an address to push and `ret` finds its way back; a
return to any other address leaves the program.

The vector registers have four lanes, each a doubleword or a number. Numbers are exact:
rounding happens where a number becomes a doubleword and nowhere else.
-/

set_option autoImplicit false

namespace LowLevel.Library.X86

open LowLevel.Library

/-! ## Flags -/

/-- The status flags; `none` is undefined. -/
structure Flags where
  cf : Option Bool
  zf : Option Bool
  sf : Option Bool
  of : Option Bool
  deriving DecidableEq, Repr

namespace Flags

variable {w : ℕ}

def ofAdd (a b : BitVec w) : Flags :=
  ⟨some (BitVec.uaddOverflow a b), some (a + b == 0), some (a + b).msb,
    some (BitVec.saddOverflow a b)⟩

def ofSub (a b : BitVec w) : Flags :=
  ⟨some (a.ult b), some (a - b == 0), some (a - b).msb, some (BitVec.ssubOverflow a b)⟩

def ofLogic (v : BitVec w) : Flags := ⟨some false, some (v == 0), some v.msb, some false⟩

/-- After `mul`: carry and overflow say whether the upper half is in use. -/
def ofMul (high : BitVec w) : Flags := ⟨some (high != 0), none, none, some (high != 0)⟩

def undefined : Flags := ⟨none, none, none, none⟩

/-- The flags register, as `syscall` saves it. -/
def word (f : Flags) : Word :=
  0x202 ||| (if f.cf.getD false then 0x1 else 0) ||| (if f.zf.getD false then 0x40 else 0) |||
    (if f.sf.getD false then 0x80 else 0) ||| (if f.of.getD false then 0x800 else 0)

end Flags

/-- The conditions of the conditional jumps. -/
inductive Cond where
  | e
  | ne
  | l
  | ge
  | g
  deriving DecidableEq, Repr

/-- Whether the condition holds, if the flags say so. -/
def Cond.holds (f : Flags) : Cond → Option Bool
  | .e => f.zf
  | .ne => f.zf.map (!·)
  | .l => do return (← f.sf) != (← f.of)
  | .ge => do return (← f.sf) == (← f.of)
  | .g => do return !(← f.zf) && (← f.sf) == (← f.of)

/-! ## Lanes -/

/-- A lane of a vector register. -/
inductive Lane where
  | dword (v : BitVec 32)
  | number (q : ℚ)
  deriving DecidableEq, Repr

/-- Rounding to the nearest integer, and to the even one of two. -/
def roundNearestEven (q : ℚ) : ℤ :=
  if q - ⌊q⌋ < 1 / 2 then ⌊q⌋
  else if 1 / 2 < q - ⌊q⌋ then ⌊q⌋ + 1
  else if ⌊q⌋ % 2 = 0 then ⌊q⌋ else ⌊q⌋ + 1

namespace Lane

/-- `pinsrb`: byte `k` of the lane is replaced. -/
def insertByte (k : ℕ) (b : Byte) : Lane → Option Lane
  | .dword v => some (.dword (BitVec.ofNat 32
      (v.toNat / 256 ^ (k + 1) * 256 ^ (k + 1) + b.toNat * 256 ^ k + v.toNat % 256 ^ k)))
  | .number _ => none

/-- `pextrb`: byte `k` of the lane. -/
def extractByte (k : ℕ) : Lane → Option Byte
  | .dword v => some (BitVec.ofNat 8 (v.toNat / 256 ^ k))
  | .number _ => none

/-- `cvtdq2ps`. -/
def toNumber : Lane → Option Lane
  | .dword v => some (.number v.toInt)
  | .number _ => none

/-- `cvtps2dq`, in the default rounding mode; a value out of range is the least integer. -/
def toDword : Lane → Option Lane
  | .number q =>
      let i := roundNearestEven q
      if -2 ^ 31 ≤ i ∧ i < 2 ^ 31 then some (.dword (BitVec.ofInt 32 i))
      else some (.dword (BitVec.intMin 32))
  | .dword _ => none

def mul : Lane → Lane → Option Lane
  | .number p, .number q => some (.number (p * q))
  | _, _ => none

def add : Lane → Lane → Option Lane
  | .number p, .number q => some (.number (p + q))
  | _, _ => none

/-- `pminud`. -/
def minUnsigned : Lane → Lane → Option Lane
  | .dword v, .dword w => some (.dword (if v.ult w then v else w))
  | _, _ => none

end Lane

/-- A vector register, lane 0 first. -/
structure Lanes where
  lane0 : Lane
  lane1 : Lane
  lane2 : Lane
  lane3 : Lane
  deriving DecidableEq, Repr

namespace Lanes

def map (f : Lane → Option Lane) (v : Lanes) : Option Lanes :=
  return ⟨← f v.lane0, ← f v.lane1, ← f v.lane2, ← f v.lane3⟩

def map₂ (f : Lane → Lane → Option Lane) (v w : Lanes) : Option Lanes :=
  return ⟨← f v.lane0 w.lane0, ← f v.lane1 w.lane1, ← f v.lane2 w.lane2, ← f v.lane3 w.lane3⟩

def zero : Lanes := ⟨.dword 0, .dword 0, .dword 0, .dword 0⟩

/-- Change the lane that byte `k` of the register is in. -/
def insertByte (k : ℕ) (b : Byte) (v : Lanes) : Option Lanes :=
  match k / 4 with
  | 0 => (v.lane0.insertByte (k % 4) b).map ({ v with lane0 := · })
  | 1 => (v.lane1.insertByte (k % 4) b).map ({ v with lane1 := · })
  | 2 => (v.lane2.insertByte (k % 4) b).map ({ v with lane2 := · })
  | _ => (v.lane3.insertByte (k % 4) b).map ({ v with lane3 := · })

def extractByte (k : ℕ) (v : Lanes) : Option Byte :=
  match k / 4 with
  | 0 => v.lane0.extractByte (k % 4)
  | 1 => v.lane1.extractByte (k % 4)
  | 2 => v.lane2.extractByte (k % 4)
  | _ => v.lane3.extractByte (k % 4)

end Lanes

/-! ## Instructions -/

inductive Reg where
  | rax | rbx | rcx | rdx | rsi | rdi | rbp | rsp
  | r8 | r9 | r10 | r11 | r12 | r13 | r14 | r15
  deriving DecidableEq, Repr

inductive Xmm where
  | xmm0 | xmm1 | xmm2 | xmm3 | xmm4 | xmm5 | xmm6
  deriving DecidableEq, Repr

/-- `[base + index + disp]`. -/
structure Addr where
  base : Reg
  index : Option Reg
  disp : Word
  deriving DecidableEq, Repr

/-- An operand of 64 bits. -/
inductive Operand where
  | reg (r : Reg)
  | imm (v : Word)
  | mem (a : Addr)
  deriving DecidableEq, Repr

/-- An operand of 8 bits; a register stands for its lowest byte. -/
inductive Operand8 where
  | reg (r : Reg)
  | imm (v : Byte)
  | mem (a : Addr)
  deriving DecidableEq, Repr

/-- Instructions that set the flags; `cmp` and `test` do nothing else. -/
inductive Alu where
  | add
  | sub
  | xor
  | cmp
  | test
  deriving DecidableEq, Repr

inductive Instr (L : Type) where
  | mov (dst src : Operand)
  | mov8 (dst src : Operand8)
  | lea (dst : Reg) (a : Addr)
  | alu (op : Alu) (dst src : Operand)
  | alu8 (op : Alu) (dst src : Operand8)
  | inc (r : Reg)
  | dec (r : Reg)
  | neg (r : Reg)
  | mul (r : Reg)
  | div (r : Reg)
  | push (r : Reg)
  | pop (r : Reg)
  | jmp (l : L)
  | jcc (c : Cond) (l : L)
  | call (l : L)
  | ret
  | syscall
  /-- A load of a vector from read-only data. -/
  | movaps (dst : Xmm) (v : Lanes)
  /-- `xorps` of a register with itself. -/
  | zero (dst : Xmm)
  | pinsrb (dst : Xmm) (a : Addr) (k : ℕ)
  | pextrb (a : Addr) (src : Xmm) (k : ℕ)
  | cvtdq2ps (dst : Xmm)
  | cvtps2dq (dst : Xmm)
  | mulps (dst src : Xmm)
  | addps (dst src : Xmm)
  | pminud (dst src : Xmm)

/-! ## States -/

/-- The standard streams: what is left to read, and what was written. -/
structure Streams where
  stdin : List Byte
  stdout : List Byte
  stderr : List Byte

structure State where
  reg : Reg → Word
  xmm : Xmm → Lanes
  flags : Flags
  mem : Memory
  streams : Streams

namespace State

/-- A process that starts: a stack and an input, and nothing in the registers. -/
def fresh (mem : Memory) (rsp : Word) (stdin : List Byte) : State where
  reg := Function.update (fun _ => 0) .rsp rsp
  xmm _ := .zero
  flags := .undefined
  mem := mem
  streams := ⟨stdin, [], []⟩

def setReg (s : State) (r : Reg) (v : Word) : State := { s with reg := Function.update s.reg r v }

def setXmm (s : State) (x : Xmm) (v : Lanes) : State := { s with xmm := Function.update s.xmm x v }

def setFlags (s : State) (f : Flags) : State := { s with flags := f }

def setMem (s : State) (m : Memory) : State := { s with mem := m }

def addr (s : State) (a : Addr) : Word :=
  match a.index with
  | none => s.reg a.base + a.disp
  | some i => s.reg a.base + s.reg i + a.disp

def read (s : State) : Operand → Word
  | .reg r => s.reg r
  | .imm v => v
  | .mem a => s.mem.read64 (s.addr a)

def write (s : State) (v : Word) : Operand → Option State
  | .reg r => some (s.setReg r v)
  | .imm _ => none
  | .mem a => some (s.setMem (s.mem.write64 (s.addr a) v))

/-- The register with its lowest byte replaced. -/
def setLow (w : Word) (v : Byte) : Word := BitVec.ofNat 64 (w.toNat / 256 * 256 + v.toNat)

def read8 (s : State) : Operand8 → Byte
  | .reg r => (s.reg r).setWidth 8
  | .imm v => v
  | .mem a => s.mem (s.addr a)

def write8 (s : State) (v : Byte) : Operand8 → Option State
  | .reg r => some (s.setReg r (setLow (s.reg r) v))
  | .imm _ => none
  | .mem a => some (s.setMem (s.mem.store (s.addr a) [v]))

def push (s : State) (v : Word) : State :=
  (s.setMem (s.mem.write64 (s.reg .rsp - 8) v)).setReg .rsp (s.reg .rsp - 8)

end State

/-! ## What the instructions do -/

/-- The flags of `op`, and the result if it is stored. -/
def Alu.apply {w : ℕ} (op : Alu) (a b : BitVec w) : Flags × Option (BitVec w) :=
  match op with
  | .add => (.ofAdd a b, some (a + b))
  | .sub => (.ofSub a b, some (a - b))
  | .xor => (.ofLogic (a ^^^ b), some (a ^^^ b))
  | .cmp => (.ofSub a b, none)
  | .test => (.ofLogic (a &&& b), none)

/-- An instruction that goes on to the next one; `none` is a fault. -/
def Instr.exec {L : Type} (s : State) : Instr L → Option State
  | .mov dst src => s.write (s.read src) dst
  | .mov8 dst src => s.write8 (s.read8 src) dst
  | .lea dst a => some (s.setReg dst (s.addr a))
  | .alu op dst src =>
      match op.apply (s.read dst) (s.read src) with
      | (f, none) => some (s.setFlags f)
      | (f, some v) => (s.setFlags f).write v dst
  | .alu8 op dst src =>
      match op.apply (s.read8 dst) (s.read8 src) with
      | (f, none) => some (s.setFlags f)
      | (f, some v) => (s.setFlags f).write8 v dst
  | .inc r =>
      some ((s.setFlags { Flags.ofAdd (s.reg r) 1 with cf := s.flags.cf }).setReg r (s.reg r + 1))
  | .dec r =>
      some ((s.setFlags { Flags.ofSub (s.reg r) 1 with cf := s.flags.cf }).setReg r (s.reg r - 1))
  | .neg r => some ((s.setFlags (.ofSub 0 (s.reg r))).setReg r (-s.reg r))
  | .mul r =>
      let product := (s.reg .rax).toNat * (s.reg r).toNat
      let high := BitVec.ofNat 64 (product / 2 ^ 64)
      some (((s.setFlags (.ofMul high)).setReg .rax (BitVec.ofNat 64 product)).setReg .rdx high)
  | .div r =>
      let dividend := (s.reg .rdx).toNat * 2 ^ 64 + (s.reg .rax).toNat
      let divisor := (s.reg r).toNat
      if divisor = 0 ∨ 2 ^ 64 ≤ dividend / divisor then none
      else some (((s.setFlags .undefined).setReg .rax (BitVec.ofNat 64 (dividend / divisor))).setReg
        .rdx (BitVec.ofNat 64 (dividend % divisor)))
  | .push r => some (s.push (s.reg r))
  | .pop r => some ((s.setReg .rsp (s.reg .rsp + 8)).setReg r (s.mem.read64 (s.reg .rsp)))
  | .movaps dst v => some (s.setXmm dst v)
  | .zero dst => some (s.setXmm dst .zero)
  | .pinsrb dst a k => ((s.xmm dst).insertByte k (s.mem (s.addr a))).map (s.setXmm dst)
  | .pextrb a src k =>
      ((s.xmm src).extractByte k).map fun b => s.setMem (s.mem.store (s.addr a) [b])
  | .cvtdq2ps dst => ((s.xmm dst).map Lane.toNumber).map (s.setXmm dst)
  | .cvtps2dq dst => ((s.xmm dst).map Lane.toDword).map (s.setXmm dst)
  | .mulps dst src => ((s.xmm dst).map₂ Lane.mul (s.xmm src)).map (s.setXmm dst)
  | .addps dst src => ((s.xmm dst).map₂ Lane.add (s.xmm src)).map (s.setXmm dst)
  | .pminud dst src => ((s.xmm dst).map₂ Lane.minUnsigned (s.xmm src)).map (s.setXmm dst)
  | .jmp _ | .jcc _ _ | .call _ | .ret | .syscall => none

/-! ## System calls -/

/-- The error number of a call on a file that is not open, as it is returned. -/
def ebadf : Word := -9

/-- `read`: what there is on the standard input, up to the size asked for. -/
def State.readCall (s : State) : Word × State :=
  let bs := s.streams.stdin.take (s.reg .rdx).toNat
  if s.reg .rdi = 0 then
    (BitVec.ofNat 64 bs.length, { s with
      mem := s.mem.store (s.reg .rsi) bs
      streams := { s.streams with stdin := s.streams.stdin.drop (s.reg .rdx).toNat } })
  else (ebadf, s)

/-- `write`, which takes everything. -/
def State.writeCall (s : State) : Word × State :=
  let bs := s.mem.bytes (s.reg .rsi) (s.reg .rdx).toNat
  if s.reg .rdi = 1 then
    (s.reg .rdx, { s with streams := { s.streams with stdout := s.streams.stdout ++ bs } })
  else if s.reg .rdi = 2 then
    (s.reg .rdx, { s with streams := { s.streams with stderr := s.streams.stderr ++ bs } })
  else (ebadf, s)

/-- The result of the system call in `rax`, and the state. -/
def State.call (s : State) : Option (Word × State) :=
  if s.reg .rax = 0 then some s.readCall
  else if s.reg .rax = 1 then some s.writeCall
  else none

/-- A system call that returns, to the address `next`; `rcx` and `r11` are lost. -/
def State.syscall (s : State) (next : Word) : Option State :=
  s.call.map fun (result, s') =>
    ((s'.setReg .rax result).setReg .rcx next).setReg .r11 s.flags.word

/-- The number of the system call that ends the process. -/
def exitNumber : Word := 60

/-! ## Programs -/

/-- The instructions under a label, and the label after them if they run on into it. -/
structure Block (L : Type) where
  code : List (Instr L)
  next : Option L

/-- A program with the addresses of its instructions, which tell them apart. -/
structure Program (L : Type) where
  block : L → Block L
  addr : L → ℕ → Word
  locate : Word → Option (L × ℕ)
  locate_addr : ∀ l i, i ≤ (block l).code.length → locate (addr l i) = some (l, i)

/-- Where control is. -/
inductive Control (L : Type) where
  /-- Before instruction `i` of a block. -/
  | at (l : L) (i : ℕ)
  /-- At an address outside of the program. -/
  | outside (v : Word)
  | exited (status : ℕ)
  deriving DecidableEq, Repr

namespace Program

variable {L : Type} (P : Program L)

/-- Where a jump to the address `v` leads. -/
def goto (v : Word) : Control L :=
  match P.locate v with
  | some (l, i) => .at l i
  | none => .outside v

def step : Control L × State → Option (Control L × State)
  | (.at l i, s) =>
      match (P.block l).code[i]? with
      | none => (P.block l).next.map fun l' => (.at l' 0, s)
      | some (.jmp l') => some (.at l' 0, s)
      | some (.jcc c l') =>
          (c.holds s.flags).map fun b => (if b then .at l' 0 else .at l (i + 1), s)
      | some (.call f) => some (.at f 0, s.push (P.addr l (i + 1)))
      | some .ret =>
          some (P.goto (s.mem.read64 (s.reg .rsp)), s.setReg .rsp (s.reg .rsp + 8))
      | some .syscall =>
          if s.reg .rax = exitNumber then some (.exited ((s.reg .rdi).toNat % 256), s)
          else (s.syscall (P.addr l (i + 1))).map (.at l (i + 1), ·)
      | some instr => (instr.exec s).map (.at l (i + 1), ·)
  | _ => none

/-- One way to lay a program out: the blocks in the order of their numbers, with room for 64
instructions each, from address 64 on. -/
def inOrder (block : L → Block L) (index : L → ℕ) (label : ℕ → L)
    (hlabel : ∀ l, label (index l) = l) (hindex : ∀ l, index l < 2 ^ 32)
    (hcode : ∀ l, (block l).code.length < 64) : Program L where
  block := block
  addr l i := BitVec.ofNat 64 (64 * (index l + 1) + i)
  locate v := if v.toNat < 64 then none else some (label (v.toNat / 64 - 1), v.toNat % 64)
  locate_addr := by
    intro l i hi
    have hl := hindex l
    have hlen := hcode l
    have hv : (BitVec.ofNat 64 (64 * (index l + 1) + i)).toNat = 64 * (index l + 1) + i := by
      rw [BitVec.toNat_ofNat, Nat.mod_eq_of_lt (by omega)]
    rw [hv, if_neg (by omega), show (64 * (index l + 1) + i) / 64 - 1 = index l by omega, hlabel,
      show (64 * (index l + 1) + i) % 64 = i by omega]

end Program

end LowLevel.Library.X86
