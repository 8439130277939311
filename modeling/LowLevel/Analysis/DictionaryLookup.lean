import LowLevel.Interface.AssemblyDictionary
import LowLevel.Interface.AssemblyLines
import Mathlib.Data.List.Induction

/-!
# The dictionary program

The program is a lookup in the map that the entries define one after the other, so that a later
definition of a key replaces an earlier one: `_start` reads the key, `find_word` goes along the
entries from the last one to the first, and the value behind the key is printed.
-/

set_option autoImplicit false

namespace LowLevel.Analysis

open LowLevel.Library LowLevel.Library.X86 LowLevel.Library.X86.Memory
open LowLevel.Program.Assembly LowLevel.Interface.Assembly

variable {P : Program Label} {sym : Symbols} {s : State} {pairs : List (List Byte × List Byte)}
  {key rest : List Byte} {s₁ : State} {base : Word}

/-! ## The map -/

/-- The map that the entries define, one after the other. -/
def dictionary (pairs : List (List Byte × List Byte)) : List Byte → Option (List Byte) :=
  pairs.foldl (fun d entry => Function.update d entry.1 (some entry.2)) fun _ => none

theorem dictionary_append_singleton (entry : List Byte × List Byte) :
    dictionary (pairs ++ [entry]) = Function.update (dictionary pairs) entry.1 (some entry.2) := by
  rw [dictionary, List.foldl_append, List.foldl_cons, List.foldl_nil]
  rfl

/-- The latest definition wins: it is the first one from the last entry on. -/
theorem dictionary_eq_find (pairs : List (List Byte × List Byte)) (key : List Byte) :
    dictionary pairs key = (pairs.reverse.find? fun entry => entry.1 = key).map Prod.snd := by
  induction pairs using List.reverseRecOn with
  | nil => rfl
  | append_singleton pairs entry ih =>
      rw [dictionary_append_singleton, List.reverse_append, List.reverse_singleton,
        List.singleton_append, Function.update_apply]
      by_cases heq : entry.1 = key
      · rw [if_pos heq.symm, List.find?_cons_of_pos (by simpa using heq)]
        rfl
      · rw [if_neg (Ne.symm heq), List.find?_cons_of_neg (by simpa using heq)]
        exact ih

/-! ## The program in memory -/

/-- The memory when the program starts: the entries that `colon` laid out from `base` on, the
last of them the head, and the message, all outside of the buffer and of the stack below `rsp`.
The buffer is taken with the bytes behind it that a quadword stored at its end reaches. -/
structure DictionaryLoaded (sym : Symbols) (base : Word) (pairs : List (List Byte × List Byte))
    (s : State) : Prop where
  nul : NulFree pairs
  base_ne : base ≠ 0
  fits : base.toNat + (entryBytes base 0 pairs).length < 2 ^ 64
  entries : s.mem.Holds base (entryBytes base 0 pairs)
  head : sym.head = lastEntry base 0 pairs
  message : s.mem.Holds sym.notFoundMsg notFoundMsg
  buffer : Clear sym.buffer 262 (s.reg .rsp) 48
  buffer_ne : sym.buffer ≠ 0
  entries_apart : ∀ x : Word, (x - base).toNat < (entryBytes base 0 pairs).length →
    262 ≤ (x - sym.buffer).toNat ∧ 48 ≤ (s.reg .rsp - 1 - x).toNat
  message_apart : ∀ x : Word, (x - sym.notFoundMsg).toNat < notFoundMsg.length →
    262 ≤ (x - sym.buffer).toNat ∧ 48 ≤ (s.reg .rsp - 1 - x).toNat

/-- The memory that is neither the buffer nor the stack. -/
def untouched (sym : Symbols) (s : State) : Set Word :=
  {x | 262 ≤ (x - sym.buffer).toNat ∧ 48 ≤ (s.reg .rsp - 1 - x).toNat}

theorem DictionaryLoaded.chain {base : Word} (h : DictionaryLoaded sym base pairs s) :
    Chain s.mem (untouched sym s) sym.head pairs.reverse := by
  have hchain := chain_of_holds h.nul .nil h.entries h.base_ne h.fits h.entries_apart
  rw [List.append_nil] at hchain
  rw [h.head]
  exact hchain

/-! ## The two ends of a run -/

theorem exit_runs (hP : P.block = blocks sym) {status : ℕ}
    (hrdi : (s.reg .rdi).toNat % 256 = status) :
    P.Runs (.at .exit 0) s fun c s' => c = .exited status ∧ s'.streams = s.streams := by
  apply Runs.instr hP rfl rfl
  apply Runs.exit hP rfl
  · rfl
  · exact ⟨by rw [← hrdi]; rfl, rfl⟩

/-- No entry: the message is written. -/
theorem startNotFound_runs (hP : P.block = blocks sym)
    (hmessage : s.mem.Holds sym.notFoundMsg notFoundMsg)
    (happart : ∀ x : Word, (x - sym.notFoundMsg).toNat < notFoundMsg.length →
      8 ≤ (s.reg .rsp - 1 - x).toNat) :
    P.Runs (.at .startNotFound 0) s fun c s' => c = .exited 1 ∧
      s'.streams = { s.streams with stderr := s.streams.stderr ++ notFoundMsg } := by
  have hlen : notFoundMsg.length = 43 := rfl
  apply Runs.instr hP rfl rfl
  apply Runs.instr hP rfl rfl
  apply Runs.call hP rfl
  apply Runs.instr hP rfl rfl
  apply Runs.instr hP rfl rfl
  apply Runs.writeErr hP rfl (by simp [writeSyscall]) (by simp [stderr])
  intro s₁ hstreams hmem hkeeps
  apply Runs.instr hP rfl rfl
  apply Runs.call hP rfl
  refine Runs.mono (exit_runs hP (show _ = 1 by simp)) ?_
  rintro c s' ⟨rfl, hstreams'⟩
  refine ⟨rfl, ?_⟩
  have hmessage₁ : (s.mem.write64 (s.reg .rsp - 8#64) (P.addr .startNotFound 3)).Holds
      sym.notFoundMsg notFoundMsg := by
    apply hmessage.congr (by rw [hlen]; norm_num)
    intro x hx
    exact onlyBelow_write64 s.mem (p := s.reg .rsp) (n := 8) (by bv_omega) (by bv_omega) x
      (happart x hx)
  rw [Holds, hlen] at hmessage₁
  simp [notFoundMsgSize, hmessage₁] at hstreams
  rw [hstreams']
  simpa using hstreams

/-- An entry at `r12`: its value is written, and a newline. -/
theorem startFound_runs (hP : P.block = blocks sym) {S : Set Word} {a : Word}
    {value : List Byte} (hentry : EntryAt s.mem S a key value) (hrax : s.reg .rax = a)
    (hS : ∀ x ∈ S, 48 ≤ (s.reg .rsp - 1 - x).toNat) :
    P.Runs (.at .start 10) s fun c s' => c = .exited 0 ∧
      s'.streams = { s.streams with stdout := s.streams.stdout ++ value ++ [0xA] } := by
  have hstored : ∀ v, OnlyBelow s.mem (s.mem.write64 (s.reg .rsp - 8) v) (s.reg .rsp) 8 :=
    fun v => onlyBelow_write64 _ (by bv_omega) (by bv_omega)
  have hentry₁ : ∀ v, EntryAt (s.mem.write64 (s.reg .rsp - 8) v) S a key value :=
    fun v => hentry.congr fun x hx => hstored v x (le_trans (by norm_num) (hS x hx))
  apply Runs.instr hP rfl rfl
  apply Runs.instr hP rfl rfl
  apply Runs.callReturns hP rfl (stringLength_returns hP
    (show CString _ _ key by simpa [hrax, qw] using (hentry₁ _).holdsKey))
  rintro s₁ hrsp₁ ⟨hrax₁, hkeeps₁, hmem₁, hstreams₁⟩
  have hr12₁ := hkeeps₁ .r12 (by decide)
  simp [hrax] at hrsp₁ hmem₁ hstreams₁ hr12₁
  have hvalue : a + 8#64 + BitVec.ofNat 64 key.length + 1#64 =
      a + 8#64 + BitVec.ofNat 64 (key.length + 1) := by
    rw [BitVec.add_assoc, ofNat_add_one]
  have hbelow₁ : ∀ v, OnlyBelow s.mem (s₁.mem.write64 (s.reg .rsp - 8) v) (s.reg .rsp) 8 := by
    intro v
    rw [hmem₁]
    exact (hstored _).trans (onlyBelow_write64 _ (by bv_omega) (by bv_omega))
  have hentry₂ : ∀ v, EntryAt (s₁.mem.write64 (s.reg .rsp - 8) v) S a key value :=
    fun v => hentry.congr fun x hx => hbelow₁ v x (le_trans (by norm_num) (hS x hx))
  have hclear : Clear (a + 8 + BitVec.ofNat 64 (key.length + 1)) (value.length + 1)
      (s.reg .rsp - 8) 16 :=
    Clear.of_lower (k := 48) (p := s.reg .rsp) (fun x hx => hS x (hentry.inside_value hx))
      (by bv_omega)
  apply Runs.instr hP rfl rfl
  apply Runs.instr hP rfl rfl
  apply Runs.instr hP rfl rfl
  apply Runs.instr hP rfl rfl
  apply Runs.callReturns hP rfl (printString_returns hP
    (show CString _ _ value by simpa [hr12₁, hrax₁, hrsp₁, qw, hvalue] using (hentry₂ _).holdsValue)
    (by simpa [hr12₁, hrax₁, hrsp₁, qw, hvalue] using hclear))
  rintro s₂ hrsp₂ ⟨hstreams₂, hkeeps₂, -⟩
  apply Runs.callReturns hP rfl (printNewline_returns hP)
  rintro s₃ hrsp₃ ⟨hstreams₃, hkeeps₃, -⟩
  apply Runs.jmp hP rfl
  apply Runs.instr hP rfl rfl
  apply Runs.call hP rfl
  refine Runs.mono (exit_runs hP (show _ = 0 by simp)) ?_
  rintro c s' ⟨rfl, hstreams'⟩
  refine ⟨rfl, ?_⟩
  rw [hstreams']
  simp [hstreams₃, hstreams₂, hstreams₁]

/-- After `find_word`. -/
theorem startLookup_runs (hP : P.block = blocks sym) {S : Set Word}
    {entries : List (List Byte × List Byte)} (hfound : Found s.mem S (s.reg .rax) key entries)
    (hS : ∀ x ∈ S, 48 ≤ (s.reg .rsp - 1 - x).toNat)
    (hmessage : s.mem.Holds sym.notFoundMsg notFoundMsg)
    (happart : ∀ x : Word, (x - sym.notFoundMsg).toNat < notFoundMsg.length →
      8 ≤ (s.reg .rsp - 1 - x).toNat) :
    P.Runs (.at .start 8) s fun c s' =>
      match (entries.find? fun entry => entry.1 = key).map Prod.snd with
      | some value => c = .exited 0 ∧
          s'.streams = { s.streams with stdout := s.streams.stdout ++ value ++ [0xA] }
      | none => c = .exited 1 ∧
          s'.streams = { s.streams with stderr := s.streams.stderr ++ notFoundMsg } := by
  unfold Found at hfound
  apply Runs.instr hP rfl rfl
  apply Runs.jcc hP rfl (holds_e_ofLogic _)
  · intro hzero
    cases hfind : entries.find? fun entry => entry.1 = key with
    | none => exact startNotFound_runs hP hmessage happart
    | some entry =>
        rw [hfind] at hfound
        have hentry : EntryAt s.mem S (s.reg .rax) key entry.2 := hfound
        simp at hzero
        exact absurd hzero hentry.ne
  · intro hne
    cases hfind : entries.find? fun entry => entry.1 = key with
    | none =>
        rw [hfind] at hfound
        simp [hfound] at hne
    | some entry =>
        rw [hfind] at hfound
        exact startFound_runs hP (show EntryAt _ S _ key entry.2 from hfound) rfl hS

/-! ## The lookup -/

/-- The line is in the buffer. -/
structure KeyRead (sym : Symbols) (s : State) (key rest : List Byte) (s₁ : State) : Prop where
  rsp : s₁.reg .rsp = s.reg .rsp
  rax : s₁.reg .rax = sym.buffer
  key : s₁.mem.CString sym.buffer key
  streams : s₁.streams = ⟨rest, [], []⟩
  mem : ∀ x ∈ untouched sym s, s₁.mem x = s.mem x

/-- **Up to the line**: the key is read into the buffer. -/
theorem readKey_runs (hP : P.block = blocks sym) (hloaded : DictionaryLoaded sym base pairs s)
    (hstdin : s.streams = ⟨key ++ rest, [], []⟩) (hne : key ≠ []) (hlen : key.length ≤ 255)
    (hkey : ∀ b ∈ key, InLine b) (hend : ¬ InLine (rest.headD 0)) :
    P.Runs (.at .start 0) s fun c s₁ => c = .at .start 3 ∧ KeyRead sym s key rest.tail s₁ := by
  have hpushed : ∀ v, OnlyBelow s.mem (s.mem.write64 (s.reg .rsp - 8) v) (s.reg .rsp) 48 :=
    fun v => onlyBelow_write64 _ (by bv_omega) (by bv_omega)
  apply Runs.instr hP rfl rfl
  apply Runs.instr hP rfl rfl
  apply Runs.callReturns hP rfl (readLine_returns_of_end hP (by simp [bufferSize]) hne hlen hkey
    (show _ = key ++ rest by simp [hstdin]) hend (by simpa using hloaded.buffer))
  rintro s₁ hrsp ⟨hrax, hheld, hstreams, honly⟩
  simp [hstdin] at hrsp hrax hheld hstreams honly
  refine Runs.done ⟨rfl, hrsp, hrax, hheld, hstreams, ?_⟩
  rintro x ⟨hbuffer, hstack⟩
  rw [(honly.of_lower (p := s.reg .rsp) (k := 48) (by bv_omega)) x hbuffer hstack]
  exact hpushed _ x hstack

/-- **From the line on**: the key is looked up, and the run ends. -/
theorem lookup_runs (hP : P.block = blocks sym) (hloaded : DictionaryLoaded sym base pairs s)
    (hlen : key.length ≤ 255) (h : KeyRead sym s key rest s₁) :
    P.Runs (.at .start 3) s₁ fun c s' =>
      match dictionary pairs key with
      | some value => c = .exited 0 ∧ s'.streams = ⟨rest, value ++ [0xA], []⟩
      | none => c = .exited 1 ∧ s'.streams = ⟨rest, [], notFoundMsg⟩ := by
  have hbelow : ∀ v, OnlyBelow s₁.mem (s₁.mem.write64 (s.reg .rsp - 8) v) (s.reg .rsp) 8 :=
    fun v => onlyBelow_write64 _ (by bv_omega) (by bv_omega)
  have hbuffer : Clear sym.buffer (key.length + 1) (s.reg .rsp) 16 := fun x hx =>
    le_trans (by norm_num) (hloaded.buffer x (by omega))
  have huntouched : ∀ x ∈ untouched sym s, 8 ≤ (s.reg .rsp - 8 - 1 - x).toNat := by
    rintro x ⟨-, hstack⟩
    bv_omega
  have hstack : ∀ v, ∀ x ∈ untouched sym s,
      s₁.mem.write64 (s.reg .rsp - 8) v x = s₁.mem x := fun v x hx =>
    hbelow v x (le_trans (by norm_num) hx.2)
  have hchain : Chain s₁.mem (untouched sym s) sym.head pairs.reverse :=
    hloaded.chain.congr h.mem
  apply Runs.instr hP rfl rfl
  apply Runs.jcc hP rfl (holds_e_ofLogic _)
  · -- the address of the buffer is not zero
    intro hzero
    simp [h.rax] at hzero
    exact absurd hzero hloaded.buffer_ne
  intro _
  apply Runs.instr hP rfl rfl
  apply Runs.instr hP rfl rfl
  apply Runs.callReturns hP rfl (findWord_returns hP
    (show Chain _ (untouched sym s) _ pairs.reverse by
      simpa [h.rsp] using hchain.congr (hstack _))
    (show CString _ _ key by
      simpa [h.rax, h.rsp] using h.key.of_onlyBelow (hbelow _) (hbuffer.mono (by norm_num)))
    (by simpa [h.rax, h.rsp] using hbuffer.of_lower (by bv_omega))
    (by simpa [h.rsp] using huntouched))
  rintro s₂ hrsp ⟨hfound, hbelow₂, hstreams⟩
  simp [h.rsp] at hrsp hbelow₂ hstreams
  have hsame : ∀ x ∈ untouched sym s, s₂.mem x = s.mem x := fun x hx =>
    (hbelow₂ x (huntouched x hx)).trans ((hstack _ x hx).trans (h.mem x hx))
  rw [dictionary_eq_find]
  refine Runs.mono (startLookup_runs hP hfound ?_ ?_ ?_) ?_
  · rintro x ⟨-, hx⟩
    rw [hrsp]
    exact hx
  · exact hloaded.message.congr (by decide) fun x hx => hsame x (hloaded.message_apart x hx)
  · intro x hx
    rw [hrsp]
    exact le_trans (by norm_num) (hloaded.message_apart x hx).2
  · intro c s' hend
    cases hfind : (pairs.reverse.find? fun entry => entry.1 = key).map Prod.snd with
    | none => simpa [hfind, hstreams, h.streams] using hend
    | some value => simpa [hfind, hstreams, h.streams] using hend

/-- **The latest definition wins**: from the start, with a line on the standard input, the program
writes the value of the key and a newline and exits with 0, or writes the message and exits
with 1 when the map has no value. -/
theorem latest_definition_wins (hP : P.block = blocks sym) {base : Word}
    (hloaded : DictionaryLoaded sym base pairs s) (hstdin : s.streams = ⟨key ++ rest, [], []⟩)
    (hne : key ≠ []) (hlen : key.length ≤ 255) (hkey : ∀ b ∈ key, b ≠ 0xA ∧ b ≠ 0)
    (hrest : EndsLine rest) :
    P.Runs (.at .start 0) s fun c s' =>
      match dictionary pairs key with
      | some value => c = .exited 0 ∧ s'.streams = ⟨rest.tail, value ++ [0xA], []⟩
      | none => c = .exited 1 ∧ s'.streams = ⟨rest.tail, [], notFoundMsg⟩ := by
  have hread := readKey_runs hP hloaded hstdin hne hlen hkey hrest.not_inLine
  exact Runs.bind hread fun c s₁ ⟨hc, hkeyRead⟩ => hc ▸ lookup_runs hP hloaded hlen hkeyRead

/-- Addresses for `words.inc`, the message and the buffer. -/
def wordsSymbols : Symbols := ⟨12288, lastEntry 4096 0 words, 0, 8192⟩

def wordsMemory : Memory :=
  (Memory.store (fun _ => 0) 4096 (entryBytes 4096 0 words)).store 8192 notFoundMsg

theorem loaded_words (stdin : List Byte) :
    DictionaryLoaded wordsSymbols 4096 words (State.fresh wordsMemory 20480 stdin) := by
  have hlen : (entryBytes 4096 0 words).length = 130 := by
    simp [entryBytes, length_colon, words, ascii]
  have hmsg : notFoundMsg.length = 43 := rfl
  have hrsp : (State.fresh wordsMemory 20480 stdin).reg .rsp = 20480#64 := rfl
  have hbuffer : wordsSymbols.buffer = 12288#64 := rfl
  have hmessage : wordsSymbols.notFoundMsg = 8192#64 := rfl
  constructor
  · simp [NulFree, words, ascii]
  · decide
  · rw [hlen]
    decide
  · refine Holds.congr (bytes_store (m := fun _ => 0) (by rw [hlen]; norm_num))
      (by rw [hlen]; norm_num) ?_
    intro x hx
    apply store_of_le
    rw [hlen] at hx
    rw [hmsg]
    bv_omega
  · rfl
  · exact bytes_store (by rw [hmsg]; norm_num)
  · intro x hx
    rw [hbuffer] at hx
    rw [hrsp]
    bv_omega
  · decide
  · intro x hx
    rw [hlen] at hx
    rw [hbuffer, hrsp]
    constructor <;> bv_omega
  · intro x hx
    rw [hmsg, hmessage] at hx
    rw [hbuffer, hrsp]
    constructor <;> bv_omega

theorem latest_definition_wins_third :
    (inOrder wordsSymbols).Runs (.at .start 0)
      (State.fresh wordsMemory 20480 (ascii "third" ++ [0xA])) fun c s' =>
      c = .exited 0 ∧ s'.streams = ⟨[], ascii "3rd data" ++ [0xA], []⟩ := by
  have hfound : dictionary words (ascii "third") = some (ascii "3rd data") := by decide
  have hruns := latest_definition_wins (show (inOrder wordsSymbols).block = _ from rfl)
    (loaded_words (ascii "third" ++ [0xA]))
    (show _ = Streams.mk (ascii "third" ++ [0xA]) [] [] from rfl)
    (by decide) (by decide) (by decide) (.inr ⟨[], rfl⟩)
  rwa [hfound] at hruns

end LowLevel.Analysis
