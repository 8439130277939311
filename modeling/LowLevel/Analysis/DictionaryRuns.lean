import LowLevel.Analysis.DictionaryLookup

/-!
# Every run of the dictionary program

Whatever is on the standard input: a line of 1 to 255 characters is looked up, a longer one is
refused, and so is an empty one when there is another newline. In all other cases the program
looks for a newline for ever.
-/

set_option autoImplicit false

namespace LowLevel.Analysis

open LowLevel.Library LowLevel.Library.X86 LowLevel.Library.X86.Memory
open LowLevel.Program.Assembly LowLevel.Interface.Assembly

variable {P : Program Label} {sym : Symbols} {s s₁ : State}
  {pairs : List (List Byte × List Byte)} {base : Word} {key rest stdin : List Byte}

/-- The memory of `DictionaryLoaded`, with the other message, also beyond what a line that is too
long takes of the bytes behind the buffer. -/
structure DictionaryReady (sym : Symbols) (base : Word) (pairs : List (List Byte × List Byte))
    (s : State) : Prop extends DictionaryLoaded sym base pairs s where
  overflow : s.mem.Holds sym.overflowMsg overflowMsg
  overflow_apart : ∀ x : Word, (x - sym.overflowMsg).toNat < overflowMsg.length →
    263 ≤ (x - sym.buffer).toNat ∧ 56 ≤ (s.reg .rsp - 1 - x).toNat

/-- What the program answers: its exit status, and the streams; nothing if it does not end. The
terminator of the line is read with it. -/
def answer (pairs : List (List Byte × List Byte)) (stdin : List Byte) : Option (ℕ × Streams) :=
  let line := firstLine stdin
  if 0 < line.length ∧ line.length < 256 then
    match dictionary pairs line with
    | some value => some (0, ⟨stdin.drop (line.length + 1), value ++ [0xA], []⟩)
    | none => some (1, ⟨stdin.drop (line.length + 1), [], notFoundMsg⟩)
  else
    let left := stdin.drop (if line.length = 0 then 1 else 256)
    if 0xA ∈ left then some (1, ⟨afterLine left, [], overflowMsg⟩) else none

/-! ## A line that is refused -/

/-- The message. -/
theorem startOverflow_runs (hP : P.block = blocks sym)
    (hmessage : s.mem.Holds sym.overflowMsg overflowMsg)
    (happart : ∀ x : Word, (x - sym.overflowMsg).toNat < overflowMsg.length →
      8 ≤ (s.reg .rsp - 1 - x).toNat) :
    P.Runs (.at .startOverflow 0) s fun c s' => c = .exited 1 ∧
      s'.streams = { s.streams with stderr := s.streams.stderr ++ overflowMsg } := by
  have hlen : overflowMsg.length = 50 := rfl
  apply Runs.instr hP rfl rfl
  apply Runs.instr hP rfl rfl
  apply Runs.call hP rfl
  apply Runs.instr hP rfl rfl
  apply Runs.instr hP rfl rfl
  apply Runs.writeErr hP rfl (by simp [writeSyscall]) (by simp [stderr])
  intro s₁ hstreams hmem hkeeps
  apply Runs.instr hP rfl rfl
  apply Runs.call hP rfl
  refine Runs.mono (exit_runs hP (show _ = 1 by simp)) ?_
  rintro c s' ⟨rfl, hstreams'⟩
  refine ⟨rfl, ?_⟩
  have hheld : (s.mem.write64 (s.reg .rsp - 8#64) (P.addr .startOverflow 3)).Holds
      sym.overflowMsg overflowMsg := by
    apply hmessage.congr (by rw [hlen]; norm_num)
    intro x hx
    exact onlyBelow_write64 s.mem (p := s.reg .rsp) (n := 8) (by bv_omega) (by bv_omega) x
      (happart x hx)
  rw [Holds, hlen] at hheld
  simp [overflowMsgSize, hheld] at hstreams
  rw [hstreams']
  simpa using hstreams

/-- The state in which `read_line` is called. -/
def callsReadLine (P : Program Label) (sym : Symbols) (s : State) : State :=
  ((s.setReg .rdi sym.buffer).setReg .rsi bufferSize).push (P.addr .start 3)

/-- The call comes to the error path, with so many characters stored. -/
def Refuses (P : Program Label) (sym : Symbols) (s : State) (left : List Byte) : Prop :=
  ∃ stored k, stored.length ≤ 256 ∧
    P.RunsIn (fun _ => True) ((callsReadLine P sym s).reg .rsp) (.at .readLine 0)
      (callsReadLine P sym s) fun c s' => c = .at .readLineErr 0 ∧
        Reading (callsReadLine P sym s) 16 k { s.streams with stdin := left }
          (storeChars (pushed (callsReadLine P sym s)) ((callsReadLine P sym s).reg .rdi) stored) s'

/-- There is a newline to be found. -/
theorem refused_runs (hP : P.block = blocks sym) (hready : DictionaryReady sym base pairs s)
    {left : List Byte} (h : Refuses P sym s left) (hnewline : 0xA ∈ left) :
    P.Runs (.at .start 0) s fun c s' => c = .exited 1 ∧ s'.streams =
      { s.streams with stdin := afterLine left, stderr := s.streams.stderr ++ overflowMsg } := by
  obtain ⟨stored, k, hlen, hrun⟩ := h
  have hpushed : ∀ v, OnlyBelow s.mem (s.mem.write64 (s.reg .rsp - 8) v) (s.reg .rsp) 8 :=
    fun v => onlyBelow_write64 _ (by bv_omega) (by bv_omega)
  have hbuffer : Clear sym.buffer 256 (s.reg .rsp) 48 := hready.buffer.of_le (by norm_num)
  have hclear : Clear ((callsReadLine P sym s).reg .rdi) 256
      ((callsReadLine P sym s).reg .rsp + 8) 48 := by
    simpa [callsReadLine] using hbuffer
  apply Runs.instr hP rfl rfl
  apply Runs.instr hP rfl rfl
  apply Runs.callReturns hP rfl (readLine_returns_of_err hP hrun hnewline hlen hclear)
  rintro s₁ hrsp ⟨hrax, hstreams, hmem⟩
  have hfar : ∀ x : Word, (x - sym.overflowMsg).toNat < overflowMsg.length →
      s₁.mem x = s.mem x := by
    intro x hx
    obtain ⟨hbuffer, hstack⟩ := hready.overflow_apart x hx
    have hlower : 48 ≤ (s.reg .rsp - 8 - 1 - x).toNat := by bv_omega
    rw [hmem x (by simpa [callsReadLine] using hbuffer) (by simpa [callsReadLine] using hlower)]
    exact hpushed _ x (by omega)
  apply Runs.instr hP rfl rfl
  apply Runs.jcc hP rfl (holds_e_ofLogic _)
  · intro _
    refine Runs.mono (startOverflow_runs hP ?_ ?_) ?_
    · exact hready.overflow.congr (by decide) hfar
    · intro x hx
      have hstack := (hready.overflow_apart x hx).2
      simp at hrsp
      rw [State.reg_setFlags, hrsp]
      omega
    · rintro c s' ⟨rfl, hstreams'⟩
      refine ⟨rfl, ?_⟩
      rw [hstreams']
      simp [hstreams]
  · intro hne
    simp [hrax] at hne

/-- There is none. -/
theorem refused_goesOn (hP : P.block = blocks sym) {left : List Byte} (h : Refuses P sym s left)
    (hnewline : 0xA ∉ left) : P.GoesOn (.at .start 0, s) := by
  obtain ⟨stored, k, -, hrun⟩ := h
  have hcall : P.Runs (.at .start 0) s fun c s₁ => c = .at .readLine 0 ∧
      s₁ = callsReadLine P sym s := by
    apply Runs.instr hP rfl rfl
    apply Runs.instr hP rfl rfl
    apply Runs.call hP rfl
    exact Runs.done ⟨rfl, rfl⟩
  refine Program.Runs.goesOn hcall ?_
  rintro c s₁ ⟨rfl, rfl⟩
  exact (readLine_divergesIn_of_err hP hrun hnewline).goesOn

/-! ## The three ends of the line -/

/-- An empty line. -/
theorem refuses_empty (hP : P.block = blocks sym) (hend : ¬ InLine (s.streams.stdin.headD 0)) :
    Refuses P sym s (s.streams.stdin.drop 1) := by
  refine ⟨[], 0, by norm_num, ?_⟩
  rw [List.drop_one]
  exact readLine_refuses_empty hP hend

/-- A line of 256 characters or more. -/
theorem refuses_long (hP : P.block = blocks sym) (hstdin : s.streams.stdin = key ++ rest)
    (hkey : ∀ b ∈ key, InLine b) (hlen : 256 ≤ key.length) :
    Refuses P sym s (s.streams.stdin.drop 256) := by
  have hsize : ((callsReadLine P sym s).reg .rsi).toNat = 256 := rfl
  refine ⟨key.take 256, 256, List.length_take_le 256 key, ?_⟩
  rw [hstdin, List.drop_append_of_le_length hlen]
  refine readLine_stops hP hstdin hkey (k := 255) (by omega)
    (fun j hj => not_exceeds (by omega) (by omega)) ?_
  rw [show (255 + 1) = ((callsReadLine P sym s).reg .rsi).toNat from rfl]
  exact exceeds_size (by omega) (by omega)

/-- **Every run of the program**: it ends as `answer` says, or does not end. -/
theorem dictionary_answers (hP : P.block = blocks sym) (hready : DictionaryReady sym base pairs s)
    (hstdin : s.streams = ⟨stdin, [], []⟩) :
    match answer pairs stdin with
    | some (status, streams) =>
        P.Runs (.at .start 0) s fun c s' => c = .exited status ∧ s'.streams = streams
    | none => P.GoesOn (.at .start 0, s) := by
  obtain ⟨rest, hline, hend, hkey⟩ := firstLine_spec stdin
  unfold answer
  dsimp only
  generalize firstLine stdin = key at *
  by_cases hfits : 0 < key.length ∧ key.length < 256
  · have hbehind : stdin.drop (key.length + 1) = rest.tail := by
      rw [hline, List.drop_length_add_append, List.drop_one]
    have hrun := Runs.bind (readKey_runs hP hready.toDictionaryLoaded (hline ▸ hstdin)
      (List.length_pos_iff.mp hfits.1) (by omega) hkey hend)
        fun c s₁ ⟨hc, hread⟩ => hc ▸ lookup_runs hP hready.toDictionaryLoaded (by omega) hread
    rw [if_pos hfits, hbehind]
    cases hvalue : dictionary pairs key with
    | none => simpa [hvalue] using hrun
    | some value => simpa [hvalue] using hrun
  · have hrefuses : Refuses P sym s (stdin.drop (if key.length = 0 then 1 else 256)) := by
      have hstreams : s.streams.stdin = stdin := by rw [hstdin]
      split_ifs with hempty
      · rw [List.length_eq_zero_iff.mp hempty, List.nil_append] at hline
        rw [← hstreams]
        exact refuses_empty hP (by rw [hstreams, hline]; exact hend)
      · rw [← hstreams]
        exact refuses_long hP (hstreams.trans hline) hkey (by omega)
    rw [if_neg hfits]
    generalize stdin.drop (if key.length = 0 then 1 else 256) = left at *
    split_ifs with hnewline
    · simpa [hstdin] using refused_runs hP hready hrefuses hnewline
    · exact refused_goesOn hP hrefuses hnewline

/-! ## The program with the words of `words.inc` -/

/-- Addresses for the second message, too. -/
def readySymbols : Symbols := { wordsSymbols with overflowMsg := 8448 }

theorem ready_words (stdin : List Byte) : DictionaryReady readySymbols 4096 words
    (State.fresh (wordsMemory.store 8448 overflowMsg) 20480 stdin) := by
  have h := loaded_words stdin
  have hentries : (entryBytes 4096 0 words).length = 130 := by
    simp [entryBytes, length_colon, words, ascii]
  have hnotFound : notFoundMsg.length = 43 := rfl
  have hoverflow : overflowMsg.length = 50 := rfl
  have hrsp : (State.fresh (wordsMemory.store 8448 overflowMsg) 20480 stdin).reg .rsp = 20480#64 :=
    rfl
  refine ⟨⟨h.nul, h.base_ne, h.fits, ?_, h.head, ?_, h.buffer, h.buffer_ne, h.entries_apart,
    h.message_apart⟩, bytes_store (by decide), fun x hx => ?_⟩
  · refine h.entries.congr (by rw [hentries]; norm_num) fun x hx => store_of_le ?_
    rw [hentries] at hx
    rw [hoverflow]
    bv_omega
  · refine h.message.congr (by rw [hnotFound]; norm_num) fun x hx => store_of_le ?_
    have hmessage : wordsSymbols.notFoundMsg = 8192#64 := rfl
    rw [hnotFound, hmessage] at hx
    rw [hoverflow]
    bv_omega
  · have hmessage : readySymbols.overflowMsg = 8448#64 := rfl
    have hbuffer : readySymbols.buffer = 12288#64 := rfl
    rw [hoverflow, hmessage] at hx
    rw [hbuffer, hrsp]
    constructor <;> bv_omega

/-- Only a newline, and nothing behind it. -/
theorem dictionary_answers_newline : (inOrder readySymbols).GoesOn (.at .start 0,
    State.fresh (wordsMemory.store 8448 overflowMsg) 20480 [0xA]) :=
  dictionary_answers rfl (ready_words [0xA]) rfl

end LowLevel.Analysis
