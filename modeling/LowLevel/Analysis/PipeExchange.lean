import LowLevel.Program.Pipes
import LowLevel.Library.Transitions

/-!
# Every array arrives

The messages of the child reach the parent whole, once and in their order, however the two
processes take turns: every run comes to its end, and has then printed the array after each change.
-/

set_option autoImplicit false

namespace LowLevel.Analysis.Pipes

open Library Program.Pipes

variable {s s' : State} {capacity : ℕ} {padding : Byte × Byte × Byte} {text : String}

section Messages

/-- Where a number stands among the bytes of an array. -/
theorem number_at (vs : List CInt) (i : ℕ) (hi : i < vs.length) (rest : List Byte) :
    ((((vs.flatMap fun v => leBytes 4 v.toNat) ++ rest).drop (4 * i)).take 4) =
      leBytes 4 vs[i].toNat := by
  induction vs generalizing i with
  | nil => simp at hi
  | cons v vs ih =>
      rw [List.flatMap_cons, List.append_assoc]
      cases i with
      | zero => exact List.take_left' (length_leBytes ..)
      | succ i =>
          rw [show 4 * (i + 1) = 4 + 4 * i by ring, ← List.drop_drop,
            List.drop_left' (length_leBytes ..)]
          exact ih i (Nat.lt_of_succ_lt_succ hi)

/-- A message has the size that the parent reads. -/
theorem length_encode {d : ExchangeData} (h : d.arr.length = 10) :
    (d.encode padding).length = sizeofExchangeData := by
  simp [ExchangeData.encode, h, sizeofExchangeData]

/-- **A message is read back** from its bytes, whatever the padding is and whatever follows. -/
theorem decode_encode {d : ExchangeData} (h : d.arr.length = 10) (rest : List Byte) :
    ExchangeData.decode (d.encode padding ++ rest) = d := by
  obtain ⟨finished, arr⟩ := d
  simp only [ExchangeData.decode, ExchangeData.encode, ExchangeData.mk.injEq]
  constructor
  · cases finished <;> rfl
  · refine List.ext_getElem (by simpa using h.symm) fun i hi _ => ?_
    have hbound : i < arr.length := by simpa [h] using hi
    have hlt : (arr[i]).toNat < 256 ^ 4 := (arr[i]).isLt
    rw [List.getElem_map, List.getElem_range, ← List.drop_drop]
    simp only [List.cons_append, List.drop_succ_cons, List.drop_zero]
    rw [number_at arr i hbound, leNat_leBytes_of_lt hlt, BitVec.ofNat_toNat]
    exact BitVec.setWidth_eq _

end Messages

def data (arr : List CInt) : ExchangeData := ⟨false, arr⟩

def breakData : ExchangeData := ⟨true, List.replicate 10 0⟩

/-- The arrays that the child is going to send, from its own array and the numbers to come; none
where it gets into something undefined. -/
def arrays (arr : List CInt) : List ℤ → Option (List (List CInt))
  | [] => none
  | input :: stdin =>
      if input < 0 then some []
      else (doubled arr input).bind fun arr' => (arrays arr' stdin).map (arr' :: ·)

/-- What the child will write, from an array and the rest of the input. -/
def messages (arr : List CInt) (stdin : List ℤ) : Option (List ExchangeData) :=
  (arrays arr stdin).map fun as => as.map data ++ [breakData]

/-- What the child is still going to send. -/
def future (s : State) : Option (List ExchangeData) :=
  match s.child with
  | .start | .scan => messages s.arr s.stdin
  | .send => (messages s.arr s.stdin).map (data s.arr :: ·)
  | .sendBreak => some [breakData]
  | .close | .exited => some []
  | .undefined | .killed => none

/-- Bytes of a message, whatever its padding is. -/
def Encodes (piece : List Byte) (m : ExchangeData) : Prop :=
  m.arr.length = 10 ∧ ∃ padding, piece = m.encode padding

/-- The parent prints the messages up to the last one, which is the only one that ends the
exchange. -/
def Awaits (ms : List ExchangeData) (rest : String) : Prop :=
  ∃ as : List (List CInt), ms = as.map data ++ [breakData] ∧ rest = String.join (as.map line)

/-- What is under way or still to be sent is what the parent has not printed yet. -/
def Pending (text : String) (s : State) (ms : List ExchangeData) : Prop :=
  match s.parent with
  | .start | .read => ∃ rest, Awaits ms rest ∧ text = s.stdout ++ rest
  | .print => ∃ rest, Awaits ms rest ∧
      text = s.stdout ++ line (ExchangeData.decode s.message).arr ++ rest
  | .close | .exited => ms = [] ∧ text = s.stdout

structure Inv (text : String) (s : State) : Prop where
  length : s.arr.length = 10
  readers : s.pipe.readers =
    (if s.child = .start then 1 else 0) + if s.parent = .exited then 0 else 1
  writers : s.pipe.writers =
    (if s.parent = .start then 1 else 0) + if s.child = .exited then 0 else 1
  exchange : ∃ ms fut, Pipe.Carries Encodes s.pipe.bytes ms ∧ future s = some fut ∧
    Pending text s (ms ++ fut)

theorem length_doubled {arr arr' : List CInt} {input : ℤ} (h : doubled arr input = some arr') :
    arr'.length = arr.length := by
  unfold doubled at h
  obtain ⟨v, -, hv⟩ := Option.bind_eq_some_iff.mp h
  rw [Option.ite_none_right_eq_some, Option.some.injEq] at hv
  rw [← hv.2, List.length_set]

/-- What the child has left to send, after a write that went through. -/
theorem send_spec {s : State} {m : ExchangeData} {next : ChildAt}
    (h : s.send capacity (m.encode padding) next = some s') (hreaders : 0 < s.pipe.readers) :
    s' = { s with
      child := next
      pipe := { s.pipe with bytes := s.pipe.bytes ++ m.encode padding } } := by
  rw [State.send, if_neg (by omega)] at h
  obtain ⟨pipe, hwrite, rfl⟩ := Option.map_eq_some_iff.mp h
  rw [Pipe.write_eq_some hwrite]

/-- While a message is to come, somebody can read it. -/
theorem Pending.readers (hI : Inv text s) {ms : List ExchangeData} (h : Pending text s ms) :
    0 < s.pipe.readers ∨ ms = [] := by
  have hreaders := hI.readers
  cases hparent : s.parent <;> simp only [hparent, reduceCtorEq, if_false] at hreaders
  case exited => exact .inr (by simp only [Pending, hparent] at h; exact h.1)
  all_goals exact .inl (by omega)

/-- What a step of the child changes, where `fut` is what it was going to send. -/
structure Acted (padding : Byte × Byte × Byte) (fut : List ExchangeData) (s s' : State) : Prop where
  parent : s'.parent = s.parent
  message : s'.message = s.message
  stdout : s'.stdout = s.stdout
  length : s'.arr.length = 10
  readers : s'.pipe.readers =
    (if s'.child = .start then 1 else 0) + if s.parent = .exited then 0 else 1
  writers : s'.pipe.writers =
    (if s.parent = .start then 1 else 0) + if s'.child = .exited then 0 else 1
  sent : future s' = some fut ∧ s'.pipe.bytes = s.pipe.bytes ∨
    ∃ m fut', fut = m :: fut' ∧ m.arr.length = 10 ∧ future s' = some fut' ∧
      s'.pipe.bytes = s.pipe.bytes ++ m.encode padding

/-- A statement of the child sends the next message, or none. -/
theorem acted_of_childStep {fut : List ExchangeData} (hI : Inv text s)
    (h : childStep capacity padding s = some s') (hfut : future s = some fut)
    (hopen : 0 < s.pipe.readers ∨ fut = []) : Acted padding fut s s' := by
  have hlength := hI.length
  have hreaders := hI.readers
  have hwriters := hI.writers
  unfold childStep at h
  cases hchild : s.child <;> simp only [hchild, Option.some.injEq, reduceCtorEq] at h
  case start =>
      subst h
      refine ⟨rfl, rfl, rfl, hlength, ?_, ?_, .inl ⟨by simpa [future, hchild] using hfut, rfl⟩⟩
      · simp [hreaders, hchild]
      · simp [hwriters, hchild]
  case scan =>
      simp only [future, hchild, messages] at hfut
      cases hstdin : s.stdin with
      | nil => simp [arrays, hstdin] at hfut
      | cons input stdin =>
          simp only [hstdin] at h
          simp only [hstdin, arrays] at hfut
          split at h
          case isTrue hneg =>
              obtain rfl := Option.some.inj h
              rw [if_pos hneg] at hfut
              refine ⟨rfl, rfl, rfl, hlength, ?_, ?_, .inl ⟨hfut, rfl⟩⟩
              · simp [hreaders, hchild]
              · simp [hwriters, hchild]
          case isFalse hneg =>
              rw [if_neg hneg] at hfut
              split at h
              case h_2 hnone => simp [hnone] at hfut
              case h_1 arr harr =>
                  obtain rfl := Option.some.inj h
                  refine ⟨rfl, rfl, rfl, (length_doubled harr).trans hlength, ?_, ?_,
                    .inl ⟨?_, rfl⟩⟩
                  · simp [hreaders, hchild]
                  · simp [hwriters, hchild]
                  · simp only [harr, Option.bind_some, Option.map_map] at hfut
                    simpa [future, messages, Function.comp_def] using hfut
  case send =>
      simp only [future, hchild] at hfut
      obtain ⟨fut', hfut', rfl⟩ := Option.map_eq_some_iff.mp hfut
      rw [send_spec h (hopen.resolve_right (by simp))]
      refine ⟨rfl, rfl, rfl, hlength, ?_, ?_, .inr ⟨_, fut', rfl, hlength, hfut', rfl⟩⟩
      · simp [hreaders, hchild]
      · simp [hwriters, hchild]
  case sendBreak =>
      simp only [future, hchild, Option.some.injEq] at hfut
      subst hfut
      rw [send_spec h (hopen.resolve_right (by simp))]
      refine ⟨rfl, rfl, rfl, hlength, ?_, ?_, .inr ⟨_, [], rfl, by simp [breakData], rfl, rfl⟩⟩
      · simp [hreaders, hchild]
      · simp [hwriters, hchild]
  case close =>
      subst h
      refine ⟨rfl, rfl, rfl, hlength, ?_, ?_, .inl ⟨by simpa [future, hchild] using hfut, rfl⟩⟩
      · simp [hreaders, hchild]
      · simp [hwriters, hchild]

/-- The first message either ends the exchange or gives a line. -/
theorem awaits_cons {m : ExchangeData} {ms : List ExchangeData} {rest : String}
    (h : Awaits (m :: ms) rest) :
    m.finished = true ∧ ms = [] ∧ rest = "" ∨
      m.finished = false ∧ ∃ rest', Awaits ms rest' ∧ rest = line m.arr ++ rest' := by
  obtain ⟨as, hms, rfl⟩ := h
  cases as with
  | nil =>
      obtain ⟨rfl, rfl⟩ := List.cons.inj hms
      exact .inl ⟨rfl, rfl, rfl⟩
  | cons a as =>
      obtain ⟨rfl, rfl⟩ := List.cons.inj hms
      exact .inr ⟨rfl, _, ⟨as, rfl, rfl⟩, by simp [data]⟩

theorem Inv.child (hI : Inv text s) (h : childStep capacity padding s = some s') : Inv text s' := by
  obtain ⟨ms, fut, hms, hfut, hpending⟩ := hI.exchange
  have hopen : 0 < s.pipe.readers ∨ fut = [] :=
    (hpending.readers hI).imp id fun hnil => (List.append_eq_nil_iff.mp hnil).2
  obtain ⟨hparent, hmessage, hstdout, hlength, hreaders, hwriters, hsent⟩ :=
    acted_of_childStep hI h hfut hopen
  have hsame : ∀ ms, Pending text s' ms ↔ Pending text s ms := by
    intro ms
    simp only [Pending, hparent, hmessage, hstdout]
  refine ⟨hlength, hparent ▸ hreaders, hparent ▸ hwriters, ?_⟩
  obtain ⟨hfut', hbytes⟩ | ⟨m, fut', rfl, hm, hfut', hbytes⟩ := hsent
  · exact ⟨ms, fut, hbytes ▸ hms, hfut', (hsame _).mpr hpending⟩
  · refine ⟨ms ++ [m], fut', hbytes ▸ hms.snoc ⟨hm, padding, rfl⟩, hfut', (hsame _).mpr ?_⟩
    rwa [List.append_assoc, List.singleton_append]

/-- **What the parent reads** is one message as a whole: the pipe does not come to its end before
the message that ends the exchange. -/
theorem read_spec (hI : Inv text s) (hparent : s.parent = .read) (h : parentStep s = some s') :
    ∃ m padding bytes ms fut rest, m.arr.length = 10 ∧
      s.pipe.bytes = m.encode padding ++ bytes ∧ Pipe.Carries Encodes bytes ms ∧
      future s = some fut ∧ Awaits (m :: ms ++ fut) rest ∧ text = s.stdout ++ rest ∧
      s' = { s with
        parent := if m.finished then .close else .print
        pipe := { s.pipe with bytes := bytes }
        message := m.encode padding ++ s.message.drop sizeofExchangeData } := by
  have hwriters := hI.writers
  obtain ⟨ms, fut, hms, hfut, hpending⟩ := hI.exchange
  simp only [Pending, hparent] at hpending
  simp only [parentStep, hparent] at h
  obtain ⟨rest, hawaits, htext⟩ := hpending
  cases ms with
  | nil =>
      have hempty := hms.eq_nil
      rw [Pipe.read] at h
      split at h
      case isTrue => cases h
      case isFalse hblocked =>
          have hexited : s.child = .exited := by
            by_contra hchild
            simp [hempty, hwriters, hchild] at hblocked
          simp only [future, hexited, Option.some.injEq] at hfut
          subst hfut
          obtain ⟨as, hnil, -⟩ := hawaits
          simp at hnil
  | cons m ms =>
      obtain ⟨piece, bytes, ⟨hlength, padding, rfl⟩, hms', hbytes, hread⟩ :=
        hms.read (n := sizeofExchangeData) (by decide)
          (by rintro piece a ⟨hlength, padding, rfl⟩; exact length_encode hlength)
      have hne : m.encode padding ≠ [] := by simp [ExchangeData.encode]
      rw [hread] at h
      simp only [Option.bind_eq_bind, Option.bind_some, Option.some.injEq, decode_encode hlength,
        length_encode hlength, hne, false_or] at h
      exact ⟨m, padding, bytes, ms, fut, rest, hlength, hbytes, hms', hfut, hawaits, htext, h.symm⟩

theorem Inv.parent (hI : Inv text s) (h : parentStep s = some s') : Inv text s' := by
  have hreaders := hI.readers
  have hwriters := hI.writers
  cases hparent : s.parent
  case read =>
      obtain ⟨m, padding, bytes, ms, fut, rest, hlength, -, hms, hfut, hawaits, htext, rfl⟩ :=
        read_spec hI hparent h
      refine ⟨hI.length, ?_, ?_, ms, fut, hms, hfut, ?_⟩
      · split <;> simp [hreaders, hparent]
      · split <;> simp [hwriters, hparent]
      · obtain ⟨hfinished, hlast, rfl⟩ | ⟨hfinished, rest', hawaits', rfl⟩ := awaits_cons hawaits
        · simp only [Pending, hfinished, if_true]
          exact ⟨hlast, by rw [htext, String.append_empty]⟩
        · simp only [Pending, hfinished, Bool.false_eq_true, if_false, decode_encode hlength]
          exact ⟨rest', hawaits', by rw [htext, String.append_assoc]⟩
  case exited => simp [parentStep, hparent] at h
  case start | print | close =>
      obtain ⟨ms, fut, hms, hfut, hpending⟩ := hI.exchange
      simp only [parentStep, hparent, Option.some.injEq] at h
      subst h
      simp only [Pending, hparent] at hpending
      exact ⟨hI.length, by simp [hreaders, hparent], by simp [hwriters, hparent],
        ms, fut, hms, hfut, hpending⟩

/-- The invariant at the start, for an input whose indices are in the array. -/
theorem inv_initial {stdin : List ℤ} {as : List (List CInt)} (garbage : List Byte)
    (h : arrays (initial stdin garbage).arr stdin = some as) :
    Inv (String.join (as.map line)) (initial stdin garbage) := by
  refine ⟨rfl, rfl, rfl, [], as.map data ++ [breakData], Pipe.carries_nil, ?_, ?_⟩
  · exact congrArg (Option.map _) h
  · exact ⟨_, ⟨as, rfl, rfl⟩, String.empty_append.symm⟩

theorem Inv.step (hI : Inv text s) (h : Step capacity s s') : Inv text s' := by
  cases h with
  | child padding h => exact hI.child h
  | parent h => exact hI.parent h

def childWork (s : State) : ℕ :=
  match s.child with
  | .start => 100 * s.stdin.length + 61
  | .scan => 100 * s.stdin.length + 60
  | .send => 100 * s.stdin.length + 112
  | .sendBreak => 52
  | .close => 2
  | .exited | .undefined | .killed => 0

def parentWork : ParentAt → ℕ
  | .start => 4
  | .print => 3
  | .read => 2
  | .close => 1
  | .exited => 0

/-- What the two processes have left to do. -/
def work (s : State) : ℕ := childWork s + s.pipe.bytes.length + parentWork s.parent

theorem work_childStep {fut : List ExchangeData} (hI : Inv text s)
    (h : childStep capacity padding s = some s') (hfut : future s = some fut)
    (hopen : 0 < s.pipe.readers ∨ fut = []) : work s' < work s := by
  unfold childStep at h
  cases hchild : s.child <;> simp only [hchild, Option.some.injEq, reduceCtorEq] at h
  case start =>
      subst h
      simp [work, childWork, hchild]
  case scan =>
      cases hstdin : s.stdin with
      | nil => simp [future, hchild, messages, arrays, hstdin] at hfut
      | cons input stdin =>
          simp only [hstdin] at h
          split at h
          case isTrue =>
              obtain rfl := Option.some.inj h
              simp [work, childWork, hchild, hstdin]
          case isFalse =>
              split at h <;> obtain rfl := Option.some.inj h
              · simp only [work, childWork, hchild, hstdin, List.length_cons]
                omega
              · simp [work, childWork, hchild, hstdin]
  case send =>
      rw [send_spec h (hopen.resolve_right (by rintro rfl; simp [future, hchild] at hfut))]
      simp only [work, childWork, hchild, List.length_append,
        length_encode (d := ⟨false, s.arr⟩) hI.length, sizeofExchangeData]
      omega
  case sendBreak =>
      rw [send_spec h (hopen.resolve_right (by rintro rfl; simp [future, hchild] at hfut))]
      simp only [work, childWork, hchild, List.length_append,
        length_encode (d := ⟨true, List.replicate 10 0⟩) rfl, sizeofExchangeData]
      omega
  case close =>
      subst h
      simp [work, childWork, hchild]

theorem work_parentStep (hI : Inv text s) (h : parentStep s = some s') : work s' < work s := by
  cases hparent : s.parent
  case read =>
      obtain ⟨m, padding, bytes, ms, fut, rest, hlength, hbytes, -, -, -, -, rfl⟩ :=
        read_spec hI hparent h
      have hle : parentWork (if m.finished then .close else .print) ≤ 3 := by
        split <;> simp [parentWork]
      simp only [work, hparent, hbytes, List.length_append, length_encode hlength,
        sizeofExchangeData]
      simp only [childWork, parentWork] at hle ⊢
      omega
  case exited => simp [parentStep, hparent] at h
  case start | print | close =>
      simp only [parentStep, hparent, Option.some.injEq] at h
      subst h
      simp [work, childWork, hparent, parentWork]

/-- Every step leaves less to do. -/
theorem work_step (hI : Inv text s) (h : Step capacity s s') : work s' < work s := by
  cases h with
  | parent h => exact work_parentStep hI h
  | child padding h =>
      obtain ⟨ms, fut, -, hfut, hpending⟩ := hI.exchange
      refine work_childStep hI h hfut ?_
      exact (hpending.readers hI).imp id fun hnil => (List.append_eq_nil_iff.mp hnil).2

/-- A write of the child waits only when there is something to read. -/
theorem send_eq_none {m : ExchangeData} {next : ChildAt} (hcapacity : sizeofExchangeData ≤ capacity)
    (hlength : m.arr.length = 10) (h : s.send capacity (m.encode padding) next = none) :
    s.pipe.bytes ≠ [] := by
  intro hempty
  rw [State.send] at h
  split at h
  case isTrue => cases h
  case isFalse =>
      rw [Pipe.write, hempty, length_encode hlength, List.length_nil, Nat.zero_add,
        if_pos hcapacity] at h
      cases h

/-- The child goes on unless it is over or the parent can read. -/
theorem child_of_stuck (hcapacity : sizeofExchangeData ≤ capacity) (hI : Inv text s)
    (h : childStep capacity padding s = none) : s.child = .exited ∨ s.pipe.bytes ≠ [] := by
  obtain ⟨ms, fut, -, hfut, -⟩ := hI.exchange
  unfold childStep at h
  cases hchild : s.child <;> simp only [hchild, reduceCtorEq] at h
  case scan =>
      cases hstdin : s.stdin <;> simp only [hstdin, reduceCtorEq] at h
      split at h
      · cases h
      · split at h <;> cases h
  case send => exact .inr (send_eq_none hcapacity hI.length h)
  case sendBreak => exact .inr (send_eq_none hcapacity rfl h)
  case exited => exact .inl rfl
  case undefined | killed => simp [future, hchild] at hfut

/-- **No deadlock**: a pipe that takes one message is never full and empty at once. -/
theorem exited_of_stuck (hcapacity : sizeofExchangeData ≤ capacity) (hI : Inv text s)
    (hstuck : ∀ s', ¬ Step capacity s s') : s.child = .exited ∧ s.parent = .exited := by
  have hchild : ∀ padding, childStep capacity padding s = none := fun padding =>
    Option.eq_none_iff_forall_ne_some.mpr fun s' hs' => hstuck s' (.child padding hs')
  have hparent : parentStep s = none :=
    Option.eq_none_iff_forall_ne_some.mpr fun s' hs' => hstuck s' (.parent hs')
  have hgoes := child_of_stuck hcapacity hI (hchild 0)
  have hwriters := hI.writers
  unfold parentStep at hparent
  cases hat : s.parent <;> simp only [hat, reduceCtorEq] at hparent hwriters
  case exited =>
      refine ⟨hgoes.resolve_right fun hbytes => ?_, rfl⟩
      obtain ⟨ms, fut, hms, -, hpending⟩ := hI.exchange
      simp only [Pending, hat, List.append_eq_nil_iff] at hpending
      rw [hpending.1.1] at hms
      exact hbytes hms.eq_nil
  case read =>
      have hwait : s.pipe.bytes = [] ∧ 0 < s.pipe.writers := by
        by_contra hread
        simp [Pipe.read, hread] at hparent
      have hexited := hgoes.resolve_right (not_not_intro hwait.1)
      simp [hexited, hwriters] at hwait

/-- The array after the changes that the numbers ask for. -/
def arrayAfter (inputs : List ℤ) : List ℕ :=
  (List.range 10).map fun j : ℕ => j * 2 ^ inputs.count (j : ℤ)

/-- The line with the numbers of the array. -/
def lineAfter (inputs : List ℤ) : String :=
  String.join ((arrayAfter inputs).map fun v => toString v ++ " ") ++ "\n"

/-- The same array as the program holds it. -/
def numbers (inputs : List ℤ) : List CInt := (arrayAfter inputs).map (BitVec.ofNat 32)

theorem length_numbers (inputs : List ℤ) : (numbers inputs).length = 10 := by
  simp [numbers, arrayAfter]

theorem toInt_number {v : ℕ} (h : v < 2 ^ 31) : (BitVec.ofNat 32 v).toInt = v := by
  have hvalue : (BitVec.ofNat 32 v).toNat = v := by
    rw [BitVec.toNat_ofNat, Nat.mod_eq_of_lt (by omega)]
  rw [BitVec.toInt_eq_toNat_of_lt (by omega), hvalue]

/-- In range, the line that is printed shows the numbers. -/
theorem line_numbers {inputs : List ℤ} (hrange : ∀ v ∈ arrayAfter inputs, v < 2 ^ 31) :
    line (numbers inputs) = lineAfter inputs := by
  rw [line, lineAfter, numbers, List.map_map]
  congr 2
  refine List.map_congr_left fun v hv => ?_
  rw [Function.comp_apply, toInt_number (hrange v hv)]
  rfl

/-- **One change**: the element that the number asks for is doubled. -/
theorem doubled_numbers {inputs : List ℤ} {input : ℤ} (hpos : 0 ≤ input) (hlt : input < 10)
    (hrange : ∀ v ∈ arrayAfter (inputs ++ [input]), v < 2 ^ 31) :
    doubled (numbers inputs) input = some (numbers (inputs ++ [input])) := by
  obtain ⟨i, rfl⟩ := Int.eq_ofNat_of_zero_le hpos
  have hi : i < 10 := by omega
  have hdouble : i * 2 ^ (inputs ++ [(i : ℤ)]).count (i : ℤ) =
      i * 2 ^ inputs.count (i : ℤ) * 2 := by
    rw [List.count_append, List.count_singleton_self, Nat.pow_succ, Nat.mul_assoc]
  have hbound : i * 2 ^ inputs.count (i : ℤ) * 2 < 2 ^ 31 :=
    hdouble ▸ hrange _ (List.mem_map.mpr ⟨i, by simpa using hi, rfl⟩)
  have hget : (numbers inputs)[i]? = some (BitVec.ofNat 32 (i * 2 ^ inputs.count (i : ℤ))) := by
    simp [numbers, arrayAfter, hi]
  have hvalue := toInt_number (v := i * 2 ^ inputs.count (i : ℤ)) (by omega)
  rw [doubled, Int.toNat_natCast, hget, Option.bind_eq_bind, Option.bind_some,
    if_pos (by rw [hvalue]; omega), Option.some.injEq]
  refine List.ext_getElem (by simp [length_numbers]) fun j hj hj' => ?_
  rw [List.getElem_set]
  split
  case isTrue heq =>
      subst heq
      simp only [numbers, arrayAfter, List.getElem_map, List.getElem_range, hdouble]
      exact (BitVec.ofNat_mul ..).symm
  case isFalse hne =>
      have hcount : (inputs ++ [(i : ℤ)]).count (j : ℤ) = inputs.count (j : ℤ) := by
        rw [List.count_append, List.count_singleton, if_neg (by simpa using hne), Nat.add_zero]
      simp only [numbers, arrayAfter, List.getElem_map, List.getElem_range, hcount]

/-- No element ever shrinks, so the bound at the end holds all along. -/
theorem arrayAfter_lt {done : List ℤ} (todo : List ℤ)
    (hrange : ∀ v ∈ arrayAfter (done ++ todo), v < 2 ^ 31) : ∀ v ∈ arrayAfter done, v < 2 ^ 31 := by
  intro v hv
  obtain ⟨j, hj, rfl⟩ := List.mem_map.mp hv
  have hle : done.count (j : ℤ) ≤ (done ++ todo).count (j : ℤ) := by
    rw [List.count_append]
    omega
  exact (Nat.mul_le_mul_left j (Nat.pow_le_pow_right (by decide) hle)).trans_lt
    (hrange _ (List.mem_map.mpr ⟨j, hj, rfl⟩))

/-- The arrays that are sent, after the numbers that have been read already. -/
theorem arrays_numbers (done : List ℤ) {todo rest : List ℤ} {stop : ℤ} (hstop : stop < 0)
    (hindex : ∀ i ∈ todo, 0 ≤ i ∧ i < 10)
    (hrange : ∀ v ∈ arrayAfter (done ++ todo), v < 2 ^ 31) :
    arrays (numbers done) (todo ++ stop :: rest) =
      some ((List.range todo.length).map fun k => numbers (done ++ todo.take (k + 1))) := by
  induction todo generalizing done with
  | nil => simp [arrays, hstop]
  | cons i todo ih =>
      have hi := hindex i List.mem_cons_self
      rw [← List.singleton_append, ← List.append_assoc] at hrange
      rw [List.cons_append, arrays, if_neg (by omega),
        doubled_numbers hi.1 hi.2 (arrayAfter_lt todo hrange), Option.bind_some,
        ih _ (fun j hj => hindex j (List.mem_cons_of_mem _ hj)) hrange, Option.map_some,
        List.length_cons, List.range_succ_eq_map, List.map_cons, List.map_map]
      simp [Function.comp_def]

/-- **No array is lost, doubled or torn.** When the numbers up to the first negative one are
indices and no element grows out of its type, every run of the two processes comes to its end, and
the parent has then printed the array after each change, in the order of the changes. -/
theorem every_array_arrives {inputs rest : List ℤ} {stop : ℤ} (garbage : List Byte)
    (hcapacity : sizeofExchangeData ≤ capacity) (hstop : stop < 0)
    (hindex : ∀ i ∈ inputs, 0 ≤ i ∧ i < 10)
    (hrange : ∀ v ∈ arrayAfter inputs, v < 2 ^ 31) :
    EndsIn (Step capacity)
      (fun s => s.child = .exited ∧ s.parent = .exited ∧
        s.stdout = String.join ((List.range inputs.length).map fun k =>
          lineAfter (inputs.take (k + 1))))
      (initial (inputs ++ stop :: rest) garbage) := by
  have harrays : arrays (initial (inputs ++ stop :: rest) garbage).arr (inputs ++ stop :: rest) =
      some ((List.range inputs.length).map fun k => numbers (inputs.take (k + 1))) :=
    arrays_numbers [] hstop hindex hrange
  have hlines : ((List.range inputs.length).map fun k => numbers (inputs.take (k + 1))).map line =
      (List.range inputs.length).map fun k => lineAfter (inputs.take (k + 1)) := by
    rw [List.map_map]
    refine List.map_congr_left fun k _ => line_numbers (arrayAfter_lt (inputs.drop (k + 1)) ?_)
    rwa [List.take_append_drop]
  have hinv := inv_initial garbage harrays
  rw [hlines] at hinv
  refine endsIn_of_measure work (fun _ _ hI h => hI.step h) (fun _ _ hI h => work_step hI h)
    (fun s hI hstuck => ?_) hinv
  obtain ⟨hchild, hparent⟩ := exited_of_stuck hcapacity hI hstuck
  obtain ⟨ms, fut, -, -, hpending⟩ := hI.exchange
  simp only [Pending, hparent] at hpending
  exact ⟨hchild, hparent, hpending.2.symm⟩

/-- `0`, `3`, `3` and then the end, through a pipe that takes one message at a time. -/
theorem every_array_arrives_three :
    EndsIn (Step 44)
      (fun s => s.child = .exited ∧ s.parent = .exited ∧
        s.stdout = String.join ((List.range 3).map fun k => lineAfter ([0, 3, 3].take (k + 1))))
      (initial [0, 3, 3, -1] []) :=
  @every_array_arrives 44 [0, 3, 3] [] (-1) [] (by decide) (by decide) (by decide) (by decide)

end LowLevel.Analysis.Pipes
