import HpsSf.Foundation.Text
import Mathlib.Data.List.Basic

/-! The appender for a file: its stream, the reopening once a second, and what gets into the file.

A stream whose file could not be opened is opened again in the next second. One
on which a write has failed keeps its file open: it is not closed, as it counts as
failed, and an open file cannot be opened.
-/

set_option autoImplicit false

namespace HpsSf.Log
open Foundation (Text)

/-- What the system answers while one line is logged. -/
structure Outcome where
  opens : Bool
  /-- Of the buffer, when the file is closed. -/
  flushes : Bool
  writes : Bool
  deriving DecidableEq, Repr

/-- `m_filestream` with the bytes behind it, and `m_latsTime`. -/
structure LogFile where
  isOpen : Bool := false
  /-- `failbit` or `badbit`. -/
  fail : Bool := false
  buffer : Text := []
  file : Text := []
  latsTime : Nat := 0
  /-- History: the lines that the stream has taken. -/
  lines : List Text := []
  /-- History: how often "LogFile error" was printed. -/
  reported : Nat := 0
  deriving DecidableEq, Repr

namespace LogFile

/-- `ofstream::close` is a failure when there is nothing to close. -/
def close (s : LogFile) (flushes : Bool) : LogFile :=
  if s.isOpen then
    { s with
      isOpen := false
      fail := s.fail || !flushes
      buffer := []
      file := if flushes then s.file ++ s.buffer else s.file }
  else { s with fail := true }

/-- `ofstream::open` clears the state of the stream, or is a failure; also when a file is open already. -/
def openFile (s : LogFile) (opens : Bool) : LogFile :=
  if s.isOpen || !opens then { s with fail := true } else { s with isOpen := true, fail := false }

def reopen (s : LogFile) (out : Outcome) : LogFile :=
  (if s.fail then s else s.close out.flushes).openFile out.opens

/-- `m_filestream << text` -/
def put (s : LogFile) (writes : Bool) (text : Text) : LogFile :=
  if s.fail then s
  else if s.isOpen && writes then { s with buffer := s.buffer ++ text, lines := s.lines ++ [text] }
  else { s with fail := true }

/-- `log` of a line that passes the level. -/
def log (s : LogFile) (now : Nat) (out : Outcome) (text : Text) : LogFile :=
  let s := if now ≠ s.latsTime then { s.reopen out with latsTime := now } else s
  let s := s.put out.writes text
  -- The error is reported when the stream is in order.
  if s.fail then s else { s with reported := s.reported + 1 }

/-- The stream hands some of its buffer on whenever it likes. -/
def drain (s : LogFile) (k : Nat) : LogFile :=
  { s with file := s.file ++ s.buffer.take k, buffer := s.buffer.drop k }

end LogFile

/-- What happens to an appender. -/
inductive FileEvent where
  | log (now : Nat) (out : Outcome) (text : Text)
  | drain (k : Nat)
  deriving DecidableEq, Repr

namespace LogFile

def apply (s : LogFile) : FileEvent → LogFile
  | .log now out text => s.log now out text
  | .drain k => s.drain k

def run (s : LogFile) (events : List FileEvent) : LogFile := events.foldl apply s

/-- The constructor. -/
def create (out : Outcome) : LogFile := ({} : LogFile).reopen out

end LogFile

/-! ## What is to be expected -/

/-- A second is good if the file could be opened at its first line. The first write
that fails in a good second is the end. -/
structure Sink where
  second : Nat := 0
  good : Bool
  spoiled : Bool := false
  lines : List Text := []
  deriving DecidableEq, Repr

namespace Sink

def apply (sink : Sink) : FileEvent → Sink
  | .log now out text =>
      let good := if now ≠ sink.second then out.opens else sink.good
      { second := now
        good := good
        spoiled := sink.spoiled || good && !out.writes
        lines := if !sink.spoiled && good && out.writes then sink.lines ++ [text] else sink.lines }
  | .drain _ => sink

def run (sink : Sink) (events : List FileEvent) : Sink := events.foldl apply sink

end Sink

namespace LogFile

/-- The stream of a sink: in order, without a file, or with one that it cannot write. -/
structure Serves (s : LogFile) (sink : Sink) : Prop where
  second : s.latsTime = sink.second
  lines : s.lines = sink.lines
  reported : s.reported = s.lines.length
  isOpen : s.isOpen = (sink.spoiled || sink.good)
  fail : s.fail = (sink.spoiled || !sink.good)

/-- Every byte that was taken is in the file or in the buffer. -/
def Whole (s : LogFile) : Prop := s.file ++ s.buffer = s.lines.flatten

variable {s : LogFile} {sink : Sink}

theorem serves_create (out : Outcome) : (create out).Serves { good := out.opens } := by
  cases opens : out.opens <;> constructor <;> simp [create, reopen, close, openFile, opens]

/-- The reopening at the first line of a second. -/
theorem Serves.reopen (serves : s.Serves sink) (now : Nat) (out : Outcome) :
    { s.reopen out with latsTime := now }.Serves
      { sink with second := now, good := out.opens } := by
  obtain ⟨-, lines, reported, isOpen, fail⟩ := serves
  cases spoiled : sink.spoiled with
  | true =>
    -- Neither closed nor opened.
    rw [spoiled, Bool.true_or] at isOpen fail
    constructor <;> simp [LogFile.reopen, openFile, *]
  | false =>
    rw [spoiled, Bool.false_or] at isOpen fail
    cases good : sink.good <;> cases opens : out.opens <;>
      constructor <;> simp [LogFile.reopen, openFile, close, *]

theorem Serves.put (serves : s.Serves sink) (writes : Bool) (text : Text) :
    let after := s.put writes text
    (if after.fail then after else { after with reported := after.reported + 1 }).Serves
      { sink with
        spoiled := sink.spoiled || sink.good && !writes
        lines := if !sink.spoiled && sink.good && writes then sink.lines ++ [text] else sink.lines } := by
  obtain ⟨second, lines, reported, isOpen, fail⟩ := serves
  cases spoiled : sink.spoiled <;> cases good : sink.good <;> cases writes <;>
    constructor <;> simp_all [LogFile.put]

/-- One line does to the stream what it does to the sink. -/
theorem Serves.log (serves : s.Serves sink) (now : Nat) (out : Outcome) (text : Text) :
    (s.log now out text).Serves (sink.apply (.log now out text)) := by
  unfold LogFile.log Sink.apply
  rw [serves.second]
  by_cases new : now ≠ sink.second
  · rw [if_pos new]
    simpa [new] using (serves.reopen now out).put out.writes text
  · rw [if_neg new]
    obtain rfl : now = sink.second := not_ne_iff.mp new
    simpa using serves.put out.writes text

theorem Serves.run (serves : s.Serves sink) (events : List FileEvent) :
    (s.run events).Serves (sink.run events) := by
  induction events generalizing s sink with
  | nil => exact serves
  | cons event rest ih =>
    refine ih ?_
    cases event with
    | log now out text => exact serves.log now out text
    | drain k => exact ⟨serves.second, serves.lines, serves.reported, serves.isOpen, serves.fail⟩

theorem whole_openFile (whole : s.Whole) (opens : Bool) : (s.openFile opens).Whole := by
  unfold openFile
  split <;> exact whole

theorem whole_reopen (whole : s.Whole) {out : Outcome} (flushes : out.flushes = true) :
    (s.reopen out).Whole := by
  refine whole_openFile ?_ out.opens
  split
  · exact whole
  · unfold close
    split
    · simpa [Whole, flushes] using whole
    · exact whole

theorem whole_put (whole : s.Whole) (writes : Bool) (text : Text) : (s.put writes text).Whole := by
  unfold LogFile.put
  split
  · exact whole
  · split
    · rw [Whole] at whole ⊢
      simp only [List.flatten_append, List.flatten_singleton, ← whole, List.append_assoc]
    · exact whole

theorem whole_report (whole : s.Whole) :
    (if s.fail then s else { s with reported := s.reported + 1 }).Whole := by
  split <;> exact whole

theorem whole_apply (whole : s.Whole) {event : FileEvent}
    (flushes : ∀ now out text, event = .log now out text → out.flushes = true) : (s.apply event).Whole := by
  cases event with
  | log now out text =>
    refine whole_report (whole_put ?_ out.writes text)
    split
    · exact whole_reopen whole (flushes now out text rfl)
    · exact whole
  | drain k =>
    rw [Whole] at whole
    simp [apply, LogFile.drain, Whole, List.append_assoc, List.take_append_drop, whole]

/-- As long as the system fails at the opening of the file alone, what is in the file and in the
buffer are the lines of the good seconds, in order. -/
theorem run_contents (first : Outcome) {events : List FileEvent}
    (sound : ∀ now out text, .log now out text ∈ events → out.flushes = true ∧ out.writes = true) :
    ((create first).run events).file ++ ((create first).run events).buffer =
      (Sink.run { good := first.opens } events).lines.flatten := by
  have whole : ((create first).run events).Whole := by
    unfold run
    refine List.foldlRecOn events apply (motive := Whole) ?_ fun s whole event member => ?_
    · cases opens : first.opens <;> simp [create, LogFile.reopen, close, openFile, opens, Whole]
    · refine whole_apply whole ?_
      rintro now out text rfl
      exact (sound now out text member).1
  rw [whole, ((serves_create first).run events).lines]

/-- The file of the first second is closed with a part of its line still in the buffer. -/
def twoSeconds : List FileEvent :=
  [.log 1 ⟨true, true, true⟩ "first\n".toList, .drain 3, .log 2 ⟨true, true, true⟩ "second\n".toList]

theorem run_contents_twoSeconds :
    ((create ⟨true, true, true⟩).run twoSeconds).file ++ ((create ⟨true, true, true⟩).run twoSeconds).buffer =
      (Sink.run { good := true } twoSeconds).lines.flatten := by
  refine run_contents ⟨true, true, true⟩ ?_
  intro now out text member
  simp only [twoSeconds, List.mem_cons, FileEvent.log.injEq, reduceCtorEq, false_or, List.not_mem_nil,
    or_false] at member
  obtain ⟨-, rfl, -⟩ | ⟨-, rfl, -⟩ := member <;> exact ⟨rfl, rfl⟩

theorem Sink.spoiled_run (events : List FileEvent) (spoiled : sink.spoiled = true) :
    (sink.run events).spoiled = true ∧ (sink.run events).lines = sink.lines := by
  induction events generalizing sink with
  | nil => exact ⟨spoiled, rfl⟩
  | cons event rest ih =>
    have kept : (sink.apply event).spoiled = true ∧ (sink.apply event).lines = sink.lines := by
      cases event <;> simp [Sink.apply, spoiled]
    obtain ⟨later, same⟩ := ih kept.1
    exact ⟨later, same.trans kept.2⟩

/-- Behind a write that has failed no line is ever taken again, and no reopening succeeds. -/
theorem never_recovers (first : Outcome) {before : List FileEvent}
    (spoiled : (Sink.run { good := first.opens } before).spoiled = true) (after : List FileEvent) :
    ((create first).run (before ++ after)).lines = ((create first).run before).lines ∧
      ∀ out, (((create first).run (before ++ after)).reopen out).fail = true := by
  have split : Sink.run { good := first.opens } (before ++ after) =
      (Sink.run { good := first.opens } before).run after := List.foldl_append
  obtain ⟨later, same⟩ := Sink.spoiled_run after spoiled
  have serves := (serves_create first).run (before ++ after)
  rw [split] at serves
  refine ⟨?_, fun out => ?_⟩
  · rw [serves.lines, same, ((serves_create first).run before).lines]
  · have isOpen := serves.isOpen
    have fail := serves.fail
    rw [later, Bool.true_or] at isOpen fail
    simp [LogFile.reopen, openFile, isOpen, fail]

/-- The disk is full for one line. -/
def diskFull : List FileEvent := [.log 1 ⟨true, true, false⟩ "first\n".toList]

theorem never_recovers_diskFull :
    ((create ⟨true, true, true⟩).run (diskFull ++ [.log 2 ⟨true, true, true⟩ "second\n".toList])).lines =
        ((create ⟨true, true, true⟩).run diskFull).lines ∧
      ∀ out, (((create ⟨true, true, true⟩).run
        (diskFull ++ [.log 2 ⟨true, true, true⟩ "second\n".toList])).reopen out).fail = true :=
  never_recovers ⟨true, true, true⟩ (by decide) _

end LogFile
end HpsSf.Log
