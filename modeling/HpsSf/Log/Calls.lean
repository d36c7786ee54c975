import HpsSf.Foundation.LockOrder
import HpsSf.Log.Dump
import HpsSf.Log.FileAppender

/-! The calls of the log system as lists of commands under its locks.

The manager, each logger and each appender have a spinlock of their own. Levels
are read and written without one, and so is the second of an appender for a file.
-/

set_option autoImplicit false

namespace HpsSf.Log
open Foundation (Text OrderedSet Command Threads)
open Foundation.Command (underLock)

inductive LogLock where
  | manager
  | logger (l : LoggerPtr)
  | appender (a : AppenderPtr)
  deriving DecidableEq, Repr

/-- `hps_LoggerManager` with all loggers and appenders; the root logger is at 0. -/
structure LogSystem where
  objects : Objects
  /-- `m_root` of each logger. -/
  root : LoggerPtr → Option LoggerPtr
  loggers : OrderedSet Registered.name
  nextLogger : LoggerPtr
  files : AppenderPtr → LogFile
  /-- History: every text that was formatted, with the appender that put it out. -/
  rendered : List (AppenderPtr × Text)
  /-- A null formatter has been used. -/
  crashed : Bool

/-- The bodies of the loops over `m_appenders`. -/
inductive Visit where
  | log (level : LogLevel) (event : LogEvent)
  | inherit
  | dump
  deriving DecidableEq, Repr

inductive LogAct where
  /-- The test of the macro, `getLevel() <= level`. -/
  | statement (l : LoggerPtr) (level : LogLevel) (event : LogEvent)
  | log (l : LoggerPtr) (level : LogLevel) (event : LogEvent)
  /-- `log` behind its lock. -/
  | fanOut (l : LoggerPtr) (level : LogLevel) (event : LogEvent)
  /-- The loop over the appenders of a logger, at this place of the list. -/
  | each (l : LoggerPtr) (k : Nat) (visit : Visit)
  /-- `log` of an appender. -/
  | append (a : AppenderPtr) (level : LogLevel) (event : LogEvent)
  | reopen (a : AppenderPtr)
  | stamp (a : AppenderPtr) (now : Nat)
  | write (a : AppenderPtr) (level : LogLevel) (event : LogEvent)
  | storeFormatter (l : LoggerPtr) (val : Option LogFormatter)
  | inherit (l : LoggerPtr) (a : AppenderPtr)
  /-- The read of `getFormatter` in `addAppender`. -/
  | peek (l : LoggerPtr) (a : AppenderPtr)
  | adopt (l : LoggerPtr) (a : AppenderPtr)
  | pushBack (l : LoggerPtr) (a : AppenderPtr)
  | erase (l : LoggerPtr) (a : AppenderPtr)
  | clear (l : LoggerPtr)
  | setOwn (a : AppenderPtr) (val : Option LogFormatter)
  | setLevel (l : LoggerPtr) (level : LogLevel)
  | setAppenderLevel (a : AppenderPtr) (level : LogLevel)
  /-- `getLogger` behind its lock. -/
  | find (name : Text)
  /-- The constructor of a logger that the manager does not know. -/
  | create (name : Text)
  /-- The loop over `m_loggers`, at this place of the map. -/
  | eachLogger (k : Nat)
  | dumpLogger (l : LoggerPtr)
  /-- What a `toYAMLString` or a `getFormatter` reads. -/
  | read (lock : LogLock)
  deriving DecidableEq, Repr

abbrev LogCommand := Command LogLock LogAct

/-- What the system answers: the clock, and what comes of opening and writing. -/
structure LogEnv where
  now : Nat
  out : Outcome
  deriving DecidableEq, Repr

namespace LogSystem

/-- The body of a loop over the appenders of a logger. -/
def visit (l : LoggerPtr) (a : AppenderPtr) : Visit → List LogCommand
  | .log level event => [.act (.append a level event)]
  | .inherit => underLock (.appender a) [.inherit l a]
  | .dump => underLock (.appender a) [.read (.appender a)]

def setFile (s : LogSystem) (a : AppenderPtr) (file : LogFile) : LogSystem :=
  { s with files := Function.update s.files a file }

/-- `log` of an appender: the file is opened again at the first line of a second. -/
def append (s : LogSystem) (env : LogEnv) (a : AppenderPtr) (level : LogLevel) (event : LogEvent) : List LogCommand :=
  if (s.objects.appender a).level.value ≤ level.value then
    (match (s.objects.appender a).kind with
      | .stdout => []
      | .file _ =>
        if env.now ≠ (s.files a).latsTime then underLock (.appender a) [.reopen a] ++ [.act (.stamp a env.now)] else []) ++
      underLock (.appender a) [.write a level event]
  else []

/-- `m_formatter -> format`, and the output. -/
def write (libc : Libc) (s : LogSystem) (env : LogEnv) (a : AppenderPtr) (level : LogLevel) (event : LogEvent) :
    LogSystem :=
  match (s.objects.appender a).formatter with
  | none => { s with crashed := true }
  | some formatter =>
    let text := formatter.format libc level event
    let s := { s with rendered := s.rendered ++ [(a, text)] }
    match (s.objects.appender a).kind with
    | .stdout => s
    | .file _ =>
      let file := (s.files a).put env.out.writes text
      s.setFile a (if file.fail then file else { file with reported := file.reported + 1 })

/-- `getLogger` behind its lock: a new logger gets the root logger. -/
def find (s : LogSystem) (name : Text) : LogSystem :=
  match s.loggers.find ⟨name, s.nextLogger⟩ with
  | some _ => s
  | none =>
    { s with
      objects := s.objects.setLogger s.nextLogger (.create name)
      root := Function.update s.root s.nextLogger (some 0)
      loggers := s.loggers.insert ⟨name, s.nextLogger⟩
      nextLogger := s.nextLogger + 1 }

/-- What an action changes, and what it goes on with. -/
def perform (libc : Libc) (s : LogSystem) (env : LogEnv) : LogAct → LogSystem × List LogCommand
  | .statement l level event =>
    (s, if (s.objects.logger l).level.value ≤ level.value then [.act (.log l level event)] else [])
  | .log l level event =>
    (s, if (s.objects.logger l).level.value ≤ level.value then underLock (.logger l) [.fanOut l level event] else [])
  | .fanOut l level event =>
    (s,
      if (s.objects.logger l).appenders ≠ [] then [.act (.each l 0 (.log level event))]
      else
        match s.root l with
        | some root => [.act (.log root level event)]
        | none => [])
  | .each l k visit =>
    (s,
      match (s.objects.logger l).appenders[k]? with
      | some a => LogSystem.visit l a visit ++ [.act (.each l (k + 1) visit)]
      | none => [])
  | .append a level event => (s, s.append env a level event)
  | .reopen a => (s.setFile a ((s.files a).reopen env.out), [])
  | .stamp a now => (s.setFile a { s.files a with latsTime := now }, [])
  | .write a level event => (s.write libc env a level event, [])
  | .storeFormatter l val =>
    ({ s with objects := s.objects.setLogger l { s.objects.logger l with formatter := val } }, [])
  | .inherit l a => ({ s with objects := s.objects.inherit (s.objects.logger l).formatter a }, [])
  | .peek l a =>
    (s,
      .unlock (.appender a) ::
        if (s.objects.appender a).formatter.isNone then underLock (.appender a) [.adopt l a] else [])
  | .adopt l a =>
    ({ s with
        objects := s.objects.setAppender a { s.objects.appender a with formatter := (s.objects.logger l).formatter } }, [])
  | .pushBack l a =>
    ({ s with
        objects := s.objects.setLogger l
          { s.objects.logger l with appenders := (s.objects.logger l).appenders ++ [a] } }, [])
  | .erase l a => ({ s with objects := s.objects.delAppender l a }, [])
  | .clear l => ({ s with objects := s.objects.clearAppenders l }, [])
  | .setOwn a val => ({ s with objects := s.objects.setAppenderFormatter a val }, [])
  | .setLevel l level => ({ s with objects := s.objects.apply (.setLevel l level) }, [])
  | .setAppenderLevel a level => ({ s with objects := s.objects.apply (.setAppenderLevel a level) }, [])
  | .find name => (s.find name, [])
  | .create name =>
    ({ s with objects := s.objects.setLogger s.nextLogger (.create name), nextLogger := s.nextLogger + 1 }, [])
  | .eachLogger k =>
    (s,
      match s.loggers.elements[k]? with
      | some i => [.act (.dumpLogger i.logger), .act (.eachLogger (k + 1))]
      | none => [])
  | .dumpLogger l => (s, underLock (.logger l) [.each l 0 .dump])
  | .read _ => (s, [])

/-- Behind a crash there is nothing. -/
def actions (libc : Libc) (s : LogSystem) (a : LogAct) (env : LogEnv) : Option (LogSystem × List LogCommand) :=
  if s.crashed then none else some (s.perform libc env a)

end LogSystem

inductive LogCall where
  | getLogger (name : Text)
  | create (name : Text)
  | statement (l : LoggerPtr) (level : LogLevel) (event : LogEvent)
  | log (l : LoggerPtr) (level : LogLevel) (event : LogEvent)
  | object (op : ObjectOp)
  | getFormatter (l : LoggerPtr)
  | getAppenderFormatter (a : AppenderPtr)
  | appenderToYAMLString (a : AppenderPtr)
  | loggerToYAMLString (l : LoggerPtr)
  | toYAMLString

namespace LogCall

def objectBody : ObjectOp → List LogCommand
  | .addAppender l a =>
    [.lock (.logger l), .lock (.appender a), .act (.peek l a), .act (.pushBack l a), .unlock (.logger l)]
  | .delAppender l a => underLock (.logger l) [.erase l a]
  | .clearAppenders l => underLock (.logger l) [.clear l]
  | .setFormatter l val => underLock (.logger l) [.storeFormatter l val, .each l 0 .inherit]
  | .setPattern l val =>
    let new_val := LogFormatter.init val
    if new_val.isError then [] else underLock (.logger l) [.storeFormatter l (some new_val), .each l 0 .inherit]
  | .setLevel l level => [.act (.setLevel l level)]
  | .setAppenderFormatter a val => underLock (.appender a) [.setOwn a val]
  | .setAppenderLevel a level => [.act (.setAppenderLevel a level)]

def body : LogCall → List LogCommand
  | .getLogger name => underLock .manager [.find name]
  | .create name => [.act (.create name)]
  | .statement l level event => [.act (.statement l level event)]
  | .log l level event => [.act (.log l level event)]
  | .object op => objectBody op
  | .getFormatter l => underLock (.logger l) [.read (.logger l)]
  | .getAppenderFormatter a => underLock (.appender a) [.read (.appender a)]
  | .appenderToYAMLString a => underLock (.appender a) [.read (.appender a)]
  | .loggerToYAMLString l => [.act (.dumpLogger l)]
  | .toYAMLString => underLock .manager [.eachLogger 0]

/-- The logger that a call is made on. -/
def target : LogCall → Option LoggerPtr
  | .statement l _ _ | .log l _ _ | .getFormatter l | .loggerToYAMLString l => some l
  | .object op =>
    match op with
    | .addAppender l _ | .delAppender l _ | .clearAppenders l | .setFormatter l _ | .setPattern l _ | .setLevel l _ =>
      some l
    | .setAppenderFormatter _ _ | .setAppenderLevel _ _ => none
  | .getLogger _ | .create _ | .getAppenderFormatter _ | .appenderToYAMLString _ | .toYAMLString => none

/-- Nobody has a pointer to a logger that is still to be made. -/
def admits (s : LogSystem) (call : LogCall) : Bool := call.target.all (· < s.nextLogger)

end LogCall

namespace LogSystem

/-- The constructor of the manager: the root logger with an appender for the terminal. -/
def Begins (s : LogSystem) : Prop :=
  ∃ (m : LoggerManager) (files : AppenderPtr → Outcome), LoggerManager.machine.start m ∧
    s = ⟨m.objects, fun _ => none, m.loggers, 1, fun a => .create (files a), [], false⟩

/-- Any number of threads that make these calls. -/
def machine (libc : Libc) (T : Type) [DecidableEq T] :=
  Threads.machine T (actions libc) LogCall.admits LogCall.body Begins

end LogSystem
end HpsSf.Log
