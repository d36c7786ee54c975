import HpsSf.Log.Formatter
import Mathlib.Logic.Function.Basic

/-! Loggers, their appenders, and the manager that keeps them by name. -/

set_option autoImplicit false

namespace HpsSf.Log
open Foundation (Text)

inductive AppenderKind where
  | file (filename : Text)
  | stdout
  deriving DecidableEq, Repr

/-- An appender; it belongs to one logger. -/
structure LogAppender where
  kind : AppenderKind
  level : LogLevel := .debug
  hasFormatter : Bool := false
  formatter : Option LogFormatter := none
  deriving DecidableEq, Repr

def LogAppender.setFormatter (appender : LogAppender) (val : LogFormatter) : LogAppender :=
  { appender with formatter := some val, hasFormatter := true }

structure Logger where
  name : Text
  level : LogLevel
  appenders : List LogAppender
  formatter : LogFormatter
  deriving DecidableEq, Repr

def defaultPattern : Text := "%d\x7b%Y-%m-%d %H:%M:%S\x7d%T%t%T%T%N%T%F%T[%p]%T[%c]%T%f:%l%T%m%n".toList

namespace Logger

/-- The constructor. -/
def create (name : Text) : Logger := ⟨name, .debug, [], .init defaultPattern⟩

/-- `setFormatter` with a formatter; appenders without one of their own get it too. -/
def setFormatter (logger : Logger) (val : LogFormatter) : Logger :=
  { logger with
    formatter := val
    appenders := logger.appenders.map fun i => if i.hasFormatter then i else { i with formatter := some val } }

/-- `setFormatter` with a pattern. -/
def setPattern (logger : Logger) (val : Text) : Logger :=
  let new_val := LogFormatter.init val
  -- An invalid pattern is reported and leaves the formatter as it is.
  if new_val.isError then logger else logger.setFormatter new_val

def addAppender (logger : Logger) (appender : LogAppender) : Logger :=
  let appender := if appender.formatter.isNone then { appender with formatter := some logger.formatter } else appender
  { logger with appenders := logger.appenders ++ [appender] }

def clearAppenders (logger : Logger) : Logger := { logger with appenders := [] }

/-- `level >= m_level`, the test of `log`. -/
def Logs (logger : Logger) (level : LogLevel) : Prop := logger.level.value ≤ level.value

end Logger

/-- `m_loggers` -/
abbrev Loggers := Text → Option Logger

/-- The constructor of `hps_LoggerManager`. -/
def Loggers.create : Loggers :=
  let root := (Logger.create "root".toList).addAppender { kind := .stdout }
  Function.update (fun _ => none) root.name (some root)

/-- `getLogger`: the logger, and the map with it. -/
def Loggers.getLogger (loggers : Loggers) (name : Text) : Logger × Loggers :=
  match loggers name with
  | some logger => (logger, loggers)
  | none => (.create name, Function.update loggers name (some (.create name)))

end HpsSf.Log
