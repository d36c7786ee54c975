import HpsSf.Foundation.Text

/-! Log levels and their names. -/

set_option autoImplicit false

namespace HpsSf.Log
open Foundation (Text)

/-- `hps_LogLevel::Level`; `cast` is a value without a name. -/
inductive LogLevel where
  | unknow
  | debug
  | info
  | warn
  | error
  | fatal
  | cast (value : Nat)
  deriving DecidableEq, Repr

def LogLevel.toString : LogLevel → Text
  | .debug => "DEBUG".toList
  | .info => "INFO".toList
  | .warn => "WARN".toList
  | .error => "ERROR".toList
  | .fatal => "FATAL".toList
  | _ => "UNKNOW".toList

def LogLevel.fromString (str : Text) : LogLevel :=
  if str = "debug".toList then .debug
  else if str = "info".toList then .info
  else if str = "warn".toList then .warn
  else if str = "error".toList then .error
  else if str = "fatal".toList then .fatal
  else if str = "DEBUG".toList then .debug
  else if str = "INFO".toList then .info
  else if str = "WARN".toList then .warn
  else if str = "ERROR".toList then .error
  else if str = "FATAL".toList then .fatal
  else .unknow

/-- The number of a level; `operator>=` compares these. -/
def LogLevel.value : LogLevel → Nat
  | .unknow => 0
  | .debug => 1
  | .info => 2
  | .warn => 3
  | .error => 4
  | .fatal => 5
  | .cast value => value

/-- The levels that a configuration can name. -/
def LogLevel.Named (level : LogLevel) : Prop := ∀ value, level ≠ .cast value

/-- Every named level is read back from its text; `UNKNOW` too, as no text is a level of its own. -/
theorem LogLevel.fromString_toString {level : LogLevel} (named : level.Named) : fromString level.toString = level := by
  cases level with
  | cast value => exact absurd rfl (named value)
  | _ => decide

end HpsSf.Log
