import HpsSf.Log.Level

/-! The log formatter: its scanner, the items it builds, and what they print. -/

set_option autoImplicit false

namespace HpsSf.Log
open Foundation (Text)

/-- `s.substr(pos, len)` -/
def substr (s : Text) (pos len : Nat) : Text := (s.drop pos).take len

/-- What the inner loop of `init` leaves behind. -/
structure Scanned where
  n : Nat
  fmtStatus : Bool
  str : Text
  fmt : Text
  deriving DecidableEq, Repr

/-- The inner loop, behind the `%` at `i`. -/
def scan (pattern : Text) (i n : Nat) (fmtStatus : Bool) (fmtBegin : Nat) (str fmt : Text) : Scanned :=
  if inside : n < pattern.length then
    let c := pattern[n]
    if !fmtStatus && (!c.isAlpha && c != '{' && c != '}') then
      ⟨n, fmtStatus, substr pattern (i + 1) (n - i - 1), fmt⟩
    else if !fmtStatus && c == '{' then
      scan pattern i (n + 1) true n (substr pattern (i + 1) (n - i - 1)) fmt
    else if fmtStatus && c == '}' then
      ⟨n + 1, false, str, substr pattern (fmtBegin + 1) (n - fmtBegin - 1)⟩
    else
      scan pattern i (n + 1) fmtStatus fmtBegin
        (if n + 1 = pattern.length ∧ str.isEmpty then pattern.drop (i + 1) else str) fmt
  else ⟨n, fmtStatus, str, fmt⟩
termination_by pattern.length - n

/-- The inner loop never goes back. -/
theorem scan_n (pattern : Text) (i n : Nat) (fmtStatus : Bool) (fmtBegin : Nat) (str fmt : Text) :
    n ≤ (scan pattern i n fmtStatus fmtBegin str fmt).n := by
  fun_induction scan pattern i n fmtStatus fmtBegin str fmt <;> simp_all <;> omega

/-- One element of `vec`. -/
structure Entry where
  str : Text
  fmt : Text
  type : Nat
  deriving DecidableEq, Repr

/-- `if (!nstr.empty()) vec.push_back(...)` -/
def flush (nstr : Text) : List Entry := if nstr.isEmpty then [] else [⟨nstr, [], 0⟩]

/-- The outer loop: `vec` and `m_error` at its end. -/
def scanAll (pattern : Text) (i : Nat) (nstr : Text) (vec : List Entry) (error : Bool) : List Entry × Bool :=
  if inside : i < pattern.length then
    if pattern[i] ≠ '%' then scanAll pattern (i + 1) (nstr ++ [pattern[i]]) vec error
    else if pattern[i + 1]? = some '%' then scanAll pattern (i + 1) (nstr ++ ['%']) vec error
    else
      have := scan_n pattern i (i + 1) false 0 [] []
      let found := scan pattern i (i + 1) false 0 [] []
      if found.fmtStatus = false then
        scanAll pattern (found.n - 1 + 1) [] (vec ++ flush nstr ++ [⟨found.str, found.fmt, 1⟩]) error
      else
        scanAll pattern (i + 1) nstr (vec ++ [⟨"<<pattern_error>>".toList, found.fmt, 0⟩]) true
  else (vec ++ flush nstr, error)
termination_by pattern.length - i

/-- The classes of items; only the one for the time keeps its argument. -/
inductive FormatItem where
  | string (str : Text)
  | message
  | level
  | elapse
  | name
  | threadId
  | newLine
  | dateTime (format : Text)
  | filename
  | line
  | tab
  | fiberId
  | threadName
  deriving DecidableEq, Repr

/-- The keys of `s_format_items`. -/
inductive Letter where
  | m
  | p
  | r
  | c
  | t
  | n
  | d
  | f
  | l
  | T
  | F
  | N
  deriving DecidableEq, Repr

namespace Letter

def all : List Letter := [m, p, r, c, t, n, d, f, l, T, F, N]

def char : Letter → Char
  | m => 'm'
  | p => 'p'
  | r => 'r'
  | c => 'c'
  | t => 't'
  | n => 'n'
  | d => 'd'
  | f => 'f'
  | l => 'l'
  | T => 'T'
  | F => 'F'
  | N => 'N'

end Letter

def defaultFormat : Text := "%Y-%m-%d %H:%M:%S".toList

/-- The constructors that `s_format_items` maps its keys to. -/
def Letter.item (letter : Letter) (fmt : Text) : FormatItem :=
  match letter with
  | m => .message
  | p => .level
  | r => .elapse
  | c => .name
  | t => .threadId
  | n => .newLine
  | d => .dateTime (if fmt.isEmpty then defaultFormat else fmt)
  | f => .filename
  | l => .line
  | T => .tab
  | F => .fiberId
  | N => .threadName

/-- `s_format_items.find` -/
def findLetter (str : Text) : Option Letter := Letter.all.find? fun letter => [letter.char] = str

/-- An entry's item, and whether it sets `m_error`. -/
def Entry.item (entry : Entry) : FormatItem × Bool :=
  if entry.type = 0 then (.string entry.str, false)
  else
    match findLetter entry.str with
    | none => (.string ("<<error_format %".toList ++ entry.str ++ ">>".toList), true)
    | some letter => (letter.item entry.fmt, false)

structure LogFormatter where
  pattern : Text
  items : List FormatItem
  isError : Bool
  deriving DecidableEq, Repr

def LogFormatter.init (pattern : Text) : LogFormatter :=
  let (vec, error) := scanAll pattern 0 [] [] false
  ⟨pattern, vec.map fun entry => entry.item.1, error || vec.any fun entry => entry.item.2⟩

/-! ## Printing -/

/-- `hps_LogEvent`, with the name of its logger. -/
structure LogEvent where
  file : Text
  line : Int
  elapse : Nat
  threadId : Nat
  fiberId : Nat
  time : Nat
  threadName : Text
  content : Text
  loggerName : Text
  deriving DecidableEq, Repr

/-- `localtime_r` with `strftime` into a buffer of any size, and the bytes in the
buffer when `strftime` returns 0 because the result does not fit. -/
structure Libc where
  expand : Text → Nat → Text
  leftover : Text → Nat → Text

/-- The bytes before the first NUL. -/
def cString (text : Text) : Text := text.takeWhile (· ≠ '\x00')

/-- `strftime(buf, 64, m_format.c_str(), &tm); os << buf` -/
def Libc.strftime (libc : Libc) (format : Text) (time : Nat) : Text :=
  let result := libc.expand (cString format) time
  cString (if result.length < 64 then result else libc.leftover format time)

def FormatItem.format (libc : Libc) (level : LogLevel) (event : LogEvent) : FormatItem → Text
  | .string str => str
  | .message => event.content
  | .level => level.toString
  | .elapse => (toString event.elapse).toList
  | .name => event.loggerName
  | .threadId => (toString event.threadId).toList
  | .newLine => ['\n']
  | .dateTime format => libc.strftime format event.time
  | .filename => event.file
  | .line => (toString event.line).toList
  | .tab => ['\t']
  | .fiberId => (toString event.fiberId).toList
  | .threadName => event.threadName

def LogFormatter.format (formatter : LogFormatter) (libc : Libc) (level : LogLevel) (event : LogEvent) : Text :=
  formatter.items.flatMap (·.format libc level event)

end HpsSf.Log
