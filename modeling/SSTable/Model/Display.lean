import SSTable.Foundation.Recursion
import SSTable.Model.Error

/-!
# The text of a status

A status is formatted by a function that calls the standard conversion to a string, and that
conversion is defined for every value that can be formatted, by formatting it.  The calls of the
formatting function are therefore calls of itself.
-/

namespace SSTable

open Foundation

/-- The error of a formatter. -/
inductive FmtError where
  | error
deriving DecidableEq, Repr

/-- A formatter that writes to a string. -/
structure Formatter where
  buf : String
deriving DecidableEq, Repr

namespace Formatter

/-- The formatter over a new string. -/
def new : Formatter where
  buf := ""

/-- Write a text; a string takes everything. -/
def writeStr (f : Formatter) (s : String) : Except FmtError Unit × Formatter :=
  (.ok (), { buf := f.buf ++ s })

end Formatter

/-- A call of the formatting function. -/
structure FmtCall where
  status : Status
  formatter : Formatter
deriving DecidableEq, Repr

/-- What the formatting function returns, with the formatter it leaves behind. -/
abbrev FmtReply := Except FmtError Unit × Formatter

namespace Status

/-- The standard conversion to a string: format the value once with a new formatter, expect that to
succeed, and return what was written. -/
def toString (s : Status) : Calls FmtCall FmtReply String := do
  let (result, f) ← Calls.ask { status := s, formatter := Formatter.new }
  match result with
  | .ok () => pure f.buf
  | .error _ => .stop .unwrapNone

/-- Format a status. -/
def fmt (s : Status) (f : Formatter) : Calls FmtCall FmtReply FmtReply := do
  let text ← s.toString
  pure (f.writeStr text)

/-- A call of the formatting function runs the function. -/
def display (c : FmtCall) : Calls FmtCall FmtReply FmtReply := c.status.fmt c.formatter

/-- The status of an operation without an error. -/
def default : Status where
  code := .OK
  err := ""

/-- The status a poisoned lock is converted to. -/
def ofPoisonError : Status := Status.new .LockError "lock poisoned"

/-- The statuses that the library makes. -/
inductive Made : Status → Prop where
  | default : Made default
  | new (code : StatusCode) (msg : String) : Made (Status.new code msg)
  | ofIoError (e : IoError) : Made (ofIoError e)
  | ofPoisonError : Made ofPoisonError
  | ofSnapError (text : String) : Made (ofSnapError text)

end Status

end SSTable
