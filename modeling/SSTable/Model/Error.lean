import SSTable.Foundation.Execution

/-!
# Status values

The error type of the library: a code and the text that describes it, together
with the conversions from the errors of the standard library and of the
compression crate.
-/

namespace SSTable

/-- The failure modes of table operations. -/
inductive StatusCode where
  | OK
  | AlreadyExists
  | Corruption
  | CompressionError
  | IOError
  | InvalidArgument
  | InvalidData
  | LockError
  | NotFound
  | NotSupported
  | PermissionDenied
  | Unknown
deriving DecidableEq, Repr

/-- The derived debug text of a status code. -/
def StatusCode.debug : StatusCode → String
  | OK => "OK"
  | AlreadyExists => "AlreadyExists"
  | Corruption => "Corruption"
  | CompressionError => "CompressionError"
  | IOError => "IOError"
  | InvalidArgument => "InvalidArgument"
  | InvalidData => "InvalidData"
  | LockError => "LockError"
  | NotFound => "NotFound"
  | NotSupported => "NotSupported"
  | PermissionDenied => "PermissionDenied"
  | Unknown => "Unknown"

/-- A status code and its error text. -/
structure Status where
  code : StatusCode
  err : String
deriving DecidableEq, Repr

/-- The text names the code, and carries the message when there is one. -/
def Status.new (code : StatusCode) (msg : String) : Status where
  code := code
  err := if msg.isEmpty then code.debug else code.debug ++ ": " ++ msg

/-- The kinds of an input or output error that the conversion tells apart. -/
inductive ErrorKind where
  | NotFound
  | InvalidData
  | InvalidInput
  | PermissionDenied
  | Other
deriving DecidableEq, Repr

/-- An input or output error: its kind and its display text. -/
structure IoError where
  kind : ErrorKind
  text : String
deriving DecidableEq, Repr

/-- The status an input or output error is converted to. -/
def Status.ofIoError (e : IoError) : Status :=
  let c := match e.kind with
    | .NotFound => StatusCode.NotFound
    | .InvalidData => .Corruption
    | .InvalidInput => .InvalidArgument
    | .PermissionDenied => .PermissionDenied
    | .Other => .IOError
  Status.new c e.text

/-- The status a compression error is converted to; it keeps the error's own text. -/
def Status.ofSnapError (text : String) : Status where
  code := .CompressionError
  err := text

/-- A value, or the status that explains why there is none. -/
abbrev Result (α : Type) := Except Status α

end SSTable
