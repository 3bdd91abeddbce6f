/-!
# Errors

Every failure of the library has one of six kinds and a message; a seventh kind stands for
the library stopping on an arithmetic overflow. The text shown to a user
is the kind's prefix followed by the message, as in `invalid input: variable names cannot be
empty`. Numerical trouble while stepping is not an error: steps report it as an outcome.
-/

namespace TaylorOde

/-- The kinds of failure. -/
inductive ErrorKind where
  /-- a malformed expression, system, configuration or argument -/
  | invalidInput
  /-- an operator or request the chosen scalar type cannot serve -/
  | unsupportedOperation
  /-- a computation that produced no usable number -/
  | numericalFailure
  /-- a callback broke the rules of event handling -/
  | eventProtocolViolation
  /-- an archive that does not decode -/
  | serialization
  /-- a user callback reported a failure -/
  | callback
  /-- the library stopped: an arithmetic overflow -/
  | panic
  deriving Repr, BEq, DecidableEq, Inhabited

/-- A failure: its kind and its message. -/
structure Error where
  kind : ErrorKind
  message : String
  deriving Repr, BEq, Inhabited

namespace ErrorKind

/-- The text that precedes the message of an error of this kind. -/
def prefixText : ErrorKind → String
  | .invalidInput => "invalid input: "
  | .unsupportedOperation => "unsupported operation: "
  | .numericalFailure => "numerical failure: "
  | .eventProtocolViolation => "event protocol violation: "
  | .serialization => "serialization error: "
  | .callback => "callback failed: "
  | .panic => ""

/-- The name of the kind, as reported next to the text. -/
def name : ErrorKind → String
  | .invalidInput => "InvalidInput"
  | .unsupportedOperation => "UnsupportedOperation"
  | .numericalFailure => "NumericalFailure"
  | .eventProtocolViolation => "EventProtocolViolation"
  | .serialization => "Serialization"
  | .callback => "Callback"
  | .panic => "Panic"

end ErrorKind

namespace Error

/-- The full text of an error: the kind's prefix, then the message. -/
def text (e : Error) : String := e.kind.prefixText ++ e.message

/-- An invalid-input error with the given message. -/
def invalid (message : String) : Error := ⟨.invalidInput, message⟩

/-- An unsupported-operation error with the given message. -/
def unsupported (message : String) : Error := ⟨.unsupportedOperation, message⟩

/-- A serialization error with the given message. -/
def serialization (message : String) : Error := ⟨.serialization, message⟩

/-- A failure of a step callback, with the callback's own message. -/
def callback (message : String) : Error := ⟨.callback, message⟩

/-- A violation of the event protocol with the given message. -/
def protocol (message : String) : Error := ⟨.eventProtocolViolation, message⟩

/-- The library stopping on an arithmetic overflow, with the text of the overflow. -/
def panic (message : String) : Error := ⟨.panic, message⟩

end Error

/-- Results of the library: a value or an error. -/
abbrev Outcome (α : Type) := Except Error α

/-- Passes when `ok` holds, and fails with an invalid-input error carrying `message` otherwise. -/
def ensure (ok : Bool) (message : String) : Outcome Unit :=
  if ok then .ok () else .error (.invalid message)

end TaylorOde
