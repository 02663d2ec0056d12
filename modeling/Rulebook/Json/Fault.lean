/-
  Rulebook.Json.Fault — what can be wrong with JSON text, and with the shape of its data.

  Of two faults the one met first in the text is reported, so a value of the wrong shape
  wins over broken text further on. A value that nobody asks for is skipped, not read,
  and skipping forgives some faults and words others differently: a `Flaw` keeps both.

  The line and the column of a fault are not kept, so its message ends before them.
-/

namespace Rulebook.Json

inductive Place where
  | value
  | list
  | object
  | string
  deriving DecidableEq, Repr

def Place.phrase : Place → String
  | .value => "a value"
  | .list => "a list"
  | .object => "an object"
  | .string => "a string"

/-- A fault of a JSON text, or of its data where a certain shape is expected. -/
inductive Fault where
  | breaksOff (inside : Place)
  | expectedColon
  | expectedListEnd
  | expectedObjectEnd
  | expectedIdent
  | expectedValue
  | invalidEscape
  | invalidNumber
  | numberOutOfRange
  | invalidCodePoint
  | controlCharacter
  | keyNotString
  | loneSurrogate
  | openSurrogate
  | trailingComma
  | trailingCharacters
  | tooDeep
  | invalidType (found expected : String)
  | invalidValue (found expected : String)
  | invalidLength (length : Nat) (expected : String)
  | missingField (name : String)
  | duplicateField (name : String)
  | unknownField (name : String) (expected : List String)
  | noVariant (name : String)
  deriving DecidableEq, Repr

def choices : List String → String
  | [] => "there are no fields"
  | [a] => s!"expected `{a}`"
  | [a, b] => s!"expected `{a}` or `{b}`"
  | names => "expected one of " ++ ", ".intercalate (names.map fun name => s!"`{name}`")

def Fault.message : Fault → String
  | .breaksOff inside => "EOF while parsing " ++ inside.phrase
  | .expectedColon => "expected `:`"
  | .expectedListEnd => "expected `,` or `]`"
  | .expectedObjectEnd => "expected `,` or `\x7d`"
  | .expectedIdent => "expected ident"
  | .expectedValue => "expected value"
  | .invalidEscape => "invalid escape"
  | .invalidNumber => "invalid number"
  | .numberOutOfRange => "number out of range"
  | .invalidCodePoint => "invalid unicode code point"
  | .controlCharacter => "control character (\\u0000-\\u001F) found while parsing a string"
  | .keyNotString => "key must be a string"
  | .loneSurrogate => "lone leading surrogate in hex escape"
  | .openSurrogate => "unexpected end of hex escape"
  | .trailingComma => "trailing comma"
  | .trailingCharacters => "trailing characters"
  | .tooDeep => "recursion limit exceeded"
  | .invalidType found expected => s!"invalid type: {found}, expected {expected}"
  | .invalidValue found expected => s!"invalid value: {found}, expected {expected}"
  | .invalidLength length expected => s!"invalid length {length}, expected {expected}"
  | .missingField name => s!"missing field `{name}`"
  | .duplicateField name => s!"duplicate field `{name}`"
  | .unknownField name expected => s!"unknown field `{name}`, " ++ choices expected
  | .noVariant name => s!"data did not match any variant of untagged enum {name}"

/-- A broken place in a text: the fault of reading it, and the fault of skipping it, if that is one. -/
structure Flaw where
  read : Fault
  skipped : Option Fault
  deriving DecidableEq, Repr

/-- A place where both reading and skipping end. -/
def Flaw.stop (fault : Fault) : Flaw := ⟨fault, some fault⟩

/-- A place that is broken for readers only. -/
def Flaw.forgiven (fault : Fault) : Flaw := ⟨fault, none⟩

end Rulebook.Json
