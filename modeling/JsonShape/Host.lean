import JsonShape.Schema

/-!
# Hosts without files

A host that has no files hands in values of its own: a name, the sample and some options. Only texts
will do. The name and the options have no influence on the schema, which has the usual layout.
-/

namespace JsonShape.Host

/-- The types of a host's values other than texts. -/
inductive ValueType where
  | nothing
  | bool
  | int
  | float
  | bytes
  | array
  | object
  deriving DecidableEq, Repr

/-- How a host calls a type. -/
def ValueType.name : ValueType → String
  | nothing => "NoneType"
  | bool => "bool"
  | int => "int"
  | float => "float"
  | bytes => "bytes"
  | array => "list"
  | object => "dict"

/-- A value that a host hands in. -/
inductive Value where
  | text (t : Text)
  | other (type : ValueType)
  deriving DecidableEq

/-- The value is a text. -/
def Value.isText : Value → Bool
  | text _ => true
  | other _ => false

/-- The schema of the sample that a host hands in. The type of the sample is looked at first. -/
def schema (name input options : Value) : Except Failure String :=
  match input with
  | .other type => .error (.inputNotText type.name)
  | .text sample =>
    if name.isText && options.isText then Schema.ofText sample {}
    else .error .labelNotText

end JsonShape.Host
