import JsonShape.Token.Kind

/-!
# Errors

An `InputError` says why a JSON text could not be turned into a shape: its cause, and the byte of
the input that shows it, where there is one. A `Failure` is anything that can go wrong with a
request, which may also be ill-posed. Both have a `message` for the user; the message of an input
error ends in the offset exactly if the error has one.
-/

namespace JsonShape

/-- Why an input could not be read. -/
inductive Unavailability where
  | unspecified
  /-- With a message of the caller's own. -/
  | described (message : String)
  /-- The system failed to deliver what comes next. -/
  | readFailed (reason : String)
  /-- The system did not open the file. -/
  | cannotOpen (path reason : String)
  deriving DecidableEq, Repr

/-- What makes a text something other than JSON. -/
inductive Defect where
  | unspecified
  /-- With a message of the caller's own. -/
  | described (message : String)
  /-- No token starts with this byte. -/
  | unexpectedCharacter (byte : UInt8)
  /-- A word starts as the given one does, and goes on otherwise. -/
  | misspelled (word : Word)
  /-- A run of digits, signs, points and exponent marks is no number. -/
  | invalidNumber (run : String)
  /-- A string holds a byte below the space. -/
  | controlCharacter
  /-- A value must stand where this token stands. -/
  | expectedValue (found : TokenKind)
  /-- A key must stand where this token stands. -/
  | expectedKey (found : TokenKind)
  /-- One token must stand where another one stands. -/
  | expected (wanted found : TokenKind)
  /-- Something follows the value that the text should consist of. -/
  | trailing (found : TokenKind)
  deriving DecidableEq, Repr

/-- Why an input has no shape. -/
inductive Cause where
  /-- With a message of the caller's own. -/
  | described (message : String)
  | unavailable (why : Unavailability)
  /-- The bytes of a string, or the surrogates in it, spell no characters. -/
  | invalidUtf8
  /-- This character may not stand where it does behind a backslash. -/
  | invalidEscape (character : CodePoint)
  | invalidJson (defect : Defect)
  /-- Arrays and objects nest beyond the limit. -/
  | nestingTooDeep (limit : Int)
  /-- The input ends in the middle of a value. -/
  | unexpectedEnd
  deriving DecidableEq

/-- A failure to turn an input into a shape. -/
structure InputError where
  /-- What went wrong. -/
  cause : Cause
  /-- The byte of the input that shows it. -/
  offset : Option Int := none
  deriving DecidableEq

/-- Anything that can go wrong with a request. -/
inductive Failure where
  | input (error : InputError)
  /-- A number that stands for a value, or a string that stands for a key, lacks its text. -/
  | textMissing
  /-- Records cannot be indented by less than nothing. -/
  | negativeIndent (indent : Int)
  /-- An optional shape was to be the inner shape of another. -/
  | nestedOptional
  /-- A number is the number of no code point. -/
  | noCodePoint
  /-- No kind of token is written so. -/
  | unknownKind (name : String)
  /-- A host handed in an input of another type than a text. -/
  | inputNotText (typeName : String)
  /-- A host handed in a name, or options, of another type than a text. -/
  | labelNotText
  deriving DecidableEq

def Unavailability.message : Unavailability → String
  | unspecified => "failed to read input"
  | described message => message
  | readFailed reason => "failed to read input: " ++ reason
  | cannotOpen path reason => "cannot open " ++ path ++ ": " ++ reason

def Defect.message : Defect → String
  | unspecified => "invalid JSON"
  | described message => message
  | unexpectedCharacter byte => "unexpected character " ++ Quoted.quote [.ofByte byte]
  | misspelled word => "invalid literal, expected b'" ++ word.spelling ++ "'"
  | invalidNumber run => "invalid number " ++ Quoted.quoteString run
  | controlCharacter => "control character in string"
  | expectedValue found => "expected a value, found " ++ found.quotedName
  | expectedKey found => "expected an object key, found " ++ found.quotedName
  | expected wanted found => "expected " ++ wanted.quotedName ++ ", found " ++ found.quotedName
  | trailing found => "unexpected " ++ found.quotedName ++ " after top-level value"

def Cause.message : Cause → String
  | described message => message
  | unavailable why => why.message
  | invalidUtf8 => "invalid UTF-8 in string"
  | invalidEscape character => "invalid escape character " ++ Quoted.quote [character]
  | invalidJson defect => defect.message
  | nestingTooDeep limit => "nesting too deep, limit is " ++ toString limit ++ " levels"
  | unexpectedEnd => "unexpected end of input"

/-- The cause, and the offset if there is one. -/
def InputError.message (e : InputError) : String :=
  match e.offset with
  | none => e.cause.message
  | some offset => e.cause.message ++ " (at byte " ++ toString offset ++ ")"

def Failure.message : Failure → String
  | input error => error.message
  | textMissing => ""
  | negativeIndent indent => "Indent must be non-negative, got " ++ toString indent
  | nestedOptional => "Optional shapes cannot be nested"
  | noCodePoint => "chr() arg not in range(0x110000)"
  | unknownKind name => Quoted.quoteString name ++ " is not a valid TokenKind"
  | inputNotText typeName => "Input must be a string, got " ++ typeName
  | labelNotText => "Name and options must be strings"

end JsonShape
