/-!
# Numerals

A numeral is an optional minus, a whole part without superfluous zeros, and then a fraction and an
exponent if there are any. `Numeral.reach` reads a run of characters from left to right and says
where in a numeral the run stops: where a numeral may end, where more characters are needed, or
`Place.astray`, where nothing that follows makes it a numeral.
-/

namespace JsonShape.Numeral

/-- A place between two characters of a numeral. -/
inductive Place where
  /-- Before the first character. -/
  | start
  /-- Behind the minus. -/
  | minus
  /-- Behind a whole part that is a zero. -/
  | zero
  /-- Behind a digit of another whole part. -/
  | whole
  /-- Behind the point. -/
  | point
  /-- Behind a digit of the fraction. -/
  | fraction
  /-- Behind the mark of the exponent. -/
  | mark
  /-- Behind the sign of the exponent. -/
  | sign
  /-- Behind a digit of the exponent. -/
  | exponent
  /-- In no numeral. -/
  | astray
  deriving DecidableEq, Repr

namespace Place

/-- The first digit of the whole part comes next. -/
def first (c : Char) : Place :=
  if c = '0' then zero else if c.isDigit then whole else astray

/-- The whole part is over: a fraction or an exponent may follow. -/
def afterWhole (c : Char) : Place :=
  if c = '.' then point else if c = 'e' || c = 'E' then mark else astray

/-- The place behind one more character. -/
def step : Place → Char → Place
  | start, c => if c = '-' then minus else first c
  | minus, c => first c
  | zero, c => afterWhole c
  | whole, c => if c.isDigit then whole else afterWhole c
  | point, c => if c.isDigit then fraction else astray
  | fraction, c =>
    if c.isDigit then fraction else if c = 'e' || c = 'E' then mark else astray
  | mark, c => if c = '+' || c = '-' then sign else if c.isDigit then exponent else astray
  | sign, c => if c.isDigit then exponent else astray
  | exponent, c => if c.isDigit then exponent else astray
  | astray, _ => astray

/-- A numeral may end here. -/
def isFinal : Place → Bool
  | zero | whole | fraction | exponent => true
  | _ => false

end Place

/-- Where a run of characters stops. -/
def reach (run : List Char) : Place :=
  run.foldl Place.step .start

/-- The characters that a numeral is made of. -/
def isNumeralChar (c : Char) : Bool :=
  c.isDigit || c = '+' || c = '-' || c = '.' || c = 'e' || c = 'E'

/-- A numeral that has a fraction or an exponent. -/
def isFloat (literal : String) : Bool :=
  literal.toList.any fun c => c = '.' || c = 'e' || c = 'E'

end JsonShape.Numeral
