/-!
# Integers on the command line

An integer is written in the digits from `0` to `9`, with a sign in front if need be. Blanks around
it do not count, and neither does what adds nothing to its value: zeros in front of the first other
digit with any underscores among them, and at the end a point with zeros behind it, one at least. In
what is left, single underscores may stand between two characters. A minus may stand behind the
zeros that do not count, instead of in front of them.

Like the rest of the syntax of the command line, these rules are what is assumed of the library that
takes the options apart, and no part of the program itself.
-/

namespace JsonShape.CommandLine.Integer

/-- The most digits of an integer, zeros in front not counted. -/
def maxDigits : Nat := 4300

/-- Blanks of the ASCII range and beyond it. -/
def isBlank (c : Char) : Bool :=
  [0x20, 0x85, 0xA0, 0x1680, 0x2028, 0x2029, 0x202F, 0x205F, 0x3000].contains c.toNat ||
    0x09 ≤ c.toNat && c.toNat ≤ 0x0D || 0x2000 ≤ c.toNat && c.toNat ≤ 0x200A

/-- Takes the blanks around a text away. -/
def trim (cs : List Char) : List Char :=
  ((cs.dropWhile isBlank).reverse.dropWhile isBlank).reverse

/-- Takes away the zeros and underscores that a text goes on with. If neither another digit nor a
minus follows them, the last one stays, so that the text of a zero keeps a digit. -/
def dropZeros? (last : Char) : List Char → Option (List Char)
  | [] => some [last]
  | c :: rest =>
    if c = '0' || c = '_' then dropZeros? c rest
    else if c.isDigit || c = '-' then some (c :: rest)
    else if c = '.' then some (last :: c :: rest)
    else none

/-- Takes the zeros in front away. -/
def significant? : List Char → Option (List Char)
  | [] => none
  | c :: rest =>
    if c = '0' then dropZeros? c rest
    else if c.isDigit then some (c :: rest)
    else none

/-- Takes away the first point and what stands behind it, if that is one zero or more. -/
def dropFraction (cs : List Char) : List Char :=
  match cs.dropWhile (· ≠ '.') with
  | [] => cs
  | _ :: fraction =>
    if fraction ≠ [] && fraction.all (· = '0') then cs.takeWhile (· ≠ '.') else cs

/-- Takes away single underscores, if another character stands in front of the text. -/
def joinOn? : List Char → Option (List Char)
  | [] => some []
  | ['_'] => none
  | '_' :: c :: rest => if c = '_' then none else (joinOn? rest).map (c :: ·)
  | c :: rest => (joinOn? rest).map (c :: ·)

/-- Takes away single underscores between two characters. There must be no others. -/
def join? : List Char → Option (List Char)
  | '_' :: _ => none
  | cs => joinOn? cs

/-- The value of digits without a superfluous zero. -/
def digits? : List Char → Option Nat
  | [] => none
  | ['0'] => some 0
  | c :: rest =>
    if c ≠ '0' && (c :: rest).all Char.isDigit && rest.length < maxDigits then
      some ((c :: rest).foldl (fun n d => n * 10 + (d.toNat - 0x30)) 0)
    else none

/-- The value of digits behind a minus, or of digits alone. -/
def value? : List Char → Option Int
  | '-' :: cs => (digits? cs).map fun n => -(n : Int)
  | cs => (digits? cs).map Int.ofNat

/-- Takes everything away that adds nothing to the value of a text without a sign. -/
def plain? (cs : List Char) : Option (List Char) :=
  (significant? cs).bind fun cs => join? (dropFraction cs)

/-- The integer that a text writes. -/
def read? (s : String) : Option Int :=
  match trim s.toList with
  | '-' :: cs => (plain? cs).bind fun cs => value? ('-' :: cs)
  | '+' :: cs => (plain? cs).bind value?
  | cs => (plain? cs).bind value?

end JsonShape.CommandLine.Integer
