import JsonShape.Text.Printable

/-!
# Quoted texts

Messages show a text from the input between quotation marks, on one line and with nothing
invisible in it: `quote` puts single quotes around it, double quotes if it holds a single quote and
no double one, and spells out by an escape every code point that is not printable.
-/

namespace JsonShape.Quoted

/-- The mark that a text is put between. -/
def mark (text : Text) : Char :=
  if text.contains (.ofChar '\'') && !text.contains (.ofChar '"') then '"' else '\''

/-- A number in hexadecimal, lower case, filled up with zeros to a width. -/
def hex (width n : Nat) : String :=
  let digits := Nat.toDigits 16 n
  String.ofList (List.replicate (width - digits.length) '0' ++ digits)

/-- The escape of a code point that is not shown as itself: two digits, four or eight. -/
def escape (c : CodePoint) : String :=
  if c.val < 0x100 then "\\x" ++ hex 2 c.val
  else if c.val < 0x10000 then "\\u" ++ hex 4 c.val
  else "\\U" ++ hex 8 c.val

/-- How a code point is spelled inside the marks. -/
def spell (mark : Char) (c : CodePoint) : String :=
  match c.char? with
  | none => escape c
  | some ch =>
    if ch = mark || ch = '\\' then "\\" ++ String.singleton ch
    else if ch = '\t' then "\\t"
    else if ch = '\n' then "\\n"
    else if ch = '\r' then "\\r"
    else if c.isPrintable then String.singleton ch
    else escape c

/-- A text between quotation marks. -/
def quote (text : Text) : String :=
  let around := mark text
  String.singleton around ++ String.join (text.map (spell around)) ++ String.singleton around

/-- A string between quotation marks. -/
def quoteString (s : String) : String :=
  quote (Text.ofString s)

example : quoteString "it's" = "\"it's\"" := by decide +kernel
example : quoteString "'\"\\\n\x00é" = "'\\'\"\\\\\\n\\x00é'" := by decide +kernel
example : quote [⟨0xD800, by omega⟩] = "'\\ud800'" := by decide +kernel

end JsonShape.Quoted
