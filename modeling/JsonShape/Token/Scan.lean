import JsonShape.Text.Utf8
import JsonShape.Token.Basic
import JsonShape.Token.Numeral
import JsonShape.Error

/-!
# Scanning bytes

A `Scan` is what the reader of tokens is in the middle of. `Scan.step` takes the next byte into
account: it goes on with another scan, or the byte completes a token, or it shows that the input is
wrong. A byte that only shows that a number is over belongs to what follows and is not taken; nor is
a byte with which no token starts. `Scan.run` takes bytes for as long as there are any, and
`Scan.finish` says what the end of the input means.

The bytes of a string are decoded in runs: from the opening quote to the first escape, between two
escapes, and from the last escape to the closing quote.
-/

namespace JsonShape

/-- Where the scan of a string stands. -/
inductive StringPlace where
  /-- In a run of bytes that stand for themselves, the latest first. -/
  | raw (run : List UInt8)
  /-- Behind a backslash. -/
  | escape
  /-- In an escape by number, whose `u` is the byte at `origin`. Behind the next digit `owed` more
  are missing; `code` is the value of those seen. A high surrogate may stand in front of it. -/
  | digits (origin : Nat) (high : Option Nat) (owed code : Nat)
  /-- Behind a high surrogate, which a backslash must follow. -/
  | pair (origin high : Nat)
  /-- Behind the backslash that follows a high surrogate. -/
  | pairEscape (origin high : Nat)
  deriving DecidableEq, Repr

/-- What a scan is in the middle of. Every scan but that of blanks knows where its token starts. -/
inductive Scan where
  /-- Between two tokens. -/
  | blank
  /-- In a word: one byte of it comes next, and then those that are owed. -/
  | word (start : Nat) (word : Word) (next : UInt8) (owed : List UInt8)
  /-- In a run of the characters that numbers are made of, the latest first. -/
  | number (start : Nat) (run : List Char)
  /-- In a string, of which some text is decoded. -/
  | string (start : Nat) (text : String) (place : StringPlace)
  deriving DecidableEq, Repr

/-- What a byte means to a scan. -/
inductive Step where
  /-- The byte is taken and the scan goes on. -/
  | more (scan : Scan)
  /-- The byte is taken and completes a token. -/
  | token (t : Token)
  /-- The token is complete without the byte, which is not taken. -/
  | tokenBefore (t : Token)
  /-- The byte is taken and the input is wrong. -/
  | fault (e : InputError)
  /-- The input is wrong from the byte on, which is not taken. -/
  | faultBefore (e : InputError)
  deriving DecidableEq

namespace Scan

/-! ## Classes of bytes -/

/-- Space, tab, line feed and carriage return may stand between tokens. -/
def isBlank (b : UInt8) : Bool :=
  b = 0x20 || b = 0x09 || b = 0x0A || b = 0x0D

/-- The character of a byte that numbers are made of. -/
def numeralChar? (b : UInt8) : Option Char :=
  let c := Char.ofNat b.toNat
  if Numeral.isNumeralChar c then some c else none

/-- The marks that are tokens by themselves. -/
def punctuation? (b : UInt8) : Option TokenKind :=
  match b with
  | 0x7B => some .objectStart
  | 0x7D => some .objectEnd
  | 0x5B => some .arrayStart
  | 0x5D => some .arrayEnd
  | 0x3A => some .colon
  | 0x2C => some .comma
  | _ => none

/-- The word that a byte starts. -/
def word? (b : UInt8) : Option Word :=
  match b with
  | 0x74 => some .yes
  | 0x66 => some .no
  | 0x6E => some .null
  | _ => none

/-- The scan of a word whose first byte is taken. -/
def ofWord (start : Nat) : Word → Scan
  | .yes => .word start .yes 0x72 [0x75, 0x65]
  | .no => .word start .no 0x61 [0x6C, 0x73, 0x65]
  | .null => .word start .null 0x75 [0x6C, 0x6C]

/-- The character that a byte stands for behind a backslash. -/
def shortEscape? (b : UInt8) : Option Char :=
  match b with
  | 0x22 => some '"'
  | 0x5C => some '\\'
  | 0x2F => some '/'
  | 0x62 => some '\x08'
  | 0x66 => some '\x0c'
  | 0x6E => some '\n'
  | 0x72 => some '\r'
  | 0x74 => some '\t'
  | _ => none

/-- The value of a hexadecimal digit of either case. -/
def hexDigit? (b : UInt8) : Option Nat :=
  if 0x30 ≤ b && b ≤ 0x39 then some (b.toNat - 0x30)
  else if 0x41 ≤ b && b ≤ 0x46 then some (b.toNat - 0x41 + 10)
  else if 0x61 ≤ b && b ≤ 0x66 then some (b.toNat - 0x61 + 10)
  else none

/-- The first halves of surrogate pairs. -/
def isHighSurrogate (code : Nat) : Bool :=
  0xD800 ≤ code && code < 0xDC00

/-- The second halves of surrogate pairs. -/
def isLowSurrogate (code : Nat) : Bool :=
  0xDC00 ≤ code && code < 0xE000

/-- The character that a surrogate pair stands for. -/
def pairChar (high low : Nat) : Char :=
  Char.ofNat (0x10000 + (high - 0xD800) * 0x400 + (low - 0xDC00))

/-! ## Steps -/

/-- The start of a token, or a blank in front of it. -/
def stepBlank (offset : Nat) (b : UInt8) : Step :=
  if isBlank b then .more .blank
  else if b = 0x22 then .more (.string offset "" (.raw []))
  else if b = 0x2D || 0x30 ≤ b && b ≤ 0x39 then .more (.number offset [Char.ofNat b.toNat])
  else
    match punctuation? b with
    | some kind => .token ⟨kind, none, offset⟩
    | none =>
      match word? b with
      | some w => .more (.ofWord offset w)
      | none => .faultBefore ⟨.invalidJson (.unexpectedCharacter b), some offset⟩

/-- The next byte of a word. -/
def stepWord (start : Nat) (w : Word) (next : UInt8) (owed : List UInt8) (b : UInt8) : Step :=
  if b = next then
    match owed with
    | [] => .token ⟨.word w, none, start⟩
    | next :: owed => .more (.word start w next owed)
  else .fault ⟨.invalidJson (.misspelled w), some start⟩

/-- A number is over: it is a token if the run that it stands in is a numeral. -/
def closeNumber (start : Nat) (run : List Char) : Except InputError Token :=
  let text := String.ofList run.reverse
  if (Numeral.reach run.reverse).isFinal then .ok ⟨.number, some text, start⟩
  else .error ⟨.invalidJson (.invalidNumber text), some start⟩

/-- The byte behind a digit or another character of a number. -/
def stepNumber (start : Nat) (run : List Char) (b : UInt8) : Step :=
  match numeralChar? b with
  | some c => .more (.number start (c :: run))
  | none =>
    match closeNumber start run with
    | .ok t => .tokenBefore t
    | .error e => .faultBefore e

/-- An escape by number is over, and its value known. -/
def closeDigits (start : Nat) (text : String) (origin : Nat) (high : Option Nat) (code : Nat) :
    Step :=
  match high with
  | some h =>
    if isLowSurrogate code then .more (.string start (text.push (pairChar h code)) (.raw []))
    else .fault ⟨.invalidUtf8, some origin⟩
  | none =>
    if isHighSurrogate code then .more (.string start text (.pair origin code))
    else if isLowSurrogate code then .fault ⟨.invalidUtf8, some origin⟩
    else .more (.string start (text.push (Char.ofNat code)) (.raw []))

/-- The next byte of a string. -/
def stepString (start : Nat) (text : String) (place : StringPlace) (offset : Nat) (b : UInt8) :
    Step :=
  match place with
  | .raw run =>
    if b = 0x22 then
      match Utf8.decode? run.reverse with
      | some s => .token ⟨.string, some (text ++ s), start⟩
      | none => .fault ⟨.invalidUtf8, some start⟩
    else if b = 0x5C then
      match Utf8.decode? run.reverse with
      | some s => .more (.string start (text ++ s) .escape)
      | none => .fault ⟨.invalidUtf8, some start⟩
    else if b < 0x20 then .fault ⟨.invalidJson .controlCharacter, some offset⟩
    else .more (.string start text (.raw (b :: run)))
  | .escape =>
    match shortEscape? b with
    | some c => .more (.string start (text.push c) (.raw []))
    | none =>
      if b = 0x75 then .more (.string start text (.digits offset none 3 0))
      else .fault ⟨.invalidEscape (.ofByte b), some offset⟩
  | .digits origin high owed code =>
    match hexDigit? b with
    | none => .fault ⟨.invalidEscape (.ofByte b), some offset⟩
    | some d =>
      match owed with
      | 0 => closeDigits start text origin high (code * 16 + d)
      | owed + 1 => .more (.string start text (.digits origin high owed (code * 16 + d)))
  | .pair origin high =>
    if b = 0x5C then .more (.string start text (.pairEscape origin high))
    else .fault ⟨.invalidUtf8, some origin⟩
  | .pairEscape origin high =>
    if b = 0x75 then .more (.string start text (.digits origin (some high) 3 0))
    else .fault ⟨.invalidUtf8, some origin⟩

/-- What the byte at an offset means to a scan. -/
def step (scan : Scan) (offset : Nat) (b : UInt8) : Step :=
  match scan with
  | blank => stepBlank offset b
  | word start w next owed => stepWord start w next owed b
  | number start run => stepNumber start run b
  | string start text place => stepString start text place offset b

/-! ## Runs -/

/-- How far a scan comes with some bytes. -/
inductive Progress where
  /-- All bytes are taken and the scan goes on at the offset. -/
  | more (scan : Scan) (offset : Nat)
  /-- There is a token, and some bytes are left. -/
  | token (t : Token) (offset : Nat) (rest : List UInt8)
  /-- The input is wrong, and some bytes are left. -/
  | fault (e : InputError) (offset : Nat) (rest : List UInt8)
  deriving DecidableEq

/-- Takes bytes, the first of which is at the offset, until there is a token or a fault. -/
def run (scan : Scan) (offset : Nat) : List UInt8 → Progress
  | [] => .more scan offset
  | b :: rest =>
    match scan.step offset b with
    | .more scan => run scan (offset + 1) rest
    | .token t => .token t (offset + 1) rest
    | .tokenBefore t => .token t offset (b :: rest)
    | .fault e => .fault e (offset + 1) rest
    | .faultBefore e => .fault e offset (b :: rest)

/-- What the end of the input at an offset means: nothing between two tokens, the end of a number
inside one unless more characters could still make it a number, and a fault anywhere else. -/
def finish (scan : Scan) (offset : Nat) : Option (Except InputError Token) :=
  match scan with
  | blank => none
  | number start run =>
    let place := Numeral.reach run.reverse
    if place.isFinal || place = .astray then some (closeNumber start run)
    else some (.error ⟨.unexpectedEnd, some offset⟩)
  | _ => some (.error ⟨.unexpectedEnd, some offset⟩)

end Scan

end JsonShape
