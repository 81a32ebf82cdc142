import JsonShape.Token.Numeral

/-!
# The grammar of numerals

`IsNumeral` says which characters form a number: a minus if need be, a whole part, and a fraction
and an exponent if need be. `IsUnfinished` says which ones are a number that breaks off where a
digit has to follow.
-/

namespace JsonShape.Numeral

/-- One digit or more. -/
def IsDigits (cs : List Char) : Prop :=
  cs ≠ [] ∧ ∀ c ∈ cs, c.isDigit = true

/-- A zero, or digits that start with another one. -/
inductive IsWhole : List Char → Prop where
  | zero : IsWhole ['0']
  | digits {c : Char} {cs : List Char} (first : c ≠ '0') (h : IsDigits (c :: cs)) :
      IsWhole (c :: cs)

/-- Nothing, or a point and digits. -/
inductive IsFraction : List Char → Prop where
  | none : IsFraction []
  | digits {cs : List Char} (h : IsDigits cs) : IsFraction ('.' :: cs)

/-- Nothing, or a mark, a sign if need be, and digits. -/
inductive IsExponent : List Char → Prop where
  | none : IsExponent []
  | digits {mark : Char} {sign cs : List Char} (hm : mark = 'e' ∨ mark = 'E')
      (hs : sign = [] ∨ sign = ['+'] ∨ sign = ['-']) (h : IsDigits cs) :
      IsExponent (mark :: (sign ++ cs))

/-- The characters form a number. -/
def IsNumeral (cs : List Char) : Prop :=
  ∃ sign whole fraction exponent,
    cs = sign ++ whole ++ fraction ++ exponent ∧ (sign = [] ∨ sign = ['-']) ∧
      IsWhole whole ∧ IsFraction fraction ∧ IsExponent exponent

/-- The characters form a number that lacks its next digit: behind the minus, behind the point, or
behind the mark of the exponent and its sign. -/
inductive IsUnfinished : List Char → Prop where
  | minus : IsUnfinished ['-']
  | point {sign whole : List Char} (hs : sign = [] ∨ sign = ['-']) (hw : IsWhole whole) :
      IsUnfinished (sign ++ whole ++ ['.'])
  | exponent {sign whole fraction marked : List Char} {mark : Char}
      (hs : sign = [] ∨ sign = ['-']) (hw : IsWhole whole) (hf : IsFraction fraction)
      (hm : mark = 'e' ∨ mark = 'E') (he : marked = [] ∨ marked = ['+'] ∨ marked = ['-']) :
      IsUnfinished (sign ++ whole ++ fraction ++ mark :: marked)

end JsonShape.Numeral
