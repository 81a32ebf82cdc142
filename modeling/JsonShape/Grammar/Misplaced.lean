import JsonShape.Token.Kind

/-!
# What is said of a token in the wrong place

The message of a token that may not stand where it does names the kind of the token, and the kind of
the one that should stand there if there is only one. A punctuation mark and a word are named by
what is written, a string and a number by the word for what they are, each between single quotes.
-/

namespace JsonShape.Grammar

end JsonShape.Grammar
