import JsonShape.CommandLine.Arguments
import JsonShape.CommandLine.Directory
import JsonShape.CommandLine.Integer
import JsonShape.CommandLine.Path
import JsonShape.CommandLine.Run
import JsonShape.Error
import JsonShape.Grammar.Document
import JsonShape.Grammar.Numeral
import JsonShape.Grammar.Spelling
import JsonShape.Host
import JsonShape.Inference.Basic
import JsonShape.Inference.Descent
import JsonShape.Inference.State
import JsonShape.Inference.Step
import JsonShape.Main
import JsonShape.Proofs.CommandLine.Arguments
import JsonShape.Proofs.CommandLine.Entry
import JsonShape.Proofs.CommandLine.Integer
import JsonShape.Proofs.CommandLine.Verbosity
import JsonShape.Proofs.Grammar.Tokenized
import JsonShape.Proofs.Inference.Completion
import JsonShape.Proofs.Inference.Depth
import JsonShape.Proofs.Inference.Descent
import JsonShape.Proofs.Inference.Effect
import JsonShape.Proofs.Inference.Framing
import JsonShape.Proofs.Inference.Proper
import JsonShape.Proofs.Inference.Reading
import JsonShape.Proofs.Inference.Renaming
import JsonShape.Proofs.Inference.Repeats
import JsonShape.Proofs.Inference.Settling
import JsonShape.Proofs.Inference.Step
import JsonShape.Proofs.Inference.Viable
import JsonShape.Proofs.Lexed
import JsonShape.Proofs.Lines
import JsonShape.Proofs.Located
import JsonShape.Proofs.Lookahead
import JsonShape.Proofs.Prefix
import JsonShape.Proofs.Schema
import JsonShape.Proofs.Shape.Edit
import JsonShape.Proofs.Shape.Fold
import JsonShape.Proofs.Shape.Gather
import JsonShape.Proofs.Shape.Join
import JsonShape.Proofs.Shape.JoinByRules
import JsonShape.Proofs.Shape.KeyOrder
import JsonShape.Proofs.Shape.Legible
import JsonShape.Proofs.Shape.Order
import JsonShape.Proofs.Shape.Pairing
import JsonShape.Proofs.Shape.Proper
import JsonShape.Proofs.Shape.Ranks
import JsonShape.Proofs.Shape.Rename
import JsonShape.Proofs.Shape.Text
import JsonShape.Proofs.Text.Utf8
import JsonShape.Proofs.Token.Chunks
import JsonShape.Proofs.Token.Decoding
import JsonShape.Proofs.Token.Flat
import JsonShape.Proofs.Token.Flaw
import JsonShape.Proofs.Token.Lexer
import JsonShape.Proofs.Token.Lexing
import JsonShape.Proofs.Token.NumberRun
import JsonShape.Proofs.Token.Numeral
import JsonShape.Proofs.Token.Permanent
import JsonShape.Proofs.Token.Placed
import JsonShape.Proofs.Token.Prefix
import JsonShape.Proofs.Token.Reached
import JsonShape.Proofs.Token.Spelling
import JsonShape.Proofs.Token.Taken
import JsonShape.Proofs.Token.Tiling
import JsonShape.Proofs.Value.Conformance
import JsonShape.Proofs.Value.Lexemes
import JsonShape.Proofs.Value.Repeats
import JsonShape.Proofs.Value.Shape
import JsonShape.Schema
import JsonShape.Shape.Alignment
import JsonShape.Shape.Basic
import JsonShape.Shape.Checked
import JsonShape.Shape.Edit
import JsonShape.Shape.Fields
import JsonShape.Shape.Join
import JsonShape.Shape.JoinByRules
import JsonShape.Shape.Order
import JsonShape.Shape.Rename
import JsonShape.Shape.Render
import JsonShape.Shape.Reordering
import JsonShape.Shape.Text
import JsonShape.Source
import JsonShape.Text.CodePoint
import JsonShape.Text.Printable
import JsonShape.Text.Quoted
import JsonShape.Text.Utf8
import JsonShape.Token.Basic
import JsonShape.Token.Cursor
import JsonShape.Token.Kind
import JsonShape.Token.Lexer
import JsonShape.Token.Numeral
import JsonShape.Token.Scan
import JsonShape.Token.Unread
import JsonShape.Value.Basic
import JsonShape.Value.Conformance
