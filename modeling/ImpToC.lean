import ImpToC.C.Code
import ImpToC.C.Literal
import ImpToC.C.Lowering
import ImpToC.C.Text
import ImpToC.C.Writer
import ImpToC.CommandLine.Arguments
import ImpToC.CommandLine.Library
import ImpToC.CommandLine.Outcome
import ImpToC.Compilation
import ImpToC.Compilation.Result
import ImpToC.Diagnostic
import ImpToC.Disk
import ImpToC.Host
import ImpToC.Location
import ImpToC.Main
import ImpToC.Number.Binary64
import ImpToC.Number.Decimal
import ImpToC.Number.Rounding
import ImpToC.Number.Shortest
import ImpToC.Proofs.CommandLine.Libraries
import ImpToC.Proofs.CommandLine.Runs
import ImpToC.Proofs.Effects
import ImpToC.Proofs.Endings.Lines
import ImpToC.Proofs.Endings.Sources
import ImpToC.Proofs.Excerpts.Lines
import ImpToC.Proofs.Excerpts.Places
import ImpToC.Proofs.Excerpts.Sources
import ImpToC.Proofs.Faults.Lowering
import ImpToC.Proofs.Faults.Sources
import ImpToC.Proofs.Faults.Stages
import ImpToC.Proofs.Grammar.Nesting
import ImpToC.Proofs.Grammar.Rules
import ImpToC.Proofs.Grammar.Trees
import ImpToC.Proofs.Layout.Compilations
import ImpToC.Proofs.Layout.Parsing
import ImpToC.Proofs.Layout.Passes
import ImpToC.Proofs.Layout.Places
import ImpToC.Proofs.Literals.Code
import ImpToC.Proofs.Literals.Conversions
import ImpToC.Proofs.Literals.Floats
import ImpToC.Proofs.Literals.Integers
import ImpToC.Proofs.Literals.Ranges
import ImpToC.Proofs.Literals.Strings
import ImpToC.Proofs.Locations
import ImpToC.Proofs.Lowering.Blocks
import ImpToC.Proofs.Lowering.Correctness
import ImpToC.Proofs.Lowering.Helpers
import ImpToC.Proofs.Lowering.Obstacles
import ImpToC.Proofs.Lowering.Preservation
import ImpToC.Proofs.Lowering.Reuse
import ImpToC.Proofs.Lowering.Temporaries
import ImpToC.Proofs.Lowering.TypedCode
import ImpToC.Proofs.Lowering.Writers
import ImpToC.Proofs.Number.Nearest
import ImpToC.Proofs.Number.Rounding
import ImpToC.Proofs.Number.Texts
import ImpToC.Proofs.Numeric.Sources
import ImpToC.Proofs.Numeric.Typing
import ImpToC.Proofs.Outline.Expressions
import ImpToC.Proofs.Outline.Lines
import ImpToC.Proofs.Outline.Printers
import ImpToC.Proofs.Outline.Programs
import ImpToC.Proofs.Outline.Reading
import ImpToC.Proofs.Outline.Texts
import ImpToC.Proofs.Outline.Types
import ImpToC.Proofs.Parsing.Blocks
import ImpToC.Proofs.Parsing.Descents
import ImpToC.Proofs.Parsing.Expectations
import ImpToC.Proofs.Parsing.Landmarks
import ImpToC.Proofs.Parsing.Language
import ImpToC.Proofs.Parsing.Limits
import ImpToC.Proofs.Parsing.Moves
import ImpToC.Proofs.Parsing.Nesting
import ImpToC.Proofs.Parsing.Numbering
import ImpToC.Proofs.Parsing.Numbers
import ImpToC.Proofs.Parsing.Passes
import ImpToC.Proofs.Parsing.Sentences
import ImpToC.Proofs.Parsing.States
import ImpToC.Proofs.Parsing.Trees
import ImpToC.Proofs.Parsing.Words
import ImpToC.Proofs.Scanning.Calls
import ImpToC.Proofs.Scanning.Joining
import ImpToC.Proofs.Scanning.Places
import ImpToC.Proofs.Scanning.Runs
import ImpToC.Proofs.Scanning.Scanners
import ImpToC.Proofs.Scanning.Stops
import ImpToC.Proofs.Scanning.Tokenized
import ImpToC.Proofs.Scanning.Variants
import ImpToC.Proofs.Scanning.Writing
import ImpToC.Proofs.Scoping.Contexts
import ImpToC.Proofs.Scoping.Files
import ImpToC.Proofs.Scoping.Lines
import ImpToC.Proofs.Scoping.Sources
import ImpToC.Proofs.Scoping.Statements
import ImpToC.Proofs.Semantics.Bounds
import ImpToC.Proofs.Semantics.Code
import ImpToC.Proofs.Semantics.Meaning
import ImpToC.Proofs.Semantics.Safety
import ImpToC.Proofs.Semantics.Source
import ImpToC.Proofs.Staging
import ImpToC.Proofs.Syntax.Expressions
import ImpToC.Proofs.Syntax.Iteration
import ImpToC.Proofs.Syntax.Preorder
import ImpToC.Proofs.Typing.Checkers
import ImpToC.Proofs.Typing.Decides
import ImpToC.Proofs.Typing.Demands
import ImpToC.Proofs.Typing.Joins
import ImpToC.Proofs.Typing.Mistakes
import ImpToC.Proofs.Typing.Overlays
import ImpToC.Proofs.Typing.Partial
import ImpToC.Proofs.Typing.Records
import ImpToC.Proofs.Typing.Rules
import ImpToC.Proofs.Typing.Sessions
import ImpToC.Syntax
import ImpToC.Syntax.Dump
import ImpToC.Syntax.Iterator
import ImpToC.Syntax.Literal
import ImpToC.Syntax.Outline
import ImpToC.Syntax.Parser
import ImpToC.Syntax.Parser.Reader
import ImpToC.Syntax.Printer
import ImpToC.Syntax.Traversal
import ImpToC.Table
import ImpToC.Text.CodePoints
import ImpToC.Text.Hex
import ImpToC.Text.Lines
import ImpToC.Text.Quoted
import ImpToC.Text.Similarity
import ImpToC.Text.Unseen
import ImpToC.Text.Utf8
import ImpToC.Token
import ImpToC.Token.Lexer
import ImpToC.Token.Scanner
import ImpToC.Token.Sentence
import ImpToC.Token.Spelling
import ImpToC.Types
import ImpToC.Typing
import ImpToC.Typing.Checker
