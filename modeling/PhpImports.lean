import PhpImports.Text.Blank
import PhpImports.Text.Letter
import PhpImports.Token.Keyword
import PhpImports.Token.Kind
import PhpImports.Token.Basic
import PhpImports.Token.Block
import PhpImports.Token.Sequence
import PhpImports.Lexing.Pattern
import PhpImports.Lexing.Rule
import PhpImports.Lexing.LongestMatch
import PhpImports.Lexing.Heredoc
import PhpImports.Lexing.Markup
import PhpImports.Lexing.NamePosition
import PhpImports.Lexing.Basic
import PhpImports.Names.Segments
import PhpImports.Names.Reserved
import PhpImports.Names.Mention
import PhpImports.Names.Usage
import PhpImports.Names.Placed
import PhpImports.Names.Namespace
import PhpImports.Names.Import
import PhpImports.Names.Declaration
import PhpImports.Names.Analysis
import PhpImports.Settings.Option
import PhpImports.Settings.Config
import PhpImports.Settings.Version
import PhpImports.Settings.Document
import PhpImports.Fix.Statement
import PhpImports.Fix.Basic
import PhpImports.Fix.Session
import PhpImports.Fix.Description
import PhpImports.Proofs.Fix.Outcome
import PhpImports.Proofs.Fix.Candidate
import PhpImports.Proofs.Fix.Frame
import PhpImports.Proofs.Names.Outline
import PhpImports.Proofs.Fix.Trivia
import PhpImports.Proofs.Lexing.MaximalMunch
import PhpImports.Proofs.Lexing.Cover
import PhpImports.Proofs.Names.ImportBlock
import PhpImports.Proofs.Names.Anchor
import PhpImports.Proofs.Fix.ReadBack
import PhpImports.Proofs.Lexing.Munch
import PhpImports.Proofs.Lexing.Shape
import PhpImports.Proofs.Lexing.Table
import PhpImports.Proofs.Lexing.Locality
import PhpImports.Proofs.Lexing.ImportText
import PhpImports.Proofs.Lexing.Insertion
import PhpImports.Proofs.Names.NamespaceBlock
import PhpImports.Proofs.Fix.Relex
import PhpImports.Proofs.Fix.RoundTrip
import PhpImports.Proofs.Names.NamespacePlace
import PhpImports.Proofs.Fix.ImportLevel
import PhpImports.Proofs.Token.Navigation
import PhpImports.Proofs.Token.Block
import PhpImports.Proofs.Names.UsedAt
import PhpImports.Proofs.Names.Grammar
import PhpImports.Proofs.Names.UnitImports
import PhpImports.Proofs.Lexing.Parts
import PhpImports.Proofs.Fix.Session
import PhpImports.Proofs.Lexing.NamePosition
import PhpImports.Proofs.Names.Declared
import PhpImports.Proofs.Fix.Reachable
import PhpImports.Proofs.Lexing.LineComment
import PhpImports.Proofs.Lexing.Heredoc
import PhpImports.Proofs.Lexing.Edge
import PhpImports.Proofs.Names.WholeName
import PhpImports.Proofs.Names.StaticAccess
import PhpImports.Proofs.Names.Segments
