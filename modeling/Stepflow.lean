import Stepflow.Text.Blank
import Stepflow.Text.Pieces
import Stepflow.Text.Bytes
import Stepflow.Concrete
import Stepflow.TypeScript.Lexeme
import Stepflow.TypeScript.Pattern
import Stepflow.TypeScript.Grammar.Rule
import Stepflow.TypeScript.Grammar.Types
import Stepflow.TypeScript.Grammar.Expressions
import Stepflow.TypeScript.Grammar.Markup
import Stepflow.TypeScript.Grammar.Statements
import Stepflow.TypeScript.Reader
import Stepflow.Number.Double
import Stepflow.Number.Numeral
import Stepflow.Number.Shortest
import Stepflow.Tree.Basic
import Stepflow.Tree.Literal
import Stepflow.Tree.OfConcrete
import Stepflow.Json.Value
import Stepflow.Json.Reader
import Stepflow.Json.Writer
import Stepflow.Json.Decode
import Stepflow.Tree.Codec
import Stepflow.Source.Options
import Stepflow.TypeScript.Source
import Stepflow.Arena.Basic
import Stepflow.Arena.Gap
import Stepflow.Arena.OfTree
import Stepflow.Arena.Codec
import Stepflow.Arena.Walk
import Stepflow.Comment.Segments
import Stepflow.Comment.Tags
import Stepflow.Flow.Edge
import Stepflow.Flow.Chart
import Stepflow.Flow.Statement
import Stepflow.Flow.OfArena
import Stepflow.Text.Lines
import Stepflow.Error
import Stepflow.Source.Extract
import Stepflow.Flow.Codec
import Stepflow.Digest.Sha256
import Stepflow.Yaml.Scalar
import Stepflow.Yaml.Writer
import Stepflow.Project.Glob
import Stepflow.Project.Config
import Stepflow.Project.Report
import Stepflow.Project.FileTree
import Stepflow.Project.Disk
import Stepflow.Project.Files
import Stepflow.Project.Scan
import Stepflow.Render
import Stepflow.Cli.Args
import Stepflow.Cli.Run
import Stepflow.Main
import Stepflow.Proofs.Address
import Stepflow.Proofs.Staging
import Stepflow.Proofs.Collection
import Stepflow.Proofs.Traversal
import Stepflow.Proofs.Wrappers
import Stepflow.Proofs.Arrangement
import Stepflow.Proofs.Linearization
import Stepflow.Proofs.Outline
import Stepflow.Proofs.Assignment
import Stepflow.Proofs.Decision
import Stepflow.Proofs.Operators
import Stepflow.Proofs.Nesting
import Stepflow.Proofs.Visits
import Stepflow.Proofs.PlainAssignment
import Stepflow.Proofs.Gaps
import Stepflow.Proofs.Validation
import Stepflow.Proofs.Order
import Stepflow.Proofs.Tiling
import Stepflow.Proofs.Outermost
import Stepflow.Proofs.Rank
import Stepflow.Proofs.Rearrangement
import Stepflow.Proofs.Locality
import Stepflow.Proofs.Extension
import Stepflow.Proofs.Radix
import Stepflow.Proofs.Digits
import Stepflow.Proofs.Numerals
import Stepflow.Proofs.JsonText
import Stepflow.Proofs.Spellings
import Stepflow.Proofs.CodeUnits
import Stepflow.Proofs.Rounding
import Stepflow.Proofs.RadixLiterals
import Stepflow.Proofs.Content
import Stepflow.Proofs.PairText
import Stepflow.Proofs.ChartJson
import Stepflow.Proofs.EdgeText
import Stepflow.Proofs.Label
import Stepflow.Proofs.LineEnds
import Stepflow.Proofs.Words
import Stepflow.Proofs.Indentation
import Stepflow.Proofs.Headers
import Stepflow.Proofs.Segments
import Stepflow.Proofs.Patterns
import Stepflow.Proofs.WellFormed
import Stepflow.Proofs.Accumulation
import Stepflow.Proofs.Faults
import Stepflow.Proofs.Enclosure
import Stepflow.Proofs.Places
import Stepflow.Proofs.Saving
import Stepflow.Proofs.FolderWalk
import Stepflow.Proofs.Scanning
import Stepflow.Proofs.PathFilter
