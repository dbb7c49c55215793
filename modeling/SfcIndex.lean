import SfcIndex.Text.Offset
import SfcIndex.Text.Utf8
import SfcIndex.Text.Cursor
import SfcIndex.Text.Span
import SfcIndex.Text.Lines
import SfcIndex.Text.Word
import SfcIndex.Text.Ascii
import SfcIndex.Markup.Tag
import SfcIndex.Markup.Attribute
import SfcIndex.Markup.Region
import SfcIndex.Text.Unicode.Ranges
import SfcIndex.Text.Unicode.Letter
import SfcIndex.Text.Unicode.Mark
import SfcIndex.Text.Unicode.Digit
import SfcIndex.Text.Unicode.Blank
import SfcIndex.Text.Unicode.Classes
import SfcIndex.Binding
import SfcIndex.Style
import SfcIndex.Template
import SfcIndex.Script.Outline
import SfcIndex.Script.Language
import SfcIndex.Script.Token
import SfcIndex.Script.Scan.Gap
import SfcIndex.Script.Scan.Escape
import SfcIndex.Script.Scan.Name
import SfcIndex.Script.Scan.Number
import SfcIndex.Script.Scan.Literal
import SfcIndex.Script.Scan.Punctuator
import SfcIndex.Script.Scan.Lexeme
import SfcIndex.Script.Parser
import SfcIndex.Script.Grammar.Rule
import SfcIndex.Script.Grammar.Name
import SfcIndex.Script.Grammar.Pattern
import SfcIndex.Script.Grammar.Type
import SfcIndex.Script.Grammar.Function
import SfcIndex.Script.Grammar.Class
import SfcIndex.Script.Grammar.Literal
import SfcIndex.Script.Grammar.Jsx
import SfcIndex.Script.Grammar.Target
import SfcIndex.Script.Grammar.Operator
import SfcIndex.Script.Grammar.Arrow
import SfcIndex.Script.Grammar.Expression
import SfcIndex.Script.Grammar.Variable
import SfcIndex.Script.Grammar.Declaration
import SfcIndex.Script.Grammar.Exchange
import SfcIndex.Script.Grammar.Statement
import SfcIndex.Script.Read
import SfcIndex.Script.Names
import SfcIndex.Script.Component
import SfcIndex.Script.Setup
import SfcIndex.Script.Analysis
import SfcIndex.Files.Path
import SfcIndex.Options
import SfcIndex.Warning
import SfcIndex.Table
import SfcIndex.Json.Value
import SfcIndex.Json.Reader
import SfcIndex.Json.Printer
import SfcIndex.Config
import SfcIndex.Files.Collect
import SfcIndex.Files.Glob
import SfcIndex.Files.Disk
import SfcIndex.Files.Ignore
import SfcIndex.Files.Search
import SfcIndex.Text.Quoted
import SfcIndex.Command.Arguments
import SfcIndex.Command.Report
import SfcIndex.Command.Run
import SfcIndex.Main
import SfcIndex.Proofs.Markup.Attributes
import SfcIndex.Proofs.Markup.Tags
import SfcIndex.Proofs.Markup.Tree
import SfcIndex.Proofs.Markup.Layout
import SfcIndex.Proofs.Markup.Forest
import SfcIndex.Proofs.Markup.Order
import SfcIndex.Proofs.Markup.Ancestry
import SfcIndex.Proofs.Markup.Document
import SfcIndex.Proofs.Markup.Scan
import SfcIndex.Proofs.Markup.RoundTrip
import SfcIndex.Proofs.Markup.Run
import SfcIndex.Proofs.Markup.Locality
import SfcIndex.Proofs.Markup.Move
import SfcIndex.Proofs.Markup.Cut
import SfcIndex.Proofs.Markup.Openings
import SfcIndex.Proofs.Table.Template
import SfcIndex.Proofs.Table.Contents
import SfcIndex.Proofs.Table.Cut
import SfcIndex.Proofs.Markup.Edit
import SfcIndex.Proofs.Markup.Entries
import SfcIndex.Proofs.Markup.Correspondence
import SfcIndex.Proofs.Markup.Ended
import SfcIndex.Proofs.Markup.RawText
import SfcIndex.Proofs.Table.Edit
import SfcIndex.Proofs.Markup.Values
import SfcIndex.Proofs.Markup.Reach
import SfcIndex.Proofs.Script.Names
import SfcIndex.Proofs.Script.Parts
import SfcIndex.Proofs.Table.Introduced
import SfcIndex.Proofs.Table.Order
import SfcIndex.Proofs.Table.Soundness
import SfcIndex.Proofs.Table.Visibility
import SfcIndex.Proofs.Text.Borders
import SfcIndex.Proofs.Markup.Borders
import SfcIndex.Proofs.Table.Definition
import SfcIndex.Proofs.Bytes.Access
import SfcIndex.Proofs.Bytes.Tags
import SfcIndex.Proofs.Bytes.Scan
import SfcIndex.Proofs.Bytes.Attributes
import SfcIndex.Proofs.Bytes.Tree
import SfcIndex.Proofs.Bytes.Template
import SfcIndex.Proofs.Bytes.Table
import SfcIndex.Proofs.Table.Enabled
import SfcIndex.Proofs.Table.Places
import SfcIndex.Proofs.Command.Positions
import SfcIndex.Proofs.Markup.Case
import SfcIndex.Proofs.Table.Case
import SfcIndex.Proofs.Files.Place
import SfcIndex.Proofs.Files.Collect
import SfcIndex.Proofs.Text.Positions
import SfcIndex.Proofs.Text.Counts
import SfcIndex.Proofs.Markup.Written
import SfcIndex.Proofs.Markup.Calls
import SfcIndex.Proofs.Markup.Quotes
import SfcIndex.Proofs.Bytes.Words
import SfcIndex.Proofs.Markup.Ranges
import SfcIndex.Proofs.Text.Pattern
import SfcIndex.Proofs.Style.Comments
import SfcIndex.Proofs.Style.Selectors
import SfcIndex.Proofs.Template.Loops
import SfcIndex.Proofs.Script.Walk
import SfcIndex.Proofs.Script.SameNames
import SfcIndex.Proofs.Script.Spread
import SfcIndex.Proofs.Script.Wrappers
import SfcIndex.Proofs.Script.Unread
import SfcIndex.Proofs.Markup.Arena
import SfcIndex.Proofs.Markup.Jumps
import SfcIndex.Proofs.Markup.Traversal
