import PageCompiler.Text.Blank
import PageCompiler.Text.Search
import PageCompiler.Text.Letter
import PageCompiler.Text.CaseTable
import PageCompiler.Text.Case
import PageCompiler.Number.Double
import PageCompiler.Number.Decimal
import PageCompiler.Json.Number
import PageCompiler.Json.Value
import PageCompiler.Json.Text
import PageCompiler.Json.Syntax
import PageCompiler.Json.Read
import PageCompiler.Number.Numeral
import PageCompiler.Expr.Basic
import PageCompiler.Expr.Token
import PageCompiler.Expr.Parse
import PageCompiler.Text.Html
import PageCompiler.Scope
import PageCompiler.Diagnostic
import PageCompiler.Text.Digit
import PageCompiler.Text.Word
import PageCompiler.Digest.Sha256
import PageCompiler.Document
import PageCompiler.Props.Type
import PageCompiler.Markup.Node
import PageCompiler.Markup.Parts
import PageCompiler.Markup.Token
import PageCompiler.Markup.Scan
import PageCompiler.Markup.Tag
import PageCompiler.Markup.Parse
import PageCompiler.Style
import PageCompiler.Template
import PageCompiler.Markup.Render
import PageCompiler.Props.Block
import PageCompiler.Definition
import PageCompiler.Discovery
import PageCompiler.Layout
import PageCompiler.Component.Expanded
import PageCompiler.Component.Slots
import PageCompiler.Component.Expand
import PageCompiler.Island.Formula.Basic
import PageCompiler.Island.Formula.Token
import PageCompiler.Island.Formula.Parse
import PageCompiler.Island.Statement
import PageCompiler.Island.Script
import PageCompiler.Island.Mutation
import PageCompiler.Island.Module
import PageCompiler.Island.Extract
import PageCompiler.Island.Hydration
import PageCompiler.Resolution
import PageCompiler.ControlFlow
import PageCompiler.Interpolation
import PageCompiler.Island.Browser
import PageCompiler.Island.Registration
import PageCompiler.Shell
import PageCompiler.Verification
import PageCompiler.Json.Record
import PageCompiler.Options
import PageCompiler.Compile
import PageCompiler.Request
import PageCompiler.Live
import PageCompiler.Directory
import PageCompiler.Proofs.Tree
import PageCompiler.Proofs.Report
import PageCompiler.Proofs.State
import PageCompiler.Proofs.Traversal
import PageCompiler.Proofs.Lexical
import PageCompiler.Proofs.Roots
import PageCompiler.Proofs.Evaluation
import PageCompiler.Proofs.SlotContent
import PageCompiler.Proofs.Component.Usage
import PageCompiler.Proofs.Component.Filling
import PageCompiler.Proofs.Component.Expansion
import PageCompiler.Proofs.Component.Cycle
import PageCompiler.Proofs.Markup
import PageCompiler.Proofs.Template
import PageCompiler.Proofs.Discovery
import PageCompiler.Proofs.Layout
import PageCompiler.Proofs.Resolution
import PageCompiler.Proofs.Flattening
import PageCompiler.Proofs.Interpolation
import PageCompiler.Proofs.Islands
import PageCompiler.Proofs.Pass
import PageCompiler.Proofs.Output
import PageCompiler.Proofs.Cache
import PageCompiler.Proofs.Modes
import PageCompiler.Proofs.Component.ErrorBlocks
import PageCompiler.Proofs.ErrorBlocks
import PageCompiler.Proofs.Emission
import PageCompiler.Proofs.Markers
import PageCompiler.Proofs.Extraction
import PageCompiler.Proofs.Component.Walk
import PageCompiler.Proofs.Objects
import PageCompiler.Proofs.References
import PageCompiler.Proofs.Script
import PageCompiler.Proofs.Hydration
import PageCompiler.Proofs.Values
import PageCompiler.Proofs.Bindings
import PageCompiler.Proofs.Grammar
import PageCompiler.Proofs.Nesting
import PageCompiler.Proofs.Search
import PageCompiler.Proofs.Canonical
import PageCompiler.Proofs.Scanning
import PageCompiler.Proofs.RoundTrip
import PageCompiler.Proofs.Escaping
import PageCompiler.Proofs.Edits
import PageCompiler.Proofs.Live
import PageCompiler.Proofs.Coalescing
import PageCompiler.Proofs.Overlap
import PageCompiler.Proofs.LastEdit
import PageCompiler.Proofs.Tickets
import PageCompiler.Proofs.Publication
import PageCompiler.Proofs.Acceptance
import PageCompiler.Proofs.DocumentOrder
import PageCompiler.Proofs.Fragment
import PageCompiler.Proofs.UsageTags
import PageCompiler.Proofs.Component.Placement
import PageCompiler.Proofs.Component.Routing
import PageCompiler.Proofs.Component.Instance
import PageCompiler.Proofs.Component.Delivery
import PageCompiler.Proofs.InlineComponents
import PageCompiler.Proofs.PropTypes
import PageCompiler.Proofs.Component.PropBindings
import PageCompiler.Proofs.Component.GivenProps
import PageCompiler.Proofs.Places.Template
import PageCompiler.Proofs.Places.Discovery
import PageCompiler.Proofs.Places.Expansion
import PageCompiler.Proofs.Places.Evaluation
import PageCompiler.Proofs.Places.Compile
import PageCompiler.Proofs.Erasure
import PageCompiler.Proofs.Ordinary
import PageCompiler.Proofs.Dialects.Blocks
import PageCompiler.Proofs.Dialects.Written
import PageCompiler.Proofs.Dialects.Compile
import PageCompiler.Proofs.Shell
import PageCompiler.Proofs.Tiling
import PageCompiler.Proofs.Contents
import PageCompiler.Proofs.Component.FirstPlaces
import PageCompiler.Proofs.PagePlace
import PageCompiler.Proofs.Blanks
import PageCompiler.Proofs.Spelling
import PageCompiler.Proofs.WholeNumbers
import PageCompiler.Proofs.Numerals
import PageCompiler.Proofs.Expr.Phrase
import PageCompiler.Proofs.Expr.Lexeme
import PageCompiler.Proofs.Expr.Lexed
import PageCompiler.Proofs.Expr.Text
import PageCompiler.Proofs.Formula.Phrase
import PageCompiler.Proofs.Formula.Lexeme
import PageCompiler.Proofs.Formula.Text
import PageCompiler.Proofs.Statements
import PageCompiler.Proofs.Formula.Passage
import PageCompiler.Proofs.Declarations
import PageCompiler.Proofs.StatementText
import PageCompiler.Proofs.ScriptText
import PageCompiler.Proofs.DeclaredNames
import PageCompiler.Proofs.StyleSheet
import PageCompiler.Proofs.StyleText
import PageCompiler.Proofs.Selector
import PageCompiler.Proofs.DefaultText
import PageCompiler.Proofs.FirstNodes
import PageCompiler.Proofs.Braces
import PageCompiler.Proofs.BraceForms
import PageCompiler.Proofs.Component.PropText
import PageCompiler.Proofs.Settling
import PageCompiler.Proofs.Component.Forwarding
import PageCompiler.Proofs.Pieces
import PageCompiler.Proofs.Splitting
import PageCompiler.Proofs.Comments
import PageCompiler.Proofs.PassThrough
import PageCompiler.Proofs.Rounding
import PageCompiler.Proofs.Comparisons
import PageCompiler.Proofs.Normalization
import PageCompiler.Proofs.IntegerProps
import PageCompiler.Proofs.PathOrder
import PageCompiler.Proofs.StoreOrder
import PageCompiler.Proofs.Identity
