import Pagewright.Animation.Backend
import Pagewright.Animation.Basic
import Pagewright.Animation.Bucket
import Pagewright.Animation.Motion
import Pagewright.Animation.Preset
import Pagewright.Animation.Script
import Pagewright.Animation.Stylesheet
import Pagewright.Animation.Timeline
import Pagewright.Command.Arguments
import Pagewright.Command.Directory
import Pagewright.Command.Run
import Pagewright.Dict
import Pagewright.Document.Animation
import Pagewright.Document.Decode
import Pagewright.Document.Element
import Pagewright.Document.Page
import Pagewright.Document.Site
import Pagewright.Edit
import Pagewright.Element.Basic
import Pagewright.Element.Forest
import Pagewright.Element.Parent
import Pagewright.Json.Basic
import Pagewright.Json.Numeral
import Pagewright.Json.Reader
import Pagewright.Json.Writer
import Pagewright.Main
import Pagewright.Markup.Escape
import Pagewright.Markup.Render
import Pagewright.Number.Basic
import Pagewright.Number.Read
import Pagewright.Number.Shortest
import Pagewright.Number.Text
import Pagewright.Page.Basic
import Pagewright.Page.Metadata
import Pagewright.Page.Source
import Pagewright.Page.Template
import Pagewright.Proofs.Animation.Buckets
import Pagewright.Proofs.Animation.Composite
import Pagewright.Proofs.Animation.Declarations
import Pagewright.Proofs.Animation.Endings
import Pagewright.Proofs.Animation.Quotation
import Pagewright.Proofs.Animation.Renderings
import Pagewright.Proofs.Animation.RuleText
import Pagewright.Proofs.Command.Agreement
import Pagewright.Proofs.Command.Places
import Pagewright.Proofs.Command.Store
import Pagewright.Proofs.Dict
import Pagewright.Proofs.Document.Decoding
import Pagewright.Proofs.Document.Metadata
import Pagewright.Proofs.Document.Records
import Pagewright.Proofs.Document.RoundTrip
import Pagewright.Proofs.Document.Values
import Pagewright.Proofs.Edit
import Pagewright.Proofs.Forest.Atomicity
import Pagewright.Proofs.Forest.Calls
import Pagewright.Proofs.Forest.Edits
import Pagewright.Proofs.Forest.Ids
import Pagewright.Proofs.Forest.Moving
import Pagewright.Proofs.Forest.Nodes
import Pagewright.Proofs.Forest.Parents
import Pagewright.Proofs.Forest.Placed
import Pagewright.Proofs.Forest.Places
import Pagewright.Proofs.Forest.Recursion
import Pagewright.Proofs.Forest.Repair
import Pagewright.Proofs.Forest.Replacement
import Pagewright.Proofs.Forest.Undo
import Pagewright.Proofs.Forest.Visits
import Pagewright.Proofs.Json.Balance
import Pagewright.Proofs.Json.Decimals
import Pagewright.Proofs.Json.Equality
import Pagewright.Proofs.Json.Leaves
import Pagewright.Proofs.Json.Numerals
import Pagewright.Proofs.Json.RoundTrip
import Pagewright.Proofs.Json.Spacing
import Pagewright.Proofs.Json.Values
import Pagewright.Proofs.Literal.Documents
import Pagewright.Proofs.Literal.Keys
import Pagewright.Proofs.Literal.Reader
import Pagewright.Proofs.Literal.Strings
import Pagewright.Proofs.Markup.Attributes
import Pagewright.Proofs.Markup.Balance
import Pagewright.Proofs.Markup.Bindings
import Pagewright.Proofs.Markup.Bound
import Pagewright.Proofs.Markup.Escape
import Pagewright.Proofs.Markup.Lines
import Pagewright.Proofs.Markup.Outline
import Pagewright.Proofs.Markup.Reader
import Pagewright.Proofs.Markup.References
import Pagewright.Proofs.Number.Finite
import Pagewright.Proofs.Number.Leading
import Pagewright.Proofs.Number.Nearest
import Pagewright.Proofs.Number.Rounding
import Pagewright.Proofs.Page.Acceptance
import Pagewright.Proofs.Page.ComponentName
import Pagewright.Proofs.Page.KeyframeOrder
import Pagewright.Proofs.Page.Metadata
import Pagewright.Proofs.Page.MetadataLiteral
import Pagewright.Proofs.Page.Requirements
import Pagewright.Proofs.Page.Sections
import Pagewright.Proofs.Page.Template
import Pagewright.Proofs.Page.Validation
import Pagewright.Proofs.Site.Artifacts
import Pagewright.Proofs.Site.Containment
import Pagewright.Proofs.Site.Faults
import Pagewright.Proofs.Site.Independence
import Pagewright.Proofs.Site.Paths
import Pagewright.Proofs.Site.Project
import Pagewright.Proofs.Site.References
import Pagewright.Proofs.Source.Balance
import Pagewright.Proofs.Source.CodeLines
import Pagewright.Proofs.Source.Indentation
import Pagewright.Proofs.Source.Invisible
import Pagewright.Proofs.Source.Lexemes
import Pagewright.Proofs.Source.Matching
import Pagewright.Proofs.Source.Members
import Pagewright.Proofs.Source.Modes
import Pagewright.Proofs.Source.Reading
import Pagewright.Proofs.Source.Reflow
import Pagewright.Proofs.Source.Scanning
import Pagewright.Proofs.Source.Stability
import Pagewright.Proofs.Source.Tidied
import Pagewright.Proofs.Style.Classes
import Pagewright.Proofs.Style.Lengths
import Pagewright.Proofs.Style.Opacity
import Pagewright.Proofs.Timeline.Calls
import Pagewright.Proofs.Timeline.Edits
import Pagewright.Proofs.Timeline.Identity
import Pagewright.Proofs.Timeline.Order
import Pagewright.Proofs.Timeline.Parts
import Pagewright.Proofs.Timeline.Steps
import Pagewright.Proofs.Timeline.Tracks
import Pagewright.Proofs.Traversal
import Pagewright.Scalar
import Pagewright.Site.Basic
import Pagewright.Site.Files
import Pagewright.Site.Project
import Pagewright.Source.Braces
import Pagewright.Source.Formatter
import Pagewright.Source.Tidy
import Pagewright.Style.Scale
import Pagewright.Style.Utility
import Pagewright.Text.Blank
import Pagewright.Text.Hidden
import Pagewright.Text.Lines
import Pagewright.Text.Quoted
import Pagewright.Text.Replace
