import PageTree.Command.Arguments
import PageTree.Command.Config
import PageTree.Command.Directory
import PageTree.Command.Path
import PageTree.Command.Program
import PageTree.Double
import PageTree.Double.Decimal
import PageTree.Double.Shortest
import PageTree.Edit.Error
import PageTree.Edit.ListEdit
import PageTree.Edit.Merge
import PageTree.Edit.Session
import PageTree.Json
import PageTree.Json.Number
import PageTree.Json.Parser
import PageTree.Json.Printer
import PageTree.Json.Quoted
import PageTree.Json.Record
import PageTree.Json.Token
import PageTree.Key
import PageTree.Layer
import PageTree.Layer.Renderer
import PageTree.Layer.ShapeTable
import PageTree.Main
import PageTree.Markup.Escape
import PageTree.Markup.Options
import PageTree.Markup.Page
import PageTree.Markup.Rule
import PageTree.Node
import PageTree.Node.Data
import PageTree.Node.Lookup
import PageTree.Node.Visit
import PageTree.Proofs.Clash
import PageTree.Proofs.ClassName
import PageTree.Proofs.Delimited
import PageTree.Proofs.Entries
import PageTree.Proofs.Escape
import PageTree.Proofs.Keyless
import PageTree.Proofs.Layer.Memory
import PageTree.Proofs.Layer.Rendering
import PageTree.Proofs.Layer.ShapeNumber
import PageTree.Proofs.Markup.Elements
import PageTree.Proofs.Markup.MergedPage
import PageTree.Proofs.Markup.Openings
import PageTree.Proofs.Markup.Recovery
import PageTree.Proofs.Markup.Rules
import PageTree.Proofs.Markup.Sheet
import PageTree.Proofs.Markup.View
import PageTree.Proofs.Merge
import PageTree.Proofs.NumberText
import PageTree.Proofs.ObjectLiteral
import PageTree.Proofs.PropertyName
import PageTree.Proofs.Session.Command
import PageTree.Proofs.Session.Consistency
import PageTree.Proofs.Session.InPlace
import PageTree.Proofs.Session.KeyCheck
import PageTree.Proofs.Spot
import PageTree.Proofs.StyleText
import PageTree.Proofs.Supply
import PageTree.Slots
import PageTree.Style
import PageTree.Style.Declaration
import PageTree.Style.PropertyName
import PageTree.Text.Blank
import PageTree.Text.Digits
import PageTree.Proofs.Session.WellShaped
import PageTree.Proofs.Layer.ShapeCount
import PageTree.Proofs.Session.Inverse
import PageTree.Proofs.Session.Commute
import PageTree.Proofs.Layer.InlinePage
import PageTree.Proofs.Markup.Writer
import PageTree.Proofs.Node.ReadBack
import PageTree.Proofs.Session.Frame
import PageTree.Proofs.Session.History
import PageTree.Proofs.Session.Snapshot
import PageTree.Proofs.Command.Host
import PageTree.Proofs.Command.Directory
import PageTree.Proofs.Command.Compile
import PageTree.Proofs.Convergence
import PageTree.Proofs.Markup.Owners
import PageTree.Proofs.Markup.Outcome
import PageTree.Proofs.Layer.CacheCount
import PageTree.Proofs.LeastFree
import PageTree.Proofs.Lookup
import PageTree.Proofs.Markup.Composition
import PageTree.Proofs.Layer.SharedKeys
import PageTree.Proofs.ListEdit
import PageTree.Proofs.PropertyNotation
import PageTree.Proofs.Markup.StyleDialects
import PageTree.Proofs.StyleValue
