import BinarySchema.Buffer
import BinarySchema.Codec
import BinarySchema.Command.Arguments
import BinarySchema.Command.Read
import BinarySchema.Command.Types
import BinarySchema.Command.Write
import BinarySchema.Context
import BinarySchema.Error
import BinarySchema.Json.Document
import BinarySchema.Json.Node
import BinarySchema.Json.Number
import BinarySchema.Json.Printer
import BinarySchema.Json.Scalar
import BinarySchema.Layout
import BinarySchema.Main
import BinarySchema.Number.Binary
import BinarySchema.Number.Numeral
import BinarySchema.Number.Shortest
import BinarySchema.Platform
import BinarySchema.Proofs.Buffer
import BinarySchema.Proofs.Codec
import BinarySchema.Proofs.Codec.Access
import BinarySchema.Proofs.Codec.Range
import BinarySchema.Proofs.Command.RoundTrip
import BinarySchema.Proofs.Json.Document
import BinarySchema.Proofs.Json.Numeral
import BinarySchema.Proofs.Json.Scalar
import BinarySchema.Proofs.Json.Text
import BinarySchema.Proofs.Layout.Agreement
import BinarySchema.Proofs.Layout.Bounds
import BinarySchema.Proofs.Layout.Depth
import BinarySchema.Proofs.Layout.Derivation
import BinarySchema.Proofs.Layout.Nesting
import BinarySchema.Proofs.Layout.Reach
import BinarySchema.Proofs.Layout.Size
import BinarySchema.Proofs.Layout.Slots
import BinarySchema.Proofs.Layout.Tight
import BinarySchema.Proofs.Number.Exact
import BinarySchema.Proofs.Number.Nearest
import BinarySchema.Proofs.Number.Shortest
import BinarySchema.Proofs.Number.Whole
import BinarySchema.Proofs.Outcome
import BinarySchema.Proofs.RoundTrip
import BinarySchema.Proofs.Schema.Declarator
import BinarySchema.Proofs.Schema.History
import BinarySchema.Proofs.Schema.JsonRecord
import BinarySchema.Proofs.Schema.Registry
import BinarySchema.Proofs.Schema.Spelling
import BinarySchema.Proofs.Session
import BinarySchema.Proofs.Session.Failure
import BinarySchema.Proofs.Session.Order
import BinarySchema.Proofs.Session.Reuse
import BinarySchema.Proofs.Session.Shape
import BinarySchema.Proofs.Text.ByteOrder
import BinarySchema.Proofs.Text.Hex
import BinarySchema.Proofs.Value.Agreement
import BinarySchema.Proofs.Value.Apart
import BinarySchema.Proofs.Value.Confined
import BinarySchema.Proofs.Value.Conforming
import BinarySchema.Proofs.Value.Content
import BinarySchema.Proofs.Value.Cycles
import BinarySchema.Proofs.Value.Descent
import BinarySchema.Proofs.Value.Document
import BinarySchema.Proofs.Value.Ending
import BinarySchema.Proofs.Value.Extent
import BinarySchema.Proofs.Value.Fields
import BinarySchema.Proofs.Value.FromDocument
import BinarySchema.Proofs.Value.Levels
import BinarySchema.Proofs.Value.Make
import BinarySchema.Proofs.Value.Move
import BinarySchema.Proofs.Value.Numbers
import BinarySchema.Proofs.Value.Parallel
import BinarySchema.Proofs.Value.Reading
import BinarySchema.Proofs.Value.Reload
import BinarySchema.Proofs.Value.Rows
import BinarySchema.Proofs.Value.Settled
import BinarySchema.Proofs.Value.Shift
import BinarySchema.Proofs.Value.Sound
import BinarySchema.Proofs.Value.Tail
import BinarySchema.Proofs.Value.Tree
import BinarySchema.Proofs.Value.Uniform
import BinarySchema.Proofs.Value.Visits
import BinarySchema.Proofs.Value.Window
import BinarySchema.Proofs.Value.WriteBack
import BinarySchema.Proofs.Value.Writing
import BinarySchema.Scalar
import BinarySchema.Schema.Declarator
import BinarySchema.Schema.Format
import BinarySchema.Schema.JsonRecord
import BinarySchema.Schema.Record
import BinarySchema.Schema.Registry
import BinarySchema.Schema.YamlRecord
import BinarySchema.Text.Blank
import BinarySchema.Text.Digits
import BinarySchema.Text.Hex
import BinarySchema.Text.Path
import BinarySchema.Value.Basic
import BinarySchema.Value.Document
import BinarySchema.Value.Placement
import BinarySchema.Value.Read
import BinarySchema.Value.Wrap
import BinarySchema.Value.Write
import BinarySchema.Yaml.Content
import BinarySchema.Yaml.Cursor
import BinarySchema.Yaml.Document
import BinarySchema.Yaml.Node
import BinarySchema.Yaml.Scalar
import BinarySchema.Yaml.Tag
import BinarySchema.Yaml.Token
import BinarySchema.Yaml.Tokens
