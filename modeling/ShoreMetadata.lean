import ShoreMetadata.Text.Blank
import ShoreMetadata.Text.Case
import ShoreMetadata.Text.Digit
import ShoreMetadata.Text.Utf8
import ShoreMetadata.Number.Integer
import ShoreMetadata.Number.Radix
import ShoreMetadata.Number.Format
import ShoreMetadata.Number.Decimal
import ShoreMetadata.Number.Binary
import ShoreMetadata.Xml.Position
import ShoreMetadata.Xml.LineIndex
import ShoreMetadata.Xml.Element
import ShoreMetadata.Xml.Fault
import ShoreMetadata.Xml.Reference
import ShoreMetadata.Xml.Attribute
import ShoreMetadata.Xml.Token
import ShoreMetadata.Xml.Reader
import ShoreMetadata.Xml.Writer
import ShoreMetadata.Json.Basic
import ShoreMetadata.Json.Writer
import ShoreMetadata.Json.Reader
import ShoreMetadata.Calendar.Date
import ShoreMetadata.Calendar.Instant
import ShoreMetadata.Calendar.Profile
import ShoreMetadata.Calendar.Rfc3339
import ShoreMetadata.Base64
import ShoreMetadata.Schema.Kind
import ShoreMetadata.Schema.Field
import ShoreMetadata.Schema.Slot
import ShoreMetadata.Schema.Tag
import ShoreMetadata.Entity.Values
import ShoreMetadata.Entity.Basic
import ShoreMetadata.Entity.Identity
import ShoreMetadata.Error
import ShoreMetadata.Scalar
import ShoreMetadata.Entity.Json
import ShoreMetadata.Config
import ShoreMetadata.Toml.Table
import ShoreMetadata.Toml.Text
import ShoreMetadata.Toml.Scalar
import ShoreMetadata.Toml.Reader
import ShoreMetadata.Config.Toml
import ShoreMetadata.Entity.Variables
import ShoreMetadata.Export.Element
import ShoreMetadata.Import.Recorded
import ShoreMetadata.Import.Attribute
import ShoreMetadata.Import.Build
import ShoreMetadata.Import.Session
import ShoreMetadata.Entity.Buckets
import ShoreMetadata.Document.Basic
import ShoreMetadata.Document.Inversion
import ShoreMetadata.Validation.Structure
import ShoreMetadata.Validation.Limits
import ShoreMetadata.Export.Document
import ShoreMetadata.Store
import ShoreMetadata.Summary
import ShoreMetadata.Command.Basic
import ShoreMetadata.Command.Arguments
import ShoreMetadata.Command.Help
import ShoreMetadata.Command.Plan
import ShoreMetadata.Command.Folder
import ShoreMetadata.Main
import ShoreMetadata.Proofs.Text.Trim
import ShoreMetadata.Proofs.Xml.Tree
import ShoreMetadata.Proofs.Xml.Reference
import ShoreMetadata.Proofs.Xml.Tag
import ShoreMetadata.Proofs.Xml.Mark
import ShoreMetadata.Proofs.Xml.RoundTrip
import ShoreMetadata.Proofs.Import.Recorded
import ShoreMetadata.Proofs.Import.Build
import ShoreMetadata.Proofs.Schema.Tag
import ShoreMetadata.Proofs.Validation.Tables
import ShoreMetadata.Proofs.Validation.Attribute
import ShoreMetadata.Proofs.Validation.Soundness
import ShoreMetadata.Proofs.Base64
import ShoreMetadata.Proofs.Number.Decimal
import ShoreMetadata.Proofs.Number.Binary
import ShoreMetadata.Proofs.Calendar.Date
import ShoreMetadata.Proofs.Calendar.Stamp
import ShoreMetadata.Proofs.Calendar.Division
import ShoreMetadata.Proofs.Calendar.Profile
import ShoreMetadata.Proofs.Calendar.Zone
import ShoreMetadata.Proofs.Calendar.Pattern
import ShoreMetadata.Proofs.Scalar
import ShoreMetadata.Proofs.Entity.Tree
import ShoreMetadata.Proofs.Export.Element
import ShoreMetadata.Proofs.Export.Attribute
import ShoreMetadata.Proofs.Export.Acceptance
import ShoreMetadata.Proofs.Import.Layout
import ShoreMetadata.Proofs.Export.Canonical
import ShoreMetadata.Proofs.Import.Attribute
import ShoreMetadata.Proofs.Import.Restoration
import ShoreMetadata.Proofs.Document.Basic
import ShoreMetadata.Proofs.Document.RoundTrip
import ShoreMetadata.Proofs.Entity.Identity
import ShoreMetadata.Proofs.Document.Representatives
import ShoreMetadata.Proofs.Document.Inversion
import ShoreMetadata.Proofs.Export.Told
import ShoreMetadata.Proofs.Import.Legacy
import ShoreMetadata.Proofs.Import.FromText
import ShoreMetadata.Proofs.Document.Conversion
import ShoreMetadata.Proofs.Entity.Id
import ShoreMetadata.Proofs.Store.Basic
import ShoreMetadata.Proofs.Store.Run
import ShoreMetadata.Proofs.Store.Ids
import ShoreMetadata.Proofs.Store.Keys
import ShoreMetadata.Proofs.Store.Effect
import ShoreMetadata.Proofs.Store.Removal
import ShoreMetadata.Proofs.Import.Strict
import ShoreMetadata.Proofs.Import.Rejection
import ShoreMetadata.Proofs.Import.Unknown
import ShoreMetadata.Proofs.Document.Firsts
import ShoreMetadata.Proofs.Import.Membership
import ShoreMetadata.Proofs.Export.Shape
import ShoreMetadata.Proofs.Export.Direction
import ShoreMetadata.Proofs.Import.AttributeOrder
import ShoreMetadata.Proofs.Import.Alike
import ShoreMetadata.Proofs.Validation.Alike
import ShoreMetadata.Proofs.Import.Spelling
import ShoreMetadata.Proofs.Import.Aliases
import ShoreMetadata.Proofs.Rearranged
import ShoreMetadata.Proofs.Import.Exchange
import ShoreMetadata.Proofs.Import.Order
import ShoreMetadata.Proofs.Import.Reordered
import ShoreMetadata.Proofs.Validation.Limits
import ShoreMetadata.Proofs.Validation.Coverage
import ShoreMetadata.Proofs.Json.Scalar
import ShoreMetadata.Proofs.Json.Number
import ShoreMetadata.Proofs.Json.RoundTrip
import ShoreMetadata.Proofs.Calendar.Rfc3339
import ShoreMetadata.Proofs.Json.Value
import ShoreMetadata.Proofs.Entity.Json
import ShoreMetadata.Proofs.Xml.Position
import ShoreMetadata.Proofs.Xml.LineIndex
import ShoreMetadata.Proofs.Xml.Piece
import ShoreMetadata.Proofs.Xml.Step
import ShoreMetadata.Proofs.Xml.DocumentOrder
import ShoreMetadata.Proofs.Xml.Alike
import ShoreMetadata.Proofs.Xml.Seam
import ShoreMetadata.Proofs.Xml.Comment
import ShoreMetadata.Proofs.Document.Turned
import ShoreMetadata.Proofs.Import.Drift
import ShoreMetadata.Proofs.Base64.Canonical
import ShoreMetadata.Proofs.Export.Variables
import ShoreMetadata.Proofs.Xml.AttributeMap
import ShoreMetadata.Proofs.Import.Session
