import CilTrim.Annotation.Policy
import CilTrim.Annotation.Store
import CilTrim.Attribute.Decoder
import CilTrim.Attribute.Encoder
import CilTrim.Attribute.Value
import CilTrim.Blob.Reader
import CilTrim.Blob.Writer
import CilTrim.Body.Basic
import CilTrim.Body.Writer
import CilTrim.Builder.Basic
import CilTrim.Builder.CoreLibrary
import CilTrim.Builder.Draft
import CilTrim.Context
import CilTrim.Decimal.Binary
import CilTrim.Decimal.Shortest
import CilTrim.Descriptor.Basic
import CilTrim.Descriptor.Parser
import CilTrim.Mark.Demand
import CilTrim.Mark.Fifo
import CilTrim.Mark.Options
import CilTrim.Mark.Rules
import CilTrim.Mark.Run
import CilTrim.Mark.State
import CilTrim.Marshal
import CilTrim.Member
import CilTrim.Model.AttributeData
import CilTrim.Model.Basic
import CilTrim.Model.Definition
import CilTrim.Model.Names
import CilTrim.Model.Resolution
import CilTrim.Override.Search
import CilTrim.Override.Table
import CilTrim.Primitive
import CilTrim.Text.Blank
import CilTrim.Text.Hex
import CilTrim.Text.Hidden
import CilTrim.Text.Quoted
import CilTrim.Text.Utf8
import CilTrim.Token
import CilTrim.TypeName.Basic
import CilTrim.TypeName.Parser
import CilTrim.TypeRef
import CilTrim.Xml.Attribute
import CilTrim.Xml.Event
import CilTrim.Xml.Scanner
import CilTrim.Proofs.Builder.Lookup
import CilTrim.Proofs.Token
import CilTrim.Proofs.Builder.Built
import CilTrim.Proofs.Mark.Edge
import CilTrim.Proofs.Annotation.Marks
import CilTrim.Proofs.Mark.Change
import CilTrim.Proofs.Mark.Settle
import CilTrim.Proofs.Mark.Fill
import CilTrim.Proofs.Mark.Order
import CilTrim.Proofs.Mark.Rounds
import CilTrim.Proofs.Mark.Outcome
import CilTrim.Proofs.Override.Interfaces
import CilTrim.Proofs.Mark.Expansion
import CilTrim.Proofs.Mark.Resume
import CilTrim.Proofs.Mark.Repeat
import CilTrim.Proofs.Override.Dispatch
import CilTrim.Proofs.Mark.Dispatch
import CilTrim.Proofs.Mark.Monotone
import CilTrim.Proofs.Mark.Trigger
import CilTrim.Proofs.Mark.Unread
import CilTrim.Proofs.Mark.Explain
import CilTrim.Proofs.Annotation.Evolve
import CilTrim.Proofs.Mark.Frame
import CilTrim.Proofs.Attribute.Parts
import CilTrim.Proofs.Attribute.Written
import CilTrim.Proofs.Attribute.Reading
import CilTrim.Proofs.Attribute.RoundTrip
import CilTrim.Proofs.Blob.Bounds
import CilTrim.Proofs.Attribute.Decoded
import CilTrim.Proofs.Attribute.Reencode
import CilTrim.Proofs.TypeName.Lexing
import CilTrim.Proofs.TypeName.Parsing
import CilTrim.Proofs.Descriptor.Apply
import CilTrim.Proofs.Descriptor.Kept
import CilTrim.Proofs.Descriptor.Withdrawn
import CilTrim.Proofs.Xml.Outline
import CilTrim.Proofs.Descriptor.Grammar
import CilTrim.Proofs.Descriptor.Parsing
import CilTrim.Proofs.Xml.Attributes
import CilTrim.Proofs.Xml.Spelling
import CilTrim.Proofs.Xml.Scanning
import CilTrim.Proofs.Descriptor.Printing
import CilTrim.Proofs.Blob.Truncation
import CilTrim.Proofs.Attribute.Truncated
import CilTrim.Proofs.Blob.Sequence
import CilTrim.Proofs.Mark.Tolerance
import CilTrim.Proofs.Builder.Ledger
import CilTrim.Proofs.Builder.Rolls
import CilTrim.Proofs.Builder.Names
import CilTrim.Proofs.Builder.Sound
import CilTrim.Proofs.Builder.Consistent
import CilTrim.Proofs.Builder.Session
import CilTrim.Proofs.TypeRef.Parts
import CilTrim.Proofs.TypeRef.Substitution
import CilTrim.Proofs.Model.Equality
import CilTrim.Proofs.Model.Members
import CilTrim.Proofs.Model.Hierarchy
import CilTrim.Proofs.TypeName.Reflection
import CilTrim.Proofs.Override.Insertion
import CilTrim.Proofs.Override.Scan
import CilTrim.Proofs.Builder.Owners
import CilTrim.Proofs.Builder.Confined
import CilTrim.Proofs.TypeName.Stepwise
import CilTrim.Proofs.TypeName.Characters
import CilTrim.Proofs.TypeName.Total
import CilTrim.Proofs.Run
import CilTrim.Proofs.Blob.Costs
import CilTrim.Proofs.Attribute.Leaves
import CilTrim.Proofs.Attribute.Depth
import CilTrim.Proofs.TypeRef.Signature
import CilTrim.Proofs.Model.Closed
import CilTrim.Proofs.Mark.Climb
import CilTrim.Proofs.TypeRef.Leaves
import CilTrim.Proofs.Mark.Passes
import CilTrim.Proofs.Mark.TypeRef
import CilTrim.Proofs.Body.Layout
import CilTrim.Proofs.Blob.Cursor
import CilTrim.Proofs.Blob.Calls
