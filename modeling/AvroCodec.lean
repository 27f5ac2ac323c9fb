import AvroCodec.Binary
import AvroCodec.Calendar
import AvroCodec.Code.Decoder
import AvroCodec.Code.Encoder
import AvroCodec.Code.Logical
import AvroCodec.Code.Place
import AvroCodec.Code.Routine
import AvroCodec.Codec
import AvroCodec.Codec.Check
import AvroCodec.Codec.Default
import AvroCodec.Codec.Error
import AvroCodec.Codec.Primitive
import AvroCodec.Codec.Read
import AvroCodec.Codec.Write
import AvroCodec.Decimal
import AvroCodec.Generator
import AvroCodec.Generator.Decode
import AvroCodec.Generator.Encode
import AvroCodec.Generator.Guard
import AvroCodec.Generator.Routine
import AvroCodec.Generator.State
import AvroCodec.Json
import AvroCodec.Json.Literal
import AvroCodec.Logical
import AvroCodec.Logical.Clock
import AvroCodec.Logical.Date
import AvroCodec.Logical.Decimal
import AvroCodec.Logical.Timestamp
import AvroCodec.Proofs.Alike
import AvroCodec.Proofs.Altering
import AvroCodec.Proofs.Attempt
import AvroCodec.Proofs.Bare
import AvroCodec.Proofs.Begun
import AvroCodec.Proofs.Block
import AvroCodec.Proofs.Branches
import AvroCodec.Proofs.Calendar
import AvroCodec.Proofs.Carrying
import AvroCodec.Proofs.Choice
import AvroCodec.Proofs.Closed
import AvroCodec.Proofs.Comparing
import AvroCodec.Proofs.Compiled
import AvroCodec.Proofs.Consistent
import AvroCodec.Proofs.Context
import AvroCodec.Proofs.Copying
import AvroCodec.Proofs.Cut
import AvroCodec.Proofs.Decimals
import AvroCodec.Proofs.Decode
import AvroCodec.Proofs.Decoding
import AvroCodec.Proofs.Deeper
import AvroCodec.Proofs.Defined
import AvroCodec.Proofs.Definition
import AvroCodec.Proofs.Delivery
import AvroCodec.Proofs.Detection
import AvroCodec.Proofs.Dict
import AvroCodec.Proofs.Dispatch
import AvroCodec.Proofs.Drawing
import AvroCodec.Proofs.Elsewhere
import AvroCodec.Proofs.Emitting
import AvroCodec.Proofs.Encode
import AvroCodec.Proofs.Encoding
import AvroCodec.Proofs.Ending
import AvroCodec.Proofs.Filling
import AvroCodec.Proofs.Form
import AvroCodec.Proofs.Format
import AvroCodec.Proofs.Frame
import AvroCodec.Proofs.Gathered
import AvroCodec.Proofs.Generated
import AvroCodec.Proofs.Generation
import AvroCodec.Proofs.Halting
import AvroCodec.Proofs.History
import AvroCodec.Proofs.Honouring
import AvroCodec.Proofs.Hygiene
import AvroCodec.Proofs.Idempotent
import AvroCodec.Proofs.Immediate
import AvroCodec.Proofs.Kind
import AvroCodec.Proofs.Lacking
import AvroCodec.Proofs.LackingCode
import AvroCodec.Proofs.LackingStep
import AvroCodec.Proofs.LackingStore
import AvroCodec.Proofs.Legible
import AvroCodec.Proofs.Loading
import AvroCodec.Proofs.Lockstep
import AvroCodec.Proofs.LockstepRead
import AvroCodec.Proofs.LockstepWrite
import AvroCodec.Proofs.Mention
import AvroCodec.Proofs.Milliseconds
import AvroCodec.Proofs.Misfit
import AvroCodec.Proofs.Naming
import AvroCodec.Proofs.Nature
import AvroCodec.Proofs.Nearest
import AvroCodec.Proofs.Normal
import AvroCodec.Proofs.Occurrence
import AvroCodec.Proofs.Once
import AvroCodec.Proofs.Outcome
import AvroCodec.Proofs.Overlay
import AvroCodec.Proofs.Parallel
import AvroCodec.Proofs.ParallelDecode
import AvroCodec.Proofs.ParallelEncode
import AvroCodec.Proofs.ParallelRoutine
import AvroCodec.Proofs.Path
import AvroCodec.Proofs.Placing
import AvroCodec.Proofs.Primitive
import AvroCodec.Proofs.Quiet
import AvroCodec.Proofs.Readable
import AvroCodec.Proofs.Reader
import AvroCodec.Proofs.Recompiled
import AvroCodec.Proofs.Reference
import AvroCodec.Proofs.Refilling
import AvroCodec.Proofs.Refusal
import AvroCodec.Proofs.Repeated
import AvroCodec.Proofs.Repeating
import AvroCodec.Proofs.Restored
import AvroCodec.Proofs.Retagged
import AvroCodec.Proofs.Retrying
import AvroCodec.Proofs.RoundTrip
import AvroCodec.Proofs.Rounding
import AvroCodec.Proofs.Scope
import AvroCodec.Proofs.Scoping
import AvroCodec.Proofs.Selection
import AvroCodec.Proofs.Sending
import AvroCodec.Proofs.Separate
import AvroCodec.Proofs.Shadowing
import AvroCodec.Proofs.Sharing
import AvroCodec.Proofs.Signed
import AvroCodec.Proofs.Splitting
import AvroCodec.Proofs.Storing
import AvroCodec.Proofs.Tagging
import AvroCodec.Proofs.TextTags
import AvroCodec.Proofs.Tidy
import AvroCodec.Proofs.TimeOfDay
import AvroCodec.Proofs.Timestamps
import AvroCodec.Proofs.Tracking
import AvroCodec.Proofs.Tracing
import AvroCodec.Proofs.Truncation
import AvroCodec.Proofs.Twice
import AvroCodec.Proofs.Twins
import AvroCodec.Proofs.Unions
import AvroCodec.Proofs.Uniting
import AvroCodec.Proofs.Untagged
import AvroCodec.Proofs.Varint
import AvroCodec.Proofs.Visited
import AvroCodec.Proofs.Walk
import AvroCodec.Proofs.Wire
import AvroCodec.Proofs.Writer
import AvroCodec.Proofs.Writing
import AvroCodec.Schema.Error
import AvroCodec.Schema.Name
import AvroCodec.Schema.Parse
import AvroCodec.Schema.Registry
import AvroCodec.Store
import AvroCodec.Store.Cycle
import AvroCodec.Store.Database
import AvroCodec.Text.Blank
import AvroCodec.Text.Digit
import AvroCodec.Text.Lines
import AvroCodec.Text.Printable
import AvroCodec.Text.Quoted
import AvroCodec.Uuid
import AvroCodec.Value
import AvroCodec.Wire.Fixed
import AvroCodec.Wire.Varint
