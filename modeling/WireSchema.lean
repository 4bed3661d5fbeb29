import WireSchema.Bits
import WireSchema.Bits.Cursor
import WireSchema.Bits.Packer
import WireSchema.Bits.Write
import WireSchema.Codec.Conform
import WireSchema.Codec.Decode
import WireSchema.Codec.Default
import WireSchema.Codec.Encode
import WireSchema.Codec.Failure
import WireSchema.Codec.Notice
import WireSchema.Codec.Options
import WireSchema.Codec.Path
import WireSchema.Codec.Siblings
import WireSchema.Codec.Size
import WireSchema.CommandLine.Arguments
import WireSchema.CommandLine.PathName
import WireSchema.CommandLine.Report
import WireSchema.CommandLine.Run
import WireSchema.Consistency.Basic
import WireSchema.Consistency.Recursion
import WireSchema.Json.Printer
import WireSchema.Json.Reader
import WireSchema.Main
import WireSchema.Number.Decimal
import WireSchema.Number.Format
import WireSchema.Number.Numeral
import WireSchema.Schema.Basic
import WireSchema.Schema.Build
import WireSchema.Schema.Coerce
import WireSchema.Schema.FieldType
import WireSchema.Schema.Load
import WireSchema.Schema.Payload
import WireSchema.Schema.Problem
import WireSchema.Schema.Reading
import WireSchema.Schema.Spelling
import WireSchema.Schema.Summary
import WireSchema.Text.Blank
import WireSchema.Text.Charset
import WireSchema.Text.CodePoint
import WireSchema.Text.Digit
import WireSchema.Text.Hebrew
import WireSchema.Text.Hex
import WireSchema.Text.Printable
import WireSchema.Text.Quoted
import WireSchema.Text.Utf8
import WireSchema.Value
import WireSchema.Value.Display
import WireSchema.Proofs.Bits.Number
import WireSchema.Proofs.Bits.Packing
import WireSchema.Proofs.Packer
import WireSchema.Proofs.Fields
import WireSchema.Proofs.Bits.Reading
import WireSchema.Proofs.Cursor
import WireSchema.Proofs.Consistency.Sound
import WireSchema.Proofs.Number.Nearest
import WireSchema.Proofs.Number.Shortest
import WireSchema.Proofs.Json.Number
import WireSchema.Proofs.Text.Plain
import WireSchema.Proofs.Vocabulary
import WireSchema.Proofs.Text.Charset
import WireSchema.Proofs.Text.Points
import WireSchema.Proofs.Unpacking
import WireSchema.Proofs.Json.Reading
import WireSchema.Proofs.Json.Short
import WireSchema.Proofs.Schema.Payload
import WireSchema.Proofs.Schema.Regular
import WireSchema.Proofs.Consistency.Acyclic
import WireSchema.Proofs.Value
import WireSchema.Proofs.Codec.Message
import WireSchema.Proofs.Codec.Reading
import WireSchema.Proofs.Codec.Writing
import WireSchema.Proofs.Consistency.Siblings
import WireSchema.Proofs.Codec.Canonical
import WireSchema.Proofs.Text.Decoded
import WireSchema.Proofs.Text.Repair
import WireSchema.Proofs.StringFields
import WireSchema.Proofs.Codec.Rereading
import WireSchema.Proofs.RoundTrip
import WireSchema.Proofs.Codec.Foreseen
import WireSchema.Proofs.Codec.Measure
import WireSchema.Proofs.Codec.Bounds
import WireSchema.Proofs.Codec.Measured
import WireSchema.Proofs.Codec.Listed
import WireSchema.Proofs.Codec.Revisits
import WireSchema.Proofs.Sizes
import WireSchema.Proofs.Modes
import WireSchema.Proofs.Codec.Positions
import WireSchema.Proofs.Codec.ReadWalk
import WireSchema.Proofs.Failures
import WireSchema.Proofs.Codec.Truncation
import WireSchema.Proofs.Truncation
import WireSchema.Proofs.Codec.WriteWalk
import WireSchema.Proofs.Codec.Wire
import WireSchema.Proofs.Framing
import WireSchema.Proofs.Unions
import WireSchema.Proofs.Codec.Unbounded
import WireSchema.Proofs.Termination
import WireSchema.Proofs.Codec.Conforming
import WireSchema.Proofs.Codec.Partial
import WireSchema.Proofs.Codec.Completion
import WireSchema.Proofs.Conformance
import WireSchema.Proofs.Dumping
import WireSchema.Proofs.Consistency.Cycles
import WireSchema.Proofs.Codec.Building
import WireSchema.Proofs.Codec.Measuring
import WireSchema.Proofs.Codec.WriteUnbounded
import WireSchema.Proofs.Codec.Finishing
import WireSchema.Proofs.Codec.Told
import WireSchema.Proofs.Options
import WireSchema.Proofs.Codec.Seeding
import WireSchema.Proofs.Defaults
import WireSchema.Proofs.Number.Rounding
import WireSchema.Proofs.Number.Value
import WireSchema.Proofs.Narrowing
import WireSchema.Proofs.Codec.Places
import WireSchema.Proofs.FloatFields
import WireSchema.Proofs.FaultPaths
import WireSchema.Proofs.Endless
import WireSchema.Proofs.Codec.Endless
import WireSchema.Proofs.Widths
