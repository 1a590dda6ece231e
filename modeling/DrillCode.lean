import DrillCode.Text.Replace
import DrillCode.Text.Letters
import DrillCode.Text.Hex
import DrillCode.Payload.Authoring
import DrillCode.Payload.Decode
import DrillCode.Formula.Compile
import DrillCode.Machine.Run
import DrillCode.Practice.Operation
import DrillCode.Practice.Seed
import DrillCode.Json.Contents
import DrillCode.Json.Practice
import DrillCode.Json.Printer
import DrillCode.CommandLine.Perform
import DrillCode.CommandLine.Usage
import DrillCode.Main
import DrillCode.Proofs.Payload.RoundTrip
import DrillCode.Proofs.Payload.Truncation
import DrillCode.Proofs.Payload.Rewriting
import DrillCode.Proofs.Formula.Value
import DrillCode.Proofs.Practice.Trial
import DrillCode.Proofs.Practice.Survival
import DrillCode.Proofs.Practice.Posed
import DrillCode.Proofs.Machine.Limit
import DrillCode.Proofs.Bits.Placeless
import DrillCode.Proofs.Payload.Placeless
import DrillCode.Proofs.Bits.Consumes
import DrillCode.Proofs.Machine.Reused
import DrillCode.Proofs.Payload.Closed
import DrillCode.Proofs.Practice.Bench
import DrillCode.Proofs.Bits.Front
import DrillCode.Proofs.Bits.Signed
import DrillCode.Proofs.Payload.Fillers
import DrillCode.Proofs.Bits.Covers
import DrillCode.Proofs.Payload.Absorbed
import DrillCode.Proofs.Payload.Toll
import DrillCode.Proofs.Payload.Cap
import DrillCode.Proofs.Formula.Shape
import DrillCode.Proofs.Machine.Stage
import DrillCode.Proofs.Practice.Order
import DrillCode.Proofs.Machine.Frame
import DrillCode.Proofs.Formula.Sides
import DrillCode.Proofs.Formula.Spacing
import DrillCode.Proofs.Practice.Computed
import DrillCode.Proofs.Bits.Writer
import DrillCode.Proofs.Json.RoundTrip
import DrillCode.Proofs.Json.Program
import DrillCode.Proofs.Formula.Conserved
import DrillCode.Proofs.CommandLine.ExitStatus
import DrillCode.Proofs.Formula.Listing
