import FormLower.Encoding.Source
import FormLower.Json.Parser
import FormLower.Lowering.Handlers
import FormLower.Lowering.Requests
import FormLower.Main
import FormLower.Shell.Files
import FormLower.Proofs.Surface.PegReading
import FormLower.Proofs.Surface.Attempts
import FormLower.Proofs.Surface.Joining
import FormLower.Proofs.Surface.Dump
import FormLower.Proofs.Lowering.Acceptance
import FormLower.Proofs.Lowering.Conservation
import FormLower.Proofs.Lowering.Shape
import FormLower.Proofs.Lowering.Operands
import FormLower.Proofs.Lowering.Provenance
import FormLower.Proofs.Erasure
import FormLower.Proofs.Lowering.Locality
import FormLower.Proofs.Lowering.Inertness
import FormLower.Proofs.Lowering.Locations
import FormLower.Proofs.Json.Numbers
import FormLower.Proofs.Json.Scanning
import FormLower.Proofs.Json.Reading
import FormLower.Proofs.Encoding.Places
import FormLower.Proofs.Encoding.Programs
import FormLower.Proofs.Encoding.Dumps
import FormLower.Proofs.Lowering.Folding
import FormLower.Proofs.Lowering.Dropping
import FormLower.Proofs.Lowering.Splicing
import FormLower.Proofs.Lowering.Operators
import FormLower.Proofs.Lowering.Dispatch
import FormLower.Proofs.Target.Expressions
import FormLower.Proofs.Target.Readability
import FormLower.Proofs.Target.Blocks
import FormLower.Proofs.Target.Indentation
import FormLower.Proofs.Lowering.Cursors
import FormLower.Proofs.Lowering.Histories
import FormLower.Proofs.Lowering.Arity
import FormLower.Proofs.Lowering.Aliases
import FormLower.Proofs.Traversal
