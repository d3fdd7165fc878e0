import ShaderSplit.Command.Run
import ShaderSplit.Main
import ShaderSplit.Proofs.Partition.WiredTrace
import ShaderSplit.Proofs.Scope.Reach
import ShaderSplit.Proofs.Stage.Order
import ShaderSplit.Proofs.Syntax.Subterm
import ShaderSplit.Syntax.Encode
import ShaderSplit.Workbench.Machine
import ShaderSplit.Workbench.Prelude
import ShaderSplit.Workbench.Tree
import ShaderSplit.Proofs.Partition.Fields
import ShaderSplit.Proofs.Partition.Placement
import ShaderSplit.Proofs.Partition.Ledger
import ShaderSplit.Proofs.Partition.Supply
import ShaderSplit.Proofs.Partition.Closed
import ShaderSplit.Proofs.Meaning.Run
import ShaderSplit.Proofs.Partition.Moves
import ShaderSplit.Proofs.Generate.Isolation
import ShaderSplit.Proofs.Header.Objects
import ShaderSplit.Proofs.Meaning.SingleAssignment
import ShaderSplit.Proofs.Shading.Samplers
import ShaderSplit.Proofs.Meaning.Sense
import ShaderSplit.Proofs.Meaning.Outputs
import ShaderSplit.Proofs.Meaning.Preservation
import ShaderSplit.Proofs.Meaning.Faithful
import ShaderSplit.Proofs.Meaning.Issue
import ShaderSplit.Proofs.Meaning.Reorder
import ShaderSplit.Proofs.Shading.Locations
import ShaderSplit.Proofs.Header.Tables
import ShaderSplit.Proofs.Partition.Host
import ShaderSplit.Proofs.Partition.Captures
import ShaderSplit.Proofs.Partition.CaptureUse
import ShaderSplit.Proofs.Partition.Lockstep
import ShaderSplit.Proofs.Generate.Status
import ShaderSplit.Proofs.Header.Blobs
import ShaderSplit.Proofs.Partition.Bounds
import ShaderSplit.Proofs.Partition.Confinement
import ShaderSplit.Proofs.Partition.FieldTypes
import ShaderSplit.Proofs.Partition.Recursion
import ShaderSplit.Proofs.Partition.Exactness
import ShaderSplit.Proofs.Partition.Interpolation
import ShaderSplit.Proofs.Partition.VertexSamples
import ShaderSplit.Proofs.Meaning.Execution
import ShaderSplit.Proofs.Meaning.Sharing
import ShaderSplit.Proofs.Partition.UseCounts
import ShaderSplit.Proofs.Partition.SamplerTable
import ShaderSplit.Proofs.Interface.Acceptance
import ShaderSplit.Proofs.Partition.Guarded
import ShaderSplit.Proofs.Partition.Safety
import ShaderSplit.Proofs.Interface.Layout
import ShaderSplit.Proofs.Builtin.Identification
import ShaderSplit.Proofs.Shading.Tokens
import ShaderSplit.Proofs.Shading.Phrases
import ShaderSplit.Proofs.Shading.Literals
import ShaderSplit.Proofs.Shading.Reading
import ShaderSplit.Proofs.Shading.Fusion
import ShaderSplit.Proofs.Partition.Labels
import ShaderSplit.Proofs.Shading.Identifiers
import ShaderSplit.Proofs.Command.Dependency
import ShaderSplit.Proofs.Syntax.Same
import ShaderSplit.Proofs.Interface.Interning
import ShaderSplit.Proofs.Scope.LastWrite
