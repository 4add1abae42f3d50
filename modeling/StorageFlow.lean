import StorageFlow.Effect.Exit
import StorageFlow.Families
import StorageFlow.Pass
import StorageFlow.Proofs.Syntax.Collectors
import StorageFlow.Proofs.Knowledge.Provenance
import StorageFlow.Proofs.Analysis.Invariant
import StorageFlow.Proofs.Analysis.Shape
import StorageFlow.Proofs.Analysis.Completed
import StorageFlow.Proofs.Analysis.Growth
import StorageFlow.Proofs.Semantics.Model
import StorageFlow.Proofs.Semantics.Exec
import StorageFlow.Proofs.Semantics.Frame
import StorageFlow.Proofs.Rewriting.Failure
import StorageFlow.Proofs.Rewriting.Comparison
import StorageFlow.Proofs.Soundness.Holds
import StorageFlow.Proofs.Soundness.Expression
import StorageFlow.Proofs.Soundness.Statement
import StorageFlow.Proofs.Soundness.Program
import StorageFlow.Proofs.Analysis.Success
import StorageFlow.Proofs.Semantics.Reference
import StorageFlow.Proofs.Pass.Meaning
import StorageFlow.Proofs.Semantics.Collecting
import StorageFlow.Proofs.Soundness.Observed
import StorageFlow.Proofs.Analysis.Frames
import StorageFlow.Proofs.Pass.Capture
import StorageFlow.Proofs.Analysis.Isolation
import StorageFlow.Proofs.Analysis.Cause
import StorageFlow.Proofs.Knowledge.Grounded
import StorageFlow.Proofs.Analysis.Session
import StorageFlow.Proofs.Analysis.Reachable
import StorageFlow.Proofs.Analysis.Branching
import StorageFlow.Proofs.Analysis.StorageTransfer
import StorageFlow.Proofs.Semantics.Interpretation
import StorageFlow.Proofs.Rewriting.Meaning
import StorageFlow.Proofs.Pass.Settled
import StorageFlow.Proofs.Pass.Echo
import StorageFlow.Proofs.Pass.Fixpoint
import StorageFlow.Proofs.Knowledge.MapHistory
import StorageFlow.Proofs.Knowledge.Mentions
import StorageFlow.Proofs.Analysis.Faults
import StorageFlow.Proofs.Pass.Visibility
import StorageFlow.Proofs.Syntax.Erasure
import StorageFlow.Proofs.Rewriting.Erasure
import StorageFlow.Proofs.Knowledge.Erasure
import StorageFlow.Proofs.Analysis.Erasure
import StorageFlow.Proofs.Pass.Erasure
import StorageFlow.Proofs.Rewriting.Chain
import StorageFlow.Proofs.Rewriting.Cost
import StorageFlow.Proofs.Rewriting.Normal
import StorageFlow.Proofs.Rewriting.Strength
import StorageFlow.Proofs.Effect.Summary
import StorageFlow.Proofs.Knowledge.Clearing
import StorageFlow.Proofs.Analysis.Stores
import StorageFlow.Proofs.Rewriting.Calls
import StorageFlow.Proofs.Rewriting.Limits
import StorageFlow.Proofs.Syntax.Positions
import StorageFlow.Proofs.Syntax.Logging
import StorageFlow.Proofs.Syntax.Assigned
import StorageFlow.Proofs.Analysis.Answers
import StorageFlow.Proofs.Rewriting.SameSyntax
import StorageFlow.Proofs.Rewriting.Folding
import StorageFlow.Proofs.Text.Numeral
import StorageFlow.Proofs.Analysis.Straight
import StorageFlow.Proofs.Families.Basic
import StorageFlow.Proofs.Families.StraightLine
import StorageFlow.Proofs.Families.Forwarding
import StorageFlow.Proofs.Semantics.Control
import StorageFlow.Proofs.Effect.Exit
import StorageFlow.Proofs.Text.Lexing
import StorageFlow.Proofs.Syntax.Spelling
import StorageFlow.Proofs.Syntax.Legible
import StorageFlow.Proofs.Syntax.Reading
