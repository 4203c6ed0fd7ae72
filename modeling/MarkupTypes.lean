import MarkupTypes.Compilation.Basic
import MarkupTypes.Model.Json
import MarkupTypes.Model.Render
import MarkupTypes.Output
import MarkupTypes.Schema
import MarkupTypes.Trace.Render
import MarkupTypes.Proofs.Walks
import MarkupTypes.Proofs.Frame
import MarkupTypes.Proofs.Depth
import MarkupTypes.Proofs.Skeleton
import MarkupTypes.Proofs.Reachability
import MarkupTypes.Proofs.Declaring
import MarkupTypes.Proofs.Runs
import MarkupTypes.Proofs.Integrity
import MarkupTypes.Proofs.InlineExpansion
import MarkupTypes.Proofs.Generation
import MarkupTypes.Proofs.Termination
import MarkupTypes.Proofs.Merging
import MarkupTypes.Proofs.Success
import MarkupTypes.Proofs.Assembling
import MarkupTypes.Proofs.MergeOrder
import MarkupTypes.Proofs.Advances
import MarkupTypes.Proofs.Retrying
import MarkupTypes.Proofs.Retyping
import MarkupTypes.Proofs.Opening
import MarkupTypes.Proofs.Places
import MarkupTypes.Proofs.Population
import MarkupTypes.Proofs.Naming
import MarkupTypes.Proofs.Renaming
import MarkupTypes.Proofs.Correspondence
import MarkupTypes.Proofs.Lockstep
import MarkupTypes.Proofs.Interleaving
import MarkupTypes.Proofs.Acceptance
import MarkupTypes.Proofs.Documents
import MarkupTypes.Proofs.Siblings
import MarkupTypes.Proofs.Splicing
import MarkupTypes.Proofs.Roots
import MarkupTypes.Proofs.Cycles
import MarkupTypes.Proofs.Hierarchy
import MarkupTypes.Proofs.RuleKeys
import MarkupTypes.Proofs.Sources
import MarkupTypes.Proofs.Discovery
import MarkupTypes.Proofs.Ownership
import MarkupTypes.Proofs.Renumbering
import MarkupTypes.Proofs.Embedding
import MarkupTypes.Proofs.WellFormed
import MarkupTypes.Proofs.Sessions
import MarkupTypes.Proofs.Decisions
import MarkupTypes.Proofs.Registry
import MarkupTypes.Proofs.Locations
import MarkupTypes.Proofs.Diagnostics
import MarkupTypes.Proofs.Tracing
import MarkupTypes.Proofs.Recording
import MarkupTypes.Proofs.Creation
import MarkupTypes.Proofs.Retention
import MarkupTypes.Proofs.Slotwise
import MarkupTypes.Proofs.Shapes
import MarkupTypes.Proofs.Reordering
import MarkupTypes.Proofs.Nesting
import MarkupTypes.Proofs.Absorbing
import MarkupTypes.Proofs.RoundTrip
import MarkupTypes.Proofs.NameClasses
import MarkupTypes.Proofs.TextContent
import MarkupTypes.Proofs.JsonText
import MarkupTypes.Proofs.Decoding
import MarkupTypes.Proofs.Transparency
import MarkupTypes.Proofs.Identifiers
