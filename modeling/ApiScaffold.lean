import ApiScaffold.Main
import ApiScaffold.Record.Endpoint
import ApiScaffold.Proofs.Ordering
import ApiScaffold.Proofs.Mapping
import ApiScaffold.Proofs.Mapper
import ApiScaffold.Proofs.Compiling
import ApiScaffold.Proofs.Worklist
import ApiScaffold.Proofs.Recompiling
import ApiScaffold.Proofs.Batch
import ApiScaffold.Proofs.World
import ApiScaffold.Proofs.Ending
import ApiScaffold.Proofs.Places
import ApiScaffold.Proofs.Built
import ApiScaffold.Proofs.Typed
import ApiScaffold.Proofs.Strict
import ApiScaffold.Proofs.Absent
import ApiScaffold.Proofs.Collecting
import ApiScaffold.Proofs.Pointers
import ApiScaffold.Proofs.Declared
import ApiScaffold.Proofs.Alike
import ApiScaffold.Proofs.Operations
import ApiScaffold.Proofs.Responses
import ApiScaffold.Proofs.Members
import ApiScaffold.Proofs.Bodies
import ApiScaffold.Proofs.Imports
import ApiScaffold.Proofs.Rules
import ApiScaffold.Proofs.Words
import ApiScaffold.Proofs.Uses
import ApiScaffold.Proofs.Nested
import ApiScaffold.Proofs.Components
import ApiScaffold.Proofs.OperationNames
import ApiScaffold.Proofs.Identifiers
import ApiScaffold.Proofs.Arguments
import ApiScaffold.Proofs.Legible
import ApiScaffold.Proofs.Spelling
import ApiScaffold.Proofs.Histories
import ApiScaffold.Proofs.Claiming
import ApiScaffold.Proofs.Remembering
import ApiScaffold.Proofs.Repeating
import ApiScaffold.Proofs.Listing
import ApiScaffold.Proofs.Links
import ApiScaffold.Proofs.Passes
import ApiScaffold.Proofs.Outputs
import ApiScaffold.Proofs.Validators
import ApiScaffold.Proofs.Checked
import ApiScaffold.Proofs.Printed
import ApiScaffold.Proofs.Concluding
import ApiScaffold.Proofs.Reaching
import ApiScaffold.Proofs.Following
import ApiScaffold.Proofs.ItemChains
import ApiScaffold.Proofs.Finishing
import ApiScaffold.Proofs.DepthFirst
import ApiScaffold.Proofs.References
import ApiScaffold.Proofs.Visiting
import ApiScaffold.Proofs.Gathering
import ApiScaffold.Proofs.Touring
import ApiScaffold.Proofs.Enumerations
import ApiScaffold.Proofs.ListTypes
import ApiScaffold.Proofs.ArgumentOrder
import ApiScaffold.Proofs.TypeTrees
import ApiScaffold.Proofs.Denoting
import ApiScaffold.Proofs.WrittenPointers
import ApiScaffold.Proofs.ReturnTypes
import ApiScaffold.Proofs.ParameterMerging
import ApiScaffold.Proofs.Reordering
import ApiScaffold.Proofs.Counterparts
import ApiScaffold.Proofs.Reclaiming
import ApiScaffold.Proofs.ResponseOrder
import ApiScaffold.Proofs.Resolving
import ApiScaffold.Proofs.Quoting
import ApiScaffold.Proofs.Decorated
import ApiScaffold.Proofs.Patterns
import ApiScaffold.Proofs.EnumKeys
import ApiScaffold.Proofs.PassCounts
import ApiScaffold.Proofs.WrittenSettings
import ApiScaffold.Proofs.ReadSettings
import ApiScaffold.Proofs.SavedConfigs
import ApiScaffold.Proofs.LiftedOptions
import ApiScaffold.Proofs.Restoring
import ApiScaffold.Proofs.Unlinked
import ApiScaffold.Proofs.Restored
