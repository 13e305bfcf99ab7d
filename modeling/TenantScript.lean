import TenantScript.Action
import TenantScript.Data.SortedMap
import TenantScript.Error
import TenantScript.Eval.Assign
import TenantScript.Eval.Block
import TenantScript.Eval.Environment
import TenantScript.Eval.Evaluate
import TenantScript.Eval.State
import TenantScript.Eval.Workspace
import TenantScript.Host.Function
import TenantScript.Host.Invoke
import TenantScript.Host.Registry
import TenantScript.Number.Binary64
import TenantScript.Number.Shortest
import TenantScript.Syntax.Expr
import TenantScript.Syntax.Name
import TenantScript.Syntax.Outline
import TenantScript.Syntax.Span
import TenantScript.Syntax.Stmt
import TenantScript.Text.CodePoint
import TenantScript.Text.Extender
import TenantScript.Text.Numeral
import TenantScript.Text.Quoted
import TenantScript.Text.Unprintable
import TenantScript.Value.Basic
import TenantScript.Value.Convert
import TenantScript.Value.Equality
import TenantScript.Value.Heap
import TenantScript.Value.Index
import TenantScript.Value.Make
import TenantScript.Value.MapKey
import TenantScript.Value.Read
import TenantScript.Value.Render
import TenantScript.Value.Store
import TenantScript.Value.Ty
import TenantScript.Proofs.Growth
import TenantScript.Proofs.Plan
import TenantScript.Proofs.Link
import TenantScript.Proofs.Atomicity
import TenantScript.Proofs.Layout
import TenantScript.Proofs.Conversion
import TenantScript.Proofs.RunSoundness
import TenantScript.Proofs.WellTyped
import TenantScript.Proofs.ReadOnly
import TenantScript.Proofs.Session
import TenantScript.Proofs.Matching
import TenantScript.Proofs.Shift
import TenantScript.Proofs.Ranges
import TenantScript.Proofs.Footprint
import TenantScript.Proofs.Place
import TenantScript.Proofs.Reach
import TenantScript.Proofs.Reads
import TenantScript.Proofs.Paths
import TenantScript.Proofs.Puts
import TenantScript.Proofs.PutGet
import TenantScript.Proofs.PlaceSlots
import TenantScript.Proofs.Origin
import TenantScript.Proofs.Copies
import TenantScript.Proofs.SliceTargets
import TenantScript.Proofs.Mutations
import TenantScript.Proofs.FrozenFields
import TenantScript.Proofs.ArrayVariable
import TenantScript.Proofs.Failures
import TenantScript.Proofs.Congruence
import TenantScript.Proofs.Nesting
import TenantScript.Proofs.Balance
import TenantScript.Proofs.Interference
import TenantScript.Proofs.PlainValues
import TenantScript.Proofs.PlaceValues
import TenantScript.Proofs.GetPut
import TenantScript.Proofs.Registry
import TenantScript.Proofs.Course
import TenantScript.Proofs.Erasure
import TenantScript.Proofs.Diagnostics
import TenantScript.Proofs.Recording
import TenantScript.Proofs.Comparison
import TenantScript.Proofs.ComparisonEnds
import TenantScript.Proofs.EqualityLaws
import TenantScript.Proofs.NilMaps
import TenantScript.Proofs.Rebuilding
import TenantScript.Proofs.RangeStores
import TenantScript.Proofs.Pairing
import TenantScript.Proofs.BulkAppend
import TenantScript.Proofs.ReadOnlyItems
import TenantScript.Proofs.SliceReads
import TenantScript.Proofs.StringEdits
import TenantScript.Proofs.Unreadable
import TenantScript.Proofs.MapKeys
import TenantScript.Proofs.LiveMaps
import TenantScript.Proofs.AssignmentForms
import TenantScript.Proofs.OnlyReads
import TenantScript.Proofs.ParallelAssignment
import TenantScript.Proofs.StrippedScopes
import TenantScript.Proofs.InterfaceLayer
import TenantScript.Proofs.Blocks
import TenantScript.Proofs.Numerals
import TenantScript.Proofs.StringIndices
import TenantScript.Proofs.FunctionRecords
import TenantScript.Proofs.ScopeHistory
