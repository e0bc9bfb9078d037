import AccessPath.Numeric.Numeral
import AccessPath.Numeric.Binary64
import AccessPath.Numeric.Shortest
import AccessPath.Numeric.Reading
import AccessPath.Json.Text
import AccessPath.Json.Token
import AccessPath.Json.Tree
import AccessPath.Json.Decode
import AccessPath.Ty.Basic
import AccessPath.Ty.Json
import AccessPath.Literal
import AccessPath.Path.Basic
import AccessPath.Path.Json
import AccessPath.Settings
import AccessPath.Value.Basic
import AccessPath.Value.Set
import AccessPath.Value.Conversion
import AccessPath.Eval.Error
import AccessPath.Eval.Run
import AccessPath.Eval.Script
import AccessPath.Eval.Introspector
import AccessPath.Path.Evaluate
import AccessPath.Path.Fetch
import AccessPath.Registry.Sequence
import AccessPath.Registry.Basic
import AccessPath.Registry.Introspect
import AccessPath.Host.Store
import AccessPath.Host.Rules
import AccessPath.Host.Bare
import AccessPath.Proofs.Runs
import AccessPath.Proofs.Chain
import AccessPath.Proofs.Defaults
import AccessPath.Proofs.Absence
import AccessPath.Proofs.Fallback
import AccessPath.Proofs.Agreement
import AccessPath.Proofs.Nodes
import AccessPath.Proofs.Sequences
import AccessPath.Proofs.Purity
import AccessPath.Proofs.Locality
import AccessPath.Proofs.Invariants
import AccessPath.Proofs.Renaming
import AccessPath.Proofs.Substitution
import AccessPath.Proofs.Equality
import AccessPath.Proofs.Presence
import AccessPath.Proofs.DeclaredTypes
import AccessPath.Proofs.Decimals
import AccessPath.Proofs.Rounding
import AccessPath.Proofs.Scanning
import AccessPath.Proofs.Trees
import AccessPath.Proofs.Decoding
import AccessPath.Proofs.RoundTrip
import AccessPath.Proofs.Failures
import AccessPath.Proofs.DepthLimit
import AccessPath.Proofs.Building
import AccessPath.Proofs.FailFast
import AccessPath.Proofs.ValueTypes
import AccessPath.Proofs.Insertion
import AccessPath.Proofs.Selection
import AccessPath.Proofs.Spellings
import AccessPath.Proofs.Reloading
import AccessPath.Proofs.SetHistories
import AccessPath.Proofs.Registrations
import AccessPath.Proofs.Dispatch
import AccessPath.Proofs.Predicates
import AccessPath.Proofs.ZeroValues
import AccessPath.Proofs.DefaultedStructs
import AccessPath.Proofs.Calls
import AccessPath.Proofs.LambdaCalls
import AccessPath.Proofs.Arrival
import AccessPath.Proofs.Skipping
import AccessPath.Proofs.Listing
import AccessPath.Proofs.EvaluationOrder
import AccessPath.Proofs.Deduplication
import AccessPath.Proofs.Spine
