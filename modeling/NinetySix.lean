import NinetySix.Table
import NinetySix.Text.Blank
import NinetySix.Text.Numeral
import NinetySix.Text.Invisible
import NinetySix.Text.Quoted
import NinetySix.Decimal.Binary64
import NinetySix.Decimal.Shortest
import NinetySix.Json.Token
import NinetySix.Json.Document
import NinetySix.Json.Value
import NinetySix.Json.Printer
import NinetySix.Digest.Blake3
import NinetySix.Error
import NinetySix.Coordinates
import NinetySix.Algebra.Coefficient
import NinetySix.Algebra.Blade
import NinetySix.Algebra.Fano
import NinetySix.Algebra.Multivector
import NinetySix.Algebra.Element
import NinetySix.Algebra.Rank
import NinetySix.Transform
import NinetySix.Term.Basic
import NinetySix.Term.Leaf
import NinetySix.Tier
import NinetySix.Normal.Rule
import NinetySix.Normal.Derivation
import NinetySix.Plan.Outcome
import NinetySix.Plan.ByClass
import NinetySix.Plan.ByElement
import NinetySix.Plan.Basic
import NinetySix.Model.Descriptor
import NinetySix.Model.Recipe
import NinetySix.Model.Options
import NinetySix.Model.Compile
import NinetySix.Model.Validate
import NinetySix.Model.Key
import NinetySix.Model.Cache
import NinetySix.Logging
import NinetySix.Proofs.Tables
import NinetySix.Proofs.Moves
import NinetySix.Proofs.Reduction
import NinetySix.Proofs.Leafwise
import NinetySix.Proofs.Chains
import NinetySix.Proofs.Meaning
import NinetySix.Proofs.Backends
import NinetySix.Proofs.Spread
import NinetySix.Proofs.Contexts
import NinetySix.Proofs.Canonical
import NinetySix.Proofs.Convergence
import NinetySix.Proofs.Folding
import NinetySix.Proofs.Recipes
import NinetySix.Proofs.Caching
import NinetySix.Proofs.Clifford
import NinetySix.Proofs.Exactness
import NinetySix.Proofs.Laws
import NinetySix.Proofs.Involutions
import NinetySix.Proofs.Powers
import NinetySix.Proofs.Accounting
import NinetySix.Proofs.Documents
import NinetySix.Proofs.RoundTrip
import NinetySix.Proofs.CrossProduct
import NinetySix.Proofs.RankOne
import NinetySix.Proofs.Symmetries
import NinetySix.Proofs.Mirrors
import NinetySix.Proofs.Skeletons
import NinetySix.Proofs.Inputs
import NinetySix.Proofs.Compilation
import NinetySix.Proofs.Failures
import NinetySix.Proofs.NormalForms
import NinetySix.Proofs.Freshness
import NinetySix.Proofs.Lowering
import NinetySix.Proofs.RingChains
import NinetySix.Proofs.Traces
import NinetySix.Proofs.Validation
import NinetySix.Proofs.Workbench
