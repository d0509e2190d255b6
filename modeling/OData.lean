import OData.Proofs.Canonical.RoundTrip
import OData.Proofs.Grammar.ChainOrder
import OData.Proofs.Grammar.Filter
import OData.Proofs.Grammar.Spacing
import OData.Proofs.Grammar.Stages
import OData.Proofs.Json.Queries
import OData.Proofs.Limits.Heights
import OData.Proofs.Limits.Operators
import OData.Proofs.Limits.Progress
import OData.Proofs.Limits.Steps
import OData.Proofs.Literal.Temporal
import OData.Proofs.Query.Composition
import OData.Proofs.Query.Groups
import OData.Proofs.Query.Integers
import OData.Proofs.Query.NestedLists
import OData.Proofs.Query.Pieces
import OData.Proofs.Query.Repetition
import OData.Proofs.Token.Cursor
import OData.Proofs.Token.Exposed
import OData.Proofs.Token.Layout
import OData.Proofs.Token.LongestMatch
import OData.Proofs.Token.Partition
import OData.Proofs.Traversal.Expansion
import OData.Proofs.Traversal.Leaves
import OData.Proofs.Traversal.Outline
import OData.Proofs.Traversal.Renaming
import OData.Proofs.Traversal.Wildcards
import OData.Traversal.Trace
