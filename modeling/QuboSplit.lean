import QuboSplit.Decomposer
import QuboSplit.Model.Edit
import QuboSplit.Proofs.Model.Layout
import QuboSplit.Proofs.Model.Accumulation
import QuboSplit.Proofs.Model.Entries
import QuboSplit.Proofs.Model.Fingerprint
import QuboSplit.Proofs.Model.Ledger
import QuboSplit.Proofs.Model.Landscape
import QuboSplit.Proofs.Model.Equivalence
import QuboSplit.Proofs.Model.Energy
import QuboSplit.Proofs.Model.Flip
import QuboSplit.Proofs.Chimera.Partition
import QuboSplit.Proofs.Decomposer
import QuboSplit.Proofs.Embedding
import QuboSplit.Proofs.Events
import QuboSplit.Proofs.Number.Rounding
import QuboSplit.Proofs.Ranking
import QuboSplit.Proofs.Rolling
import QuboSplit.Proofs.Strategy.Cycle
import QuboSplit.Proofs.Strategy.Current
import QuboSplit.Proofs.Strategy.Exposure
import QuboSplit.Proofs.Strategy.Failure
import QuboSplit.Proofs.Strategy.History
import QuboSplit.Proofs.Strategy.Maximal
import QuboSplit.Proofs.Strategy.Rewind
import QuboSplit.Proofs.Strategy.Unranked
import QuboSplit.Proofs.Strategy.Twins
import QuboSplit.Proofs.Strategy.Tiling
import QuboSplit.Proofs.Strategy.TileCycle
import QuboSplit.Proofs.Strategy.Sublattice
import QuboSplit.Proofs.Strategy.TileFailure
import QuboSplit.Proofs.Strategy.Groups
import QuboSplit.Proofs.Strategy.Subset
import QuboSplit.Proofs.Traversal.Greedy
import QuboSplit.Proofs.Traversal.Coverage
import QuboSplit.Proofs.Strategy.Descent
import QuboSplit.Proofs.Model.Boundary
import QuboSplit.Proofs.Model.Composition
import QuboSplit.Proofs.Traversal.Prefix
import QuboSplit.Proofs.Ranking.Order
import QuboSplit.Proofs.Chimera.Edges
import QuboSplit.Proofs.Traversal.Ties
import QuboSplit.Proofs.Traversal.Complete
import QuboSplit.Proofs.Strategy.Overlap
import QuboSplit.Proofs.Vartype
import QuboSplit.Proofs.SampleSet
