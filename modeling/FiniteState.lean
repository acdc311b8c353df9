import FiniteState.Main
import FiniteState.Automaton.Enumerate
import FiniteState.Automaton.Membership
import FiniteState.Automaton.Path
import FiniteState.Automaton.Table
import FiniteState.Proofs.Computation
import FiniteState.Proofs.Lists
import FiniteState.Proofs.Search
import FiniteState.Proofs.DepthFirst
import FiniteState.Proofs.Trace
import FiniteState.Proofs.Membership
import FiniteState.Proofs.Deterministic
import FiniteState.Proofs.Order
import FiniteState.Proofs.Trim
import FiniteState.Proofs.Bisimulation
import FiniteState.Proofs.Determinize
import FiniteState.Proofs.Refinement
import FiniteState.Proofs.Quotient
import FiniteState.Proofs.Minimize
import FiniteState.Proofs.Canonical
import FiniteState.Proofs.Equivalence
import FiniteState.Proofs.Idle
import FiniteState.Proofs.Trimmed
import FiniteState.Proofs.Product
import FiniteState.Proofs.Construct
import FiniteState.Proofs.Trie
import FiniteState.Proofs.Text
import FiniteState.Proofs.Blueprint
import FiniteState.Proofs.Listing
import FiniteState.Proofs.Grammar
import FiniteState.Proofs.Rational
import FiniteState.Proofs.Edit
import FiniteState.Proofs.Complement
import FiniteState.Proofs.Boolean
import FiniteState.Proofs.Sampling
import FiniteState.Proofs.Chain
import FiniteState.Proofs.Buckets
import FiniteState.Proofs.Session
import FiniteState.Proofs.Pairing
import FiniteState.Proofs.Bound
import FiniteState.Proofs.Walk
import FiniteState.Proofs.Slots
import FiniteState.Proofs.Attempts
import FiniteState.Proofs.Disjoint
import FiniteState.Proofs.Invariance
import FiniteState.Proofs.Accounting
import FiniteState.Proofs.Labels
import FiniteState.Proofs.Difference
import FiniteState.Proofs.Lookup
import FiniteState.Proofs.Derivation
import FiniteState.Proofs.Ceiling
import FiniteState.Proofs.Failure
import FiniteState.Proofs.Occurrence
import FiniteState.Proofs.Removal
import FiniteState.Proofs.Explosion
import FiniteState.Proofs.Memory
import FiniteState.Proofs.Room
import FiniteState.Proofs.Counting
import FiniteState.Proofs.Catalog
import FiniteState.Proofs.Halves
import FiniteState.Proofs.Repetition
import FiniteState.Proofs.Enumeration
import FiniteState.Proofs.Nothing
import FiniteState.Proofs.Span
import FiniteState.Proofs.Rivals
import FiniteState.Proofs.Reached
import FiniteState.Proofs.Matching
import FiniteState.Proofs.Blank
import FiniteState.Proofs.Splits
