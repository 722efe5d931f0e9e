import Furthest.Number.Reader
import Furthest.Script.Session
import Furthest.Proofs.Returns
import Furthest.Proofs.WellFormed.Behaviour
import Furthest.Proofs.WellFormed.Derived
import Furthest.Proofs.WellFormed.Machine
import Furthest.Proofs.Pairing.Basic
import Furthest.Proofs.Pairing.Behaviour
import Furthest.Proofs.Pairing.Callback
import Furthest.Proofs.Watched.Denotation
import Furthest.Proofs.Pairing.Grammar
import Furthest.Proofs.Watched.Machine
import Furthest.Proofs.Watched.Behaviour
import Furthest.Proofs.Watched.Exact
import Furthest.Proofs.Deferred.Agreement
import Furthest.Proofs.Pairing.Depth
import Furthest.Proofs.Deferred.Rules
import Furthest.Proofs.Deferred.Models
import Furthest.Proofs.Deferred.Runs
import Furthest.Proofs.Deferred.Gives
import Furthest.Proofs.Deferred.History
import Furthest.Proofs.OrderedChoice.Relation
import Furthest.Proofs.OrderedChoice.Sound
import Furthest.Proofs.OrderedChoice.Complete
import Furthest.Proofs.OrderedChoice.Exact
import Furthest.Proofs.Rebinding.Replace
import Furthest.Proofs.Parallel.Behaviour
import Furthest.Proofs.Parallel.Grammar
import Furthest.Proofs.Parallel.Moved
import Furthest.Proofs.Parallel.Labels
import Furthest.Proofs.Expressions.Reading
import Furthest.Proofs.Expressions.Level
import Furthest.Proofs.Expressions.Parse
import Furthest.Proofs.Repetition.Recursive
import Furthest.Proofs.Repetition.Times
import Furthest.Proofs.EntryPoints.LogBlind
import Furthest.Proofs.EntryPoints.Library
import Furthest.Proofs.EntryPoints.Whole
import Furthest.Proofs.Faultless.Behaviour
import Furthest.Proofs.Faultless.Grammar
import Furthest.Proofs.Faultless.Machine
import Furthest.Proofs.Faultless.Shapes
import Furthest.Proofs.Faultless.Constructors
import Furthest.Proofs.Faultless.Invoke
import Furthest.Proofs.Scope.Between
import Furthest.Proofs.Scope.Grammar
import Furthest.Proofs.Scope.Sealed
import Furthest.Proofs.Scope.Runs
import Furthest.Proofs.Algebra.Bracketing
import Furthest.Proofs.Deferred.OwnRules
import Furthest.Proofs.Algebra.Grounded
import Furthest.Proofs.Algebra.Chain
import Furthest.Proofs.Algebra.Sequences
import Furthest.Proofs.Algebra.Regrouping
import Furthest.Proofs.Algebra.Factoring
import Furthest.Proofs.Lists.Answers
import Furthest.Proofs.Lists.Till
import Furthest.Proofs.Lists.Separators
import Furthest.Proofs.Lists.Pairs
import Furthest.Proofs.Lists.Recursion
import Furthest.Proofs.Lists.Separated
import Furthest.Proofs.Lists.Chains
import Furthest.Proofs.Deferred.Misuse
import Furthest.Proofs.Repetition.Attempts
import Furthest.Proofs.Traced.Log
import Furthest.Proofs.Rebinding.Clones
import Furthest.Proofs.Positions.Marks
import Furthest.Proofs.Repetition.Characters
import Furthest.Proofs.Algebra.Lookahead
import Furthest.Proofs.Patterns.Carets
import Furthest.Proofs.OrderedChoice.Literals
import Furthest.Proofs.Construction.Parts
import Furthest.Proofs.Construction.Checks
import Furthest.Proofs.Construction.Library
