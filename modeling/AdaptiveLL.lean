import AdaptiveLL.Attribute.Scope
import AdaptiveLL.Token.Input
import AdaptiveLL.Token.Vocabulary
import AdaptiveLL.Network.Printer
import AdaptiveLL.Network.Reachability
import AdaptiveLL.Network.Run
import AdaptiveLL.Grammar.Basic
import AdaptiveLL.Grammar.Language
import AdaptiveLL.Prediction.Closure
import AdaptiveLL.Prediction.Cache
import AdaptiveLL.Prediction.Trial
import AdaptiveLL.Parse
import AdaptiveLL.Script.Statement
import AdaptiveLL.Main
import AdaptiveLL.Proofs.Network.Recursion
import AdaptiveLL.Proofs.Effect
import AdaptiveLL.Proofs.Grammar.Built
import AdaptiveLL.Proofs.Grammar.Numbering
import AdaptiveLL.Proofs.Ascending
import AdaptiveLL.Proofs.Fuel
import AdaptiveLL.Proofs.Prediction.Expansion
import AdaptiveLL.Proofs.Prediction.Halting
import AdaptiveLL.Proofs.Prediction.Exploration
import AdaptiveLL.Proofs.Prediction.Likeness
import AdaptiveLL.Proofs.Prediction.Simulation
import AdaptiveLL.Proofs.Prediction.Growing
import AdaptiveLL.Proofs.Prediction.Sharing
import AdaptiveLL.Proofs.Prediction.Transparency
import AdaptiveLL.Proofs.Prediction.Ending
import AdaptiveLL.Proofs.Prediction.Nesting
import AdaptiveLL.Proofs.Prediction.Exactness
import AdaptiveLL.Proofs.Prediction.Guarding
import AdaptiveLL.Proofs.Prediction.Pruning
import AdaptiveLL.Proofs.Invocation.Stack
import AdaptiveLL.Proofs.Parse.Completeness
import AdaptiveLL.Proofs.Grammar.Construction
import AdaptiveLL.Proofs.Grammar.Composition
import AdaptiveLL.Proofs.Grammar.Layout
import AdaptiveLL.Proofs.Grammar.Fragments
import AdaptiveLL.Proofs.Grammar.Assembly
import AdaptiveLL.Proofs.Grammar.Recognition
import AdaptiveLL.Proofs.Grammar.Cohesion
import AdaptiveLL.Proofs.Grammar.Containment
import AdaptiveLL.Proofs.Network.Survival
import AdaptiveLL.Proofs.Prediction.Change
import AdaptiveLL.Proofs.Prediction.Settling
import AdaptiveLL.Proofs.Prediction.Speculation
import AdaptiveLL.Proofs.Prediction.Surroundings
import AdaptiveLL.Proofs.Prediction.Survival
import AdaptiveLL.Proofs.Parse.Step
import AdaptiveLL.Proofs.Parse.Performance
import AdaptiveLL.Proofs.Parse.Rejection
import AdaptiveLL.Proofs.Prediction.Validity
import AdaptiveLL.Proofs.Prediction.Safety
import AdaptiveLL.Proofs.Parse.Safety
import AdaptiveLL.Proofs.Grammar.Nullability
import AdaptiveLL.Proofs.Grammar.Looping
import AdaptiveLL.Proofs.Convergence
import AdaptiveLL.Proofs.Prediction.Termination
import AdaptiveLL.Proofs.Parse.Termination
import AdaptiveLL.Proofs.Prediction.Persistence
import AdaptiveLL.Proofs.Prediction.Stability
import AdaptiveLL.Proofs.Prediction.Publication
import AdaptiveLL.Proofs.Invocation.Isolation
import AdaptiveLL.Proofs.Parse.Diagnosis
import AdaptiveLL.Proofs.Grammar.Completion
import AdaptiveLL.Proofs.Prediction.Lookahead
import AdaptiveLL.Proofs.Grammar.EmptyLoops
import AdaptiveLL.Proofs.Prediction.Leaving
import AdaptiveLL.Proofs.Grammar.Decisions
import AdaptiveLL.Proofs.Prediction.Lockstep
import AdaptiveLL.Proofs.Prediction.Rewinding
import AdaptiveLL.Proofs.Grammar.Substitution
import AdaptiveLL.Proofs.Prediction.Truncation
import AdaptiveLL.Proofs.Prediction.Origin
import AdaptiveLL.Proofs.Prediction.Blame
import AdaptiveLL.Proofs.Prediction.Recording
import AdaptiveLL.Proofs.Token.Moves
import AdaptiveLL.Proofs.Prediction.Conditions
import AdaptiveLL.Proofs.Indexing
import AdaptiveLL.Proofs.Prediction.Keying
import AdaptiveLL.Proofs.Grammar.Marks
import AdaptiveLL.Proofs.Grammar.Wildcards
import AdaptiveLL.Proofs.Grammar.Greediness
import AdaptiveLL.Proofs.Prediction.Conflicts
import AdaptiveLL.Proofs.Prediction.Listing
