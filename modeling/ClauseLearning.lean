import ClauseLearning.Arena
import ClauseLearning.Audit
import ClauseLearning.Clause
import ClauseLearning.Conflict.Activity
import ClauseLearning.Conflict.FirstUip
import ClauseLearning.Conflict.LevelRecords
import ClauseLearning.Conflict.Minimisation
import ClauseLearning.Conflict.Workspace
import ClauseLearning.Decision.BumpOrder
import ClauseLearning.Decision.Heuristic
import ClauseLearning.Decision.Queue
import ClauseLearning.Decision.Scores
import ClauseLearning.Event
import ClauseLearning.Fault
import ClauseLearning.Literal
import ClauseLearning.Number.Average
import ClauseLearning.Number.Binary64
import ClauseLearning.Number.Decimal
import ClauseLearning.Options
import ClauseLearning.ProofLog
import ClauseLearning.Proofs.Conflict.Asserting
import ClauseLearning.Proofs.Conflict.Consequence
import ClauseLearning.Proofs.Conflict.Meeting
import ClauseLearning.Proofs.Conflict.Redundancy
import ClauseLearning.Proofs.Conflict.Resolution
import ClauseLearning.Proofs.Conflict.Stamping
import ClauseLearning.Proofs.Conflict.Tracking
import ClauseLearning.Proofs.Decision.Chain
import ClauseLearning.Proofs.Decision.Choice
import ClauseLearning.Proofs.Decision.Cursor
import ClauseLearning.Proofs.Decision.Service
import ClauseLearning.Proofs.Entailment
import ClauseLearning.Proofs.ProofText
import ClauseLearning.Proofs.Search.Discipline
import ClauseLearning.Proofs.Search.Moves
import ClauseLearning.Proofs.Search.Propagation
import ClauseLearning.Proofs.Search.Sessions
import ClauseLearning.Proofs.Search.Settlement
import ClauseLearning.Proofs.Search.Termination
import ClauseLearning.Proofs.Simplification
import ClauseLearning.Proofs.Solver.Bumping
import ClauseLearning.Proofs.Solver.Conflict
import ClauseLearning.Proofs.Solver.Derivation
import ClauseLearning.Proofs.Solver.Grounded
import ClauseLearning.Proofs.Solver.Learning
import ClauseLearning.Proofs.Solver.Operations
import ClauseLearning.Proofs.Solver.Run
import ClauseLearning.Proofs.Trail.Operations
import ClauseLearning.Proofs.Trail.Potential
import ClauseLearning.Proofs.Trail.Reasons
import ClauseLearning.Proofs.Trail.WellFormed
import ClauseLearning.Proofs.Yields
import ClauseLearning.Solver.Analysis
import ClauseLearning.Solver.Assignment
import ClauseLearning.Solver.Basic
import ClauseLearning.Solver.Counters
import ClauseLearning.Solver.Propagation
import ClauseLearning.Solver.Report
import ClauseLearning.Solver.Search
import ClauseLearning.Sorting
import ClauseLearning.Traced
import ClauseLearning.Trail
import ClauseLearning.Proofs.Solver.Guidance
import ClauseLearning.Proofs.Solver.Decisions
import ClauseLearning.Proofs.Solver.PendingConflict
import ClauseLearning.Proofs.Solver.Backjump
import ClauseLearning.Proofs.Search.LowerLevels
import ClauseLearning.Proofs.Solver.Implications
import ClauseLearning.Proofs.Solver.Phases
import ClauseLearning.Proofs.Trail.Evolution
import ClauseLearning.Proofs.Solver.Representation
import ClauseLearning.Proofs.Solver.Cleanliness
import ClauseLearning.Proofs.Search.Novelty
import ClauseLearning.Proofs.Search.Rounds
import ClauseLearning.Proofs.Decision.Refinement
import ClauseLearning.Proofs.Conflict.Anchors
import ClauseLearning.Proofs.Conflict.Contents
import ClauseLearning.Proofs.Solver.Ledger
import ClauseLearning.Proofs.Conflict.MoveToFront
import ClauseLearning.Proofs.Conflict.Walk
import ClauseLearning.Proofs.Solver.ClauseActivity
import ClauseLearning.Proofs.Matching
import ClauseLearning.Proofs.Conflict.Twins
import ClauseLearning.Proofs.Solver.Twins
import ClauseLearning.Proofs.Solver.TwinAnalysis
import ClauseLearning.Proofs.Search.Transcript
import ClauseLearning.Proofs.Solver.Recording
import ClauseLearning.Proofs.Solver.Refutation
import ClauseLearning.Proofs.ProofReader
import ClauseLearning.Proofs.Solver.Truncation
import ClauseLearning.Proofs.Conflict.LevelStructure
import ClauseLearning.Proofs.Solver.Shrinking
import ClauseLearning.Proofs.Conflict.Exactness
import ClauseLearning.Proofs.Search.Minimality
import ClauseLearning.Proofs.Trail.Undoing
import ClauseLearning.Proofs.Search.Excursion
import ClauseLearning.Proofs.Solver.Admission
import ClauseLearning.Proofs.Solver.StoredClauses
import ClauseLearning.Proofs.Search.Unfolding
import ClauseLearning.Proofs.Search.UnitPropagation
import ClauseLearning.Proofs.Conflict.Dominators
import ClauseLearning.Proofs.Search.ImplicationPoint
import ClauseLearning.Proofs.Decision.Releases
import ClauseLearning.Proofs.Search.Backtracking
import ClauseLearning.Proofs.Decision.Rescaling
import ClauseLearning.Proofs.Decision.Bumps
import ClauseLearning.Proofs.Solver.Requeueing
import ClauseLearning.Proofs.Solver.TrailOrder
import ClauseLearning.Proofs.Conflict.WalkRecords
import ClauseLearning.Proofs.Solver.WalkRecords
import ClauseLearning.Proofs.Conflict.Exploration
import ClauseLearning.Proofs.Solver.Exploration
