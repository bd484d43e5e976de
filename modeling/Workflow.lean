import Workflow.Api.Channel
import Workflow.Api.Service
import Workflow.Handler.Script
import Workflow.Json.Writer
import Workflow.Log.Line
import Workflow.Proofs.Expr.Grammar
import Workflow.Proofs.Run.Walk
import Workflow.Settings.EnvFile
import Workflow.Settings.Reading
import Workflow.Proofs.Run.Errand
import Workflow.Proofs.Run.History
import Workflow.Proofs.Run.Stage
import Workflow.Proofs.Run.Sound
import Workflow.Proofs.Run.Obey
import Workflow.Proofs.Run.Lifecycle
import Workflow.Proofs.Run.Cancel
import Workflow.Proofs.Expr.Lexing
import Workflow.Proofs.Expr.Printing
import Workflow.Proofs.Debug.Rejection
import Workflow.Proofs.Run.Layers
import Workflow.Proofs.Run.Roam
import Workflow.Proofs.Run.Isolation
import Workflow.Proofs.Scope.Padding
import Workflow.Proofs.Run.Descent
import Workflow.Proofs.Run.Ascent
import Workflow.Proofs.Run.Lockstep
import Workflow.Proofs.Run.Inline
import Workflow.Proofs.Run.Slot
import Workflow.Proofs.Run.Rank
import Workflow.Proofs.Run.Chore
import Workflow.Proofs.Run.Progress
import Workflow.Proofs.Run.Termination
import Workflow.Proofs.Run.Gist
import Workflow.Proofs.Run.Onward
import Workflow.Proofs.Run.Post
import Workflow.Proofs.Run.Undisturbed
import Workflow.Proofs.Run.Charge
import Workflow.Proofs.Run.Vigil
import Workflow.Proofs.Run.Retelling
import Workflow.Proofs.Run.Course
import Workflow.Proofs.Run.Convergence
import Workflow.Proofs.Run.Plain
import Workflow.Proofs.Run.Pace
import Workflow.Proofs.Debug.Transparency
import Workflow.Proofs.Run.Story
import Workflow.Proofs.Value.Entries
import Workflow.Proofs.Scope.Snapshot
import Workflow.Proofs.Scope.Agreement
import Workflow.Proofs.Flow.Cycle
import Workflow.Proofs.Flow.Validity
import Workflow.Proofs.Run.Failure
import Workflow.Proofs.Run.Happening
import Workflow.Proofs.Clock.Timers
import Workflow.Proofs.Engine.Deed
import Workflow.Proofs.Engine.Change
import Workflow.Proofs.Engine.Stir
import Workflow.Proofs.Run.Upholding
import Workflow.Proofs.Engine.Reflection
import Workflow.Proofs.Engine.Mirror
import Workflow.Proofs.Engine.Holding
import Workflow.Proofs.Debug.Sessions
import Workflow.Proofs.Debug.Attachment
import Workflow.Proofs.Engine.Calm
import Workflow.Proofs.Engine.Tale
import Workflow.Proofs.Engine.Separation
import Workflow.Proofs.Engine.Tenure
import Workflow.Proofs.Engine.Registry
import Workflow.Proofs.Engine.Pruning
import Workflow.Proofs.Engine.Retention
import Workflow.Proofs.Flow.Registration
import Workflow.Proofs.Log.Redaction
import Workflow.Proofs.Run.Coherence
import Workflow.Proofs.Engine.Settlement
import Workflow.Proofs.Flow.Wire
import Workflow.Proofs.Run.Tiers
import Workflow.Proofs.Run.CallStack
import Workflow.Proofs.Debug.Memory
import Workflow.Proofs.Flow.Layering
import Workflow.Proofs.Run.Site
import Workflow.Proofs.Debug.Variables
import Workflow.Proofs.Run.Recount
import Workflow.Proofs.Run.Bracket
import Workflow.Proofs.Run.Retry
import Workflow.Proofs.Run.Trail
import Workflow.Proofs.Run.Wakeup
import Workflow.Proofs.Run.Steady
import Workflow.Proofs.Run.Pausing
import Workflow.Proofs.Run.Stepping
import Workflow.Proofs.Flow.Ordering
import Workflow.Proofs.Run.Rounds
import Workflow.Proofs.Run.While
import Workflow.Proofs.Run.Enclosure
import Workflow.Proofs.Run.Writing
import Workflow.Proofs.Run.Kin
import Workflow.Proofs.Run.Items
import Workflow.Proofs.Run.Foreach
import Workflow.Proofs.Flow.Arrangement
import Workflow.Proofs.Run.Ordered
import Workflow.Proofs.Run.EdgeOrder
import Workflow.Proofs.Flow.Sequence
import Workflow.Proofs.Flow.RoundTrip
import Workflow.Proofs.Flow.Range
import Workflow.Event.Telling
import Workflow.Proofs.Debug.Delivery
import Workflow.Proofs.Event.Numbering
import Workflow.Proofs.Event.Unsubscribing
import Workflow.Proofs.Run.Stand
import Workflow.Proofs.Debug.Notice
import Workflow.Proofs.Debug.Broadcast
import Workflow.Proofs.Debug.Audience
import Workflow.Proofs.Debug.Reception
import Workflow.Proofs.Expr.Equality
import Workflow.Proofs.Expr.Substitution
import Workflow.Proofs.Expr.Scanning
import Workflow.Proofs.Scope.Reach
import Workflow.Proofs.Value.Nesting
import Workflow.Proofs.Api.Limits
