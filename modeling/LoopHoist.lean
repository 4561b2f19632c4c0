import LoopHoist.Command.Run
import LoopHoist.Graph.Outline
import LoopHoist.Hoist.Log
import LoopHoist.Main
import LoopHoist.Proofs.Execution.Division
import LoopHoist.Proofs.Execution.PointsTo
import LoopHoist.Proofs.Hoist.Operands
import LoopHoist.Proofs.Source.RoundTrip
import LoopHoist.Source.Resolve
import LoopHoist.Workbench
import LoopHoist.Proofs.Source.Lexeme
import LoopHoist.Proofs.Source.Faithful
import LoopHoist.Proofs.Source.Spacing
import LoopHoist.Proofs.Source.Nonfinite
import LoopHoist.Proofs.Source.Relabel
import LoopHoist.Proofs.Flow.DominatorTree
import LoopHoist.Proofs.Flow.Nesting
import LoopHoist.Proofs.Flow.Forest
import LoopHoist.Proofs.Flow.LoopForest
import LoopHoist.Proofs.Flow.Preheader
import LoopHoist.Proofs.Flow.Shape
import LoopHoist.Proofs.Hoist.Progress
import LoopHoist.Proofs.Hoist.Pass
import LoopHoist.Proofs.Hoist.Rounds
import LoopHoist.Proofs.Hoist.Policies
import LoopHoist.Proofs.Hoist.Persistence
import LoopHoist.Proofs.Hoist.EveryRound
import LoopHoist.Proofs.Hoist.Independence
import LoopHoist.Proofs.Checked.Breakdown
import LoopHoist.Proofs.Checked.Order
import LoopHoist.Proofs.Checked.Facts
import LoopHoist.Proofs.Checked.Reading
import LoopHoist.Proofs.Checked.Optimize
import LoopHoist.Proofs.Flow.BaseChain
import LoopHoist.Proofs.Hoist.StableOrder
import LoopHoist.Proofs.Hoist.Repetition
import LoopHoist.Proofs.Command.Delivery
