import Cacheon.Weights.Safety
import Cacheon.Intake.EvalCost
import Cacheon.Intake.Accept
import Cacheon.Intake.Credit
import Cacheon.Intake.ArrivalOrder
import Cacheon.Weights.StaticProjection
import Cacheon.Intake.Commission
import Cacheon.Intake.Replay
import Cacheon.Economics.Reach
import Cacheon.Weights.DecayClock
import Cacheon.Weights.Freshness
import Cacheon.Weights.Permit
import Cacheon.StackIdentity
import Cacheon.Intake.EvidenceCodec
import Cacheon.Bundle.Publication
import Cacheon.Bundle.Fetch
import Cacheon.Intake.Pass
import Cacheon.Intake.RawReveal
import Cacheon.Worker.Dispatcher
import Cacheon.Worker.Supervisor
import Cacheon.Eval.ReferenceSpeed
import Cacheon.Settlement.NodeMembers
import Cacheon.Submit
