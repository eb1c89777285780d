import StopTheWorld.Describe
import StopTheWorld.Machine.Initial
import StopTheWorld.Machine.Laws
import StopTheWorld.Machine.Run
import StopTheWorld.Mailroom
import StopTheWorld.Proofs.ActionOnce
import StopTheWorld.Proofs.Driver
import StopTheWorld.Proofs.PauseState
import StopTheWorld.Proofs.Serial
import StopTheWorld.Proofs.Footprint
import StopTheWorld.Proofs.Inside
import StopTheWorld.Proofs.Panics
import StopTheWorld.Proofs.Released
import StopTheWorld.Proofs.Rounds
import StopTheWorld.Proofs.Wakeups
import StopTheWorld.Proofs.Conservation
import StopTheWorld.Proofs.Delivery
import StopTheWorld.Proofs.Enrolled
import StopTheWorld.Proofs.PauseOrder
import StopTheWorld.Proofs.EventLog
import StopTheWorld.Proofs.AnyOrder
import StopTheWorld.Proofs.Passages
import StopTheWorld.Proofs.Regained
import StopTheWorld.Proofs.Reentry
import StopTheWorld.Proofs.Summons
import StopTheWorld.Proofs.Refusals
import StopTheWorld.Proofs.Fanout
import StopTheWorld.Proofs.Blockers
import StopTheWorld.Proofs.Waiting
import StopTheWorld.Proofs.Retries
import StopTheWorld.Proofs.Turnout
import StopTheWorld.Proofs.Interlude
import StopTheWorld.Proofs.Sojourn
import StopTheWorld.Proofs.SlowPolls
import StopTheWorld.Proofs.Crowds
import StopTheWorld.Proofs.Outsider
