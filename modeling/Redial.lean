import Redial.Time.Timeout
import Redial.Net.AddressReader
import Redial.Fault.Basic
import Redial.Hello.Cut
import Redial.Config.Setting
import Redial.Session.LatchSession
import Redial.Session.BareSession
import Redial.Session.StreamSession
import Redial.Session.Draft
import Redial.Loopback.SocketSession
import Redial.Loopback.RetrySession
import Redial.Proofs.Session.Runs
import Redial.Proofs.Stream.Effects
import Redial.Proofs.Stream.Guard
import Redial.Proofs.Stream.Phases
import Redial.Proofs.Wire.Acceptance
import Redial.Proofs.Delivery.Outbound
import Redial.Proofs.Wire.Sources
import Redial.Proofs.Stream.Copies
import Redial.Proofs.Stream.Settlement
import Redial.Proofs.Stream.Reader
import Redial.Proofs.Delivery.Inbound
import Redial.Proofs.Wire.Flags
import Redial.Proofs.Stream.Halves
import Redial.Proofs.Delivery.HalfClose
import Redial.Proofs.Stream.Waiting
import Redial.Proofs.Progress.Overdue
import Redial.Proofs.Progress.Reply
import Redial.Proofs.Delivery.Gap
import Redial.Proofs.Delivery.Dropped
import Redial.Proofs.Wire.Deadlines
import Redial.Proofs.Delivery.Copies
import Redial.Proofs.Delivery.Interruptions
import Redial.Proofs.Progress.Blocked
import Redial.Proofs.Progress.Completion
import Redial.Proofs.Delivery.WriteFaults
import Redial.Proofs.Progress.StaleDeadline
import Redial.Proofs.Progress.HelloDeadline
import Redial.Proofs.Delivery.Pieces
import Redial.Proofs.Delivery.ReplayCount
import Redial.Proofs.Stream.RetryCourse
import Redial.Proofs.Progress.RetryProcedure
import Redial.Proofs.Task.Settling
import Redial.Proofs.Wire.Outcomes
import Redial.Proofs.Stream.Effort
import Redial.Proofs.Stream.WithoutCut
import Redial.Proofs.Stream.PlainReplay
import Redial.Proofs.Session.Cuts
import Redial.Proofs.Session.Healthy
import Redial.Proofs.Delivery.FailedReplay
import Redial.Proofs.Loopback.DeadlineChanges
import Redial.Proofs.Loopback.Polls
import Redial.Proofs.Sync.Waiters
import Redial.Proofs.Fault.Nesting
import Redial.Proofs.Delivery.Courses
import Redial.Proofs.Delivery.WriteLoops
import Redial.Proofs.Config.Settings
import Redial.Proofs.Session.Drafts
