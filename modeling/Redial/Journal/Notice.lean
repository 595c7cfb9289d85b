import Redial.Time.Duration
import Redial.Fault.Basic

/-!
# Notices

What a stream reports about itself while the question of a retry is open. A notice has a level, a
message and named fields, all of them text.
-/

namespace Redial

/-- How much a notice matters. -/
inductive NoticeLevel where
  | debug
  | info
  | warn
  deriving DecidableEq

/-- The name of a level. -/
def NoticeLevel.name : NoticeLevel → String
  | debug => "DEBUG"
  | info => "INFO"
  | warn => "WARN"

/-- What a stream reports. -/
inductive Notice where
  /-- The first dial succeeded. -/
  | connected (destination : Address) (timeout : Duration)
  /-- A read failed and the retry starts. -/
  | retrying (destination : Address) (helloLen : Nat) (cause : Fault)
  /-- The connection that is given up could not be closed. -/
  | closeFailed (cause : Fault)
  /-- The second dial failed. -/
  | redialFailed (destination : Address) (cause : Fault)
  /-- The hello was cut and its replay starts. -/
  | replaying (split helloLen : Nat)
  /-- A write of the replay failed. -/
  | replayFailed (cause : Fault)
  /-- A read failed after a retry that had been given up. -/
  | failedAfterRetry (cause : Fault)
  /-- A write failed while the question was open. -/
  | writeFailed (cause : Fault)
  /-- The question is settled. -/
  | decided (destination : Address) (retried : Bool)
  deriving DecidableEq

namespace Notice

/-- The level of a notice. -/
def level : Notice → NoticeLevel
  | retrying .. => .info
  | redialFailed .. => .warn
  | replayFailed .. => .warn
  | _ => .debug

/-- The message of a notice. -/
def message : Notice → String
  | connected .. => "connected"
  | retrying .. => "first read failed, retrying with split hello"
  | closeFailed .. => "closing provisional connection failed"
  | redialFailed .. => "retry dial failed"
  | replaying .. => "replaying hello"
  | replayFailed .. => "hello replay failed"
  | failedAfterRetry .. => "read failed after an abandoned retry"
  | writeFailed .. => "write on provisional connection failed, waiting for retry"
  | decided .. => "retry decided"

/-- The fields of a notice. -/
def fields : Notice → List (String × String)
  | connected destination timeout => [("destination", destination.text), ("timeout", timeout.text)]
  | retrying destination helloLen cause =>
    [("destination", destination.text), ("hello_len", toString helloLen), ("error", cause.message)]
  | closeFailed cause => [("error", cause.message)]
  | redialFailed destination cause =>
    [("destination", destination.text), ("error", cause.message)]
  | replaying split helloLen => [("split", toString split), ("hello_len", toString helloLen)]
  | replayFailed cause => [("error", cause.message)]
  | failedAfterRetry cause => [("error", cause.message)]
  | writeFailed cause => [("error", cause.message)]
  | decided destination retried =>
    [("destination", destination.text), ("retried", toString retried)]

end Notice

end Redial
