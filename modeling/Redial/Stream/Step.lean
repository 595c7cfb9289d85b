import Redial.Stream.Call

/-!
# Steps of calls on a stream

What a call on a stream does next, from each place where it can be. The main rules:

* a read that fails while the question is open, and before any retry, starts the retry; the read on
  the connection that the retry makes becomes the result of the call;
* a read that takes bytes settles the question, and clears the deadline of the connection;
* a read that meets the end of the stream settles nothing, unless a retry had been given up;
* a write that is made while the question is open is remembered, and sets the deadline; if it fails,
  the call waits for the question to be settled and then writes on the final connection.
-/

namespace Redial.Stream

/-- What a step comes to: the state after it, and how the call goes on. -/
abbrev Turn := State × Progress Call Outcome

/-- Asks for the lock to do an errand. -/
def askLock (s : State) (k : TaskId) (errand : Errand) : Turn :=
  (s.withLock (s.memory.lock.ask k), .goesOn (.queued errand))

/-- Ends a read. -/
def endRead (s : State) (result : Except Fault Bytes) : Turn := (s, .done (.read result))

/-- Settles the question, releases the lock, and ends the read that has done so. -/
def conclude (s : State) (result : Except Fault Bytes) : Turn := endRead s.settle.release result

/-! ## Writes -/

/-- Makes a write: on the final connection, or after asking for the lock. -/
def offer (s : State) (k : TaskId) (goal : Goal) (buf : Bytes) : Turn :=
  match s.finalLink? with
  | some link => (s, .goesOn (.sendingTo link goal buf))
  | none => askLock s k (.send goal buf)

/-- What follows a write of `buf`. A single write ends; writing all tries again after an
interruption; a copy passes every fault on. -/
def afterWrite (s : State) (k : TaskId) (buf : Bytes) (result : Except Fault Bytes) : Goal → Turn
  | .once => (s, .done (.wrote (result.map List.length)))
  | .all =>
    match result with
    | .ok [] => (s, .done (.wroteAll (.error .writeZero)))
    | .ok accepted =>
      match buf.drop accepted.length with
      | [] => (s, .done (.wroteAll (.ok ())))
      | rest => offer s k .all rest
    | .error f =>
      if f.isInterrupted then offer s k .all buf else (s, .done (.wroteAll (.error f)))
  | .copy copied source =>
    match result with
    | .ok [] => (s, .done (.copied (.error .writeZero) source))
    | .ok accepted =>
      let copied := copied + accepted.length
      match buf.drop accepted.length with
      | [] => (s, .goesOn (.looking copied source))
      | rest => offer s k (.copy copied source) rest
    | .error f => (s, .done (.copied (.error f) source))

/-- What follows a write on the connection in use: it is remembered if it was accepted, and the
deadline is set in either case. -/
def afterSending (s : State) (k : TaskId) (goal : Goal) (buf : Bytes)
    (result : Except Fault Bytes) : Turn :=
  match result with
  | .ok accepted =>
    let s := s.push accepted
    let s := (s.setDeadline s.memory.current s.replyDeadline).release
    afterWrite s k buf (.ok accepted) goal
  | .error f =>
    let s := (s.setDeadline s.memory.current s.replyDeadline).release
    (s.note (.writeFailed f), .goesOn (.awaiting goal buf .arriving))

/-! ## The retry -/

/-- Starts the retry: the connection in use is closed and the destination is dialled. -/
def beginRetry (s : State) (len : Nat) (cause : Fault) : Turn :=
  let s := s.note (.retrying s.terms.destination s.memory.hello.length cause)
  let s := { s with memory := { s.memory with retried := true } }
  let (w, refused) := s.world.close s.memory.current
  let s := s.withWorld w
  let s := match refused with
    | some f => s.note (.closeFailed f)
    | none => s
  let (w, dial) := s.world.dial s.terms.destination
  (s.withWorld w, .goesOn (.redialling len dial))

/-- Goes over to the connection that the retry has made, and cuts the hello. -/
def beginReplay (s : State) (len : Nat) (link : LinkId) : Turn :=
  let hello := s.memory.hello.bytes
  let (cut, strategy) := s.memory.strategy.cut hello
  let split := cut.first.length
  let s : State :=
    { s with
      memory := { s.memory with current := link, strategy := strategy, split := some split } }
  (s.note (.replaying split hello.length), .goesOn (.replaying len cut .first cut.first))

/-- Ends the retry with a write of the replay that failed. -/
def failReplay (s : State) (cut : Cut) (piece : Piece) (cause : Fault) : Turn :=
  conclude (s.note (.replayFailed cause))
    (.error (RetryFault.toFault ⟨.replay (piece.before cut), cause⟩))

/-- What follows a write of the replay, of which `rest` was left: the replay goes on with what is
left now, tries again after an interruption, and else has failed. -/
def afterReplayWrite (s : State) (len : Nat) (cut : Cut) (piece : Piece) (rest : Bytes)
    (result : Except Fault Bytes) : Turn :=
  match result with
  | .ok [] => failReplay s cut piece .writeZero
  | .ok accepted => (s, .goesOn (.replaying len cut piece (rest.drop accepted.length)))
  | .error f =>
    if f.isInterrupted then (s, .goesOn (.replaying len cut piece rest))
    else failReplay s cut piece f

/-- Shuts the write half once more if it was asked to be shut, and then waits for the reply. -/
def reshutWrite (s : State) (len : Nat) : Turn :=
  (s, .goesOn (if s.askedShut .write then .reshutting len .write else .answering len))

/-- Shuts the halves once more that were asked to be shut, and then waits for the reply. -/
def afterReplay (s : State) (len : Nat) : Turn :=
  if s.askedShut .read then (s, .goesOn (.reshutting len .read)) else reshutWrite s len

/-! ## Errands -/

/-- Does an errand; the lock is held by the call. -/
def perform (s : State) : Errand → Turn
  | .locate len => (s.release, .goesOn (.reading s.memory.current len))
  | .confirmEnd =>
    if s.memory.retried && !s.isDecided then conclude s (.ok []) else endRead s.release (.ok [])
  | .judge link len result =>
    if s.isDecided then endRead s.release result
    else
      match result with
      | .ok bytes => conclude (s.setDeadline link none) (.ok bytes)
      | .error f =>
        if s.memory.retried then conclude (s.note (.failedAfterRetry f)) (.error f)
        else beginRetry s len f
  | .send goal buf =>
    if s.isDecided then (s.release, .goesOn (.sendingTo s.memory.current goal buf))
    else (s, .goesOn (.sending goal buf))
  | .shut half => (s, .goesOn (.shutting half))

/-! ## Steps -/

/-- Begins a call. An empty write is nothing, in every phase. -/
def begin (s : State) (k : TaskId) : Request → Turn
  | .read len =>
    match s.finalLink? with
    | some link => (s, .goesOn (.bare link (.read len)))
    | none => askLock s k (.locate len)
  | .write [] => (s, .done (.wrote (.ok 0)))
  | .write buf => offer s k .once buf
  | .writeAll [] => (s, .done (.wroteAll (.ok ())))
  | .writeAll buf => offer s k .all buf
  | .copy source => (s, .goesOn (.looking 0 source))
  | .shut half => askLock (s.askShut half) k (.shut half)

/-- What follows a read that was made before the question was settled. -/
def afterReading (s : State) (k : TaskId) (link : LinkId) (len : Nat)
    (result : Except Fault Bytes) : Turn :=
  match result with
  | .ok [] => askLock s k .confirmEnd
  | result => if s.isDecided then endRead s result else askLock s k (.judge link len result)

/-- One step of a call, if it is not blocked. -/
def Call.step (k : TaskId) (s : State) : Call → Option Turn
  | start request => some (begin s k request)
  | queued errand => if s.memory.lock.holder? = some k then some (perform s errand) else none
  | reading link len => do
    let (w, r) ← s.world.read link k len
    some (afterReading (s.withWorld w) k link len r)
  | redialling len dial => do
    let (w, r) ← s.world.dialled dial
    let s := s.withWorld w
    some <| match r with
      | .ok link => beginReplay s len link
      | .error f =>
        conclude (s.note (.redialFailed s.terms.destination f))
          (.error (RetryFault.toFault ⟨.redial s.terms.destination, f⟩))
  | replaying len cut .first [] => some (s, .goesOn (.replaying len cut .second cut.second))
  | replaying len _ .second [] => some (afterReplay s len)
  | replaying len cut piece rest => do
    let (w, r) ← s.world.write s.memory.current (.replay k) rest
    some (afterReplayWrite (s.withWorld w) len cut piece rest r)
  | reshutting len half => do
    let (w, r) ← s.world.shut s.memory.current half
    let s := s.withWorld w
    some <| match r, half with
      | some f, _ => conclude s (.error f)
      | none, .read => reshutWrite s len
      | none, .write => (s, .goesOn (.answering len))
  | answering len => do
    let (w, r) ← s.world.read s.memory.current k len
    some (conclude (s.withWorld w) r)
  | sending goal buf => do
    let (w, r) ← s.world.write s.memory.current (.call k) buf
    some (afterSending (s.withWorld w) k goal buf r)
  | awaiting goal buf waiter => do
    match ← waiter.step s.memory.decision with
    | .waiting waiter => some (s, .goesOn (.awaiting goal buf waiter))
    | .released => some (s, .goesOn (.sendingTo s.finalLink goal buf))
  | sendingTo link goal buf => do
    let (w, r) ← s.world.write link (.call k) buf
    some (afterWrite (s.withWorld w) k buf r goal)
  | looking copied source =>
    some (s, .goesOn (if s.isDecided then .bare s.finalLink (.copy copied source [])
      else .pulling copied source))
  | pulling copied source => do
    let (source, r) ← source.pull s.world.opened s.terms.chunkLen
    some <| match r with
      | .ok [] => (s, .done (.copied (.ok copied) source))
      | .ok piece => offer s k (.copy copied source) piece
      | .error f =>
        if f.isInterrupted then (s, .goesOn (.looking copied source))
        else (s, .done (.copied (.error f) source))
  | shutting half => do
    let (w, r) ← s.world.shut s.memory.current half
    some ((s.withWorld w).release, .done (.shut r.result))
  | bare link call => do
    let (w, p) ← call.step k link s.world
    some (s.withWorld w, match p with
      | .goesOn call => .goesOn (.bare link call)
      | .done outcome => .done outcome)

/-! ## Work -/

/-- A bound for the steps of writing a buffer, interruptions apart. -/
def bufferWork (buf : Bytes) : Nat := 8 * buf.length + 8

/-- A bound for the steps of what a write is part of. -/
def Goal.work : Goal → Nat
  | once => 0
  | all => 0
  | copy _ source => 8 * source.work + 8

/-- A bound for the steps of an errand. The retry of a read is counted with the hello. -/
def Errand.work : Errand → Nat
  | locate _ => 8
  | confirmEnd => 2
  | judge .. => 6
  | send goal buf => goal.work + bufferWork buf
  | shut _ => 2

/-- A bound for the steps of a call. -/
def Call.work : Call → Nat
  | start (.read _) => 12
  | start (.write buf) => bufferWork buf + 2
  | start (.writeAll buf) => bufferWork buf + 2
  | start (.copy source) => 8 * source.work + 12
  | start (.shut _) => 4
  | queued errand => errand.work + 1
  | reading .. => 8
  | redialling .. => 16
  | replaying _ cut piece rest =>
    rest.length + 8 + (match piece with | .first => cut.second.length + 2 | .second => 0)
  | reshutting .. => 4
  | answering _ => 2
  | sending goal buf => goal.work + bufferWork buf
  | awaiting goal buf _ => goal.work + bufferWork buf
  | sendingTo _ goal buf => goal.work + bufferWork buf
  | looking _ source => 8 * source.work + 10
  | pulling _ source => 8 * source.work + 9
  | shutting _ => 1
  | bare _ call => call.work

/-- Calls on a stream. A call that is dropped gives up the lock or its place in the queue. Each
interrupted write uses up an outcome of its script, and the hello is replayed at most once. -/
def behaviour : Behaviour State Call Outcome where
  step k s call := call.step k s
  drop k s := s.withLock (s.memory.lock.forget k)
  effort s calls :=
    calls.foldr (fun call n => call.work + n)
      (8 * World.scriptedWrites s.world.dials s.world.links + 2 * s.memory.hello.length + 32)

end Redial.Stream
