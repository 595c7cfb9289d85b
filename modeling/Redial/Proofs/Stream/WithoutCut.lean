import Redial.Proofs.Stream.Phases
import Redial.Proofs.Wire.Seamless

/-!
# Streams without the cut

What a stream looks like to someone who does not know how the hello is cut: the strategy and the
place of the cut are left out, and the writes of the replay have no seams (`State.withoutCut`). A
step of a call does the same to the stream that it sees, unless it goes over to the second
connection or is a step of the replay (`Call.step_withoutCut`).
-/

namespace Redial

namespace Latch

variable {α β : Type}

/-- The latch with another value, if it is set. -/
def map (f : α → β) (l : Latch α) : Latch β := ⟨l.value.map f, l.bell⟩

@[simp] theorem isSet_map (f : α → β) (l : Latch α) : (l.map f).isSet = l.isSet := by
  unfold map isSet
  exact Option.isSome_map

theorem set_map (f : α → β) (l : Latch α) (a : α) : (l.map f).set (f a) = (l.set a).map f := by
  obtain ⟨value, bell⟩ := l
  cases value <;> rfl

end Latch

theorem Waiter.step_map {α β : Type} (f : α → β) (l : Latch α) (w : Waiter) :
    w.step (l.map f) = w.step l := by
  cases w with
  | arriving =>
    unfold step
    dsimp only
    rw [Latch.isSet_map]
    rfl
  | asleep listener => rfl

namespace Stream

/-! ## What is left out -/

/-- What happened before the question was settled, but for the place of the cut. -/
def Stats.withoutSplit (s : Stats) : Stats := { s with split := none }

/-- How the question was settled, but for the place of the cut. -/
def Decision.withoutSplit (d : Decision) : Decision := { d with stats := d.stats.withoutSplit }

/-- What a stream remembers, but for the cut. -/
def Memory.withoutCut (m : Memory) : Memory :=
  { m with
    split := none
    strategy := .scripted ⟨0, [], []⟩
    decision := m.decision.map Decision.withoutSplit }

/-- What a stream looks like to someone who does not know how the hello is cut. -/
def State.withoutCut (s : State) : State where
  terms := s.terms
  memory := s.memory.withoutCut
  world := s.world.seamless secondLink

/-- What a step comes to, but for the cut. -/
def Turn.withoutCut (t : Turn) : Turn := (t.1.withoutCut, t.2)

namespace State

variable {s : State} {k : TaskId}

@[simp] theorem isDecided_withoutCut (s : State) : s.withoutCut.isDecided = s.isDecided :=
  Latch.isSet_map _ _

@[simp] theorem finalLink?_withoutCut (s : State) : s.withoutCut.finalLink? = s.finalLink? := by
  show (s.memory.decision.value.map _).map _ = s.memory.decision.value.map _
  rw [Option.map_map]
  rfl

@[simp] theorem finalLink_withoutCut (s : State) : s.withoutCut.finalLink = s.finalLink := by
  unfold finalLink
  rw [finalLink?_withoutCut]
  rfl

theorem stats?_withoutCut (s : State) : s.withoutCut.stats? = s.stats?.map Stats.withoutSplit := by
  show (s.memory.decision.value.map _).map _ = (s.memory.decision.value.map _).map _
  rw [Option.map_map, Option.map_map]
  rfl

theorem note_withoutCut (s : State) {n : Notice} (hn : n.withoutSplit = n) :
    s.withoutCut.note n = (s.note n).withoutCut := by
  show State.mk _ _ _ = State.mk _ _ _
  have henter : (s.world.seamless secondLink).enter (.noticed n) =
      (s.world.enter (.noticed n)).seamless secondLink := by
    refine World.enter_seamless _ ?_
    show [(⟨_, .noticed n.withoutSplit⟩ : Entered)] = _
    rw [hn]
  exact congrArg (State.mk s.terms s.memory.withoutCut) henter

theorem setDeadline_withoutCut (s : State) (link : LinkId) (deadline : Option Instant) :
    s.withoutCut.setDeadline link deadline = (s.setDeadline link deadline).withoutCut :=
  congrArg (State.mk s.terms s.memory.withoutCut)
    (World.setDeadline_seamless s.world link deadline)

theorem settle_withoutCut (s : State) : s.withoutCut.settle = s.settle.withoutCut := by
  have hset : s.memory.withoutCut.decision.set ⟨s.memory.current, s.withoutCut.statsNow⟩ =
      (s.memory.decision.set ⟨s.memory.current, s.statsNow⟩).map Decision.withoutSplit :=
    Latch.set_map Decision.withoutSplit s.memory.decision ⟨s.memory.current, s.statsNow⟩
  unfold settle
  rw [← note_withoutCut _ rfl]
  refine congrArg (fun s => State.note s _) ?_
  show State.mk _ _ _ = State.mk _ _ _
  unfold Memory.withoutCut
  rw [← hset]
  rfl

end State

section Steps

variable {k : TaskId} {s : State}

theorem conclude_withoutCut (s : State) (r : Except Fault Bytes) :
    conclude s.withoutCut r = (conclude s r).withoutCut := by
  unfold conclude
  rw [State.settle_withoutCut]
  rfl

theorem offer_withoutCut (s : State) (k : TaskId) (goal : Goal) (buf : Bytes) :
    offer s.withoutCut k goal buf = (offer s k goal buf).withoutCut := by
  unfold offer
  rw [State.finalLink?_withoutCut]
  split <;> rfl

theorem afterWrite_withoutCut (s : State) (k : TaskId) (buf : Bytes) (r : Except Fault Bytes)
    (goal : Goal) :
    afterWrite s.withoutCut k buf r goal = (afterWrite s k buf r goal).withoutCut := by
  unfold afterWrite
  split
  · rfl
  · split
    · rfl
    · split
      · rfl
      · exact offer_withoutCut _ _ _ _
    · split
      · exact offer_withoutCut _ _ _ _
      · rfl
  · split
    · rfl
    · dsimp only
      split
      · rfl
      · exact offer_withoutCut _ _ _ _
    · rfl

theorem afterSending_withoutCut (s : State) (k : TaskId) (goal : Goal) (buf : Bytes)
    (r : Except Fault Bytes) :
    afterSending s.withoutCut k goal buf r = (afterSending s k goal buf r).withoutCut := by
  cases r with
  | ok bytes =>
    unfold afterSending
    dsimp only
    rw [← afterWrite_withoutCut]
    have hsame := State.setDeadline_withoutCut (s.push bytes) s.memory.current s.replyDeadline
    exact congrArg (fun s => afterWrite (State.release s) k buf (.ok bytes) goal) hsame
  | error f =>
    have hsame := State.setDeadline_withoutCut s s.memory.current s.replyDeadline
    have hnote : (s.setDeadline s.memory.current s.replyDeadline).withoutCut.release.note
          (.writeFailed f) =
        ((s.setDeadline s.memory.current s.replyDeadline).release.note
          (.writeFailed f)).withoutCut :=
      State.note_withoutCut (s.setDeadline s.memory.current s.replyDeadline).release
        (n := .writeFailed f) rfl
    have hall := (congrArg (fun s => (State.release s).note (.writeFailed f)) hsame).trans hnote
    exact congrArg (fun s => (s, Progress.goesOn (Call.awaiting goal buf .arriving))) hall

theorem retryWorld_withoutCut (s : State) (l : Link) (cause : Fault) :
    retryWorld s.withoutCut l cause = (retryWorld s l cause).seamless secondLink := by
  have hentries : (retryEntries s l cause).seamless secondLink = retryEntries s l cause := by
    unfold retryEntries closingEntries
    cases l.close.2 <;> rfl
  unfold retryWorld World.seamless
  dsimp only
  rw [Journal.seamless_append, hentries]
  rfl

theorem beginRetry_withoutCut (hs : s.Sound) (len : Nat) (cause : Fault) :
    beginRetry s.withoutCut len cause = (beginRetry s len cause).withoutCut := by
  obtain ⟨l, hl⟩ := hs.current_isSome
  have hl' : s.withoutCut.world.link? s.withoutCut.memory.current = some l := hl
  rw [beginRetry_eq hl, beginRetry_eq hl', retryWorld_withoutCut]
  rfl

theorem afterReplay_withoutCut (s : State) (len : Nat) :
    afterReplay s.withoutCut len = (afterReplay s len).withoutCut := by
  show (if s.askedShut .read then _ else _) = Turn.withoutCut (if s.askedShut .read then _ else _)
  split <;> rfl

theorem perform_withoutCut (hs : s.Sound) (errand : Errand) :
    perform s.withoutCut errand = (perform s errand).withoutCut := by
  cases errand with
  | locate len => rfl
  | confirmEnd =>
    unfold perform
    dsimp only
    rw [State.isDecided_withoutCut]
    show (if (s.memory.retried && !s.isDecided) = true then _ else _) =
      Turn.withoutCut (if (s.memory.retried && !s.isDecided) = true then _ else _)
    split
    · exact conclude_withoutCut s _
    · rfl
  | judge link len r =>
    unfold perform
    dsimp only
    rw [State.isDecided_withoutCut]
    split
    · rfl
    · cases r with
      | ok bytes =>
        dsimp only
        rw [State.setDeadline_withoutCut, conclude_withoutCut]
      | error f =>
        show (if s.memory.retried = true then _ else _) =
          Turn.withoutCut (if s.memory.retried = true then _ else _)
        split
        · rw [State.note_withoutCut s rfl, conclude_withoutCut]
        · exact beginRetry_withoutCut hs len f
  | send goal buf =>
    unfold perform
    dsimp only
    rw [State.isDecided_withoutCut]
    split <;> rfl
  | shut half => rfl

theorem begin_withoutCut (s : State) (k : TaskId) (request : Request) :
    begin s.withoutCut k request = (begin s k request).withoutCut := by
  cases request with
  | read len =>
    unfold begin
    dsimp only
    rw [State.finalLink?_withoutCut]
    split <;> rfl
  | write buf =>
    cases buf with
    | nil => rfl
    | cons b bs => exact offer_withoutCut s k _ _
  | writeAll buf =>
    cases buf with
    | nil => rfl
    | cons b bs => exact offer_withoutCut s k _ _
  | copy source => rfl
  | shut half => cases half <;> rfl

theorem afterReading_withoutCut (s : State) (k : TaskId) (link : LinkId) (len : Nat)
    (r : Except Fault Bytes) :
    afterReading s.withoutCut k link len r = (afterReading s k link len r).withoutCut := by
  unfold afterReading
  split
  · rfl
  · rw [State.isDecided_withoutCut]
    split <;> rfl

/-! ## One step -/

/-- Whether a call is at a place of the replay. -/
def Call.isInReplay : Call → Bool
  | replaying .. => true
  | _ => false

/-- What follows a call on the world does the same when the cut is left out, if the call does. -/
theorem bind_withoutCut {α : Type} {o o' : Option (World × α)} {f f' : World × α → Option Turn}
    (ho : o' = o.map fun t => (t.1.seamless secondLink, t.2))
    (hf : ∀ w r, o = some (w, r) →
      f' (w.seamless secondLink, r) = (f (w, r)).map Turn.withoutCut) :
    o'.bind f' = (o.bind f).map Turn.withoutCut := by
  rw [ho]
  cases o with
  | none => rfl
  | some t => exact hf t.1 t.2 rfl

/-- A step does the same to what is left when the cut is left out, unless the call goes over to the
second connection or replays the hello. -/
theorem Call.step_withoutCut (hs : s.Sound) {c : Call} (hc : c.isInReplay = false)
    (hdial : ∀ len dial, c = .redialling len dial → ∀ w link,
      s.world.dialled dial ≠ some (w, .ok link)) :
    c.step k s.withoutCut = (c.step k s).map Turn.withoutCut := by
  cases c with
  | start request => exact congrArg some (begin_withoutCut s k request)
  | queued errand =>
    show (if s.memory.lock.holder? = some k then _ else _) =
      Option.map _ (if s.memory.lock.holder? = some k then _ else _)
    split
    · exact congrArg some (perform_withoutCut hs errand)
    · rfl
  | reading link len =>
    refine bind_withoutCut (World.read_seamless s.world link k len) fun w r _ => ?_
    exact congrArg some (afterReading_withoutCut (s.withWorld w) k link len r)
  | redialling len dial =>
    refine bind_withoutCut (World.dialled_seamless s.world dial) fun w r hd => ?_
    cases r with
    | ok link => exact absurd hd (hdial len dial rfl w link)
    | error f =>
      have hnote : (s.withWorld w).withoutCut.note (.redialFailed s.terms.destination f) =
          ((s.withWorld w).note (.redialFailed s.terms.destination f)).withoutCut :=
        State.note_withoutCut _ rfl
      have hall := (congrArg (conclude · (.error (RetryFault.toFault
        ⟨.redial s.terms.destination, f⟩))) hnote).trans (conclude_withoutCut _ _)
      exact congrArg some hall
  | replaying => cases hc
  | reshutting len half =>
    refine bind_withoutCut (World.shut_seamless s.world s.memory.current half) fun w r _ => ?_
    cases r with
    | some f => exact congrArg some (conclude_withoutCut (s.withWorld w) _)
    | none => cases half <;> rfl
  | answering len =>
    refine bind_withoutCut (World.read_seamless s.world s.memory.current k len) fun w r _ => ?_
    exact congrArg some (conclude_withoutCut (s.withWorld w) r)
  | sending goal buf =>
    refine bind_withoutCut (World.write_seamless s.world s.memory.current k buf) fun w r _ => ?_
    exact congrArg some (afterSending_withoutCut (s.withWorld w) k goal buf r)
  | awaiting goal buf waiter =>
    unfold Call.step
    show (waiter.step (s.memory.decision.map _)).bind _ =
      Option.map _ ((waiter.step s.memory.decision).bind _)
    rw [Waiter.step_map]
    cases waiter.step s.memory.decision with
    | none => rfl
    | some next =>
      cases next with
      | waiting waiter' => rfl
      | released =>
        show some (_, Progress.goesOn (Call.sendingTo s.withoutCut.finalLink goal buf)) = _
        rw [State.finalLink_withoutCut]
        rfl
  | sendingTo link goal buf =>
    refine bind_withoutCut (World.write_seamless s.world link k buf) fun w r _ => ?_
    exact congrArg some (afterWrite_withoutCut (s.withWorld w) k buf r goal)
  | looking copied source =>
    unfold Call.step
    rw [State.isDecided_withoutCut, State.finalLink_withoutCut]
    rfl
  | pulling copied source =>
    unfold Call.step
    show (source.pull s.world.opened s.terms.chunkLen).bind _ =
      Option.map _ ((source.pull s.world.opened s.terms.chunkLen).bind _)
    cases source.pull s.world.opened s.terms.chunkLen with
    | none => rfl
    | some t =>
      obtain ⟨source', r⟩ := t
      refine congrArg some ?_
      cases r with
      | ok piece =>
        cases piece with
        | nil => rfl
        | cons b bs => exact offer_withoutCut s k _ _
      | error f =>
        dsimp only
        split <;> rfl
  | shutting half =>
    exact bind_withoutCut (World.shut_seamless s.world s.memory.current half) fun _ _ _ => rfl
  | bare link call =>
    exact bind_withoutCut (BareCall.step_seamless k link s.world call) fun _ _ _ => rfl

end Steps

end Stream

end Redial
