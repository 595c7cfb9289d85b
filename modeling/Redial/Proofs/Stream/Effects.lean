import Mathlib.Tactic.Set
import Redial.Proofs.Wire.Calls
import Redial.Stream.Step

/-!
# What one step of a call does

`Effect` says what a step of a call does to what the calls share, the lock apart, and how the call
goes on; `LockMove` says what it does to the lock. Together they are all that a step can do
(`does_of_step`), so a property of steps is shown by the cases of the two relations.

Most steps only pass: they change nothing but the lock (`Passes`).
-/

namespace Redial.Stream

/-! ## Places at the lock -/

/-- Whether a call at this place has asked for the lock and not yet done its errand. -/
def Call.isQueued : Call → Bool
  | queued _ => true
  | _ => false

/-- Whether a call at this place has nothing to do with the lock. -/
def Call.isApart (c : Call) : Bool := !c.holds && !c.isQueued

/-- Whether a call goes on while it holds the lock. -/
def holdsOn : Progress Call Outcome → Bool
  | .goesOn c => c.holds
  | .done _ => false

/-- Whether a call ends, or goes on with nothing to do with the lock. -/
def partsFrom : Progress Call Outcome → Bool
  | .goesOn c => c.isApart
  | .done _ => true

/-- What a step of a call does to the lock. -/
inductive LockMove (k : TaskId) (l : Lock) (c : Call) : Progress Call Outcome → Lock → Prop where
  /-- The call has nothing to do with the lock. -/
  | apart {p} (hc : c.isApart = true) (hp : partsFrom p = true) : LockMove k l c p l
  /-- The call holds the lock before and after. -/
  | keeps {p} (hc : c.holds = true ∨ l.holder? = some k) (hp : holdsOn p = true) : LockMove k l c p l
  /-- The call asks for the lock. -/
  | asks {e} (hc : c.isApart = true) : LockMove k l c (.goesOn (.queued e)) (l.ask k)
  /-- The call has held the lock and releases it. -/
  | gives {p} (hc : c.holds = true ∨ l.holder? = some k) (hp : partsFrom p = true) :
      LockMove k l c p l.release
  /-- The call has held the lock, releases it and asks for it again. -/
  | asksAgain {e} (hc : c.holds = true) : LockMove k l c (.goesOn (.queued e)) (l.release.ask k)

/-! ## Steps that change nothing but the lock -/

/-- Ways for a call to go on that change nothing but the lock. -/
inductive Passes (k : TaskId) (s : State) : Call → Progress Call Outcome → Prop where
  | beginRead {len} (hd : s.finalLink? = none) :
      Passes k s (.start (.read len)) (.goesOn (.queued (.locate len)))
  | beginBareRead {len link} (hd : s.finalLink? = some link) :
      Passes k s (.start (.read len)) (.goesOn (.bare link (.read len)))
  | emptyWrite : Passes k s (.start (.write [])) (.done (.wrote (.ok 0)))
  | emptyWriteAll : Passes k s (.start (.writeAll [])) (.done (.wroteAll (.ok ())))
  | beginWrite {buf} (hb : buf ≠ []) : Passes k s (.start (.write buf)) (offer s k .once buf).2
  | beginWriteAll {buf} (hb : buf ≠ []) :
      Passes k s (.start (.writeAll buf)) (offer s k .all buf).2
  | beginCopy {source} : Passes k s (.start (.copy source)) (.goesOn (.looking 0 source))
  | locate {len} (hk : s.memory.lock.holder? = some k) :
      Passes k s (.queued (.locate len)) (.goesOn (.reading s.memory.current len))
  | confirmEnd (hk : s.memory.lock.holder? = some k)
      (hs : (s.memory.retried && !s.isDecided) = false) :
      Passes k s (.queued .confirmEnd) (.done (.read (.ok [])))
  | bringLate {link len r} (hk : s.memory.lock.holder? = some k) (hd : s.isDecided = true) :
      Passes k s (.queued (.judge link len r)) (.done (.read r))
  | sendFinal {goal buf} (hk : s.memory.lock.holder? = some k) (hd : s.isDecided = true) :
      Passes k s (.queued (.send goal buf)) (.goesOn (.sendingTo s.memory.current goal buf))
  | beginSending {goal buf} (hk : s.memory.lock.holder? = some k) (hd : s.isDecided = false) :
      Passes k s (.queued (.send goal buf)) (.goesOn (.sending goal buf))
  | beginShutting {half} (hk : s.memory.lock.holder? = some k) :
      Passes k s (.queued (.shut half)) (.goesOn (.shutting half))
  | nextPiece {len cut} :
      Passes k s (.replaying len cut .first []) (.goesOn (.replaying len cut .second cut.second))
  | replayed {len cut} : Passes k s (.replaying len cut .second []) (afterReplay s len).2
  | goOnWaiting {goal buf waiter waiter'}
      (hw : waiter.step s.memory.decision = some (.waiting waiter')) :
      Passes k s (.awaiting goal buf waiter) (.goesOn (.awaiting goal buf waiter'))
  | released {goal buf waiter} (hw : waiter.step s.memory.decision = some .released) :
      Passes k s (.awaiting goal buf waiter) (.goesOn (.sendingTo s.finalLink goal buf))
  | lookOpen {copied source} (hd : s.isDecided = false) :
      Passes k s (.looking copied source) (.goesOn (.pulling copied source))
  | lookDecided {copied source} (hd : s.isDecided = true) :
      Passes k s (.looking copied source) (.goesOn (.bare s.finalLink (.copy copied source [])))
  | pullEnd {copied source source'}
      (hp : source.pull s.world.opened s.terms.chunkLen = some (source', .ok [])) :
      Passes k s (.pulling copied source) (.done (.copied (.ok copied) source'))
  | pullPiece {copied source source' piece}
      (hp : source.pull s.world.opened s.terms.chunkLen = some (source', .ok piece))
      (hb : piece ≠ []) :
      Passes k s (.pulling copied source) (offer s k (.copy copied source') piece).2
  | pullInterrupted {copied source source' f}
      (hp : source.pull s.world.opened s.terms.chunkLen = some (source', .error f))
      (hf : f.isInterrupted = true) :
      Passes k s (.pulling copied source) (.goesOn (.looking copied source'))
  | pullFault {copied source source' f}
      (hp : source.pull s.world.opened s.terms.chunkLen = some (source', .error f))
      (hf : f.isInterrupted = false) :
      Passes k s (.pulling copied source) (.done (.copied (.error f) source'))

/-! ## Steps that change more -/

/-- How a call goes on when its step has been made by a call on a connection. -/
def bareProgress (link : LinkId) : Progress BareCall Outcome → Progress Call Outcome
  | .goesOn call => .goesOn (.bare link call)
  | .done outcome => .done outcome

/-- Whether a write of the replay fails for good, and with what. -/
inductive ReplayFails : Except Fault Bytes → Fault → Prop where
  | stuck : ReplayFails (.ok []) .writeZero
  | fault {f} (hf : f.isInterrupted = false) : ReplayFails (.error f) f

/-- What a step of a call does to what the calls share, the lock apart, and how the call goes
on. -/
inductive Effect (k : TaskId) (s : State) : Call → State → Progress Call Outcome → Prop where
  /-- Nothing but the lock changes. -/
  | passes {c p} (h : Passes k s c p) : Effect k s c s p
  /-- A call asks to shut a half. -/
  | asksShut {half} :
      Effect k s (.start (.shut half)) (s.askShut half) (.goesOn (.queued (.shut half)))
  /-- A read that was begun while the question was open comes to an end. -/
  | reads {link len w r} (hr : s.world.read link k len = some (w, r)) :
      Effect k s (.reading link len) (s.withWorld w) (afterReading s k link len r).2
  /-- The end of the stream settles the question after a retry that was given up. -/
  | settlesAtEnd (hk : s.memory.lock.holder? = some k) (ht : s.memory.retried = true)
      (hd : s.isDecided = false) :
      Effect k s (.queued .confirmEnd) s.settle (.done (.read (.ok [])))
  /-- Bytes settle the question. -/
  | settlesOnBytes {link len bytes} (hk : s.memory.lock.holder? = some k)
      (hd : s.isDecided = false) :
      Effect k s (.queued (.judge link len (.ok bytes))) (s.setDeadline link none).settle
        (.done (.read (.ok bytes)))
  /-- A fault settles the question after a retry that was given up. -/
  | settlesOnFault {link len f} (hk : s.memory.lock.holder? = some k)
      (ht : s.memory.retried = true) (hd : s.isDecided = false) :
      Effect k s (.queued (.judge link len (.error f))) (s.note (.failedAfterRetry f)).settle
        (.done (.read (.error f)))
  /-- A fault starts the retry. -/
  | retries {link len f} (hk : s.memory.lock.holder? = some k) (ht : s.memory.retried = false)
      (hd : s.isDecided = false) :
      Effect k s (.queued (.judge link len (.error f))) (beginRetry s len f).1
        (beginRetry s len f).2
  /-- The dial of the retry succeeds. -/
  | redials {len dial w link} (hr : s.world.dialled dial = some (w, .ok link)) :
      Effect k s (.redialling len dial) (beginReplay (s.withWorld w) len link).1
        (beginReplay (s.withWorld w) len link).2
  /-- The dial of the retry fails. -/
  | redialFails {len dial w f} (hr : s.world.dialled dial = some (w, .error f)) :
      Effect k s (.redialling len dial)
        ((s.withWorld w).note (.redialFailed s.terms.destination f)).settle
        (.done (.read (.error (RetryFault.toFault ⟨.redial s.terms.destination, f⟩))))
  /-- A write of the replay is accepted. -/
  | replays {len cut piece rest w bytes} (hrest : rest ≠ [])
      (hw : s.world.write s.memory.current (.replay k) rest = some (w, .ok bytes))
      (hb : bytes ≠ []) :
      Effect k s (.replaying len cut piece rest) (s.withWorld w)
        (.goesOn (.replaying len cut piece (rest.drop bytes.length)))
  /-- A write of the replay is interrupted. -/
  | replayInterrupted {len cut piece rest w f} (hrest : rest ≠ [])
      (hw : s.world.write s.memory.current (.replay k) rest = some (w, .error f))
      (hf : f.isInterrupted = true) :
      Effect k s (.replaying len cut piece rest) (s.withWorld w)
        (.goesOn (.replaying len cut piece rest))
  /-- A write of the replay fails for good. -/
  | replayFails {len cut piece rest w r f} (hrest : rest ≠ [])
      (hw : s.world.write s.memory.current (.replay k) rest = some (w, r))
      (hf : ReplayFails r f) :
      Effect k s (.replaying len cut piece rest) ((s.withWorld w).note (.replayFailed f)).settle
        (.done (.read (.error (RetryFault.toFault ⟨.replay (Piece.before cut piece), f⟩))))
  /-- The retry has shut the read half once more. -/
  | reshutsRead {len w} (hw : s.world.shut s.memory.current .read = some (w, none)) :
      Effect k s (.reshutting len .read) (s.withWorld w) (reshutWrite s len).2
  /-- The retry has shut the write half once more. -/
  | reshutsWrite {len w} (hw : s.world.shut s.memory.current .write = some (w, none)) :
      Effect k s (.reshutting len .write) (s.withWorld w) (.goesOn (.answering len))
  /-- A half cannot be shut once more. -/
  | reshutFails {len half w f} (hw : s.world.shut s.memory.current half = some (w, some f)) :
      Effect k s (.reshutting len half) (s.withWorld w).settle (.done (.read (.error f)))
  /-- The read of the retry comes to an end. -/
  | answers {len w r} (hr : s.world.read s.memory.current k len = some (w, r)) :
      Effect k s (.answering len) (s.withWorld w).settle (.done (.read r))
  /-- A write on the connection in use is accepted. -/
  | sends {goal buf w bytes}
      (hw : s.world.write s.memory.current (.call k) buf = some (w, .ok bytes)) :
      Effect k s (.sending goal buf)
        (((s.withWorld w).push bytes).setDeadline s.memory.current (s.withWorld w).replyDeadline)
        (afterWrite s k buf (.ok bytes) goal).2
  /-- A write on the connection in use fails. -/
  | sendFails {goal buf w f}
      (hw : s.world.write s.memory.current (.call k) buf = some (w, .error f)) :
      Effect k s (.sending goal buf)
        (((s.withWorld w).setDeadline s.memory.current (s.withWorld w).replyDeadline).note
          (.writeFailed f))
        (.goesOn (.awaiting goal buf .arriving))
  /-- A write on a final connection comes to an end. -/
  | sendsTo {link goal buf w r} (hw : s.world.write link (.call k) buf = some (w, r)) :
      Effect k s (.sendingTo link goal buf) (s.withWorld w) (afterWrite s k buf r goal).2
  /-- A request to shut a half of the connection in use is answered. -/
  | shuts {half w r} (hw : s.world.shut s.memory.current half = some (w, r)) :
      Effect k s (.shutting half) (s.withWorld w) (.done (.shut r.result))
  /-- A call on a final connection makes a step. -/
  | bare {link call w p} (hw : call.step k link s.world = some (w, p)) :
      Effect k s (.bare link call) (s.withWorld w) (bareProgress link p)

/-! ## All that a step can do -/

/-- A turn of a call is one of its effects, together with a move of the lock. -/
def Does (k : TaskId) (s : State) (c : Call) (t : Turn) : Prop :=
  ∃ s₁ l, Effect k s c s₁ t.2 ∧ LockMove k s.memory.lock c t.2 l ∧ t.1 = s₁.withLock l

section Does

variable {k : TaskId} {s : State} {c : Call}

theorem Does.of_passes {p : Progress Call Outcome} {l : Lock} (h : Passes k s c p)
    (hl : LockMove k s.memory.lock c p l) : Does k s c (s.withLock l, p) :=
  ⟨s, l, .passes h, hl, rfl⟩

/-- A turn that leaves everything as it is. -/
theorem Does.of_stays {p : Progress Call Outcome} (h : Passes k s c p)
    (hl : LockMove k s.memory.lock c p s.memory.lock) : Does k s c (s, p) :=
  ⟨s, _, .passes h, hl, rfl⟩

/-- Offering a buffer makes the call write on the final connection, or ask for the lock. -/
theorem offer_cases (s : State) (k : TaskId) (goal : Goal) (buf : Bytes) :
    (∃ link, s.finalLink? = some link ∧
      offer s k goal buf = (s, .goesOn (.sendingTo link goal buf))) ∨
    (s.finalLink? = none ∧ offer s k goal buf =
      (s.withLock (s.memory.lock.ask k), .goesOn (.queued (.send goal buf)))) := by
  unfold offer
  split
  · rename_i link hlink
    exact Or.inl ⟨link, hlink, rfl⟩
  · rename_i hnone
    exact Or.inr ⟨hnone, rfl⟩

theorem offer_goesOn (s : State) (k : TaskId) (goal : Goal) (buf : Bytes) :
    ∃ c, (offer s k goal buf).2 = .goesOn c := by
  rcases offer_cases s k goal buf with ⟨link, -, ho⟩ | ⟨-, ho⟩
  · exact ⟨_, congrArg Prod.snd ho⟩
  · exact ⟨_, congrArg Prod.snd ho⟩

theorem offer_congr {s s' : State} (h : s'.finalLink? = s.finalLink?) (k : TaskId) (goal : Goal)
    (buf : Bytes) : (offer s' k goal buf).2 = (offer s k goal buf).2 := by
  unfold offer
  rw [h]
  split <;> rfl

/-- What follows a write changes nothing but the lock, and that only to ask for it. -/
theorem afterWrite_cases (s : State) (k : TaskId) (buf : Bytes) (r : Except Fault Bytes)
    (goal : Goal) :
    ((afterWrite s k buf r goal).1 = s ∧ partsFrom (afterWrite s k buf r goal).2 = true) ∨
    ∃ e, afterWrite s k buf r goal =
      (s.withLock (s.memory.lock.ask k), .goesOn (.queued e)) := by
  have hoffer : ∀ goal buf, ((offer s k goal buf).1 = s ∧ partsFrom (offer s k goal buf).2 = true) ∨
      ∃ e, offer s k goal buf = (s.withLock (s.memory.lock.ask k), .goesOn (.queued e)) := by
    intro goal buf
    rcases offer_cases s k goal buf with ⟨link, -, ho⟩ | ⟨-, ho⟩
    · rw [ho]
      exact Or.inl ⟨rfl, rfl⟩
    · exact Or.inr ⟨_, ho⟩
  unfold afterWrite
  split
  · exact Or.inl ⟨rfl, rfl⟩
  · split
    · exact Or.inl ⟨rfl, rfl⟩
    · split
      · exact Or.inl ⟨rfl, rfl⟩
      · exact hoffer _ _
    · split
      · exact hoffer _ _
      · exact Or.inl ⟨rfl, rfl⟩
  · split
    · exact Or.inl ⟨rfl, rfl⟩
    · dsimp only
      split
      · exact Or.inl ⟨rfl, rfl⟩
      · exact hoffer _ _
    · exact Or.inl ⟨rfl, rfl⟩

theorem afterWrite_congr {s s' : State} (h : s'.finalLink? = s.finalLink?) (k : TaskId)
    (buf : Bytes) (r : Except Fault Bytes) (goal : Goal) :
    (afterWrite s' k buf r goal).2 = (afterWrite s k buf r goal).2 := by
  cases goal with
  | once => rfl
  | all =>
    unfold afterWrite
    dsimp only
    split
    · rfl
    · split
      · rfl
      · exact offer_congr h ..
    · split
      · exact offer_congr h ..
      · rfl
  | copy copied source =>
    unfold afterWrite
    dsimp only
    split
    · rfl
    · split
      · rfl
      · exact offer_congr h ..
    · rfl

theorem afterReading_of_ne {r : Except Fault Bytes} (hne : r ≠ .ok []) (s : State) (k : TaskId)
    (link : LinkId) (len : Nat) : afterReading s k link len r =
      if s.isDecided then endRead s r else askLock s k (.judge link len r) := by
  unfold afterReading
  split
  · exact absurd rfl hne
  · rfl

/-- Where a call goes on that has written something, or has something to write. -/
inductive Resumes (s : State) : Call → Prop where
  | final {link goal buf} (hd : s.finalLink? = some link) : Resumes s (.sendingTo link goal buf)
  | asks {goal buf} (hd : s.finalLink? = none) : Resumes s (.queued (.send goal buf))
  | looks {copied source} : Resumes s (.looking copied source)

theorem resumes_offer {goal : Goal} {buf : Bytes} {c' : Call}
    (h : (offer s k goal buf).2 = .goesOn c') : Resumes s c' := by
  rcases offer_cases s k goal buf with ⟨link, hd, ho⟩ | ⟨hd, ho⟩
  · rw [ho] at h
    cases h
    exact .final hd
  · rw [ho] at h
    cases h
    exact .asks hd

theorem resumes_afterWrite {buf : Bytes} {r : Except Fault Bytes} {goal : Goal} {c' : Call}
    (h : (afterWrite s k buf r goal).2 = .goesOn c') : Resumes s c' := by
  unfold afterWrite at h
  split at h
  · cases h
  · split at h
    · cases h
    · split at h
      · cases h
      · exact resumes_offer h
    · split at h
      · exact resumes_offer h
      · cases h
  · split at h
    · cases h
    · dsimp only at h
      split at h
      · cases h
        exact .looks
      · exact resumes_offer h
    · cases h

/-- What a read comes to that was begun while the question was open. -/
theorem afterReading_cases (s : State) (k : TaskId) (link : LinkId) (len : Nat)
    (r : Except Fault Bytes) :
    (r = .ok [] ∧ (afterReading s k link len r).2 = .goesOn (.queued .confirmEnd)) ∨
    (r ≠ .ok [] ∧ s.isDecided = true ∧ (afterReading s k link len r).2 = .done (.read r)) ∨
    (r ≠ .ok [] ∧ s.isDecided = false ∧
      (afterReading s k link len r).2 = .goesOn (.queued (.judge link len r))) := by
  by_cases hne : r = .ok []
  · subst hne
    exact Or.inl ⟨rfl, rfl⟩
  · rw [afterReading_of_ne hne]
    cases hd : s.isDecided with
    | true => exact Or.inr (Or.inl ⟨hne, rfl, rfl⟩)
    | false => exact Or.inr (Or.inr ⟨hne, rfl, rfl⟩)

theorem reshutWrite_cases (s : State) (len : Nat) :
    (s.askedShut .write = true ∧ (reshutWrite s len).2 = .goesOn (.reshutting len .write)) ∨
    (s.askedShut .write = false ∧ (reshutWrite s len).2 = .goesOn (.answering len)) := by
  unfold reshutWrite
  cases hw : s.askedShut .write with
  | true => exact Or.inl ⟨rfl, rfl⟩
  | false => exact Or.inr ⟨rfl, rfl⟩

theorem afterReplay_cases (s : State) (len : Nat) :
    (s.askedShut .read = true ∧ (afterReplay s len).2 = .goesOn (.reshutting len .read)) ∨
    (s.askedShut .read = false ∧ (afterReplay s len).2 = (reshutWrite s len).2) := by
  unfold afterReplay
  cases hr : s.askedShut .read with
  | true => exact Or.inl ⟨rfl, rfl⟩
  | false => exact Or.inr ⟨rfl, rfl⟩

theorem afterReplay_goesOn (s : State) (len : Nat) : ∃ c, (afterReplay s len).2 = .goesOn c := by
  rcases afterReplay_cases s len with ⟨-, ha⟩ | ⟨-, ha⟩
  · exact ⟨_, ha⟩
  · rw [ha]
    exact ⟨_, rfl⟩

/-- A single write ends with its result. A write in a loop ends without saying how many bytes the
last write took. -/
theorem afterWrite_done {buf : Bytes} {r : Except Fault Bytes} {goal : Goal} {o : Outcome}
    (h : (afterWrite s k buf r goal).2 = .done o) :
    (goal = .once ∧ o = .wrote (r.map List.length)) ∨ (∃ r', o = .wroteAll r') ∨
      ∃ r' left, o = .copied r' left := by
  have hoffer : ∀ goal buf, (offer s k goal buf).2 ≠ .done o := by
    intro goal buf ho
    obtain ⟨c, hc⟩ := offer_goesOn s k goal buf
    rw [hc] at ho
    cases ho
  unfold afterWrite at h
  split at h
  · cases h
    exact Or.inl ⟨rfl, rfl⟩
  · split at h
    · cases h
      exact Or.inr (Or.inl ⟨_, rfl⟩)
    · split at h
      · cases h
        exact Or.inr (Or.inl ⟨_, rfl⟩)
      · exact absurd h (hoffer _ _)
    · split at h
      · exact absurd h (hoffer _ _)
      · cases h
        exact Or.inr (Or.inl ⟨_, rfl⟩)
  · split at h
    · cases h
      exact Or.inr (Or.inr ⟨_, _, rfl⟩)
    · dsimp only at h
      split at h
      · cases h
      · exact absurd h (hoffer _ _)
    · cases h
      exact Or.inr (Or.inr ⟨_, _, rfl⟩)

theorem does_begin (k : TaskId) (s : State) (request : Request) :
    Does k s (.start request) (begin s k request) := by
  have hoffer : ∀ goal buf, Passes k s (.start request) (offer s k goal buf).2 →
      Does k s (.start request) (offer s k goal buf) := by
    intro goal buf hp
    rcases offer_cases s k goal buf with ⟨link, -, ho⟩ | ⟨-, ho⟩
    · rw [ho] at hp ⊢
      exact .of_stays hp (.apart rfl rfl)
    · rw [ho] at hp ⊢
      exact .of_passes hp (.asks rfl)
  cases request with
  | read len =>
    unfold begin
    dsimp only
    split
    · rename_i link hlink
      exact .of_stays (.beginBareRead hlink) (.apart rfl rfl)
    · rename_i hnone
      exact .of_passes (.beginRead hnone) (.asks rfl)
  | write buf =>
    cases buf with
    | nil => exact .of_stays .emptyWrite (.apart rfl rfl)
    | cons b bs => exact hoffer _ _ (.beginWrite (List.cons_ne_nil b bs))
  | writeAll buf =>
    cases buf with
    | nil => exact .of_stays .emptyWriteAll (.apart rfl rfl)
    | cons b bs => exact hoffer _ _ (.beginWriteAll (List.cons_ne_nil b bs))
  | copy source => exact .of_stays .beginCopy (.apart rfl rfl)
  | shut half =>
    have hlock : (s.askShut half).memory.lock = s.memory.lock := by cases half <;> rfl
    refine ⟨s.askShut half, s.memory.lock.ask k, .asksShut, .asks rfl, ?_⟩
    rw [← hlock]
    rfl

theorem does_perform (hk : s.memory.lock.holder? = some k) (errand : Errand) :
    Does k s (.queued errand) (perform s errand) := by
  have hl : Call.holds (.queued errand) = true ∨ s.memory.lock.holder? = some k := Or.inr hk
  cases errand with
  | locate len => exact .of_passes (.locate hk) (.gives hl rfl)
  | confirmEnd =>
    unfold perform
    dsimp only
    split
    · rename_i hs
      rw [Bool.and_eq_true, Bool.not_eq_true'] at hs
      exact ⟨_, _, .settlesAtEnd hk hs.1 hs.2, .gives hl rfl, rfl⟩
    · rename_i hs
      exact .of_passes (.confirmEnd hk (Bool.not_eq_true _ ▸ hs)) (.gives hl rfl)
  | judge link len r =>
    unfold perform
    dsimp only
    split
    · rename_i hd
      exact .of_passes (.bringLate hk hd) (.gives hl rfl)
    · rename_i hd
      rw [Bool.not_eq_true] at hd
      cases r with
      | ok bytes => exact ⟨_, _, .settlesOnBytes hk hd, .gives hl rfl, rfl⟩
      | error f =>
        dsimp only
        split
        · rename_i ht
          exact ⟨_, _, .settlesOnFault hk ht hd, .gives hl rfl, rfl⟩
        · rename_i ht
          rw [Bool.not_eq_true] at ht
          refine ⟨_, s.memory.lock, .retries hk ht hd, .keeps hl rfl, ?_⟩
          unfold beginRetry
          dsimp only
          split <;> rfl
  | send goal buf =>
    unfold perform
    dsimp only
    split
    · rename_i hd
      exact .of_passes (.sendFinal hk hd) (.gives hl rfl)
    · rename_i hd
      exact .of_stays (.beginSending hk (Bool.not_eq_true _ ▸ hd)) (.keeps hl rfl)
  | shut half => exact .of_stays (.beginShutting hk) (.keeps hl rfl)

theorem does_reading {link : LinkId} {len : Nat} {w : World} {r : Except Fault Bytes}
    (hr : s.world.read link k len = some (w, r)) :
    Does k s (.reading link len) (afterReading (s.withWorld w) k link len r) := by
  have heff := Effect.reads hr
  by_cases hne : r = .ok []
  · subst hne
    exact ⟨_, _, heff, .asks rfl, rfl⟩
  · rw [afterReading_of_ne hne] at heff ⊢
    rw [show (s.withWorld w).isDecided = s.isDecided from rfl]
    by_cases hd : s.isDecided = true
    · rw [if_pos hd] at heff ⊢
      exact ⟨_, _, heff, .apart rfl rfl, rfl⟩
    · rw [if_neg hd] at heff ⊢
      exact ⟨_, _, heff, .asks rfl, rfl⟩

theorem does_sending {goal : Goal} {buf : Bytes} {w : World} {r : Except Fault Bytes}
    (hw : s.world.write s.memory.current (.call k) buf = some (w, r)) :
    Does k s (.sending goal buf) (afterSending (s.withWorld w) k goal buf r) := by
  cases r with
  | error f => exact ⟨_, _, .sendFails hw, .gives (Or.inl rfl) rfl, rfl⟩
  | ok bytes =>
    have heff : Effect k s (.sending goal buf) _ _ := .sends hw
    unfold afterSending
    dsimp only
    set s₁ := ((s.withWorld w).push bytes).setDeadline s.memory.current
      (s.withWorld w).replyDeadline with hs₁
    have hfin : s₁.release.finalLink? = s.finalLink? := rfl
    have hp : (afterWrite s₁.release k buf (.ok bytes) goal).2 =
        (afterWrite s k buf (.ok bytes) goal).2 := afterWrite_congr hfin ..
    rw [← hp] at heff
    rcases afterWrite_cases s₁.release k buf (.ok bytes) goal with ⟨hs, hparts⟩ | ⟨e, ht⟩
    · exact ⟨s₁, s.memory.lock.release, heff, .gives (Or.inl rfl) hparts, hs⟩
    · have ht' : afterWrite s₁.release k buf (.ok bytes) goal =
          (s₁.withLock (s.memory.lock.release.ask k), .goesOn (.queued e)) := ht
      refine ⟨s₁, s.memory.lock.release.ask k, heff, ?_, congrArg Prod.fst ht'⟩
      exact (congrArg Prod.snd ht').symm ▸ .asksAgain rfl

theorem does_sendingTo {link : LinkId} {goal : Goal} {buf : Bytes} {w : World}
    {r : Except Fault Bytes} (hw : s.world.write link (.call k) buf = some (w, r)) :
    Does k s (.sendingTo link goal buf) (afterWrite (s.withWorld w) k buf r goal) := by
  have heff : Effect k s (.sendingTo link goal buf) _ _ := .sendsTo hw
  have hfin : (s.withWorld w).finalLink? = s.finalLink? := rfl
  have hp : (afterWrite (s.withWorld w) k buf r goal).2 = (afterWrite s k buf r goal).2 :=
    afterWrite_congr hfin ..
  rw [← hp] at heff
  rcases afterWrite_cases (s.withWorld w) k buf r goal with ⟨hs, hparts⟩ | ⟨e, ht⟩
  · exact ⟨_, s.memory.lock, heff, .apart rfl hparts, hs⟩
  · refine ⟨_, s.memory.lock.ask k, heff, ?_, congrArg Prod.fst ht⟩
    exact (congrArg Prod.snd ht).symm ▸ .asks rfl

theorem does_afterReplay {len : Nat} {cut : Cut} :
    Does k s (.replaying len cut .second []) (afterReplay s len) := by
  have heff : Passes k s (.replaying len cut .second []) (afterReplay s len).2 := .replayed
  unfold afterReplay reshutWrite at heff ⊢
  split
  · rename_i hr
    rw [if_pos hr] at heff
    exact .of_stays heff (.keeps (Or.inl rfl) rfl)
  · rename_i hr
    rw [if_neg hr] at heff
    refine .of_stays heff (.keeps (Or.inl rfl) ?_)
    show (if s.askedShut .write then Call.reshutting len .write
      else Call.answering len).holds = true
    split <;> rfl

theorem does_replaying {len : Nat} {cut : Cut} {piece : Piece} {rest : Bytes} {w : World}
    {r : Except Fault Bytes} (hrest : rest ≠ [])
    (hw : s.world.write s.memory.current (.replay k) rest = some (w, r)) :
    Does k s (.replaying len cut piece rest)
      (afterReplayWrite (s.withWorld w) len cut piece rest r) := by
  cases r with
  | ok bytes =>
    cases bytes with
    | nil => exact ⟨_, _, .replayFails hrest hw .stuck, .gives (Or.inl rfl) rfl, rfl⟩
    | cons b bs =>
      have heff : Effect k s (.replaying len cut piece rest) _ _ :=
        .replays hrest hw (List.cons_ne_nil b bs)
      exact ⟨_, s.memory.lock, heff, .keeps (Or.inl rfl) rfl, rfl⟩
  | error f =>
    unfold afterReplayWrite
    dsimp only
    split
    · rename_i hf
      exact ⟨_, s.memory.lock, .replayInterrupted hrest hw hf, .keeps (Or.inl rfl) rfl, rfl⟩
    · rename_i hf
      rw [Bool.not_eq_true] at hf
      exact ⟨_, _, .replayFails hrest hw (.fault hf), .gives (Or.inl rfl) rfl, rfl⟩

/-- Effects and moves of the lock are all that a step can do. -/
theorem does_of_step {t : Turn} (h : c.step k s = some t) : Does k s c t := by
  cases c with
  | start request =>
    cases h
    exact does_begin k s request
  | queued errand =>
    unfold Call.step at h
    dsimp only at h
    split at h
    · rename_i hk
      cases h
      exact does_perform hk errand
    · cases h
  | reading link len =>
    obtain ⟨⟨w, r⟩, hr, h⟩ := Option.bind_eq_some_iff.mp h
    cases h
    exact does_reading hr
  | redialling len dial =>
    obtain ⟨⟨w, r⟩, hr, h⟩ := Option.bind_eq_some_iff.mp h
    cases h
    cases r with
    | ok link => exact ⟨_, s.memory.lock, .redials hr, .keeps (Or.inl rfl) rfl, rfl⟩
    | error f => exact ⟨_, _, .redialFails hr, .gives (Or.inl rfl) rfl, rfl⟩
  | replaying len cut piece rest =>
    cases rest with
    | nil =>
      cases piece with
      | first =>
        cases h
        exact .of_stays .nextPiece (.keeps (Or.inl rfl) rfl)
      | second =>
        cases h
        exact does_afterReplay
    | cons b bs =>
      cases piece
      all_goals
        obtain ⟨⟨w, r⟩, hw, h⟩ := Option.bind_eq_some_iff.mp h
        cases h
        exact does_replaying (List.cons_ne_nil b bs) hw
  | reshutting len half =>
    obtain ⟨⟨w, r⟩, hw, h⟩ := Option.bind_eq_some_iff.mp h
    cases h
    cases r with
    | some f => exact ⟨_, _, .reshutFails hw, .gives (Or.inl rfl) rfl, rfl⟩
    | none =>
      cases half with
      | write => exact ⟨_, s.memory.lock, .reshutsWrite hw, .keeps (Or.inl rfl) rfl, rfl⟩
      | read =>
        refine ⟨_, s.memory.lock, .reshutsRead hw, .keeps (Or.inl rfl) ?_, rfl⟩
        unfold reshutWrite
        show (if s.askedShut .write then Call.reshutting len .write
          else Call.answering len).holds = true
        split <;> rfl
  | answering len =>
    obtain ⟨⟨w, r⟩, hr, h⟩ := Option.bind_eq_some_iff.mp h
    cases h
    exact ⟨_, _, .answers hr, .gives (Or.inl rfl) rfl, rfl⟩
  | sending goal buf =>
    obtain ⟨⟨w, r⟩, hw, h⟩ := Option.bind_eq_some_iff.mp h
    cases h
    exact does_sending hw
  | awaiting goal buf waiter =>
    obtain ⟨next, hw, h⟩ := Option.bind_eq_some_iff.mp h
    cases next with
    | waiting waiter' =>
      cases h
      exact .of_stays (.goOnWaiting hw) (.apart rfl rfl)
    | released =>
      cases h
      exact .of_stays (.released hw) (.apart rfl rfl)
  | sendingTo link goal buf =>
    obtain ⟨⟨w, r⟩, hw, h⟩ := Option.bind_eq_some_iff.mp h
    cases h
    exact does_sendingTo hw
  | looking copied source =>
    unfold Call.step at h
    cases h
    split
    · rename_i hd
      exact .of_stays (.lookDecided hd) (.apart rfl rfl)
    · rename_i hd
      exact .of_stays (.lookOpen (Bool.not_eq_true _ ▸ hd)) (.apart rfl rfl)
  | pulling copied source =>
    obtain ⟨⟨source', r⟩, hp, h⟩ := Option.bind_eq_some_iff.mp h
    cases h
    split
    · exact .of_stays (.pullEnd hp) (.apart rfl rfl)
    · rename_i piece hne
      have heff : Passes k s (.pulling copied source)
          (offer s k (.copy copied source') piece).2 := .pullPiece hp hne
      rcases offer_cases s k (.copy copied source') piece with ⟨link, -, ho⟩ | ⟨-, ho⟩
      · rw [ho] at heff ⊢
        exact .of_stays heff (.apart rfl rfl)
      · rw [ho] at heff ⊢
        exact .of_passes heff (.asks rfl)
    · rename_i f
      split
      · rename_i hf
        exact .of_stays (.pullInterrupted hp hf) (.apart rfl rfl)
      · rename_i hf
        exact .of_stays (.pullFault hp (Bool.not_eq_true _ ▸ hf)) (.apart rfl rfl)
  | shutting half =>
    obtain ⟨⟨w, r⟩, hw, h⟩ := Option.bind_eq_some_iff.mp h
    cases h
    exact ⟨_, _, .shuts hw, .gives (Or.inl rfl) rfl, rfl⟩
  | bare link call =>
    obtain ⟨⟨w, p⟩, hw, h⟩ := Option.bind_eq_some_iff.mp h
    cases h
    have heff : Effect k s (.bare link call) (s.withWorld w) (bareProgress link p) := .bare hw
    cases p with
    | goesOn call' => exact ⟨_, s.memory.lock, heff, .apart rfl rfl, rfl⟩
    | done outcome => exact ⟨_, s.memory.lock, heff, .apart rfl rfl, rfl⟩

end Does

end Redial.Stream
