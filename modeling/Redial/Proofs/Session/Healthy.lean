import Redial.Proofs.Delivery.Inbound
import Redial.Proofs.Progress.Blocked
import Redial.Proofs.Progress.Overdue
import Redial.Proofs.Stream.Effort
import Redial.Proofs.Stream.Events
import Redial.Proofs.Wire.Undated
import Redial.Session.BareSession

/-!
# Sessions on a healthy connection

As long as no read and no write of the first connection fails before the question is settled, a
stream whose calls are made one after the other is the bare connection. `Mirrors` is the relation
between the two machines. While the stream looks up its connection, asks for the lock or remembers
what was written, the bare connection stays where it is; it is ahead of the stream only when a read
has its result and the question is about to be settled (`Call.Holds`). Each step of the stream keeps
the relation (`Mirrors.step`), and the two come to rest together (`Mirrors.settle`).
-/

namespace Redial

/-- Whether a request is made of a connection at all times: a read, a write of something, writing
all, or a request to shut a half. -/
def Request.isDirect : Request → Bool
  | read _ => true
  | write buf => !buf.isEmpty
  | writeAll _ => true
  | copy _ => false
  | shut _ => true

/-! ## Healthy journals -/

/-- Whether a read or a write of a connection failed. -/
def Event.isFaultOf (link : LinkId) : Event → Bool
  | readFailed l _ _ => l = link
  | writeFailed l _ _ _ => l = link
  | _ => false

namespace Journal

/-- No read and no write of the first connection failed before the question was settled. -/
def Healthy : Journal → Prop
  | [] => True
  | e :: j => (e.event.isFaultOf Stream.firstLink = true → 0 < settlements j) ∧ Healthy j

theorem Healthy.of_append {es j : Journal} (h : Healthy (es ++ j)) : j.Healthy := by
  induction es with
  | nil => exact h
  | cons e es ih => exact ih h.2

theorem Healthy.of_suffix {j j' : Journal} (h : j'.Healthy) (hj : j <:+ j') : j.Healthy := by
  obtain ⟨es, rfl⟩ := hj
  exact Healthy.of_append h

instance : ∀ j : Journal, Decidable j.Healthy
  | [] => .isTrue trivial
  | e :: j =>
    have : Decidable (Healthy j) := instDecidableHealthy j
    inferInstanceAs (Decidable ((e.event.isFaultOf Stream.firstLink = true → 0 < settlements j) ∧
      Healthy j))

theorem Healthy.of_enters {P : Event → Prop} {w w' : World} (h : w'.journal.Healthy)
    (hw : w.Enters P w') : w.journal.Healthy := by
  obtain ⟨es, hes, -⟩ := hw
  rw [hes] at h
  exact h.of_append

/-- No fault is met while the question is open. -/
theorem Healthy.not_fault {j : Journal} {e : Entered} (h : Healthy (e :: j))
    (hj : j.settlements = 0) : e.event.isFaultOf Stream.firstLink = false := by
  rw [← Bool.not_eq_true]
  intro he
  have hpos := h.1 he
  rw [hj] at hpos
  exact Nat.lt_irrefl 0 hpos

end Journal

/-! ## Calls of the stream and calls on the connection -/

/-- A call on a connection takes some steps that do not end it, or ends with the last one. -/
inductive BareCall.Comes (k : TaskId) (i : LinkId) :
    World → BareCall → World → Progress BareCall Outcome → Prop where
  | stays {w c} : Comes k i w c w (.goesOn c)
  | ends {w c w' o} (h : c.step k i w = some (w', .done o)) : Comes k i w c w' (.done o)
  | steps {w c w₁ c₁ w' p} (h : c.step k i w = some (w₁, .goesOn c₁))
      (hr : Comes k i w₁ c₁ w' p) : Comes k i w c w' p

theorem BareCall.Comes.runs {k : TaskId} {i : LinkId} {w w' : World} {c : BareCall}
    {p : Progress BareCall Outcome} (h : BareCall.Comes k i w c w' p)
    (finished : List (TaskId × Outcome)) :
    (Machine.single k finished w (.goesOn c)).Runs (BareCall.behaviour i)
      (Machine.single k finished w' p) := by
  induction h with
  | stays => exact .refl
  | ends h => exact .single ⟨k, Machine.step_single (b := BareCall.behaviour i) h finished⟩
  | steps h _ ih => exact .head ⟨k, Machine.step_single (b := BareCall.behaviour i) h finished⟩ ih

namespace Stream

/-- The call on a connection that a write is part of. -/
inductive Goal.Shows : Goal → Bytes → BareCall → Prop where
  | once {buf} : Shows .once buf (.write buf)
  | all {buf} (hb : buf ≠ []) : Shows .all buf (.writeAll buf)

/-- Where a call on a bare connection is while the same call on a stream is at its place; `decided`
says whether the question is settled. -/
inductive Call.Shows (decided : Bool) : Call → BareCall → Prop where
  | startRead {len} : Shows decided (.start (.read len)) (.read len)
  | startWrite {buf} (hb : buf ≠ []) : Shows decided (.start (.write buf)) (.write buf)
  | startWriteAll {buf} : Shows decided (.start (.writeAll buf)) (.writeAll buf)
  | startShut {half} : Shows decided (.start (.shut half)) (.shut half)
  | locate {len} (hd : decided = false) : Shows decided (.queued (.locate len)) (.read len)
  | reading {len} (hd : decided = false) : Shows decided (.reading firstLink len) (.read len)
  | bareRead {len} (hd : decided = true) : Shows decided (.bare firstLink (.read len)) (.read len)
  | send {goal buf c} (hd : decided = false) (hg : goal.Shows buf c) :
      Shows decided (.queued (.send goal buf)) c
  | sending {goal buf c} (hd : decided = false) (hg : goal.Shows buf c) :
      Shows decided (.sending goal buf) c
  | sendingTo {goal buf c} (hd : decided = true) (hg : goal.Shows buf c) :
      Shows decided (.sendingTo firstLink goal buf) c
  | shut {half} : Shows decided (.queued (.shut half)) (.shut half)
  | shutting {half} : Shows decided (.shutting half) (.shut half)

/-- A read has its result, and is about to end with it. -/
inductive Call.Holds (decided : Bool) : Call → Outcome → Prop where
  | end : Holds decided (.queued .confirmEnd) (.read (.ok []))
  | bytes {len bytes} (hd : decided = false) :
      Holds decided (.queued (.judge firstLink len (.ok bytes))) (.read (.ok bytes))

/-- How a call on a bare connection goes on while the same call on a stream goes on. -/
inductive Shows (decided : Bool) : Progress Call Outcome → Progress BareCall Outcome → Prop where
  | goesOn {c d} (h : c.Shows decided d) : Shows decided (.goesOn c) (.goesOn d)
  | ahead {c o} (h : c.Holds decided o) : Shows decided (.goesOn c) (.done o)
  | done {o} : Shows decided (.done o) (.done o)

/-- A stream that has met no fault, and the bare connection. -/
structure State.Mirrors (s : State) (v : World) : Prop where
  world : s.world.Mirrors v
  unretried : s.memory.retried = false
  undated : s.isDecided = true → s.world.deadline? firstLink = none

section Steps

variable {k : TaskId} {s s₁ : State} {v : World} {c : Call} {d : BareCall}
  {p : Progress Call Outcome}

theorem State.Mirrors.withWorld (h : s.Mirrors v) {w v' : World} (hw : w.Mirrors v')
    (hd : s.world.SameDeadlines w) : (s.withWorld w).Mirrors v' where
  world := hw
  unretried := h.unretried
  undated := by
    intro hdecided
    exact (hd firstLink).trans (h.undated hdecided)

theorem State.Mirrors.withLock (h : s.Mirrors v) (l : Lock) : (s.withLock l).Mirrors v :=
  ⟨h.world, h.unretried, h.undated⟩

theorem State.Mirrors.change (h : s.Mirrors v) (action : Session.Action) :
    (s.withWorld (action.change s.world)).Mirrors (action.change v) := by
  refine h.withWorld (h.world.change action) ?_
  cases action with
  | feed i more => exact .feed s.world i more
  | _ => exact .of_links rfl

/-! ## Writes -/

theorem shows_offer (hs : s.Sound) (hcur : s.memory.current = firstLink) {goal : Goal}
    {buf : Bytes} (hg : goal.Shows buf d) :
    Shows s.isDecided (offer s k goal buf).2 (.goesOn d) := by
  rcases offer_cases s k goal buf with ⟨link, hl, ho⟩ | ⟨hl, ho⟩
  · rw [ho, (hs.final link hl).trans hcur]
    exact .goesOn (.sendingTo (State.isDecided_iff.mpr ⟨link, hl⟩) hg)
  · rw [ho]
    exact .goesOn (.send (State.isDecided_eq_false_iff.mpr hl) hg)

/-- What follows a write is the same on the bare connection. -/
theorem shows_afterWrite (hs : s.Sound) (hcur : s.memory.current = firstLink) {goal : Goal}
    {buf : Bytes} (hg : goal.Shows buf d) {w : World} {r : Except Fault Bytes}
    (hw : w.write firstLink (.call k) buf = some (v, r)) :
    ∃ q, BareCall.Comes k firstLink w d v q ∧
      Shows s.isDecided (afterWrite s k buf r goal).2 q := by
  cases hg with
  | once =>
    refine ⟨.done (.wrote (r.map List.length)), .ends ?_, .done⟩
    rw [BareCall.step_write, hw]
    rfl
  | all hb =>
    have hstep : (BareCall.writeAll buf).step k firstLink w = some (v, BareCall.afterWrite buf r
        (fun _ rest => .writeAll rest) fun f => .wroteAll (.error f)) := by
      rw [BareCall.step_writeAll _ _ _ hb, hw]
      rfl
    unfold afterWrite
    dsimp only
    cases r with
    | ok bytes =>
      cases bytes with
      | nil => exact ⟨_, .ends hstep, .done⟩
      | cons b bs =>
        change _ =
          some (v, Progress.goesOn (BareCall.writeAll (buf.drop (b :: bs).length))) at hstep
        dsimp only
        cases hrest : buf.drop (b :: bs).length with
        | nil =>
          rw [hrest] at hstep
          -- The bare connection takes one more step to see that nothing is left.
          exact ⟨_, .steps hstep (.ends rfl), .done⟩
        | cons x xs =>
          rw [hrest] at hstep
          exact ⟨_, .steps hstep .stays, shows_offer hs hcur (.all (List.cons_ne_nil x xs))⟩
    | error f =>
      change _ = some (v, if f.isInterrupted then Progress.goesOn (BareCall.writeAll buf)
        else Progress.done (Outcome.wroteAll (.error f))) at hstep
      dsimp only
      cases hf : f.isInterrupted with
      | true =>
        rw [hf] at hstep
        exact ⟨_, .steps hstep .stays, shows_offer hs hcur (.all hb)⟩
      | false =>
        rw [hf] at hstep
        exact ⟨_, .ends hstep, .done⟩

/-! ## Calls on both connections -/

theorem State.Mirrors.reads (h : s.Mirrors v) {len : Nat} {w : World} {r : Except Fault Bytes}
    (hr : s.world.read firstLink k len = some (w, r))
    (hdue : s.isDecided = true ∨ ∃ bytes, r = .ok bytes) :
    ∃ v', BareCall.Comes k firstLink v (.read len) v' (.done (.read r)) ∧
      (s.withWorld w).Mirrors v' := by
  obtain ⟨v', hv, hmirrors⟩ := h.world.read hr (hdue.imp_left h.undated)
  refine ⟨v', .ends ?_, h.withWorld hmirrors (.read hr)⟩
  rw [BareCall.step_read, hv]
  rfl

theorem State.Mirrors.shuts (h : s.Mirrors v) {half : Half} {w : World} {r : ShutAnswer}
    (hr : s.world.shut firstLink half = some (w, r)) :
    ∃ v', BareCall.Comes k firstLink v (.shut half) v' (.done (.shut r.result)) ∧
      (s.withWorld w).Mirrors v' := by
  obtain ⟨v', hv, hmirrors⟩ := h.world.shut hr
  refine ⟨v', .ends ?_, h.withWorld hmirrors (.shut hr)⟩
  rw [BareCall.step_shut, hv]
  rfl

/-- A write that is accepted while the question is open arms the deadline of the connection. -/
theorem State.Mirrors.sends (h : s.Mirrors v) (hd : s.isDecided = false) {w v' : World}
    (hw : w.Mirrors v') (bytes : Bytes) (deadline : Option Instant) :
    (((s.withWorld w).push bytes).setDeadline firstLink deadline).Mirrors v' where
  world := hw.setDeadline deadline
  unretried := h.unretried
  undated := by
    intro hdecided
    exact absurd (hd.symm.trans hdecided) Bool.false_ne_true

/-! ## One step -/

/-- A read of a stream that has met no fault meets none while the question is open. -/
theorem read_ok_of_healthy (hq : s.Questioned) (hd : s.isDecided = false) {len : Nat} {w : World}
    {r : Except Fault Bytes} (hr : s.world.read firstLink k len = some (w, r))
    (hh : w.journal.Healthy) : ∃ bytes, r = .ok bytes := by
  cases r with
  | ok bytes => exact ⟨bytes, rfl⟩
  | error f =>
    obtain ⟨l, l', -, -, rfl⟩ := World.read_eq_some hr
    have hopen : s.world.journal.settlements = 0 := by
      rw [hq.settlements, hd]
      rfl
    have hfault := Journal.Healthy.not_fault hh hopen
    cases hfault

/-- Neither does a write. -/
theorem not_writeFailed_of_healthy (hq : s.Questioned) (hd : s.isDecided = false)
    {purpose : Purpose} {buf : Bytes} {w : World} {f : Fault}
    (hw : s.world.write firstLink purpose buf = some (w, .error f)) : ¬w.journal.Healthy := by
  intro hh
  obtain ⟨l, l', -, -, rfl⟩ := World.write_eq_some hw
  have hopen : s.world.journal.settlements = 0 := by
    rw [hq.settlements, hd]
    rfl
  have hfault := Journal.Healthy.not_fault hh hopen
  cases hfault

/-- A step of a call of the stream is followed by the same call on the bare connection. -/
theorem Effect.shows (h : Effect k s c s₁ p) (hs : s.Sound) (hq : s.Questioned) (hm : s.Mirrors v)
    (hc : c.Shows s.isDecided d) (hh : s₁.world.journal.Healthy) :
    ∃ v' q, BareCall.Comes k firstLink v d v' q ∧ s₁.Mirrors v' ∧ Shows s₁.isDecided p q := by
  have hcur := hs.current_eq_first hm.unretried
  cases hc with
  | startRead =>
    cases h with
    | passes h =>
      cases h with
      | beginRead hd =>
        exact ⟨v, _, .stays, hm, .goesOn (.locate (State.isDecided_eq_false_iff.mpr hd))⟩
      | @beginBareRead len link hd =>
        cases (hs.final link hd).trans hcur
        exact ⟨v, _, .stays, hm, .goesOn (.bareRead (State.isDecided_iff.mpr ⟨_, hd⟩))⟩
  | startWrite hb =>
    cases h with
    | passes h =>
      cases h with
      | emptyWrite => exact absurd rfl hb
      | beginWrite => exact ⟨v, _, .stays, hm, shows_offer hs hcur .once⟩
  | startWriteAll =>
    cases h with
    | passes h =>
      cases h with
      | emptyWriteAll => exact ⟨v, _, .ends rfl, hm, .done⟩
      | beginWriteAll hb => exact ⟨v, _, .stays, hm, shows_offer hs hcur (.all hb)⟩
  | @startShut half =>
    cases h with
    | passes h => cases h
    | asksShut =>
      refine ⟨v, _, .stays, ?_, .goesOn .shut⟩
      cases half <;> exact ⟨hm.world, hm.unretried, hm.undated⟩
  | locate hd =>
    cases h with
    | passes h =>
      cases h with
      | locate =>
        rw [hcur]
        exact ⟨v, _, .stays, hm, .goesOn (.reading hd)⟩
  | @reading len hd =>
    cases h with
    | passes h => cases h
    | reads hr =>
      obtain ⟨bytes, rfl⟩ := read_ok_of_healthy hq hd hr hh
      obtain ⟨v', hcomes, hmirrors⟩ := hm.reads hr (Or.inr ⟨bytes, rfl⟩)
      refine ⟨v', _, hcomes, hmirrors, ?_⟩
      cases bytes with
      | nil => exact .ahead .end
      | cons b bs =>
        have hlate : (afterReading s k firstLink len (.ok (b :: bs))).2 =
            .goesOn (.queued (.judge firstLink len (.ok (b :: bs)))) := by
          unfold afterReading
          dsimp only
          rw [hd]
          rfl
        rw [hlate]
        exact .ahead (.bytes hd)
  | bareRead hd =>
    cases h with
    | passes h => cases h
    | bare hw =>
      cases BareCall.effect_of_step hw with
      | reads hr =>
        obtain ⟨v', hcomes, hmirrors⟩ := hm.reads hr (Or.inl hd)
        exact ⟨v', _, hcomes, hmirrors, .done⟩
  | send hd hg =>
    cases h with
    | passes h =>
      cases h with
      | sendFinal _ hd' => exact absurd (hd.symm.trans hd') Bool.false_ne_true
      | beginSending => exact ⟨v, _, .stays, hm, .goesOn (.sending hd hg)⟩
  | sending hd hg =>
    cases h with
    | passes h => cases h
    | sends hw =>
      rw [hcur] at hw ⊢
      obtain ⟨v', hv, hmirrors⟩ := hm.world.write hw
      obtain ⟨q, hcomes, hshows⟩ := shows_afterWrite hs hcur hg hv
      exact ⟨v', q, hcomes, hm.sends hd hmirrors _ _, hshows⟩
    | sendFails hw =>
      rw [hcur] at hw
      -- Only the new deadline and the report have been entered since.
      have hbefore := Journal.Healthy.of_enters (P := fun _ => True) hh.2 (.setDeadline trivial)
      exact absurd hbefore (not_writeFailed_of_healthy hq hd hw)
  | sendingTo hd hg =>
    cases h with
    | passes h => cases h
    | sendsTo hw =>
      obtain ⟨v', hv, hmirrors⟩ := hm.world.write hw
      obtain ⟨q, hcomes, hshows⟩ := shows_afterWrite hs hcur hg hv
      exact ⟨v', q, hcomes, hm.withWorld hmirrors (.write hw), hshows⟩
  | shut =>
    cases h with
    | passes h =>
      cases h with
      | beginShutting => exact ⟨v, _, .stays, hm, .goesOn .shutting⟩
  | shutting =>
    cases h with
    | passes h => cases h
    | shuts hw =>
      rw [hcur] at hw
      obtain ⟨v', hcomes, hmirrors⟩ := hm.shuts hw
      exact ⟨v', _, hcomes, hmirrors, .done⟩

/-- A read that has its result ends with it. -/
theorem Effect.shows_ahead (h : Effect k s c s₁ p) (hm : s.Mirrors v) {o : Outcome}
    (ho : c.Holds s.isDecided o) : p = .done o ∧ s₁.Mirrors v := by
  cases ho with
  | «end» =>
    cases h with
    | passes h =>
      cases h with
      | confirmEnd => exact ⟨rfl, hm⟩
    | settlesAtEnd _ ht => exact absurd (hm.unretried.symm.trans ht) Bool.false_ne_true
  | bytes hd =>
    cases h with
    | passes h =>
      cases h with
      | bringLate _ hd' => exact absurd (hd.symm.trans hd') Bool.false_ne_true
    | settlesOnBytes =>
      obtain ⟨l, hl, -⟩ := hm.world.link?
      refine ⟨rfl, (hm.world.setDeadline none).note _, hm.unretried, fun _ => ?_⟩
      exact (World.deadline?_setDeadline hl none firstLink).trans (if_pos rfl)

/-! ## Waiting -/

theorem Goal.Shows.blocked {goal : Goal} {buf : Bytes} (hg : goal.Shows buf d) (hm : s.Mirrors v)
    (hw : s.world.write firstLink (.call k) buf = none) : d.step k firstLink v = none := by
  have hv := hm.world.write_of_waits hw
  cases hg with
  | once =>
    rw [BareCall.step_write, hv]
    rfl
  | all hb =>
    rw [BareCall.step_writeAll _ _ _ hb, hv]
    rfl

/-- Where the stream waits for the connection, the bare connection is waited for too. -/
theorem Call.Shows.blocked (hc : c.Shows s.isDecided d) (hs : s.Sound) (hm : s.Mirrors v)
    (hqueue : c.isQueued = false) (hb : c.step k s = none) : d.step k firstLink v = none := by
  have hcur := hs.current_eq_first hm.unretried
  have hwaits : c.WaitsOutside k s := by
    rcases Call.waits_of_blocked hb with hqueued | hawaiting | houtside
    · exact absurd (hqueue.symm.trans hqueued) Bool.false_ne_true
    · cases hc <;> cases hawaiting
    · exact houtside
  have hread : ∀ len, s.world.read firstLink k len = none →
      (BareCall.read len).step k firstLink v = none := by
    intro len hr
    rw [BareCall.step_read, hm.world.read_of_waits hr]
    rfl
  cases hc with
  | startRead | startWrite | startWriteAll | startShut => cases hb
  | locate | send | shut => cases hqueue
  | reading => exact hread _ hwaits
  | bareRead =>
    change (BareCall.read _).step k firstLink s.world = none at hwaits
    rw [BareCall.step_read, Option.map_eq_none_iff] at hwaits
    exact hread _ hwaits
  | sending _ hg =>
    have hw : s.world.write s.memory.current (.call k) _ = none := hwaits
    rw [hcur] at hw
    exact hg.blocked hm hw
  | sendingTo _ hg => exact hg.blocked hm hwaits
  | @shutting half =>
    have hw : s.world.shut s.memory.current half = none := hwaits
    rw [hcur] at hw
    rw [BareCall.step_shut, hm.world.shut_of_waits hw]
    rfl

end Steps

end Stream

namespace StreamSession

open Redial.Stream Session

variable {rule : Rule} {setup : Setup} {m m' : Moment} {actions : List Action}
  {a a' : StreamMachine} {b b' : BareSession.BareMachine} {k : TaskId}

/-! ## Machines -/

/-- The machine of a stream that has met no fault, with one unfinished call at most, and that of the
bare connection. -/
inductive Mirrors : StreamMachine → BareSession.BareMachine → Prop where
  | idle {s v f} (h : s.Mirrors v) : Mirrors ⟨s, [], f⟩ ⟨v, [], f⟩
  | busy {k s v f p q} (h : s.Mirrors v) (hp : Shows s.isDecided p q) :
      Mirrors (Machine.single k f s p) (Machine.single k f v q)

namespace Mirrors

/-- A step of the stream is followed by steps of the bare connection, or by none. -/
theorem step (h : Mirrors a b) (hr : Reachable rule setup ⟨actions, a⟩)
    (hs : a.step Stream.behaviour k = some a') (hh : a'.env.world.journal.Healthy) :
    ∃ b', b.Runs BareSession.calls b' ∧ Mirrors a' b' := by
  cases h with
  | idle h =>
    obtain ⟨c, s, p, hc, -⟩ := Machine.step_eq_some hs
    exact absurd hc List.not_mem_nil
  | @busy j s v f p q h hp =>
    obtain ⟨c, s', p', rfl, hstep, rfl⟩ := Machine.step_single_eq_some hs
    obtain ⟨s₁, l, he, -, rfl⟩ := does_of_step hstep
    cases hp with
    | goesOn hc =>
      have hh₁ : s₁.world.journal.Healthy := by cases p' <;> exact hh
      have hquestioned := (inductive_questioned.holds hr).1
      obtain ⟨v', q', hcomes, hm, hshows⟩ := he.shows hr.sound hquestioned h hc hh₁
      exact ⟨_, hcomes.runs f, .busy (hm.withLock l) hshows⟩
    | ahead ho =>
      obtain ⟨hp', hm⟩ := he.shows_ahead h ho
      cases hp'
      exact ⟨_, .refl, .busy (hm.withLock l) .done⟩

theorem runs (h : Mirrors a b) (hr : Reachable rule setup ⟨actions, a⟩)
    (hruns : a.Runs Stream.behaviour a') (hh : a'.env.world.journal.Healthy) :
    ∃ b', b.Runs BareSession.calls b' ∧ Mirrors a' b' := by
  induction hruns with
  | refl => exact ⟨b, .refl, h⟩
  | @tail a₁ a₂ hruns hs ih =>
    obtain ⟨k, hk⟩ := hs
    have hr₁ : Reachable rule setup ⟨actions, a₁⟩ := hr.leads (Moment.leads_of_runs hruns)
    have hnext : Moment.Next rule ⟨actions, a₁⟩ ⟨actions, a₂⟩ := .step hk
    obtain ⟨b₁, hb₁, h₁⟩ := ih (hh.of_suffix (hnext.journal hr₁))
    obtain ⟨b₂, hb₂, h₂⟩ := h₁.step hr₁ hk hh
    exact ⟨b₂, hb₁.trans hb₂, h₂⟩

/-- When the stream has come to rest, so has the bare connection, with the same outcomes. -/
theorem rests (h : Mirrors a b) (hr : Reachable rule setup ⟨actions, a⟩)
    (hq : a.quiet Stream.behaviour = true) :
    b.quiet BareSession.calls = true ∧ a.finished = b.finished ∧ a.pending = b.pending := by
  cases h with
  | idle h => exact ⟨rfl, rfl, rfl⟩
  | @busy k s v f p q h hp =>
    -- Nobody else holds the lock.
    have hqueue : ∀ c, p = .goesOn c → c.isQueued = false := by
      rintro c rfl
      rw [← Bool.not_eq_true]
      intro hqueued
      obtain ⟨errand, rfl⟩ := Call.eq_queued hqueued
      obtain ⟨j, d, hj, -, hjk, -⟩ := Moment.Quiet.holder (m := ⟨actions, _⟩) hq hr
        (List.mem_singleton_self _)
      cases List.mem_singleton.mp hj
      exact hjk rfl
    cases hp with
    | goesOn hc =>
      have hblocked :=
        Moment.Quiet.step_eq_none (m := ⟨actions, _⟩) hq hr (List.mem_singleton_self _)
      have hbare := hc.blocked hr.sound h (hqueue _ rfl) hblocked
      exact ⟨Machine.quiet_single (b := BareSession.calls) hbare f, rfl, rfl⟩
    | ahead ho =>
      have hfalse := hqueue _ rfl
      cases ho <;> cases hfalse
    | done => exact ⟨rfl, rfl, rfl⟩

theorem length_tasks (h : Mirrors a b) : b.tasks.length ≤ 1 := by
  cases h with
  | idle h => exact Nat.zero_le 1
  | @busy k s v f p q h hp => cases q <;> exact Nat.le_of_ble_eq_true rfl

theorem nodup (h : Mirrors a b) : b.pending.Nodup := by
  cases h with
  | idle h => exact List.nodup_nil
  | @busy k s v f p q h hp =>
    cases q with
    | goesOn c => exact List.nodup_singleton k
    | done o => exact List.nodup_nil

/-- The scheduler brings both to rest. -/
theorem settle (h : Mirrors a b) (hr : Reachable rule setup ⟨actions, a⟩)
    (hh : (a.settle Stream.behaviour).env.world.journal.Healthy) :
    Mirrors (a.settle Stream.behaviour) (b.settle BareSession.calls) ∧
    (a.settle Stream.behaviour).finished = (b.settle BareSession.calls).finished ∧
    (a.settle Stream.behaviour).pending = (b.settle BareSession.calls).pending := by
  have hruns := Machine.runs_settle Stream.behaviour a
  have hr' : Reachable rule setup ⟨actions, a.settle Stream.behaviour⟩ :=
    hr.leads (Moment.leads_of_runs hruns)
  have hq := (ranked rule setup actions).quiet_settle hr (rank_le a)
  obtain ⟨b', hruns', hm⟩ := h.runs hr hruns hh
  obtain ⟨hq', hfinished, hpending⟩ := hm.rests hr' hq
  have hsettle : b.settle BareSession.calls = b' :=
    (BareCall.ranked BareSession.theLink).settle_eq h.nodup (BareCall.rank_le _ b) h.length_tasks
      hruns' hq'
  rw [hsettle]
  exact ⟨hm, hfinished, hpending⟩

end Mirrors

/-! ## Steps of sessions -/

/-- Calls are made one after the other, and none is dropped. -/
def sequential : Rule
  | m, .call request => m.machine.tasks.isEmpty = true ∧ request.isDirect = true
  | _, .cancel _ => False
  | _, _ => True

instance (m : Moment) : ∀ action, Decidable (sequential m action)
  | .call _ => inferInstanceAs (Decidable (_ ∧ _))
  | .cancel _ => .isFalse id
  | .openGate _ | .elapse _ | .feed _ _ | .describe | .idle => .isTrue trivial

theorem shows_start {request : Request} (hr : request.isDirect = true) (decided : Bool) :
    Call.Shows decided (.start request) request.bare := by
  cases request with
  | read len => exact .startRead
  | write buf =>
    refine .startWrite fun hnil => ?_
    subst hnil
    cases hr
  | writeAll buf => exact .startWriteAll
  | copy source => cases hr
  | shut half => exact .startShut

namespace Mirrors

theorem change (h : Mirrors a b) (action : Action) :
    Mirrors { a with env := a.env.withWorld (action.change a.env.world) }
      { b with env := action.change b.env } := by
  cases h with
  | idle h => exact .idle (h.change action)
  | @busy k s v f p q h hp =>
    have hbusy : Mirrors (Machine.single k f (s.withWorld (action.change s.world)) p)
        (Machine.single k f (action.change v) q) := .busy (h.change action) hp
    cases p <;> cases q <;> exact hbusy

theorem spawn (h : Mirrors a b) (ha : a.tasks.isEmpty = true) {request : Request}
    (hr : request.isDirect = true) (n : Nat) :
    Mirrors (a.spawn n (.start request)) (b.spawn n request.bare) := by
  cases h with
  | idle h => exact .busy h (.goesOn (shows_start hr _))
  | busy h hp =>
    cases hp with
    | goesOn | ahead => cases ha
    | done => exact .busy h (.goesOn (shows_start hr _))

theorem act (h : Mirrors a b) {action : Action} (hrule : sequential ⟨actions, a⟩ action) (n : Nat) :
    Mirrors (StreamSession.act a n action) (BareSession.act b n action) := by
  cases action with
  | call request => exact h.spawn hrule.1 hrule.2 n
  | cancel task => exact absurd hrule not_false
  | openGate gate => exact h.change (.openGate gate)
  | elapse nanos => exact h.change (.elapse nanos)
  | feed i more => exact h.change (.feed i more)
  | describe => exact h.change .describe
  | idle => exact h.change .idle

theorem unretried (h : Mirrors a b) : a.env.memory.retried = false := by
  cases h with
  | idle h => exact h.unretried
  | @busy k s v f p q h hp => cases p <;> exact h.unretried

theorem world (h : Mirrors a b) : a.env.world.Mirrors b.env := by
  cases h with
  | idle h => exact h.world
  | @busy k s v f p q h hp => cases p <;> cases q <;> exact h.world

end Mirrors

/-! ## Reports -/

/-- The report of a connection without its deadline. -/
def undated (r : LinkReport) : LinkReport := { r with deadline := none, updates := 0 }

/-- What a step of a session on a stream reports is what the same step reports on the bare
connection; `destination` has been dialled, once. -/
structure Entry.SameAsBare (destination : Address) (e : Entry) (e' : BareSession.Entry) : Prop where
  done : e.done = e'.done
  pending : e.pending = e'.pending
  links : e.links.map undated = e'.links
  dials : e.dials = [destination]

/-- As long as no retry is made, the destination has been dialled once. -/
theorem Reachable.dials_of_unretried (h : Reachable rule setup m)
    (ht : m.state.memory.retried = false) : m.journal.dials = [setup.destination] := by
  refine Reachable.induction (P := fun m => m.state.memory.retried = false →
    m.journal.dials = [setup.destination]) h ?_ ?_ ht
  · intro s hs _
    obtain ⟨now, script, timeout, -, -, -, hj⟩ := opening_eq_opened hs
    rw [show (Moment.first s).journal = _ from hj]
    rfl
  · intro m m' hm ih hn ht
    rcases hn.split with ⟨action, machine, -, ha, rfl⟩ | ⟨k, c, s, p, hk, hstep, rfl⟩
    · have hsame := (ha.enters (P := fun _ => False)).journal
      rw [show Moment.journal ⟨m.actions ++ [action], machine⟩ = m.journal from hsame]
      exact ih (ha.sameGuarded.retried.symm.trans ht)
    · obtain ⟨s₁, l, he, -, rfl⟩ := does_of_step hstep
      rw [Moment.state_advance] at ht
      have ht₀ : m.state.memory.retried = false := by
        rw [← Bool.not_eq_true]
        intro hretried
        exact absurd (ht.symm.trans (he.retried hm.sound hretried)) Bool.false_ne_true
      have hsame : ∀ {w : World}, m.state.world.Enters (·.isTurn = false) w →
          w.journal.dials = m.journal.dials := by
        rintro w ⟨es, hj, hes⟩
        rw [hj]
        exact (Journal.turns_append hes).1
      unfold Moment.journal
      rw [Machine.env_advance]
      cases he.turns hm.sound (hm.phase hk) with
      | stays _ hw => exact (hsame hw).trans (ih ht₀)
      | settles _ _ hw =>
        refine Eq.trans ?_ ((hsame hw).trans (ih ht₀))
        show Journal.dials (_ :: _) = _
        rw [Journal.dials_cons]
        exact List.append_nil _
      | retries => cases ht

theorem undated_linkReports {w v : World} {es j : Journal} (h : w.Mirrors v)
    (hj : w.journal = es ++ j) {j' : Journal} (hj' : j.traffic = j'.events) :
    (linkReports w j.length).map undated = linkReports v j'.length := by
  obtain ⟨l, hw, hv⟩ := h.links
  have hnew : es.traffic = (v.journal.after j'.length).events := by
    have hall := h.traffic
    rw [hj, Journal.traffic_append, hj'] at hall
    rw [Journal.events_after, ← hall, ← Journal.length_events, List.drop_left]
  have hwrites : (w.journal.after j.length).writes 0 = (v.journal.after j'.length).writes 0 := by
    rw [hj, Journal.after_append]
    exact Journal.writes_of_traffic hnew 0
  have hupdates : v.journal.count (Event.isDeadlineOf 0) = 0 :=
    Journal.count_eq_zero_of_traffic h.traffic fun e he => by cases e <;> first | rfl | cases he
  have hcount : ∀ p : Event → Bool, (∀ e, p e = true → e.isTraffic = true) →
      w.journal.count p = v.journal.count p := fun p hp => Journal.count_of_traffic h.traffic hp
  have hshut : ∀ half e, Event.isShutOf 0 half e = true → e.isTraffic = true := by
    intro half e he
    cases e <;> first | rfl | cases he
  have hclose : ∀ e, Event.isCloseOf 0 e = true → e.isTraffic = true := by
    intro e he
    cases e <;> first | rfl | cases he
  have hleft : linkReports w j.length = [linkReport w j.length 0 l] := by
    unfold linkReports
    rw [hw]
    rfl
  have hright : linkReports v j'.length = [linkReport v j'.length 0 l.undated] := by
    unfold linkReports
    rw [hv]
    rfl
  rw [hleft, hright]
  unfold undated linkReport
  rw [List.map_singleton]
  dsimp only
  rw [hwrites, hupdates, hcount _ (hshut .read), hcount _ (hshut .write), hcount _ hclose]
  rfl

namespace Mirrors

/-- The reports of a step of the session are the same. -/
theorem entry (h : Mirrors a b) (h' : Mirrors a' b') (hf : a.finished = b.finished)
    (hf' : a'.finished = b'.finished) (hp' : a'.pending = b'.pending)
    (hr' : Reachable rule setup ⟨actions, a'⟩)
    (hj : a.env.world.journal <:+ a'.env.world.journal) (action : Action) :
    Entry.SameAsBare setup.destination (StreamSession.entry a a' action)
      (BareSession.entry b b') where
  done := by
    show a'.finishedAfter a.finished.length = b'.finishedAfter b.finished.length
    unfold Machine.finishedAfter
    rw [hf, hf']
  pending := hp'
  links := by
    obtain ⟨es, hes⟩ := hj
    exact undated_linkReports h'.world hes.symm h.world.traffic
  dials := hr'.dials_of_unretried h'.unretried

/-- Whatever the steps of the session, their reports are the same. -/
theorem run (h : Mirrors a b) (hf : a.finished = b.finished)
    (hr : Reachable sequential setup ⟨actions, a⟩) {later : List Action}
    (hk : Moment.Keeps sequential ⟨actions, a⟩ later)
    (hh : (Moment.play ⟨actions, a⟩ later).journal.Healthy) :
    List.Forall₂ (Entry.SameAsBare setup.destination) (runFrom a actions.length later)
      (BareSession.runFrom b actions.length later) := by
  induction later generalizing actions a b with
  | nil => exact .nil
  | cons action later ih =>
    obtain ⟨hrule, hlater⟩ := hk
    have hnext : Moment.Leads sequential ⟨actions, a⟩ (Moment.next ⟨actions, a⟩ action) :=
      Moment.leads_next hrule
    have hr' := hr.leads hnext
    have hacted : Reachable sequential setup
        ⟨actions ++ [action], StreamSession.act a actions.length action⟩ :=
      hr.leads (.single (.act action hrule))
    have hhealthy := hh.of_suffix ((Moment.leads_play hlater).journal hr')
    obtain ⟨hm, hfinished, hpending⟩ := (h.act hrule actions.length).settle hacted hhealthy
    have hrest := ih hm hfinished hr' hlater hh
    have hlen : (actions ++ [action]).length = actions.length + 1 := List.length_append
    rw [hlen] at hrest
    exact .cons (h.entry hm hf hfinished hpending hr' (hnext.journal hr) action) hrest

end Mirrors

/-! ## Sessions -/

/-- A stream whose first dial succeeds begins like the bare connection. -/
theorem mirrors_of_opening {g : Gated DialScript} {script : LinkScript}
    (hdial : setup.dials[firstLink]? = some g) (hanswer : g.item.answer = .ok script) :
    ∃ s, setup.opening = .opened s ∧ Mirrors (.idle s) (BareSession.start script) := by
  let dialled := (World.fresh setup.clock setup.dials).dial setup.destination
  have hitem : ((dialled.1.dials[dialled.2]?).map (·.item)).getD .refused = g.item := by
    show ((setup.dials[firstLink]?).map (·.item)).getD .refused = _
    rw [hdial]
    rfl
  unfold Setup.opening World.dialledAtOnce World.connect
  dsimp only
  rw [hitem, hanswer]
  exact ⟨_, rfl, .idle ⟨⟨⟨.ofScript script, rfl, rfl⟩, rfl, rfl⟩, rfl, fun _ => rfl⟩⟩

/-- On a healthy connection the stream is the bare connection. If calls are made one after the other
and no read or write of the first connection fails before the question is settled, then the stream
can be opened, and each step of the session reports what the same step reports on a bare connection
with the same script: the calls that have ended, with their results, and the ones that are left, the
writes that the connection has accepted, how often its halves were asked to be shut and it to be
closed, and how much is still to arrive. Faults after the settlement are among these results. The
destination is dialled once. -/
theorem healthy_stream_is_bare {g : Gated DialScript} {script : LinkScript}
    (hdial : setup.dials[firstLink]? = some g) (hanswer : g.item.answer = .ok script)
    (hk : setup.Keeps sequential actions)
    (hh : ∀ m, setup.played actions = some m → m.journal.Healthy) :
    ∃ s, setup.opening = .opened s ∧
      List.Forall₂ (Entry.SameAsBare setup.destination) (run s actions)
        (BareSession.run script actions) := by
  obtain ⟨s, hs, hm⟩ := mirrors_of_opening hdial hanswer
  refine ⟨s, hs, ?_⟩
  have hkeeps : (Moment.first s).Keeps sequential actions := by
    unfold Setup.Keeps at hk
    rw [hs] at hk
    exact hk
  have hhealthy : ((Moment.first s).play actions).journal.Healthy := by
    refine hh _ ?_
    unfold Setup.played
    rw [hs]
  exact hm.run rfl ⟨s, hs, .refl⟩ hkeeps hhealthy

/-- What a connection does that takes two bytes at a time, replies when a gate is opened, and is
reset after that. -/
def healthyScript : LinkScript :=
  { LinkScript.silent with
    reads := [⟨some "reply", .data [7, 8, 9]⟩, ⟨none, .fault (.ofKind .connectionReset)⟩]
    writeMax := some 2 }

/-- A session on that connection. -/
def healthySession : Setup := .localhost 1 [dialledAtOnce healthyScript]

/-- The calls are made one after the other, and the last read fails. -/
def healthySteps : List Action :=
  [.call (.writeAll [1, 2, 3]), .call (.read 2), .openGate "reply", .call (.read 4),
    .call (.write [5, 6]), .call (.shut .write), .call (.read 4)]

theorem healthy_stream_is_bare_until_reset : ∃ s, healthySession.opening = .opened s ∧
    List.Forall₂ (Entry.SameAsBare healthySession.destination) (run s healthySteps)
      (BareSession.run healthyScript healthySteps) ∧
    ∃ m, healthySession.played healthySteps = some m ∧ m.state.isDecided = true ∧
      m.returned = [(1, [7, 8]), (3, [9])] ∧
      m.journal.writes firstLink = [[1, 2], [3], [5, 6]] ∧
      m.journal.any (fun e => e.event.isFailedRead firstLink) = true := by
  have hkeeps : healthySession.Keeps sequential healthySteps := by decide +kernel
  have hhealthy : ∀ m ∈ healthySession.played healthySteps, m.journal.Healthy := by decide +kernel
  obtain ⟨s, hs, hreports⟩ :=
    healthy_stream_is_bare (g := dialledAtOnce healthyScript) rfl rfl hkeeps hhealthy
  refine ⟨s, hs, hreports, _, rfl, ?_⟩
  decide +kernel

end StreamSession

end Redial
