import Redial.Proofs.Progress.Blocked
import Redial.Proofs.Progress.Overdue
import Redial.Proofs.Stream.Settlement
import Redial.Proofs.Wire.Deadlines

/-!
# What a completed read decides

Reads settle the question, and nothing else does (`Effect.done_of_settles`). Conversely a read that
ends leaves it settled, unless it has met the end of the stream and found at its last look that no
retry had been attempted (`Effect.ends_read`); such a read has changed nothing on its way, for all
its steps led to places before a retry (`Retrieval.untouched`).

So a retry that is given up leaves the question to the next read that ends, however it ends, and
then no write waits for it any more.
-/

namespace Redial

/-- Whether a call ended as a read. -/
def Outcome.isRead : Outcome → Bool
  | read _ => true
  | _ => false

theorem Outcome.eq_read {o : Outcome} (h : o.isRead = true) : ∃ r, o = .read r := by
  cases o with
  | read r => exact ⟨r, rfl⟩
  | _ => cases h

namespace Stream

/-- What a stream remembers and what holds of its connections is the same: the connection in use,
the hello, the halves asked to be shut, and the flags, the deadlines and the accepted bytes of all
connections. No dial call has been made. -/
structure State.Untouched (s s' : State) : Prop where
  guarded : s.SameGuarded s'
  asked : ∀ half, s'.askedShut half = s.askedShut half
  flags : s.world.SameFlags s'.world
  deadlines : s.world.SameDeadlines s'.world
  accepted : s.world.SameAccepted s'.world
  links : s'.world.links.length = s.world.links.length
  dials : s'.world.journal.dials = s.world.journal.dials

/-- Whether a call is a read that has not come to a retry. -/
def Call.isSeeking : Call → Bool
  | start (.read _) => true
  | c => c.retrieves

section Steps

variable {k : TaskId} {s s₁ : State} {c c' : Call} {p : Progress Call Outcome}
  {r : Except Fault Bytes}

theorem State.Untouched.refl (s : State) : s.Untouched s :=
  ⟨.refl s, fun _ => rfl, .refl _, .refl _, .refl _, rfl, rfl⟩

theorem State.Untouched.withLock (h : s.Untouched s₁) (l : Lock) : s.Untouched (s₁.withLock l) :=
  ⟨h.guarded.trans (.withLock s₁ l), fun half => (by cases half <;> rfl : _ = s₁.askedShut half).trans
    (h.asked half), h.flags, h.deadlines, h.accepted, h.links, h.dials⟩

theorem State.Untouched.read {link : LinkId} {len : Nat} {w : World}
    (hr : s.world.read link k len = some (w, r)) : s.Untouched (s.withWorld w) := by
  refine ⟨.withWorld s w, fun half => by cases half <;> rfl, .read hr, .read hr, .read hr,
    (World.SameLinks.read hr).length, ?_⟩
  obtain ⟨es, hj, he⟩ := World.Enters.read (P := (·.isTurn = false)) hr (isTurn_readEvent r)
  show w.journal.dials = _
  rw [hj]
  exact (Journal.turns_append he).1

/-! ## Reads that come to no retry -/

/-- A read that has not come to a retry changes nothing by a step that does not lead to one. -/
theorem Retrieval.untouched (h : Retrieval k s c s₁ c') : s.Untouched s₁ := by
  cases h with
  | begins => exact .refl s
  | locates => exact .refl s
  | brings hr => exact .read hr
  | meetsEnd hr => exact .read hr

theorem Retrieval.isSeeking (h : Retrieval k s c s₁ c') : c.isSeeking = true := by
  cases h <;> rfl

theorem Effect.retrieves_of_isSeeking (h : Effect k s c s₁ (.goesOn c'))
    (hc : c'.isSeeking = true) : c'.retrieves = true := by
  cases c' with
  | start request => exact absurd rfl (h.not_start rfl request)
  | _ => exact hc

/-! ## How reads end -/

/-- A read that ends leaves the question settled, unless it looks at the end of the stream and finds
that no retry has been attempted. -/
theorem Effect.ends_read (h : Effect k s c s₁ (.done (.read r))) (hc : c.Phase s) :
    s₁.isDecided = true ∨ (c = .queued .confirmEnd ∧ r = .ok [] ∧ s₁ = s ∧
      s.memory.lock.holder? = some k ∧ s.memory.retried = false) := by
  have hwrites : ∀ {buf r' goal}, (afterWrite s k buf r' goal).2 ≠ .done (.read r) := by
    intro buf r' goal hdone
    rcases afterWrite_done hdone with ⟨-, ho⟩ | ⟨_, ho⟩ | ⟨_, _, ho⟩ <;> cases ho
  generalize hp : Progress.done (κ := Call) (Outcome.read r) = p at h
  cases h with
  | passes h =>
    cases h with
    | confirmEnd hk hs =>
      cases hp
      cases hd : s.isDecided with
      | true => exact Or.inl rfl
      | false =>
        rw [hd, Bool.not_false, Bool.and_true] at hs
        exact Or.inr ⟨rfl, rfl, rfl, hk, hs⟩
    | bringLate _ hd => exact Or.inl hd
    | beginWrite | beginWriteAll | pullPiece =>
      obtain ⟨c', hc'⟩ := offer_goesOn _ _ _ _
      rw [hc'] at hp
      cases hp
    | replayed =>
      obtain ⟨c', hc'⟩ := afterReplay_goesOn _ _
      rw [hc'] at hp
      cases hp
    | _ => cases hp
  | @reads link len w r' =>
    rcases afterReading_cases s k link len r' with ⟨-, ha⟩ | ⟨-, hd, -⟩ | ⟨-, -, ha⟩
    · rw [ha] at hp
      cases hp
    · exact Or.inl hd
    · rw [ha] at hp
      cases hp
  | sends | sendsTo => exact absurd hp.symm hwrites
  | bare => exact Or.inl (State.isDecided_iff.mpr ⟨_, hc.1⟩)
  | settlesAtEnd | settlesOnBytes | settlesOnFault | redialFails | replayFails | reshutFails
  | answers => exact Or.inl State.isDecided_settle
  | _ => cases hp

/-- Only a read that ends settles the question. -/
theorem Effect.done_of_settles (h : Effect k s c s₁ p) (hs : s.Sound) (hd : s.isDecided = false)
    (hd₁ : s₁.isDecided = true) : ∃ r, p = .done (.read r) := by
  cases h with
  | settlesAtEnd | settlesOnBytes | settlesOnFault | redialFails | replayFails | reshutFails
  | answers => exact ⟨_, rfl⟩
  | @asksShut half =>
    rw [(State.SameGuarded.askShut s half).isDecided, hd] at hd₁
    cases hd₁
  | retries =>
    obtain ⟨l, hl⟩ := hs.current_isSome
    rw [beginRetry_eq hl] at hd₁
    cases hd.symm.trans hd₁
  | _ => cases hd.symm.trans hd₁

end Steps

end Stream

namespace StreamSession

open Redial.Stream

variable {rule : Rule} {setup : Setup} {m m₀ m₁ m₂ m' : Moment} {k : TaskId}
  {r : Except Fault Bytes}

/-- A read ends by a step of its call. -/
structure Moment.EndsRead (k : TaskId) (r : Except Fault Bytes) (m m' : Moment) : Prop
    extends m.Moves k m' where
  ended : (k, .read r) ∈ m'.machine.finished

/-- A read that has met the end of the stream has the lock to look whether a retry was given up, and
no retry has been attempted. -/
structure Moment.FindsNoRetry (m : Moment) (k : TaskId) : Prop where
  looks : ⟨k, .queued .confirmEnd⟩ ∈ m.machine.tasks
  holder : m.state.memory.lock.holder? = some k
  unretried : m.state.memory.retried = false

theorem Moment.EndsRead.settles (hr : m.EndsRead k r m') (h : Reachable rule setup m) :
    m'.state.isDecided = true ∨ (r = .ok [] ∧ m.FindsNoRetry k) := by
  obtain ⟨c, s₁, l, hk, he, rfl⟩ := hr.toMoves.ends h hr.ended
  rcases he.ends_read (h.phase hk) with hd | ⟨rfl, hend, -, hholder, ht⟩
  · exact Or.inl hd
  · exact Or.inr ⟨hend, hk, hholder, ht⟩

theorem Moment.EndsRead.untouched (hr : m.EndsRead k r m') (h : Reachable rule setup m)
    (hfinds : m.FindsNoRetry k) : m.state.Untouched m'.state := by
  obtain ⟨c, s₁, l, hk, he, rfl⟩ := hr.toMoves.ends h hr.ended
  cases Machine.call_unique h.numbered.nodup hk hfinds.looks
  cases he with
  | passes => exact (State.Untouched.refl _).withLock l
  | settlesAtEnd _ ht =>
    rw [hfinds.unretried] at ht
    cases ht

/-! ## Reads that come to no retry -/

/-- A read that has not come to a retry has changed nothing by the steps that it has taken. -/
theorem Moment.Moves.untouched (hmove : m₁.Moves k m₂) (h : Reachable rule setup m₁)
    (hl : m₂.Leads rule m) {d : Call} (hk : ⟨k, d⟩ ∈ m.machine.tasks) (hd : d.isSeeking = true) :
    m₁.state.Untouched m₂.state := by
  have h₂ : Reachable rule setup m₂ := h.leads (.single hmove.next)
  have hm := h₂.leads hl
  obtain ⟨c, s₁, l, p, hc, he, rfl⟩ := hmove.effect
  rw [Moment.state_advance]
  cases p with
  | done o => exact absurd (hl.finished.subset List.mem_cons_self) (hm.unfinished hk o)
  | goesOn c' =>
    have hk₂ : ⟨k, c'⟩ ∈ (m₁.machine.advance k (s₁.withLock l) (.goesOn c')).tasks :=
      Machine.mem_advance_self hc
    have hseeks : c'.isSeeking = true := by
      by_contra hnot
      rw [Bool.not_eq_true] at hnot
      -- Who has left the places before a retry does not come back to them.
      have hstays := hl.stays (L := fun c => c.isSeeking = false)
        (Q := fun m => ∃ o, (k, o) ∈ m.machine.finished) h₂ hk₂ hnot ?_ ?_
      · rcases hstays with ⟨e, he', hL⟩ | hdropped | ⟨o, ho⟩
        · rw [Machine.call_unique hm.numbered.nodup hk he', hL] at hd
          cases hd
        · exact h₂.undropped_since hl hk₂ hk hdropped
        · exact hm.unfinished hk o ho
      · intro m₃ e s₃ l₃ p₃ _ _ hL he₃
        cases p₃ with
        | done o => exact Or.inr ⟨o, List.mem_cons_self⟩
        | goesOn e' =>
          refine Or.inl ⟨e', rfl, ?_⟩
          rw [← Bool.not_eq_true]
          intro hseek
          rw [(he₃.retrieval rfl (he₃.retrieves_of_isSeeking hseek)).isSeeking] at hL
          cases hL
      · rintro m₃ m₄ _ ⟨o, ho⟩ hn
        exact ⟨o, hn.finished.subset ho⟩
    exact (he.retrieval rfl (he.retrieves_of_isSeeking hseeks)).untouched.withLock l

/-! ## Retries that were given up -/

/-- As long as no read ends, the question stays open. -/
theorem Moment.Leads.undecided (hl : m₀.Leads rule m) (h : Reachable rule setup m₀)
    (hd : m₀.state.isDecided = false)
    (hnone : ∀ j r, (j, .read r) ∈ m.machine.finished → (j, .read r) ∈ m₀.machine.finished) :
    m.state.isDecided = false := by
  induction hl with
  | refl => exact hd
  | @tail m₁ m₂ hl hn ih =>
    have h₁ := h.leads hl
    have hopen := ih fun j r hr => hnone j r (hn.finished.subset hr)
    rcases hn.split with ⟨action, machine, -, ha, rfl⟩ | ⟨k, c, s, p, hk, hstep, rfl⟩
    · exact ha.sameGuarded.isDecided.trans hopen
    · obtain ⟨s₁, l, he, -, rfl⟩ := does_of_step hstep
      rw [Moment.state_advance, ← Bool.not_eq_true]
      intro hsettled
      obtain ⟨r, rfl⟩ := he.done_of_settles h₁.sound hopen hsettled
      have hold := hnone k r List.mem_cons_self
      exact h₁.unfinished hk _ (Moment.Leads.finished hl |>.subset hold)

theorem Reachable.length_dials (h : Reachable rule setup m) :
    m.journal.dials.length = if m.state.memory.retried then 2 else 1 := by
  have hdials : m.journal.dials.length = m.state.world.links.length :=
    (inductive_questioned.holds h).1.dials
  rw [hdials, h.sound.dials]

theorem Moment.Quiet.isAwaiting_eq_false (hq : m.Quiet) (h : Reachable rule setup m)
    (hd : m.state.isDecided = true) : ∀ t ∈ m.machine.tasks, t.call.isAwaiting = false := by
  rintro ⟨j, c⟩ hj
  rw [← Bool.not_eq_true]
  intro hawaits
  obtain ⟨goal, buf, waiter, rfl⟩ := Call.eq_awaiting hawaits
  exact hq.not_awaiting h hd j goal buf waiter hj

/-- When a read ends, the question is settled, unless the read has met the end of the stream and
finds at its last look that no retry has been attempted; then none of its steps has changed
anything. In particular, once a retry has been attempted, the next read that ends settles the
question, with whatever result and without another dial call, and then no write waits for that. -/
theorem completed_read_settles {setup : Setup} {m m' : Moment} {k : TaskId}
    {r : Except Fault Bytes} (h : Reachable anything setup m) (hr : m.EndsRead k r m') :
    (m'.state.isDecided = true ∨ (r = .ok [] ∧ m.FindsNoRetry k)) ∧
    (m.FindsNoRetry k → m.state.Untouched m'.state ∧
      ∀ m₁ m₂, Reachable anything setup m₁ → m₁.Moves k m₂ → m₂.Leads anything m →
        m₁.state.Untouched m₂.state) ∧
    ∀ m₀, Reachable anything setup m₀ → m₀.Leads anything m → m₀.state.memory.retried = true →
      m₀.state.isDecided = false →
      m'.state.isDecided = true ∧ m'.journal.dials.length = m₀.journal.dials.length ∧
      ((∀ j r', (j, .read r') ∈ m.machine.finished → (j, .read r') ∈ m₀.machine.finished) →
        m.state.isDecided = false) ∧
      (∀ j goal buf waiter, ⟨j, .awaiting goal buf waiter⟩ ∈ m'.machine.tasks →
        Call.step j m'.state (.awaiting goal buf waiter) ≠ none) ∧
      ∀ m'', m'.Leads anything m'' → m''.Quiet →
        ∀ t ∈ m''.machine.tasks, t.call.isAwaiting = false := by
  have h' : Reachable anything setup m' := h.leads (.single hr.next)
  have hends := hr.settles h
  refine ⟨hends, fun hfinds => ⟨hr.untouched h hfinds, fun m₁ m₂ h₁ hmove hl => ?_⟩,
    fun m₀ h₀ hl ht hopen => ?_⟩
  · exact hmove.untouched h₁ hl hfinds.looks rfl
  · have ht' : m.state.memory.retried = true := hl.retried h₀ ht
    have hd' : m'.state.isDecided = true := by
      refine hends.resolve_right fun ⟨_, hfinds⟩ => ?_
      rw [hfinds.unretried] at ht'
      cases ht'
    refine ⟨hd', ?_, hl.undecided h₀ hopen, fun j goal buf waiter hj => h'.wakes hd' hj,
      fun m'' hl' hq => ?_⟩
    · rw [h'.length_dials, h₀.length_dials, ht, hr.next.retried h ht']
    · exact hq.isAwaiting_eq_false (h'.leads hl') ((hl'.sameGuarded h' hd').isDecided.trans hd')

/-- A session whose first connection meets the end of the stream. -/
def endSession : Setup :=
  .localhost 1 [dialledAtOnce { LinkScript.silent with reads := [⟨none, .data []⟩] }]

/-- After a retry that was given up a read that brings bytes releases a write; and a read that meets
the end of the stream before any retry changes nothing. -/
theorem completed_read_settles_after_dropped_retry :
    (∃ m₀ m m' r, Reachable anything failedWriteSession m₀ ∧ m₀.Leads anything m ∧
      m.EndsRead 4 r m' ∧ m.state.isDecided = false ∧ m'.state.isDecided = true ∧
      (∃ t ∈ m'.machine.tasks, t.call.isAwaiting = true) ∧
      ∀ m'', m'.Leads anything m'' → m''.Quiet →
        ∀ t ∈ m''.machine.tasks, t.call.isAwaiting = false) ∧
    ∃ m m' r, Reachable anything endSession m ∧ m.EndsRead 0 r m' ∧
      m'.state.isDecided = false ∧ r = .ok [] ∧ m.state.Untouched m'.state := by
  constructor
  · have hm : ∃ m₀, failedWriteSession.played [.call (.write [1]), .call (.write [2]),
        .call (.read 4), .cancel 2, .call (.read 4)] = some m₀ ∧
        m₀.state.memory.retried = true ∧ m₀.state.isDecided = false ∧
        ∃ m ∈ (m₀.act reply).move? 4,
          m.machine.finished.length = m₀.machine.finished.length ∧
          ∃ m' ∈ m.move? 4, (∃ t ∈ m'.machine.finished, t.1 = 4 ∧ t.2.isRead = true) ∧
            ∃ t ∈ m'.machine.tasks, t.call.isAwaiting = true := by
      refine ⟨_, rfl, ?_, ?_, ?_⟩
      · decide +kernel
      · decide +kernel
      · decide +kernel
    obtain ⟨m₀, hplayed, ht, hopen, m, hfirst, hlen, m', hsecond, ⟨⟨_, o⟩, ho, rfl, hread⟩,
      hawaits⟩ := hm
    obtain ⟨r, rfl⟩ := Outcome.eq_read hread
    have h₀ : Reachable anything failedWriteSession m₀ :=
      reachable_of_played (Setup.keeps_anything _ _) hplayed
    have hl : m₀.Leads anything m :=
      .tail (.single (.act reply trivial)) (Moment.moves_of_move? hfirst).next
    have hr : m.EndsRead 4 r m' := ⟨Moment.moves_of_move? hsecond, ho⟩
    have hsame : m₀.machine.finished = m.machine.finished := hl.finished.eq_of_length hlen.symm
    obtain ⟨-, -, hnext⟩ := completed_read_settles (h₀.leads hl) hr
    obtain ⟨hd, -, hstill, -, hreleased⟩ := hnext m₀ h₀ hl ht hopen
    exact ⟨m₀, m, m', r, h₀, hl, hr, hstill fun j r' hold => hsame ▸ hold, hd, hawaits, hreleased⟩
  · have hm : ∃ m₀, endSession.played [] = some m₀ ∧
        ∃ m₁ ∈ (m₀.act (.call (.read 4))).move? 0, ∃ m₂ ∈ m₁.move? 0, ∃ m ∈ m₂.move? 0,
          ∃ m' ∈ m.move? 0, m'.state.isDecided = false ∧
            ∃ t ∈ m'.machine.finished, t.1 = 0 ∧ t.2.isRead = true := by
      refine ⟨_, rfl, ?_⟩
      decide +kernel
    obtain ⟨m₀, hplayed, m₁, hfirst, m₂, hsecond, m, hthird, m', hlast, hopen, ⟨_, o⟩, ho, rfl,
      hread⟩ := hm
    obtain ⟨r, rfl⟩ := Outcome.eq_read hread
    have h₀ : Reachable anything endSession (m₀.act (.call (.read 4))) :=
      (reachable_of_played (Setup.keeps_anything _ _) hplayed).leads (.single (.act _ trivial))
    have hl : (m₀.act (.call (.read 4))).Leads anything m :=
      .tail (.tail (.single (Moment.moves_of_move? hfirst).next)
        (Moment.moves_of_move? hsecond).next)
        (Moment.moves_of_move? hthird).next
    have hr : m.EndsRead 0 r m' := ⟨Moment.moves_of_move? hlast, ho⟩
    obtain ⟨hends, hfinds, -⟩ := completed_read_settles (h₀.leads hl) hr
    rw [hopen] at hends
    obtain ⟨hend, hlooks⟩ := hends.resolve_left Bool.false_ne_true
    exact ⟨m, m', r, h₀.leads hl, hr, hopen, hend, (hfinds hlooks).1⟩

end StreamSession

end Redial
