import Redial.Proofs.Progress.Completion
import Redial.Proofs.Stream.Attempts

/-!
# Writes that fail

A write that fails while the question is open is not told to its caller. Nothing of it is
remembered, and the call waits for the question to be settled and then writes the same buffer once
more, on the final connection (`Moment.Leads.resends`). What that write comes to is what the call
comes to, so the fault that a caller is told is that of a write on the final connection.
-/

namespace Redial

/-- Whether a call ended as a single write with a fault. -/
def Outcome.isWriteFault : Outcome → Bool
  | wrote (.error _) => true
  | _ => false

theorem Outcome.eq_wrote_error {o : Outcome} (h : o.isWriteFault = true) :
    ∃ f, o = .wrote (.error f) := by
  cases o with
  | wrote r =>
    cases r with
    | ok n => cases h
    | error f => exact ⟨f, rfl⟩
  | _ => cases h

namespace Stream

variable {k : TaskId} {s : State}

theorem Goal.request?_eq_some {goal : Goal} {buf buf' : Bytes}
    (h : goal.request? buf = some (.write buf')) : goal = .once ∧ buf = buf' := by
  cases goal with
  | once =>
    cases h
    exact ⟨rfl, rfl⟩
  | _ => cases h

/-- A call that has yet to write `buf` on the final connection, after a write of it has failed. -/
inductive Call.Due (goal : Goal) (buf : Bytes) : Call → Prop where
  | waits {waiter} : Due goal buf (.awaiting goal buf waiter)
  | writes {link} : Due goal buf (.sendingTo link goal buf)

theorem world_afterWrite (s : State) (k : TaskId) (buf : Bytes) (r : Except Fault Bytes)
    (goal : Goal) : (afterWrite s k buf r goal).1.world = s.world := by
  rcases afterWrite_cases s k buf r goal with ⟨hs, -⟩ | ⟨e, ht⟩
  · rw [hs]
  · rw [ht]
    rfl

end Stream

namespace StreamSession

open Redial.Stream

variable {rule : Rule} {setup : Setup} {m m₁ m₂ m' : Moment} {k : TaskId} {goal : Goal}
  {buf : Bytes} {link : LinkId}

/-! ## A write that fails while the question is open -/

/-- A write of `buf` fails while the question is open: what the lock guards stays as it is, among it
the hello that a retry would replay, and so does what would be told of it; the call goes on to wait
for the question to be settled. -/
structure Moment.FailsOpen (k : TaskId) (buf : Bytes) (m m' : Moment) : Prop where
  unsettled : m.state.isDecided = false
  guarded : m.state.SameGuarded m'.state
  stats : m'.state.statsNow = m.state.statsNow
  acknowledged : m'.journal.acknowledged = m.journal.acknowledged
  waits : ∃ goal, ⟨k, .sending goal buf⟩ ∈ m.machine.tasks ∧
    ⟨k, .awaiting goal buf .arriving⟩ ∈ m'.machine.tasks

theorem Moment.Moves.writeFailed (hmove : m.Moves k m') (h : Reachable rule setup m)
    {t : Instant} {f : Fault} (hf : m'.journal.attempts k =
      ⟨t, .writeFailed link (.call k) buf f⟩ :: m.journal.attempts k) :
    m.state.finalLink? = some link ∨ (link = m.state.memory.current ∧ m.FailsOpen k buf m') := by
  obtain ⟨c, s₁, l, p, hk, he, rfl⟩ := hmove.effect
  unfold Moment.journal at hf
  rw [Machine.env_advance] at hf
  cases he.tries h.sound (h.phase hk) with
  | rests hw =>
    have hsame : s₁.world.journal.attempts k = m.journal.attempts k := World.attempts_of_enters hw k
    exact absurd (hsame.symm.trans hf) (List.cons_ne_self _ _).symm
  | @writes link' buf' w r hoffers hw hrest =>
    have hnew := (World.attempts_of_enters hrest k).trans (World.attempts_write hw)
    have hhead := (List.cons.inj (hf.symm.trans hnew)).1
    cases r with
    | ok bytes => cases hhead
    | error f' =>
      cases hhead
      cases hoffers with
      | sendingTo hd => exact Or.inl hd
      | bare hd => exact Or.inl hd
      | @sending goal _ hd =>
        right
        cases he with
        | passes h => cases h
        | sends hw' => cases hw.symm.trans hw'
        | @sendFails _ _ w' f' hw' =>
          have hdeadline := World.SameAccepted.setDeadline w' m.state.memory.current
            (m.state.withWorld w').replyDeadline
          have haccepted := ((World.SameAccepted.writeFailed hw').trans hdeadline).trans
            (.note _ (.writeFailed f'))
          exact ⟨rfl, hd, ⟨rfl, rfl, rfl, rfl, rfl, rfl⟩, rfl, haccepted.acknowledged, goal, hk,
            Machine.mem_advance_self hk⟩

/-! ## A write that ends with a fault -/

theorem Moment.Moves.wrote_error (hmove : m.Moves k m') (h : Reachable rule setup m) {f : Fault}
    (hend : (k, .wrote (.error f)) ∈ m'.machine.finished) :
    ∃ link buf, ⟨k, .sendingTo link .once buf⟩ ∈ m.machine.tasks ∧ m'.journal.attempts k =
      ⟨m.state.world.now, .writeFailed link (.call k) buf f⟩ :: m.journal.attempts k := by
  obtain ⟨c, s₁, l, hk, he, rfl⟩ := hmove.ends h hend
  rcases he.ends_write (h.phase hk) with ⟨n, hr⟩ | ⟨link, buf, w, r, rfl, hw, rfl, hr⟩
  · cases hr
  · cases r with
    | ok bytes => cases hr
    | error f' =>
      cases hr
      exact ⟨link, buf, hk, World.attempts_write hw⟩

/-! ## The further write -/

/-- The call of task `k` writes `buf` on the final connection with result `r`, which is what it goes
on with. -/
structure Moment.Sends (k : TaskId) (goal : Goal) (buf : Bytes) (link : LinkId)
    (r : Except Fault Bytes) (m m' : Moment) : Prop extends m.Moves k m' where
  final : m.state.finalLink? = some link
  attempts : m'.journal.attempts k =
    ⟨m.state.world.now, World.writeEvent link (.call k) buf r⟩ :: m.journal.attempts k
  follows : ∃ s, m'.machine =
    m.machine.advance k (afterWrite s k buf r goal).1 (afterWrite s k buf r goal).2

theorem Moment.Moves.sends (hmove : m.Moves k m') (h : Reachable rule setup m)
    (hk : ⟨k, .sendingTo link goal buf⟩ ∈ m.machine.tasks) : ∃ r, m.Sends k goal buf link r m' := by
  obtain ⟨c, s, p, hc, hstep, rfl⟩ := hmove.call
  cases Machine.call_unique h.numbered.nodup hk hc
  obtain ⟨⟨w, r⟩, hw, hstep⟩ := Option.bind_eq_some_iff.mp hstep
  have hturn : afterWrite (m.state.withWorld w) k buf r goal = (s, p) := Option.some.inj hstep
  obtain rfl : (afterWrite (m.state.withWorld w) k buf r goal).1 = s := congrArg Prod.fst hturn
  obtain rfl : (afterWrite (m.state.withWorld w) k buf r goal).2 = p := congrArg Prod.snd hturn
  refine ⟨r, hmove, h.phase hk, ?_, _, rfl⟩
  unfold Moment.journal
  rw [Machine.env_advance, world_afterWrite]
  exact World.attempts_write hw

/-- Since an earlier moment the call of task `k` has written `buf` on the final connection, and this
was its next write. A single write is done with the result. -/
def Moment.Resent (k : TaskId) (goal : Goal) (buf : Bytes) (m m' : Moment) : Prop :=
  ∃ m₁ m₂ link r, m.Leads anything m₁ ∧ m₁.journal.attempts k = m.journal.attempts k ∧
    m₁.Sends k goal buf link r m₂ ∧ m₂.Leads anything m' ∧
    (goal = .once → (k, .wrote (r.map List.length)) ∈ m'.machine.finished ∧
      m'.journal.attempts k = m₂.journal.attempts k)

theorem Moment.Sends.resent {r : Except Fault Bytes} (hs : m₁.Sends k goal buf link r m')
    (hl : m.Leads anything m₁) (hsame : m₁.journal.attempts k = m.journal.attempts k) :
    m.Resent k goal buf m' := by
  refine ⟨m₁, m', link, r, hl, hsame, hs, .refl, fun hgoal => ⟨?_, rfl⟩⟩
  obtain ⟨s, hmachine⟩ := hs.follows
  rw [hmachine, hgoal]
  exact List.mem_cons_self

theorem Moment.Resent.next (hr : m.Resent k goal buf m₁) (h : Reachable anything setup m₁)
    (hn : m₁.Next anything m') : m.Resent k goal buf m' := by
  obtain ⟨m₂, m₃, link, r, hl, hsame, hs, hl', honce⟩ := hr
  refine ⟨m₂, m₃, link, r, hl, hsame, hs, hl'.tail hn, fun hgoal => ?_⟩
  obtain ⟨ho, hattempts⟩ := honce hgoal
  have hdone := Moment.Leads.attempts_of_done (.single hn) h ho
  exact ⟨hn.finished.subset ho, hdone.trans hattempts⟩

/-- A step of a call that has yet to write leaves that to it, or is the write. -/
theorem Moment.Moves.due (hmove : m₁.Moves k m') (h : Reachable anything setup m₁) {c : Call}
    (hk : ⟨k, c⟩ ∈ m₁.machine.tasks) (hc : c.Due goal buf) :
    (m'.journal.attempts k = m₁.journal.attempts k ∧
      ∃ c', ⟨k, c'⟩ ∈ m'.machine.tasks ∧ Call.Due goal buf c') ∨
    ∃ link r, m₁.Sends k goal buf link r m' := by
  cases hc with
  | writes =>
    obtain ⟨r, hs⟩ := hmove.sends h hk
    exact Or.inr ⟨_, r, hs⟩
  | waits =>
    left
    obtain ⟨c, s₁, l, p, hc, he, rfl⟩ := hmove.effect
    cases Machine.call_unique h.numbered.nodup hk hc
    cases he with
    | passes hp =>
      refine ⟨?_, ?_⟩
      · unfold Moment.journal
        rw [Machine.env_advance]
        rfl
      · cases hp with
        | goOnWaiting => exact ⟨_, Machine.mem_advance_self hk, .waits⟩
        | released => exact ⟨_, Machine.mem_advance_self hk, .writes⟩

/-- A call that waits for the question to be settled goes on to write once more, unless it is
dropped. -/
theorem Moment.Leads.resends (hl : m.Leads anything m') (h : Reachable anything setup m)
    {waiter : Waiter} (hk : ⟨k, .awaiting goal buf waiter⟩ ∈ m.machine.tasks) :
    (m'.journal.attempts k = m.journal.attempts k ∧
      ∃ c, ⟨k, c⟩ ∈ m'.machine.tasks ∧ Call.Due goal buf c) ∨
    .cancel k ∈ m'.actions.drop m.actions.length ∨ m.Resent k goal buf m' := by
  induction hl with
  | refl => exact Or.inl ⟨rfl, _, hk, .waits⟩
  | @tail m₁ m₂ hl hn ih =>
    have h₁ := h.leads hl
    rcases ih with ⟨hsame, c, hc, hdue⟩ | hdropped | hresent
    · have hgoesOn : m₁.Moves k m₂ → (m₂.journal.attempts k = m.journal.attempts k ∧
          ∃ c, ⟨k, c⟩ ∈ m₂.machine.tasks ∧ Call.Due goal buf c) ∨ m.Resent k goal buf m₂ := by
        intro hmove
        rcases hmove.due h₁ hc hdue with ⟨hsame', hdue'⟩ | ⟨link, r, hsends⟩
        · exact Or.inl ⟨hsame'.trans hsame, hdue'⟩
        · exact Or.inr (hsends.resent hl hsame)
      rcases hn.keeps hc with hc' | hdrops | hmove
      · rcases hn.attempts h₁ (k := k) with hsame' | hmove
        · exact Or.inl ⟨hsame'.trans hsame, c, hc', hdue⟩
        · exact (hgoesOn hmove).imp_right Or.inr
      · exact Or.inr (Or.inl (Moment.Leads.mem_taken hl hdrops))
      · exact (hgoesOn hmove).imp_right Or.inr
    · exact Or.inr (Or.inl (Moment.Leads.mem_dropped (.single hn) hdropped))
    · exact Or.inr (Or.inr (hresent.next h₁ hn))

/-- A call that has yet to write once more waits for the question to be settled as long as it is
open, and then for the final connection. -/
theorem Reachable.due (h : Reachable rule setup m) {c : Call} (hk : ⟨k, c⟩ ∈ m.machine.tasks)
    (hc : c.Due goal buf) :
    (∃ waiter, c = .awaiting goal buf waiter ∧ (m.Quiet → m.state.isDecided = false)) ∨
    ∃ link, c = .sendingTo link goal buf ∧ m.state.finalLink? = some link ∧
      (m.Quiet → m.state.world.write link (.call k) buf = none) := by
  cases hc with
  | waits => exact Or.inl ⟨_, rfl, fun hq => hq.isDecided h hk⟩
  | writes =>
    refine Or.inr ⟨_, rfl, h.phase hk, fun hq => ?_⟩
    rcases Call.waits_of_blocked (hq.step_eq_none h hk) with hqueued | hawaits | hout
    · cases hqueued
    · cases hawaits
    · exact hout

/-- A call writes on a final connection only when the question is settled, and a single write that
ends with a fault has met it there, in one write of the whole buffer that was asked for. A write
that fails while the question is open changes neither what a retry would replay nor what would be
told of it, and its call waits. From then on, unless it is dropped, it writes nothing until it
writes the same buffer on the final connection, once, and it comes to what that write comes to; at a
quiet moment only an open question, or the final connection, can keep it from that. -/
theorem write_faults_from_final_link {setup : Setup} {m : Moment}
    (h : Reachable anything setup m) :
    (∀ k link goal buf, ⟨k, .sendingTo link goal buf⟩ ∈ m.machine.tasks →
      m.state.finalLink? = some link) ∧
    (∀ k m' f, m.Moves k m' → (k, .wrote (.error f)) ∈ m'.machine.finished →
      ∃ link buf, ⟨k, .sendingTo link .once buf⟩ ∈ m.machine.tasks ∧
        m.state.finalLink? = some link ∧ m.actions[k]? = some (.call (.write buf)) ∧
        m'.journal.attempts k =
          ⟨m.state.world.now, .writeFailed link (.call k) buf f⟩ :: m.journal.attempts k) ∧
    (∀ k m' t link buf f, m.Moves k m' →
      m'.journal.attempts k = ⟨t, .writeFailed link (.call k) buf f⟩ :: m.journal.attempts k →
      m.state.finalLink? = some link ∨
        (link = m.state.memory.current ∧ m.FailsOpen k buf m')) ∧
    ∀ k goal buf waiter, ⟨k, .awaiting goal buf waiter⟩ ∈ m.machine.tasks →
      ∀ m', m.Leads anything m' →
        (m'.journal.attempts k = m.journal.attempts k ∧
          ((∃ waiter', ⟨k, .awaiting goal buf waiter'⟩ ∈ m'.machine.tasks ∧
              (m'.Quiet → m'.state.isDecided = false)) ∨
            ∃ link, ⟨k, .sendingTo link goal buf⟩ ∈ m'.machine.tasks ∧
              m'.state.finalLink? = some link ∧
              (m'.Quiet → m'.state.world.write link (.call k) buf = none))) ∨
        .cancel k ∈ m'.actions.drop m.actions.length ∨ m.Resent k goal buf m' := by
  refine ⟨fun k link goal buf hk => h.phase hk, fun k m' f hmove hend => ?_,
    fun k m' t link buf f hmove hf => hmove.writeFailed h hf,
    fun k goal buf waiter hk m' hl => ?_⟩
  · obtain ⟨link, buf, hk, hf⟩ := hmove.wrote_error h hend
    exact ⟨link, buf, hk, h.phase hk, h.asked hk rfl, hf⟩
  · refine (hl.resends h hk).imp_left fun ⟨hsame, c, hc, hdue⟩ => ⟨hsame, ?_⟩
    rcases (h.leads hl).due hc hdue with ⟨waiter', rfl, hopen⟩ | ⟨link, rfl, hfinal, hblocked⟩
    · exact Or.inl ⟨waiter', hc, hopen⟩
    · exact Or.inr ⟨link, hc, hfinal, hblocked⟩

/-- A session whose first connection is reset by its first read and by its second write, and whose
second one accepts the replay and then breaks. -/
def refusedWriteSession : Setup :=
  .localhost 1
    [dialledAtOnce { LinkScript.silent with
      reads := [⟨none, .fault (.ofKind .connectionReset)⟩]
      writes := [⟨none, .usual⟩, ⟨none, .fault (.ofKind .connectionReset)⟩] },
    dialledAtOnce { LinkScript.silent with
      writes := [⟨none, .usual⟩, ⟨none, .fault (.ofKind .brokenPipe)⟩] }]

/-- A write fails on the first connection and waits; after the reply on the second one it fails
there, and only this fault is told. -/
theorem write_faults_from_second_link : ∃ m₀ m m', Reachable anything refusedWriteSession m₀ ∧
    m₀.state.isDecided = false ∧ m₀.Leads anything m ∧ m.Moves 1 m' ∧
    m.actions[1]? = some (.call (.write [2])) ∧
    (∃ link f, m.state.finalLink? = some link ∧ (1, .wrote (.error f)) ∈ m'.machine.finished ∧
      m'.journal.attempts 1 =
        ⟨m.state.world.now, .writeFailed link (.call 1) [2] f⟩ :: m.journal.attempts 1) ∧
    m₀.Resent 1 .once [2] m' := by
  have hm : ∃ m₀, refusedWriteSession.played [.call (.write [1]), .call (.write [2]),
      .call (.read 4)] = some m₀ ∧ m₀.state.isDecided = false ∧
      (∃ t ∈ m₀.machine.tasks, t.id = 1 ∧ t.call.isAwaiting = true ∧
        t.call.request? = some (.write [2])) ∧
      (m₀.act reply).actions.drop m₀.actions.length = [reply] ∧
      ∃ m₁ ∈ (m₀.act reply).move? 2, ∃ m₂ ∈ m₁.move? 1, ∃ m ∈ m₂.move? 1, ∃ m' ∈ m.move? 1,
        ∃ t ∈ m'.machine.finished, t.1 = 1 ∧ t.2.isWriteFault = true := by
    refine ⟨_, rfl, ?_, ?_, ?_, ?_⟩
    · decide +kernel
    · decide +kernel
    · decide +kernel
    · decide +kernel
  obtain ⟨m₀, hplayed, hopen, ⟨⟨_, c⟩, hk, rfl, hc, hrequest⟩, hactions, m₁, h₁, m₂, h₂, m, h₃, m',
    h₄, ⟨_, o⟩, ho, rfl, hfault⟩ := hm
  obtain ⟨goal, buf, waiter, rfl⟩ := Call.eq_awaiting hc
  obtain ⟨rfl, rfl⟩ := Goal.request?_eq_some hrequest
  obtain ⟨f, rfl⟩ := Outcome.eq_wrote_error hfault
  have h : Reachable anything refusedWriteSession m₀ :=
    reachable_of_played (Setup.keeps_anything _ _) hplayed
  have hfirst := Moment.moves_of_move? h₁
  have hsecond := Moment.moves_of_move? h₂
  have hthird := Moment.moves_of_move? h₃
  have hmove : m.Moves 1 m' := Moment.moves_of_move? h₄
  have hl : m₀.Leads anything m :=
    .tail (.tail (.tail (.single (.act reply trivial)) hfirst.next) hsecond.next) hthird.next
  have hl' : m₀.Leads anything m' := hl.tail hmove.next
  have hasked : m.actions[1]? = some (.call (.write [2])) := by
    obtain ⟨later, hlater⟩ := hl.actions
    have hold := h.asked hk rfl
    rw [← hlater, List.getElem?_append_left (List.getElem?_eq_some_iff.mp hold).1]
    exact hold
  obtain ⟨-, hends, -, -⟩ := write_faults_from_final_link (h.leads hl)
  obtain ⟨-, -, -, hgoesOn⟩ := write_faults_from_final_link h
  obtain ⟨link, buf, -, hfinal, hbuf, hattempts⟩ := hends 1 m' f hmove ho
  cases hasked.symm.trans hbuf
  refine ⟨m₀, m, m', h, hopen, hl, hmove, hasked, ⟨link, f, hfinal, ho, hattempts⟩, ?_⟩
  have hdone : ∀ {c}, ⟨1, c⟩ ∉ m'.machine.tasks := fun hc => (h.leads hl').unfinished hc _ ho
  rcases hgoesOn 1 .once [2] waiter hk m' hl' with ⟨-, ⟨_, hc, -⟩ | ⟨_, hc, -⟩⟩ | hdropped | hresent
  · exact absurd hc hdone
  · exact absurd hc hdone
  · rw [hmove.actions, hthird.actions, hsecond.actions, hfirst.actions, hactions] at hdropped
    exact absurd hdropped (by decide)
  · exact hresent

end StreamSession

end Redial
