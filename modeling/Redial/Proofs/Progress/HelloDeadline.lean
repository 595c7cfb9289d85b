import Redial.Proofs.Progress.StaleDeadline

/-!
# When a reply is due

As long as the question is open and no retry has been attempted, the deadline of the first
connection is the reply timeout after the last write of a caller, and there is none if no write has
come to its end or if the clock cannot show that instant. The sum that a deadline was made of has
not been cut off, so a read that the deadline ends does so no earlier than the whole of the base and
the round trips after that write. This holds of later reads as well, because the settlement arms no
deadline (`hello_deadline_exact`).
-/

namespace Redial

namespace Stream

variable {k : TaskId} {s s₁ : State} {c : Call} {p : Progress Call Outcome} {i : LinkId}
  {d : Instant}

/-- The settlement arms no deadline. -/
theorem Effect.armed_of_settles (h : Effect k s c s₁ p) (hs : s.Sound) (hc : c.Phase s)
    (hd : s.isDecided = false) (hd₁ : s₁.isDecided = true)
    (harmed : s₁.world.deadline? i = some d) : s.world.deadline? i = some d := by
  cases h.rearms hs hc with
  | stays hw => exact (hw i).symm.trans harmed
  | arms =>
    -- A write leaves the question open.
    cases h with
    | passes | sends | sendFails => cases hd.symm.trans hd₁
  | clears _ _ hw =>
    rw [hw i] at harmed
    split at harmed
    · cases harmed
    · exact harmed

end Stream

namespace StreamSession

open Redial.Stream

variable {rule : Rule} {setup : Setup} {m m₀ : Moment} {i : LinkId} {d t : Instant}

/-- On the way to a moment, the question was open for the last time at this one. -/
inductive Moment.LastOpen (rule : Rule) (m₀ : Moment) : Moment → Prop where
  /-- The question is still open. -/
  | still (hd : m₀.state.isDecided = false) : LastOpen rule m₀ m₀
  /-- What followed settled the question. -/
  | before {m₁ m} (hd : m₀.state.isDecided = false) (hn : m₀.Next rule m₁)
      (hd₁ : m₁.state.isDecided = true) (hl : m₁.Leads rule m) : LastOpen rule m₀ m

theorem Reachable.lastOpen (h : Reachable rule setup m) :
    ∃ m₀, Reachable rule setup m₀ ∧ m₀.LastOpen rule m := by
  cases hd : m.state.isDecided with
  | false => exact ⟨m, h, .still hd⟩
  | true =>
    obtain ⟨m₀, m₁, k, r, h₀, hopen, hr, hd₁, hl⟩ := h.settled hd
    exact ⟨m₀, h₀, .before hopen hr.next hd₁ hl⟩

/-- A deadline that is armed has been armed while the question was open. -/
theorem Moment.LastOpen.armed (hlast : m₀.LastOpen rule m) (h : Reachable rule setup m₀)
    (harmed : m.state.world.deadline? i = some d) :
    m₀.state.isDecided = false ∧ m₀.state.world.deadline? i = some d := by
  cases hlast with
  | still hd => exact ⟨hd, harmed⟩
  | before hd hn hd₁ hl =>
    refine ⟨hd, ?_⟩
    rw [hl.sameDeadlines (h.leads (.single hn)) hd₁] at harmed
    rcases hn.split with ⟨action, machine, -, ha, rfl⟩ | ⟨k, c, s, p, hk, hstep, rfl⟩
    · rw [ha.sameGuarded.isDecided, hd] at hd₁
      cases hd₁
    · obtain ⟨s₁, l, he, -, rfl⟩ := does_of_step hstep
      rw [Moment.state_advance] at hd₁ harmed
      exact he.armed_of_settles h.sound (h.phase hk) hd hd₁ harmed

/-- An armed deadline is the base and the round trips after the last write: as the clock can show
it, the timeout has not been cut off. -/
theorem Reachable.deadline_eq (h : Reachable rule setup m) (hd : m.state.isDecided = false)
    (harmed : m.state.world.deadline? i = some d) :
    ∃ t, m.journal.lastWrite i = some t ∧
      d.nanos = t.nanos + (setup.config.baseTimeout.nanos +
        setup.config.rttFactor.toNat * (setup.dialEnd.nanos - setup.clock.nanos)) := by
  rw [h.armed.deadlines hd] at harmed
  obtain ⟨t, ht, hadd⟩ := Option.bind_eq_some_iff.mp harmed
  refine ⟨t, ht, ?_⟩
  have hsum := Instant.add?_eq_some_iff.mp hadd
  rw [h.terms] at hsum
  unfold Config.timeoutFor at hsum
  rw [nanos_replyTimeout] at hsum
  have hshown := d.nanos_le
  have hlast : Instant.lastNanos < Duration.maxNanos := by decide
  omega

/-- At every reachable moment at which the question is open and no retry has been attempted, the
first connection has no deadline before the first write of a caller has come to its end. From then
on its deadline is the timeout after the end of the last one, if the clock can show that instant.
The timeout is the base and the round trips, up to the longest duration; it is not less than the
base, and grows with each of the three. A read of the first connection that fails at any moment
meets a fault of the connection itself, or it fails because a deadline has passed, and then the
whole sum has passed since the last write before the settlement. -/
theorem hello_deadline_exact {setup : Setup} {m : Moment} (h : Reachable anything setup m) :
    (m.state.isDecided = false → m.state.memory.retried = false →
      m.state.memory.current = firstLink ∧
      (m.journal.lastWrite firstLink = none → m.state.world.deadline? firstLink = none) ∧
      ∀ t, m.journal.lastWrite firstLink = some t →
        (∀ d, m.state.world.deadline? firstLink = some d ↔
          d.nanos = t.nanos + m.state.terms.timeout.nanos) ∧
        (m.state.world.deadline? firstLink = none ↔
          Instant.lastNanos < t.nanos + m.state.terms.timeout.nanos)) ∧
    m.state.terms.timeout = setup.config.timeoutFor setup.clock setup.dialEnd ∧
    (∀ (c : Config) before after, (c.timeoutFor before after).nanos =
      min (c.baseTimeout.nanos + c.rttFactor.toNat * (after.nanos - before.nanos))
        Duration.maxNanos) ∧
    (∀ (c : Config) before after, c.baseTimeout.nanos ≤ (c.timeoutFor before after).nanos) ∧
    (∀ (c c' : Config) (before after before' after' : Instant),
      c.baseTimeout.nanos ≤ c'.baseTimeout.nanos → c.rttFactor.toNat ≤ c'.rttFactor.toNat →
      after.nanos - before.nanos ≤ after'.nanos - before'.nanos →
      (c.timeoutFor before after).nanos ≤ (c'.timeoutFor before' after').nanos) ∧
    ∀ task len w f, m.state.world.read firstLink task len = some (w, .error f) →
      (∃ l, m.state.world.link? firstLink = some l ∧ l.Fails f) ∨
      f = .deadlineExceeded ∧ ∃ m₀ t, Reachable anything setup m₀ ∧ m₀.LastOpen anything m ∧
        m₀.journal.lastWrite firstLink = some t ∧
        t.nanos + (setup.config.baseTimeout.nanos +
          setup.config.rttFactor.toNat * (setup.dialEnd.nanos - setup.clock.nanos)) ≤
            m.state.world.now.nanos := by
  refine ⟨fun hd ht => ⟨h.sound.current_eq_first ht, fun hnone => ?_, fun t hwrite => ?_⟩,
    congrArg (·.timeout) h.terms, fun c before after => ?_, fun c before after => ?_,
    fun c c' before after before' after' => replyTimeout_mono, fun task len w f hr => ?_⟩
  · rw [h.armed.deadlines hd]
    show (m.journal.lastWrite firstLink).bind _ = none
    rw [hnone]
    rfl
  · have hdeadline : m.state.world.deadline? firstLink = t.add? m.state.terms.timeout := by
      rw [h.armed.deadlines hd]
      show (m.journal.lastWrite firstLink).bind _ = _
      rw [hwrite]
      rfl
    rw [hdeadline]
    exact ⟨fun d => Instant.add?_eq_some_iff, Instant.add?_eq_none_iff⟩
  · exact nanos_replyTimeout _ _ _ _
  · exact le_replyTimeout _ _ _ _
  · refine (World.fails_or_overdue hr).imp_right fun ⟨hf, hpassed⟩ => ⟨hf, ?_⟩
    obtain ⟨d, harmed, hreached⟩ := World.isOverdue_iff.mp hpassed
    obtain ⟨m₀, h₀, hlast⟩ := h.lastOpen
    obtain ⟨hopen, harmed₀⟩ := hlast.armed h₀ harmed
    obtain ⟨t, hwrite, hdue⟩ := h₀.deadline_eq hopen harmed₀
    have hnow : d.nanos ≤ m.state.world.now.nanos := of_decide_eq_true hreached
    exact ⟨m₀, t, h₀, hlast, hwrite, hdue ▸ hnow⟩

/-- A session whose first dial takes 50 ns and makes a connection that stays silent. -/
def silentSession (base : Duration) : Setup :=
  { Setup.localhost 1 [⟨none, 50, .ok .silent⟩] with
    config := { Config.default with baseTimeout := base } }

/-- Two round trips of 50 ns are added to the base, and the deadline is counted from the second of
two writes, although the deadline of the first had passed by then. When it is reached, a read fails.
With the longest base there is no deadline. -/
theorem hello_deadline_after_two_writes :
    (∃ m t d w, Reachable anything (silentSession defaultBaseTimeout) m ∧
      m.journal.lastWrite firstLink = some t ∧ t.nanos = 2000000050 ∧
      m.state.world.deadline? firstLink = some d ∧ d.nanos = 2000000050 + 1200000100 ∧
      m.state.world.read firstLink 4 4 = some (w, .error .deadlineExceeded) ∧
      ∃ m₀ t₀, Moment.LastOpen anything m₀ m ∧ m₀.journal.lastWrite firstLink = some t₀ ∧
        t₀.nanos + 1200000100 ≤ m.state.world.now.nanos) ∧
    ∃ m t, Reachable anything (silentSession ⟨Duration.maxNanos, Nat.le_refl _⟩) m ∧
      m.journal.lastWrite firstLink = some t ∧ t.nanos = 50 ∧
      m.state.world.deadline? firstLink = none := by
  constructor
  · have hm : ∃ m t d, (silentSession defaultBaseTimeout).played
        [.call (.write [1]), .elapse 2000000000, .call (.write [2]), .elapse 1200000100] = some m ∧
        m.state.isDecided = false ∧ m.state.memory.retried = false ∧
        m.journal.lastWrite firstLink = some t ∧ t.nanos = 2000000050 ∧
        m.state.terms.timeout.nanos = 1200000100 ∧
        Instant.nanos d = 2000000050 + 1200000100 ∧
        (∀ l ∈ m.state.world.link? firstLink, l.reads = []) ∧
        ((m.state.world.read firstLink 4 4).map (·.2)) = some (.error .deadlineExceeded) := by
      refine ⟨_, .ofNanos 2000000050, .ofNanos 3200000150, rfl, ?_, ?_, ?_, ?_, ?_, ?_, ?_, ?_⟩
      · decide +kernel
      · decide +kernel
      · decide +kernel
      · decide +kernel
      · decide +kernel
      · decide +kernel
      · decide +kernel
      · decide +kernel
    obtain ⟨m, t, d, hplayed, hopen, hretried, hwrite, ht, htimeout, hd, hsilent, hread⟩ := hm
    obtain ⟨⟨w, _⟩, hread, rfl⟩ := Option.map_eq_some_iff.mp hread
    have h := reachable_of_played (Setup.keeps_anything _ _) hplayed
    obtain ⟨hundecided, -, -, -, -, hfails⟩ := hello_deadline_exact h
    obtain ⟨-, -, hexact⟩ := hundecided hopen hretried
    have harmed : m.state.world.deadline? firstLink = some d :=
      ((hexact t hwrite).1 d).mpr (by omega)
    refine ⟨m, t, d, w, h, hwrite, ht, harmed, hd, hread, ?_⟩
    rcases hfails 4 4 w _ hread with ⟨l, hl, hf⟩ | ⟨-, m₀, t₀, -, hlast, hwrite₀, hdue⟩
    · cases hf with
      | arrived hr => cases (hsilent l hl).symm.trans hr
    · exact ⟨m₀, t₀, hlast, hwrite₀, hdue⟩
  · have hm : ∃ m t, (silentSession ⟨Duration.maxNanos, Nat.le_refl _⟩).played
        [.call (.write [1])] = some m ∧
        m.state.isDecided = false ∧ m.state.memory.retried = false ∧
        m.journal.lastWrite firstLink = some t ∧ t.nanos = 50 ∧
        Instant.lastNanos < t.nanos + m.state.terms.timeout.nanos := by
      refine ⟨_, .ofNanos 50, rfl, ?_, ?_, ?_, ?_, ?_⟩
      · decide +kernel
      · decide +kernel
      · decide +kernel
      · decide +kernel
      · decide +kernel
    obtain ⟨m, t, hplayed, hopen, hretried, hwrite, ht, hbeyond⟩ := hm
    have h := reachable_of_played (Setup.keeps_anything _ _) hplayed
    obtain ⟨hundecided, -⟩ := hello_deadline_exact h
    obtain ⟨-, -, hexact⟩ := hundecided hopen hretried
    exact ⟨m, t, h, hwrite, ht, (hexact t hwrite).2.mpr hbeyond⟩

end StreamSession

end Redial
