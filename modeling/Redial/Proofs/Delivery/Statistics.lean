import Redial.Proofs.Delivery.Pieces
import Redial.Proofs.Progress.StaleDeadline
import Redial.Proofs.Wire.Trace

/-!
# What the statistics tell

The figures for the statistics are kept up to date by whichever call holds the lock, and given out
by the read that settles the question. As long as the question is open, the hello holds the writes
of callers that were accepted, one by one (`Reachable.tallied`). So the figures are those of the
journal as it is when the settlement is entered, and nothing that comes later is counted
(`statistics_tell_what_happened`).
-/

namespace Redial

namespace Journal

/-- The writes of callers that have been accepted, in order, over all connections. A write may be
accepted with no bytes. -/
def acceptances (j : Journal) : List Bytes := j.findings Event.acknowledged?

theorem acceptances_append {es : Journal} (h : ∀ e ∈ es, e.event.acknowledged? = none)
    (j : Journal) : acceptances (es ++ j) = j.acceptances := by
  have hnone : acceptances es = [] := by
    unfold acceptances findings
    rw [List.filterMap_eq_nil_iff.mpr h]
    rfl
  unfold acceptances at hnone ⊢
  rw [findings_append, hnone, List.append_nil]

theorem settlements_append (es j : Journal) :
    settlements (es ++ j) = settlements es + settlements j := List.countP_append

/-- A journal has one settlement, entered after `before`. -/
structure SettledAfter (j before : Journal) : Prop where
  entry : ∃ later e, j = later ++ e :: before ∧ e.event.isSettlement = true ∧
    settlements later = 0
  unsettled : before.settlements = 0

/-- If a settlement is counted once, there is no other one. -/
theorem SettledAfter.of_settlements {later before : Journal} {e : Entered}
    (he : e.event.isSettlement = true) (h : settlements (later ++ e :: before) = 1) :
    SettledAfter (later ++ e :: before) before := by
  rw [settlements_append, settlements_cons, he, if_pos rfl] at h
  exact ⟨⟨later, e, rfl, he, by omega⟩, by omega⟩

end Journal

namespace World

variable {w w' : World}

theorem acceptances_of_enters (h : w.Enters (·.acknowledged? = none) w') :
    w'.journal.acceptances = w.journal.acceptances := by
  obtain ⟨es, hj, he⟩ := h
  rw [hj]
  exact Journal.acceptances_append he _

theorem acceptances_write {i : LinkId} {k : TaskId} {buf bytes : Bytes}
    (h : w.write i (.call k) buf = some (w', .ok bytes)) :
    w'.journal.acceptances = w.journal.acceptances ++ [bytes] := by
  obtain ⟨l, l', -, -, rfl⟩ := write_eq_some h
  exact Journal.findings_cons _ _ _

end World

namespace Stream

/-- What a step does to the figures while the question is open. -/
inductive State.Counts (s : State) : State → Prop where
  /-- No write of a caller is accepted. -/
  | keeps {s₁ : State} (hd : s₁.memory.decision = s.memory.decision)
      (hh : s₁.memory.hello = s.memory.hello)
      (hw : s.world.Enters (·.acknowledged? = none) s₁.world) : Counts s s₁
  /-- A write of a caller is accepted, and remembered. -/
  | adds {s₁ : State} {bytes : Bytes} (hd : s₁.memory.decision = s.memory.decision)
      (hh : s₁.memory.hello = s.memory.hello.push bytes)
      (hw : s₁.journal.acceptances = s.journal.acceptances ++ [bytes]) : Counts s s₁
  /-- The question is settled. -/
  | settles {s' : State} (hm : s'.memory = s.memory) (ht : s'.terms = s.terms)
      (hw : s.world.Enters (·.acknowledged? = none) s'.world) : Counts s s'.settle

/-- The hello holds the writes of callers that were accepted. -/
def State.Tallied (s : State) : Prop :=
  s.isDecided = false → s.memory.hello.writes.reverse = s.journal.acceptances

/-- The figures of an account are those of a journal: how many bytes of callers were accepted, and
in how many writes. -/
structure Stats.Tells (stats : Stats) (j : Journal) : Prop where
  helloLen : stats.helloLen = j.acceptances.flatten.length
  chunks : stats.chunks = j.acceptances.length

section Steps

variable {k : TaskId} {s s₁ : State} {c : Call} {p : Progress Call Outcome}

theorem acknowledged?_readEvent {i : LinkId} (r : Except Fault Bytes) :
    (World.readEvent i k r).acknowledged? = none := by
  cases r <;> rfl

theorem acknowledged?_replayEvent (i : LinkId) (buf : Bytes) (r : Except Fault Bytes) :
    (World.writeEvent i (.replay k) buf r).acknowledged? = none := by
  cases r <;> rfl

theorem Effect.counts (h : Effect k s c s₁ p) (hs : s.Sound) (hc : c.Phase s)
    (hd : s.isDecided = false) : s.Counts s₁ := by
  have hreplay : ∀ {buf w r}, s.world.write s.memory.current (.replay k) buf = some (w, r) →
      s.world.Enters (·.acknowledged? = none) w :=
    fun hw => .write hw (acknowledged?_replayEvent _ _ _)
  have hdial : ∀ {dial w r}, s.world.dialled dial = some (w, r) →
      s.world.Enters (·.acknowledged? = none) w := fun hr => .dialled hr rfl fun _ => rfl
  -- While the question is open, no call is on its way to a final connection.
  have hfinal : ∀ {link}, s.finalLink? ≠ some link := by
    intro link hlink
    rw [State.isDecided_eq_false_iff.mp hd] at hlink
    cases hlink
  cases h with
  | passes => exact .keeps rfl rfl (.refl _)
  | @asksShut half => cases half <;> exact .keeps rfl rfl (.refl _)
  | reads hr => exact .keeps rfl rfl (.read hr (acknowledged?_readEvent _))
  | settlesAtEnd => exact .settles rfl rfl (.refl _)
  | settlesOnBytes => exact .settles rfl rfl (.setDeadline rfl)
  | settlesOnFault => exact .settles rfl rfl (.note rfl)
  | retries =>
    obtain ⟨l, hl⟩ := hs.current_isSome
    rw [beginRetry_eq hl]
    exact .keeps rfl rfl (enters_retryWorld _ _ _ (fun _ => rfl) rfl (fun _ => rfl) rfl)
  | redials hr => exact .keeps rfl rfl ((hdial hr).trans (.note rfl))
  | redialFails hr => exact .settles rfl rfl ((hdial hr).trans (.note rfl))
  | replays _ hw | replayInterrupted _ hw => exact .keeps rfl rfl (hreplay hw)
  | replayFails _ hw => exact .settles rfl rfl ((hreplay hw).trans (.note rfl))
  | reshutsRead hw | reshutsWrite hw | shuts hw => exact .keeps rfl rfl (.shut hw rfl)
  | reshutFails hw => exact .settles rfl rfl (.shut hw rfl)
  | answers hr => exact .settles rfl rfl (.read hr (acknowledged?_readEvent _))
  | sends hw =>
    refine .adds rfl rfl ?_
    exact (World.acceptances_of_enters (.setDeadline rfl)).trans (World.acceptances_write hw)
  | sendFails hw =>
    refine .keeps rfl rfl (World.Enters.trans (.write hw rfl) ?_)
    exact World.Enters.trans (.setDeadline rfl) (.note rfl)
  | sendsTo => exact absurd hc hfinal
  | bare => exact absurd hc.1 hfinal

theorem State.Tallied.counts (h : s.Tallied) (hd : s.isDecided = false) (hcounts : s.Counts s₁) :
    s₁.Tallied := by
  have hold := h hd
  intro hopen
  cases hcounts with
  | keeps _ hh hw =>
    rw [hh, hold]
    exact (World.acceptances_of_enters hw).symm
  | adds _ hh hw =>
    rw [hh, hw, ← hold]
    exact List.reverse_cons
  | settles =>
    rw [State.isDecided_settle] at hopen
    cases hopen

/-- While the question is open, the figures are those of the journal. -/
theorem State.Tallied.tells (h : s.Tallied) (hd : s.isDecided = false) :
    s.statsNow.Tells s.journal := by
  have hold := h hd
  constructor
  · rw [← hold]
    rfl
  · rw [← hold, List.length_reverse]
    rfl

end Steps

end Stream

namespace StreamSession

open Redial.Stream

variable {rule : Rule} {setup : Setup} {m m' : Moment} {k : TaskId} {r : Except Fault Bytes}

theorem Reachable.tallied (h : Reachable rule setup m) : m.state.Tallied := by
  refine Reachable.induction (P := fun m => m.state.Tallied) h ?_ ?_
  · intro s hs _
    obtain ⟨now, script, timeout, -, hm, -, hj⟩ := opening_eq_opened hs
    show s.memory.hello.writes.reverse = s.world.journal.acceptances
    rw [hm, hj]
    rfl
  · intro m m' hm ih hn
    rcases hn.split with ⟨action, machine, -, ha, rfl⟩ | ⟨k, c, s, p, hk, hstep, rfl⟩
    · intro hopen
      have hg := ha.sameGuarded
      have hsame : machine.env.journal.acceptances = m.state.journal.acceptances :=
        World.acceptances_of_enters ha.enters
      show machine.env.memory.hello.writes.reverse = machine.env.journal.acceptances
      rw [hg.hello, hsame]
      exact ih (hg.isDecided.symm.trans hopen)
    · obtain ⟨s₁, l, he, -, rfl⟩ := does_of_step hstep
      rw [Moment.state_advance]
      intro hopen
      have hc : c.Phase m.state := hm.phase hk
      cases hd : m.state.isDecided with
      | false =>
        have hnew : s₁.Tallied := ih.counts hd (he.counts hm.sound hc hd)
        exact hnew hopen
      | true =>
        have hsettled := (he.settled hd (hc.not_provisional hd)).isDecided.trans hd
        cases hopen.symm.trans hsettled

/-- The read that settles the question gives out the figures of the journal as it is when the
settlement is entered. -/
theorem Moment.EndsRead.tells (hr : m.EndsRead k r m') (h : Reachable rule setup m)
    (hd : m.state.isDecided = false) (hd' : m'.state.isDecided = true) :
    ∃ stats e before, m'.state.stats? = some stats ∧ m'.journal = e :: before ∧
      e.event.isSettlement = true ∧ stats.Tells before ∧ stats.split = m'.state.memory.split ∧
      stats.retried = m'.state.memory.retried ∧ stats.timeout = m'.state.terms.timeout := by
  obtain ⟨c, s₁, l, hk, he, rfl⟩ := hr.toMoves.ends h hr.ended
  rw [Moment.state_advance] at hd'
  unfold Moment.journal
  rw [Moment.state_advance, Machine.env_advance]
  have hc : c.Phase m.state := h.phase hk
  have hunsettled : s₁.memory.decision ≠ m.state.memory.decision := by
    intro hsame
    have hdecided : s₁.isDecided = m.state.isDecided := congrArg Latch.isSet hsame
    cases hd.symm.trans (hdecided.symm.trans hd')
  cases he.counts h.sound hc hd with
  | keeps hsame => exact absurd hsame hunsettled
  | adds hsame => exact absurd hsame hunsettled
  | @settles s' hm ht hw =>
    have hopen : s'.isDecided = false := by
      unfold State.isDecided
      rw [hm]
      exact hd
    have hnow : s'.statsNow = m.state.statsNow := by
      unfold State.statsNow
      rw [hm, ht]
    have htold := h.tallied.tells hd
    have hsame := World.acceptances_of_enters hw
    refine ⟨m.state.statsNow, _, s'.world.journal, ?_, rfl, rfl, ⟨?_, ?_⟩, ?_, ?_, ?_⟩
    · rw [← hnow]
      exact State.stats?_settle hopen
    · rw [hsame]
      exact htold.helloLen
    · rw [hsame]
      exact htold.chunks
    · exact (congrArg Memory.split hm).symm
    · exact (congrArg Memory.retried hm).symm
    · exact (congrArg Terms.timeout ht).symm

/-- While the question is open there is no account. Once it is settled the account tells what
happened before the only settlement: how many bytes of callers had been accepted, in how many writes
(those accepted with no bytes among them), whether a second dial call was made, and the timeout of
the stream. Of the journal only the part before the settlement is counted, and there only writes of
callers that were accepted: not those that failed or were dropped, nor those of the replay. -/
theorem statistics_tell_what_happened {setup : Setup} {m : Moment}
    (h : Reachable anything setup m) :
    (m.state.isDecided = false → m.state.stats? = none) ∧
    (m.state.isDecided = true → ∃ stats before, m.state.stats? = some stats ∧
      m.journal.SettledAfter before ∧ stats.Tells before ∧
      m.journal.dials.length = (if stats.retried then 2 else 1) ∧
      stats.timeout = m.state.terms.timeout ∧
      stats.timeout = setup.config.timeoutFor setup.clock setup.dialEnd) := by
  refine ⟨State.stats?_of_open, fun hd => ?_⟩
  have hq := (inductive_questioned.holds h).1
  obtain ⟨m₀, m₁, k, r, h₀, hopen, hr, hd₁, hl⟩ := h.settled hd
  have h₁ := h₀.leads (.single hr.next)
  have hg := hl.sameGuarded h₁ hd₁
  obtain ⟨stats, e, before, hstats, hj₁, he, htells, -, hretried, htimeout⟩ :=
    hr.tells h₀ hopen hd₁
  obtain ⟨later, hj⟩ := Moment.Leads.journal hl h₁
  rw [hj₁] at hj
  have honce : m.journal.settlements = 1 := by
    rw [hq.settlements, hd]
    rfl
  have hsettled : m.journal.SettledAfter before := by
    rw [← hj] at honce ⊢
    exact .of_settlements he honce
  have htimeout' : stats.timeout = m.state.terms.timeout := by rw [htimeout, h₁.terms, h.terms]
  refine ⟨stats, before, hg.stats?.trans hstats, hsettled, htells, ?_, htimeout',
    htimeout'.trans (congrArg Terms.timeout h.terms)⟩
  rw [hretried, ← hg.retried]
  exact hq.dials.trans h.sound.dials

/-- A session whose first connection takes a write, takes nothing of the next one and fails the
third, and is reset once a gate is opened. -/
def countedSession : Setup :=
  .localhost 1
    [dialledAtOnce { LinkScript.silent with
      reads := [⟨some "reset", .fault (.ofKind .connectionReset)⟩]
      writes := [⟨none, .usual⟩, ⟨none, .atMost 0⟩, ⟨none, .fault (.ofKind .brokenPipe)⟩] },
      dialledAtOnce .silent]

/-- The write that failed goes to the second connection after the settlement. It is accepted then,
but it is not counted. -/
theorem statistics_leave_late_write_out : ∃ m stats before,
    Reachable anything countedSession m ∧ m.journal.acceptances = [[1, 2, 3], [], [5]] ∧
    m.state.stats? = some stats ∧ m.journal.SettledAfter before ∧ stats.Tells before ∧
    stats.helloLen = 3 ∧ stats.chunks = 2 ∧ stats.retried = true ∧
    m.journal.dials.length = 2 := by
  have hm : ∃ m, countedSession.played [.call (.write [1, 2, 3]), .call (.write [4]),
      .call (.write [5]), .call (.read 4), .openGate "reset", reply] = some m ∧
      m.state.isDecided = true ∧ m.journal.acceptances = [[1, 2, 3], [], [5]] ∧
      ∀ stats ∈ m.state.stats?,
        stats.helloLen = 3 ∧ stats.chunks = 2 ∧ stats.retried = true := by
    refine ⟨_, rfl, ?_, ?_, ?_⟩
    · decide +kernel
    · decide +kernel
    · decide +kernel
  obtain ⟨m, hplayed, hd, hwrites, hfigures⟩ := hm
  have h := reachable_of_played (Setup.keeps_anything _ _) hplayed
  obtain ⟨stats, before, hstats, hsettled, htells, hdials, -⟩ :=
    (statistics_tell_what_happened h).2 hd
  obtain ⟨hlen, hchunks, hretried⟩ := hfigures stats hstats
  rw [hretried] at hdials
  exact ⟨m, stats, before, h, hwrites, hstats, hsettled, htells, hlen, hchunks, hretried, hdials⟩

end StreamSession

end Redial
