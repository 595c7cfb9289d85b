import Redial.Proofs.Delivery.ReplayCount
import Redial.Proofs.Delivery.Statistics

/-!
# What is reported of a replay that is given up

The place of the cut is remembered as soon as the retry has obtained a connection, before anything
is replayed, and it is reported whatever becomes of the replay. It is missing just if no connection
was obtained. A replay is given up when one of its writes fails for good, or when its read is
dropped; nothing takes it up again, so the second connection is left with a part of the hello, and
the report of the place is wrong then and only then (`split_right_iff_replay_completed`).
-/

namespace Redial

namespace Stream

section Steps

variable {k : TaskId} {s s₁ : State} {c c' : Call} {o : Outcome} {hello : Bytes} {place : Nat}

/-! ## Steps of a replay -/

/-- A call with part of a replay before it goes on with it, or has completed it. -/
theorem Effect.goesOn_replaying (h : Effect k s c s₁ (.goesOn c')) (hc : c.isReplaying = true) :
    c'.isReplaying = true ∨ c'.isReplayed = true := by
  have hsecond : ∀ {len cut} (rest : Bytes),
      (Call.replaying len cut .second rest).isReplaying = true ∨
        (Call.replaying len cut .second rest).isReplayed = true := by
    intro len cut rest
    cases rest with
    | nil => exact Or.inr rfl
    | cons b bs => exact Or.inl rfl
  generalize hp : Progress.goesOn (ω := Outcome) c' = p at h
  cases h with
  | passes hpass =>
    cases hpass with
    | nextPiece =>
      cases hp
      exact hsecond _
    | _ => cases hc
  | @replays len cut piece rest w bytes =>
    cases hp
    cases piece with
    | first => exact Or.inl rfl
    | second => exact hsecond _
  | replayInterrupted =>
    cases hp
    exact Or.inl hc
  | replayFails => cases hp
  | _ => cases hc

/-- A call with part of a replay before it ends with a write that fails for good. -/
theorem Effect.done_replaying (h : Effect k s c s₁ (.done o)) (hc : c.isReplaying = true) :
    ∃ len cut piece rest w r f, c = .replaying len cut piece rest ∧ rest ≠ [] ∧
      s.world.write s.memory.current (.replay k) rest = some (w, r) ∧ ReplayFails r f ∧
      s₁ = ((s.withWorld w).note (.replayFailed f)).settle ∧
      o = .read (.error (.retry (.replay (piece.before cut)) f)) := by
  generalize hp : Progress.done (κ := Call) o = p at h
  cases h with
  | passes hpass =>
    cases hpass with
    | nextPiece => cases hp
    | _ => cases hc
  | replayFails hrest hw hf =>
    cases hp
    exact ⟨_, _, _, _, _, _, _, rfl, hrest, hw, hf, rfl, rfl⟩
  | replays | replayInterrupted => cases hp
  | _ => cases hc

/-! ## How much has been replayed -/

/-- While part of a replay is left, the writes of it that were accepted are short of the hello. -/
theorem Call.Parts.short (h : c.Parts hello place s) (hc : c.isReplaying = true)
    (hplace : place < hello.length) :
    (s.journal.beginnings secondLink).flatten.length < hello.length := by
  cases c with
  | replaying len cut piece rest =>
    obtain ⟨-, huses, -, hp⟩ := h
    rw [Journal.beginnings_of_all huses]
    cases piece with
    | first =>
      have hlen := congrArg List.length hp
      rw [List.length_append, List.length_take] at hlen
      show (s.journal.bytesAccepted secondLink).length < _
      omega
    | second =>
      obtain ⟨firsts, seconds, hw, hf, hs⟩ := hp
      have hrest : 0 < rest.length := by
        cases rest with
        | nil => cases hc
        | cons b bs => exact Nat.succ_pos _
      have hlen := congrArg List.length hs
      rw [List.length_append, List.length_drop] at hlen
      rw [hw, List.flatten_append, List.length_append, hf, List.length_take]
      omega
  | _ => cases hc

/-- The write with which a replay fails brings the connection nothing. -/
theorem beginnings_replayFails {rest : Bytes} {w : World} {r : Except Fault Bytes} {f : Fault}
    (hw : s.world.write secondLink (.replay k) rest = some (w, r)) (hf : ReplayFails r f)
    (huses : ∀ e ∈ s.journal.uses secondLink, e.isReplay = true) :
    (w.journal.beginnings secondLink).flatten = (s.journal.beginnings secondLink).flatten := by
  have hsame : s.world.SameAccepted w := by
    cases hf with
    | stuck => exact .writeStuck hw
    | fault => exact .writeFailed hw
  rw [Journal.beginnings_of_all huses, Journal.beginnings_of_all (forall_uses_replay hw huses)]
  exact hsame.bytesAccepted secondLink

theorem beginnings_of_enters {w w' : World} (hw : w.Enters (·.isReplay = false) w') :
    w'.journal.beginnings secondLink = w.journal.beginnings secondLink := by
  obtain ⟨es, hj, he⟩ := hw
  rw [hj]
  exact Journal.beginnings_append he

/-- A connection has been begun with an empty hello as long as nothing has been replayed. -/
theorem begunInPieces_nil {j : Journal} {i : LinkId} (h : ∀ e ∈ j, e.event.isReplay = false) :
    j.BegunInPieces [] place i := by
  have hnone : j.beginnings i = [] := by
    have happend : (j ++ []).beginnings i = Journal.beginnings [] i := Journal.beginnings_append h
    rw [List.append_nil] at happend
    exact happend
  exact ⟨[], [], hnone, List.take_nil.symm, List.drop_nil.symm,
    fun _ hb => absurd hb List.not_mem_nil⟩

/-- A connection that was begun in pieces has accepted all of the hello at first. -/
theorem length_of_begunInPieces {j : Journal} {i : LinkId} (h : j.BegunInPieces hello place i) :
    (j.beginnings i).flatten.length = hello.length := by
  obtain ⟨firsts, seconds, hb, hf, hs, -⟩ := h
  rw [hb, List.flatten_append, hf, hs, List.take_append_drop]

end Steps

end Stream

namespace StreamSession

open Redial.Stream

variable {rule : Rule} {setup : Setup} {m m₀ m₁ m' : Moment} {k : TaskId} {hello : Bytes}
  {place : Nat} {strategy : SplitStrategy} {stats : Stats}

/-! ## Replays that are given up -/

/-- The read of task `k` has part of a replay before it, and gives it up. -/
inductive Moment.GivesUpReplay (k : TaskId) (m : Moment) : Moment → Prop where
  /-- It is dropped. -/
  | dropped {c} (hk : ⟨k, c⟩ ∈ m.machine.tasks) (hc : Call.isReplaying c = true) :
      GivesUpReplay k m (m.act (.cancel k))
  /-- It ends, because a write of the replay has failed. -/
  | fails {c m' n cause} (hk : ⟨k, c⟩ ∈ m.machine.tasks) (hc : Call.isReplaying c = true)
      (hr : m.EndsRead k (.error (.retry (.replay n) cause)) m') : GivesUpReplay k m m'

/-- On the way from one moment to another, the read of task `k` has given up a replay. -/
def Moment.GaveUpReplay (k : TaskId) (m m' : Moment) : Prop :=
  ∃ m₁ m₂, m.Leads anything m₁ ∧ m₁.GivesUpReplay k m₂ ∧ m₂.Leads anything m'

theorem Moment.GivesUpReplay.next (hg : m.GivesUpReplay k m') : m.Next anything m' := by
  cases hg with
  | dropped => exact .act _ trivial
  | fails _ _ hr => exact hr.next

theorem Moment.GivesUpReplay.replaying (hg : m.GivesUpReplay k m') :
    ∃ c, ⟨k, c⟩ ∈ m.machine.tasks ∧ Call.isReplaying c = true := by
  cases hg with
  | dropped hk hc | fails hk hc => exact ⟨_, hk, hc⟩

theorem Call.renews_of_isReplaying {c : Call} (hc : c.isReplaying = true) : c.renews = true := by
  rw [← Bool.not_eq_false]
  intro hnot
  cases hc.symm.trans (Call.isReplaying_of_not_renews hnot)

/-- Nobody else is left with a replay before it. -/
theorem Moment.GivesUpReplay.past (hg : m.GivesUpReplay k m') (h : Reachable anything setup m) :
    m'.PastReplay := by
  obtain ⟨c, hk, hc⟩ := hg.replaying
  have hrenews := Call.renews_of_isReplaying hc
  have hcur := ((h.phase hk).of_renews hrenews).1
  refine ⟨Moment.Leads.second (.single hg.next) h hcur, fun j d hj => ?_⟩
  have hothers : ⟨j, d⟩ ∈ m.machine.tasks ∧ j ≠ k := by
    cases hg with
    | dropped => exact Machine.mem_cancel_iff.mp hj
    | fails _ _ hr =>
      obtain ⟨c, s₁, l, -, -, rfl⟩ := hr.toMoves.ends h hr.ended
      rcases Machine.mem_advance hj with ⟨c', hgo, -⟩ | hother
      · cases hgo
      · exact hother
  rw [← Bool.not_eq_true]
  intro hd
  have hmine := h.holder hk (Call.holds_of_renews hrenews)
  have hother := h.holder hothers.1 (Call.holds_of_renews (Call.renews_of_isReplaying hd))
  exact hothers.2 (Option.some.inj (hother.symm.trans hmine))

/-- What has been replayed then is short of the hello. -/
theorem Moment.GivesUpReplay.short (hg : m.GivesUpReplay k m') (h : Reachable anything setup m)
    (hcut : m.CutAt hello place strategy) (hplace : place < hello.length) :
    (m'.journal.beginnings secondLink).flatten.length < hello.length := by
  obtain ⟨c, hk, hc⟩ := hg.replaying
  have hshort := (hcut.parts k c hk).short hc hplace
  cases hg with
  | dropped =>
    have henv : (m.act (.cancel k)).journal.beginnings secondLink =
        m.journal.beginnings secondLink := beginnings_of_enters (acts_act m (.cancel k)).enters
    rw [henv]
    exact hshort
  | fails _ _ hr =>
    obtain ⟨d, s₁, l, hd, he, rfl⟩ := hr.toMoves.ends h hr.ended
    cases Machine.call_unique h.numbered.nodup hk hd
    obtain ⟨len, cut, piece, rest, w, r, f, rfl, -, hw, hf, rfl, -⟩ := he.done_replaying hc
    obtain ⟨-, huses, -⟩ := hcut.parts k _ hk
    rw [hcut.current] at hw
    unfold Moment.journal
    rw [Machine.env_advance]
    have hlater : World.Enters (·.isReplay = false) w
        (((m.state.withWorld w).note (.replayFailed f)).settle.withLock l).world :=
      World.Enters.trans (.note rfl) (.note rfl)
    rw [beginnings_of_enters hlater, beginnings_replayFails hw hf huses]
    exact hshort

/-- After the replay nothing is added to what the second connection was begun with. -/
theorem Moment.PastReplay.beginnings (hpast : m.PastReplay) (h : Reachable rule setup m)
    (hn : m.Next rule m') :
    m'.journal.beginnings secondLink = m.journal.beginnings secondLink := by
  rcases hn.split with ⟨action, machine, -, ha, rfl⟩ | ⟨k, c, s, p, hk, hstep, rfl⟩
  · exact beginnings_of_enters ha.enters
  · obtain ⟨s₁, l, he, -, rfl⟩ := does_of_step hstep
    unfold Moment.journal
    rw [Machine.env_advance]
    exact beginnings_of_enters (he.enters_no_replay h.sound (hpast.rest k c hk))

/-! ## The retry that obtains a connection -/

/-- The second connection is in use only after a retry has obtained it. -/
theorem Reachable.obtained (h : Reachable rule setup m)
    (hcur : m.state.memory.current = secondLink) :
    ∃ m₀ m₁ k, Reachable rule setup m₀ ∧ m₀.Obtains k m₁ ∧ m₁.Leads rule m := by
  refine Reachable.induction (P := fun m => m.state.memory.current = secondLink →
    ∃ m₀ m₁ k, Reachable rule setup m₀ ∧ m₀.Obtains k m₁ ∧ m₁.Leads rule m) h ?_ ?_ hcur
  · intro s hs hcur
    rw [show (Moment.first s).state.memory = _ from memory_of_opening hs] at hcur
    cases hcur
  · intro m m' hm ih hn hcur
    rcases hm.sound.current with hfirst | ⟨hsecond, -⟩
    · cases hn with
      | act action allowed =>
        have hsame := (acts_act m action).sameGuarded.current
        rw [show (m.act action).state.memory.current = _ from hsame, hfirst] at hcur
        cases hcur
      | @step machine k hs =>
        exact ⟨m, ⟨m.actions, machine⟩, k, hm, ⟨⟨hs, rfl⟩, hfirst, hcur⟩, .refl⟩
    · obtain ⟨m₀, m₁, k, h₀, ho, hl⟩ := ih hsecond
      exact ⟨m₀, m₁, k, h₀, ho, hl.tail hn⟩

/-- A retry that has obtained a connection has part of the replay before it. -/
theorem Moment.Obtains.replaying (ho : m₀.Obtains k m₁) (h : Reachable rule setup m₀) :
    ∃ c, ⟨k, c⟩ ∈ m₁.machine.tasks ∧ Call.isReplaying c = true := by
  obtain ⟨c, s₁, l, p, hk, he, rfl⟩ := ho.toMoves.effect
  have hafter : s₁.memory.current = secondLink := by
    have hcur := ho.after
    rw [Moment.state_advance] at hcur
    exact hcur
  obtain ⟨len, dial, w, link, rfl, -, rfl, rfl⟩ := he.redials_of_current h.sound ho.before hafter
  exact ⟨_, Machine.mem_advance_self hk, rfl⟩

/-- A step of the read that replays goes on with the replay, completes it, or fails in it. -/
theorem Moment.Moves.replay (hmove : m.Moves k m') (h : Reachable anything setup m) {c : Call}
    (hk : ⟨k, c⟩ ∈ m.machine.tasks) (hc : c.isReplaying = true) :
    (∃ c', ⟨k, c'⟩ ∈ m'.machine.tasks ∧ Call.isReplaying c' = true) ∨
      m'.replayed = true ∨ m.GivesUpReplay k m' := by
  obtain ⟨d, s₁, l, p, hd, he, rfl⟩ := hmove.effect
  cases Machine.call_unique h.numbered.nodup hk hd
  cases p with
  | goesOn c' =>
    rcases he.goesOn_replaying hc with hc' | hc'
    · exact Or.inl ⟨c', Machine.mem_advance_self hk, hc'⟩
    · exact Or.inr (Or.inl (List.any_eq_true.mpr ⟨_, Machine.mem_advance_self hk, hc'⟩))
  | done o =>
    obtain ⟨len, cut, piece, rest, w, r, f, -, -, -, -, -, rfl⟩ := he.done_replaying hc
    exact Or.inr (Or.inr (.fails hk hc ⟨hmove, List.mem_cons_self⟩))

/-- What happens next leaves a replay under way, completes it, or gives it up. -/
theorem Moment.Next.replay (hn : m.Next anything m') (h : Reachable anything setup m) {c : Call}
    (hk : ⟨k, c⟩ ∈ m.machine.tasks) (hc : c.isReplaying = true) :
    (∃ c', ⟨k, c'⟩ ∈ m'.machine.tasks ∧ Call.isReplaying c' = true) ∨
      m'.replayed = true ∨ m.GivesUpReplay k m' := by
  cases hn with
  | act action allowed =>
    rcases (acts_act m action).keeps hk with hk' | rfl
    · exact Or.inl ⟨c, hk', hc⟩
    · exact Or.inr (Or.inr (.dropped hk hc))
  | @step machine j hs =>
    by_cases hjk : k = j
    · subst hjk
      exact Moment.Moves.replay ⟨hs, rfl⟩ h hk hc
    · obtain ⟨d, s, p, -, -, rfl⟩ := Machine.step_eq_some hs
      exact Or.inl ⟨c, Machine.mem_advance_of_ne hk hjk _ _, hc⟩

/-- A replay that was under way still is, has been completed, or has been given up. -/
theorem Moment.Leads.replay (hl : m₁.Leads anything m) (h : Reachable anything setup m₁)
    (hk : ∃ c, ⟨k, c⟩ ∈ m₁.machine.tasks ∧ Call.isReplaying c = true) :
    (∃ c, ⟨k, c⟩ ∈ m.machine.tasks ∧ Call.isReplaying c = true) ∨
    (∃ m₂, m₁.Leads anything m₂ ∧ m₂.Leads anything m ∧ m₂.replayed = true) ∨
    m₁.GaveUpReplay k m := by
  induction hl with
  | refl => exact Or.inl hk
  | tail hl hn ih =>
    rcases ih with ⟨c, hk, hc⟩ | ⟨m₂, hl₂, hl', hr⟩ | ⟨m₂, m₃, hl₂, hg, hl'⟩
    · rcases hn.replay (h.leads hl) hk hc with hunder | hr | hg
      · exact Or.inl hunder
      · exact Or.inr (Or.inl ⟨_, hl.tail hn, .refl, hr⟩)
      · exact Or.inr (Or.inr ⟨_, _, hl, hg, .refl⟩)
    · exact Or.inr (Or.inl ⟨m₂, hl₂, hl'.tail hn, hr⟩)
    · exact Or.inr (Or.inr ⟨m₂, m₃, hl₂, hg, hl'.tail hn⟩)

/-- From the step on in which a retry has obtained a connection, the hello is cut. -/
theorem Moment.Obtains.cutFrom (ho : m₀.Obtains k m₁) (h : Reachable rule setup m₀)
    (hhello : hello = m₀.state.memory.hello.bytes)
    (hplace : place = Cut.place (setup.strategy.offset hello.length).1 hello.length)
    (hl : m₁.Leads rule m) : ∃ strategy, m.CutAt hello place strategy := by
  have hle : place ≤ hello.length := hplace ▸ Cut.place_le _ _
  have h₁ := h.leads (.single ho.toMoves.next)
  exact ⟨_, hl.keeps h₁ (ho.cutAt h hhello hplace) fun _ _ hm hcut hn => hcut.next hle hm hn⟩

/-- A replay that has been given up has left the second connection with a part of the hello. -/
theorem Moment.GaveUpReplay.short (hgave : m₁.GaveUpReplay k m) (h : Reachable anything setup m₁)
    (hcut : ∀ m₂, m₁.Leads anything m₂ → ∃ strategy, m₂.CutAt hello place strategy)
    (hplace : place < hello.length) :
    (m.journal.beginnings secondLink).flatten.length < hello.length := by
  obtain ⟨m₂, m₃, hl₂, hg, hl⟩ := hgave
  have h₂ := h.leads hl₂
  obtain ⟨strategy, hcut₂⟩ := hcut m₂ hl₂
  have hstays := hl.keeps (P := fun m => m.PastReplay ∧
    (m.journal.beginnings secondLink).flatten.length < hello.length)
    (h₂.leads (.single hg.next)) ⟨hg.past h₂, hg.short h₂ hcut₂ hplace⟩
    fun _ _ hm hP hn => ⟨(hP.1.next hm hn).1, (hP.1.beginnings hm hn).symm ▸ hP.2⟩
  exact hstays.2

/-! ## What is reported -/

/-- The place that is reported is the one that is remembered. -/
theorem Reachable.split_eq (h : Reachable rule setup m) (hstats : m.state.stats? = some stats) :
    stats.split = m.state.memory.split := by
  have hd : m.state.isDecided = true := by
    rw [← Bool.not_eq_false]
    intro hopen
    rw [State.stats?_of_open hopen] at hstats
    cases hstats
  obtain ⟨m₀, m₁, k, r, h₀, hopen, hr, hd₁, hl⟩ := h.settled hd
  have hg := hl.sameGuarded (h₀.leads (.single hr.next)) hd₁
  obtain ⟨stats₁, e, before, hstats₁, -, -, -, hsplit, -⟩ := hr.tells h₀ hopen hd₁
  cases hstats.symm.trans (hg.stats?.trans hstats₁)
  exact hsplit.trans hg.split.symm

/-- The place of the cut is reported just if the retry has obtained a connection, whatever became of
the replay. So it is missing if no retry was attempted, if its dial failed, and if its read was
dropped in the dial. It is right, that is the second connection was begun with all of the hello and
its first piece ahead of the cut, just if the replay was not given up: its read was not dropped, and
no write of it failed for good, while part of the hello was left. Of an empty hello nothing is. -/
theorem split_right_iff_replay_completed {setup : Setup} {m : Moment} {stats : Stats}
    (h : Reachable anything setup m) (hstats : m.state.stats? = some stats) :
    (stats.split = none ↔ m.state.world.link? secondLink = none) ∧
    (stats.split ≠ none → ∃ m₀ m₁ k, Reachable anything setup m₀ ∧ m₀.Obtains k m₁ ∧
      m₁.Leads anything m) ∧
    ∀ m₀ m₁ k hello place, Reachable anything setup m₀ → m₀.Obtains k m₁ → m₁.Leads anything m →
      hello = m₀.state.memory.hello.bytes →
      place = min (setup.strategy.offset hello.length).1 (hello.length / 2) →
      stats.split = some place ∧
      (m.journal.BegunInPieces hello place secondLink ↔ hello = [] ∨ ¬m₁.GaveUpReplay k m) := by
  have hsplit := h.split_eq hstats
  have hnone : stats.split = none ↔ m.state.memory.current ≠ secondLink := by
    rw [hsplit, h.split_eq_none_iff]
    rcases h.sound.current with hcur | ⟨hcur, -⟩ <;> rw [hcur] <;> decide
  refine ⟨?_, fun hsome => ?_, ?_⟩
  · rw [hnone, ← Option.not_isSome_iff_eq_none, h.sound.second]
  · rw [ne_eq, hnone, not_not] at hsome
    exact h.obtained hsome
  · intro m₀ m₁ k hello place h₀ ho hl hhello hplace
    have h₁ := h₀.leads (.single ho.toMoves.next)
    have hcuts := fun m₂ (hl₂ : m₁.Leads anything m₂) => ho.cutFrom h₀ hhello hplace hl₂
    obtain ⟨strategy, hcut⟩ := hcuts m hl
    refine ⟨hsplit.trans hcut.split, fun hb => ?_, fun hkept => ?_⟩
    · rw [or_iff_not_imp_left]
      intro hne hgave
      have hpos := List.length_pos_iff.mpr hne
      have hshort := hgave.short h₁ hcuts (by omega)
      rw [length_of_begunInPieces hb] at hshort
      exact Nat.lt_irrefl _ hshort
    · rcases hkept with rfl | hkept
      · exact begunInPieces_nil hcut.keeps.nothing
      · rcases hl.replay h₁ (ho.replaying h₀) with ⟨c, hk, hc⟩ | ⟨m₂, hl₂, hl', hr⟩ | hgave
        · -- The question is open while the replay is under way.
          have hopen := ((h.phase hk).of_renews (Call.renews_of_isReplaying hc)).2
          rw [State.stats?_of_open hopen] at hstats
          cases hstats
        · obtain ⟨strategy, hcut₂⟩ := hcuts m₂ hl₂
          exact hcut₂.begun (h₁.leads hl₂) hr hl'
        · exact absurd hgave hkept

/-- A read that is dropped in the replay leaves the place to the account of the next one. -/
theorem split_wrong_after_dropped_replay : ∃ m stats, Reachable anything slowWritesSession m ∧
    m.state.stats? = some stats ∧ stats.retried = true ∧ stats.split = some 1 ∧
    m.journal.bytesAccepted secondLink = [] ∧
    ¬m.journal.BegunInPieces [1, 2, 3] 1 secondLink := by
  have hm : ∃ m₀, slowWritesSession.played [.call (.write [1, 2, 3]), .call (.read 4)] = some m₀ ∧
      ∃ m₁ ∈ (m₀.act (.openGate "redial")).move? 1,
        m₀.state.memory.hello.bytes = [1, 2, 3] ∧ m₀.state.memory.current = firstLink ∧
        m₁.state.memory.current = secondLink ∧
        (∃ t ∈ m₁.machine.tasks, t.id = 1 ∧ t.call.isReplaying = true) ∧
        ((m₁.act (.cancel 1)).play [.call (.read 4), reply]).journal.bytesAccepted secondLink
          = [] ∧
        ∃ stats ∈ ((m₁.act (.cancel 1)).play [.call (.read 4), reply]).state.stats?,
          stats.retried = true := by
    refine ⟨_, rfl, ?_⟩
    decide +kernel
  obtain ⟨m₀, hplayed, m₁, hmove, hhello, hcur, hcur₁, ⟨⟨_, c⟩, hk, rfl, hc⟩, hnothing, stats,
    hstats, hretried⟩ := hm
  have h₀ : Reachable anything slowWritesSession (m₀.act (.openGate "redial")) :=
    (reachable_of_played (Setup.keeps_anything _ _) hplayed).leads (.single (.act _ trivial))
  have ho : (m₀.act (.openGate "redial")).Obtains 1 m₁ :=
    ⟨Moment.moves_of_move? hmove, hcur, hcur₁⟩
  have h₁ := h₀.leads (.single ho.toMoves.next)
  have hgives : m₁.GivesUpReplay 1 (m₁.act (.cancel 1)) := .dropped hk hc
  have hl : (m₁.act (.cancel 1)).Leads anything
      ((m₁.act (.cancel 1)).play [.call (.read 4), reply]) :=
    Moment.leads_play (Moment.keeps_anything _ _)
  have hl₁ := (Relation.ReflTransGen.single hgives.next).trans hl
  obtain ⟨-, -, hright⟩ := split_right_iff_replay_completed (h₁.leads hl₁) hstats
  obtain ⟨hsplit, hbegun⟩ := hright _ m₁ 1 _ _ h₀ ho hl₁ hhello.symm rfl
  refine ⟨_, stats, h₁.leads hl₁, hstats, hretried, hsplit, hnothing, fun hb => ?_⟩
  rcases hbegun.mp hb with hempty | hkept
  · cases hempty
  · exact hkept ⟨m₁, _, .refl, hgives, hl⟩

/-- A write of the replay fails after one byte, and the account tells the place all the same. -/
theorem split_reported_after_failed_replay : ∃ m stats,
    Reachable anything (brokenWriteSession (.atMost 1)) m ∧ m.state.stats? = some stats ∧
    stats.retried = true ∧ stats.split = some 2 ∧ m.journal.acknowledged = [1, 2, 3, 4] ∧
    m.journal.bytesAccepted secondLink = [1] := by
  have hm : ∃ m, (brokenWriteSession (.atMost 1)).played
      [.call (.write [1, 2, 3, 4]), .call (.read 4), .openGate "break"] = some m ∧
      (∃ stats ∈ m.state.stats?, stats.retried = true ∧ stats.split = some 2) ∧
      m.journal.acknowledged = [1, 2, 3, 4] ∧ m.journal.bytesAccepted secondLink = [1] := by
    refine ⟨_, rfl, ?_, ?_, ?_⟩
    · decide +kernel
    · decide +kernel
    · decide +kernel
  obtain ⟨m, hplayed, ⟨stats, hstats, hretried, hsplit⟩, hhello, hsent⟩ := hm
  exact ⟨m, stats, reachable_of_played (Setup.keeps_anything _ _) hplayed, hstats, hretried, hsplit,
    hhello, hsent⟩

end StreamSession

end Redial
