import Redial.Proofs.Stream.Places
import Redial.Proofs.Stream.WithoutCut
import Redial.Proofs.Task.Settling
import Redial.Proofs.Wire.Outcomes

/-!
# Replays on a plain connection

On a connection that is open and takes something of every write, a replay goes through without a
wait and without a fault (`goes_over`). What is left of it when the cut is left out depends on the
hello only, and not on how it was cut.

Nothing that happens changes the scripts of the dials (`Reachable.dials`), so such a connection can
be promised when the stream is opened (`Setup.PlainReplacement`).
-/

namespace Redial

/-- A connection on which every write takes something at once. -/
structure Link.Plain (l : Link) : Prop where
  unclosed : l.closed = false
  writable : l.writeShut = false
  unscripted : l.writes = []
  takes : l.writeMax ≠ some 0

theorem Link.Plain.write {l : Link} (h : l.Plain) (opened : List Gate) {buf : Bytes}
    (hb : buf ≠ []) : ∃ bytes, bytes ≠ [] ∧ bytes <+: buf ∧
      l.write opened buf = some (l, .ok bytes) := by
  have hwrite : l.write opened buf = some (l, .ok (l.usualTake buf)) := by
    unfold Link.write
    rw [h.unclosed, h.writable, h.unscripted]
    rfl
  refine ⟨l.usualTake buf, ?_, write_isPrefix hwrite, hwrite⟩
  have htakes := h.takes
  unfold usualTake
  cases hmax : l.writeMax with
  | none => exact hb
  | some n =>
    rw [hmax] at htakes
    intro hnil
    rcases List.take_eq_nil_iff.mp hnil with hzero | hempty
    · exact htakes (congrArg some hzero)
    · exact hb hempty

theorem Link.plain_ofScript {script : LinkScript} (hwrites : script.writes = [])
    (hmax : script.writeMax ≠ some 0) : (ofScript script).Plain := ⟨rfl, rfl, hwrites, hmax⟩

theorem World.setLink_of_link? {w : World} {i : LinkId} {l : Link} (h : w.link? i = some l) :
    w.setLink i l = w := by
  have hsame : w.links[i]? = some (some l) := by
    unfold link? at h
    cases hi : w.links[i]? with
    | none =>
      rw [hi] at h
      cases h
    | some l' =>
      rw [hi] at h
      exact congrArg some h
  obtain ⟨hi, hval⟩ := List.getElem?_eq_some_iff.mp hsame
  unfold setLink
  rw [← hval, List.set_getElem_self]

/-- A write on a plain connection is accepted, and leaves the connection as it is. -/
theorem World.write_plain {w : World} {i : LinkId} {l : Link} (h : w.link? i = some l)
    (hp : l.Plain) (purpose : Purpose) {buf : Bytes} (hb : buf ≠ []) :
    ∃ bytes, bytes ≠ [] ∧ bytes <+: buf ∧
      w.write i purpose buf = some (w.enter (.accepted i purpose bytes), .ok bytes) := by
  obtain ⟨bytes, hne, hprefix, hwrite⟩ := hp.write w.opened hb
  refine ⟨bytes, hne, hprefix, ?_⟩
  rw [write_of_link? h, hwrite]
  show some ((w.setLink i l).enter (.accepted i purpose bytes), Except.ok bytes) = _
  rw [setLink_of_link? h]

namespace Stream

/-- The state with another journal. -/
def State.withJournal (s : State) (j : Journal) : State :=
  s.withWorld { s.world with journal := j }

section Replay

variable {k : TaskId} {s : State} {l : Link} {m : Machine State Call Outcome} {c₀ : Call}

/-- A piece of the hello is replayed in full. -/
theorem goes_replaying (hn : m.pending.Nodup) (hk : ⟨k, c₀⟩ ∈ m.tasks)
    (hcur : s.memory.current = secondLink) (hl : s.world.link? secondLink = some l)
    (hp : l.Plain) (len : Nat) (cut : Cut) (piece : Piece) (rest : Bytes) :
    ∃ j : Journal, j.seamless secondLink =
        Journal.spelled s.world.now secondLink k rest ++ s.world.journal.seamless secondLink ∧
      Machine.Goes behaviour k (m.advance k s (.goesOn (.replaying len cut piece rest)))
        (m.advance k (s.withJournal j) (.goesOn (.replaying len cut piece []))) := by
  induction hlen : rest.length using Nat.strongRecOn generalizing s rest with
  | ind n ih =>
    by_cases hrest : rest = []
    · subst hrest
      exact ⟨s.world.journal, rfl, .refl⟩
    · obtain ⟨bytes, hne, hprefix, hwrite⟩ := World.write_plain hl hp (.replay k) hrest
      have hpos : 0 < bytes.length := List.length_pos_of_ne_nil hne
      have hrest' : 0 < rest.length := List.length_pos_of_ne_nil hrest
      have hless : (rest.drop bytes.length).length < n := by
        rw [List.length_drop]
        omega
      obtain ⟨j, hj, hgoes⟩ := ih _ hless
        (s := s.withWorld (s.world.enter (.accepted secondLink (.replay k) bytes))) hcur hl _ rfl
      have happ : bytes ++ rest.drop bytes.length = rest := List.prefix_iff_eq_append.mp hprefix
      refine ⟨j, ?_, .head (Machine.step_advance hn hk ?_) hgoes⟩
      · rw [hj]
        show Journal.spelled s.world.now secondLink k _ ++
          Journal.seamless secondLink (_ :: s.world.journal) = _
        rw [Journal.seamless_replay, ← List.append_assoc, ← Journal.spelled_append]
        exact congrArg (fun bs => Journal.spelled s.world.now secondLink k bs ++ _) happ
      · cases rest with
        | nil => exact absurd rfl hrest
        | cons b bs =>
          have hafter : afterReplayWrite (s.withWorld
              (s.world.enter (.accepted secondLink (.replay k) bytes))) len cut piece (b :: bs)
              (.ok bytes) =
              (s.withWorld (s.world.enter (.accepted secondLink (.replay k) bytes)),
                .goesOn (.replaying len cut piece ((b :: bs).drop bytes.length))) := by
            cases bytes with
            | nil => exact absurd rfl hne
            | cons b' bs' => rfl
          rw [← hcur] at hwrite
          cases piece
          all_goals
            show (s.world.write s.memory.current (.replay k) (b :: bs)).bind _ = _
            rw [hwrite, hcur]
            exact congrArg some hafter

/-- What a stream looks like, the cut left out, when it has gone over to the second connection and
has replayed the hello there. -/
def State.wentOver (s : State) (k : TaskId) (w : World) : State where
  terms := s.terms
  memory := { s.memory with current := secondLink }
  world :=
    { w with
      journal := Journal.spelled w.now secondLink k s.memory.hello.bytes ++
        ⟨w.now, .noticed (.replaying 0 s.memory.hello.length)⟩ :: w.journal }

theorem afterReplay_eq {len : Nat} {c : Call} (h : (afterReplay s len).2 = .goesOn c) :
    afterReplay s len = (s, .goesOn c) := by
  refine Prod.ext ?_ h
  unfold afterReplay
  split <;> rfl

theorem isInReplay_of_afterReplay {len : Nat} {c : Call} (h : (afterReplay s len).2 = .goesOn c) :
    c.isInReplay = false := by
  rcases afterReplay_cases s len with ⟨-, ha⟩ | ⟨-, ha⟩
  · rw [ha] at h
    cases h
    rfl
  · rw [ha] at h
    cases writeHalfNext_of_reshutWrite h <;> rfl

/-- A replay on a plain connection goes through, and what is left of it does not depend on how the
hello was cut. -/
theorem goes_over (hn : m.pending.Nodup) (hk : ⟨k, c₀⟩ ∈ m.tasks) {w : World}
    (hl : w.link? secondLink = some l) (hp : l.Plain) (len : Nat) :
    ∃ s₂ c, Machine.Goes behaviour k
        (m.advance k (beginReplay (s.withWorld w) len secondLink).1
          (beginReplay (s.withWorld w) len secondLink).2)
        (m.advance k s₂ (.goesOn c)) ∧
      s₂.withoutCut = s.withoutCut.wentOver k (w.seamless secondLink) ∧
      s₂.memory.strategy = (s.memory.strategy.cut s.memory.hello.bytes).2 ∧
      (afterReplay s₂ len).2 = .goesOn c := by
  have hwhole := SplitStrategy.first_append_second_cut s.memory.strategy s.memory.hello.bytes
  have hbegin : (beginReplay (s.withWorld w) len secondLink).2 =
      .goesOn (.replaying len (s.memory.strategy.cut s.memory.hello.bytes).1 .first
        (s.memory.strategy.cut s.memory.hello.bytes).1.first) := rfl
  generalize (s.memory.strategy.cut s.memory.hello.bytes).1 = cut at hwhole hbegin
  have hjournal : (beginReplay (s.withWorld w) len secondLink).1.world.journal.seamless secondLink =
      ⟨w.now, .noticed (.replaying 0 s.memory.hello.length)⟩ :: w.journal.seamless secondLink := rfl
  rw [hbegin]
  generalize hs₁ : (beginReplay (s.withWorld w) len secondLink).1 = s₁ at hjournal
  have hlink : s₁.world.link? secondLink = some l := hs₁ ▸ hl
  have hnow : s₁.world.now = w.now := hs₁ ▸ rfl
  have hcur : s₁.memory.current = secondLink := hs₁ ▸ rfl
  obtain ⟨j₁, hj₁, hfirst⟩ := goes_replaying hn hk hcur hlink hp len cut .first cut.first
  obtain ⟨j₂, hj₂, hsecond⟩ := goes_replaying hn hk (s := s₁.withJournal j₁) hcur hlink hp len cut
    .second cut.second
  obtain ⟨c, hc⟩ := afterReplay_goesOn ((s₁.withJournal j₁).withJournal j₂) len
  refine ⟨(s₁.withJournal j₁).withJournal j₂, c, ?_, ?_, hs₁ ▸ rfl, hc⟩
  · have hnext : (m.advance k (s₁.withJournal j₁) (.goesOn (.replaying len cut .first []))).step
        behaviour k = some (m.advance k (s₁.withJournal j₁)
          (.goesOn (.replaying len cut .second cut.second))) := Machine.step_advance hn hk rfl
    have hlast : (m.advance k ((s₁.withJournal j₁).withJournal j₂)
        (.goesOn (.replaying len cut .second []))).step behaviour k =
        some (m.advance k ((s₁.withJournal j₁).withJournal j₂) (.goesOn c)) :=
      Machine.step_advance hn hk (congrArg some (afterReplay_eq hc))
    exact ((hfirst.tail hnext).trans hsecond).tail hlast
  · have hall : j₂.seamless secondLink = Journal.spelled w.now secondLink k s.memory.hello.bytes ++
        ⟨w.now, .noticed (.replaying 0 s.memory.hello.length)⟩ ::
          w.journal.seamless secondLink := by
      rw [hj₂]
      show Journal.spelled s₁.world.now secondLink k cut.second ++ j₁.seamless secondLink = _
      rw [hj₁, hjournal, hnow, ← List.append_assoc, ← Journal.spelled_append]
      exact congrArg (fun bs => Journal.spelled w.now secondLink k bs ++ _) hwhole
    subst hs₁
    exact congrArg (fun j => State.mk s.terms
      { s.memory.withoutCut with current := secondLink } { w with journal := j }) hall

end Replay

end Stream

/-! ## The scripts of the dials -/

namespace World

variable {w w' : World} {i : LinkId}

theorem dials_read {task : TaskId} {len : Nat} {r : Except Fault Bytes}
    (h : w.read i task len = some (w', r)) : w'.dials = w.dials := by
  obtain ⟨l, l', -, -, rfl⟩ := read_eq_some h
  rfl

theorem dials_write {purpose : Purpose} {buf : Bytes} {r : Except Fault Bytes}
    (h : w.write i purpose buf = some (w', r)) : w'.dials = w.dials := by
  obtain ⟨l, l', -, -, rfl⟩ := write_eq_some h
  rfl

theorem dials_shut {half : Half} {r : ShutAnswer} (h : w.shut i half = some (w', r)) :
    w'.dials = w.dials := by
  obtain ⟨l, l', -, -, rfl⟩ := shut_eq_some h
  rfl

theorem dials_setDeadline (w : World) (i : LinkId) (deadline : Option Instant) :
    (w.setDeadline i deadline).dials = w.dials := by
  unfold setDeadline
  split <;> rfl

theorem dials_dialled {r : Except Fault LinkId} (h : w.dialled i = some (w', r)) :
    w'.dials = w.dials := by
  obtain ⟨now, ⟨f, -, rfl⟩ | ⟨script, -, rfl⟩⟩ := dialled_eq_some h <;> rfl

theorem dials_change (w : World) (action : Session.Action) :
    (action.change w).dials = w.dials := by
  cases action with
  | feed link more =>
    show (w.feed link more).dials = w.dials
    unfold feed
    split <;> rfl
  | _ => rfl

end World

theorem BareCall.Effect.dials {task : TaskId} {i : LinkId} {w w' : World} {call : BareCall}
    {p : Progress BareCall Outcome} (h : BareCall.Effect task i w call w' p) :
    w'.dials = w.dials := by
  cases h with
  | reads hr => exact World.dials_read hr
  | writes hw | writesAll _ hw | copies _ hw => exact World.dials_write hw
  | shuts hs => exact World.dials_shut hs
  | _ => rfl

theorem Stream.Effect.dials {k : TaskId} {s s₁ : Stream.State} {c : Stream.Call}
    {p : Progress Stream.Call Outcome} (h : Stream.Effect k s c s₁ p) (hs : s.Sound) :
    s₁.world.dials = s.world.dials := by
  cases h with
  | passes | settlesAtEnd | settlesOnFault => rfl
  | @asksShut half => cases half <;> rfl
  | reads hr | answers hr =>
    have hread := World.dials_read hr
    exact hread
  | settlesOnBytes => exact World.dials_setDeadline _ _ _
  | retries =>
    obtain ⟨l, hl⟩ := hs.current_isSome
    rw [beginRetry_eq hl]
    rfl
  | redials hr | redialFails hr =>
    have hdialled := World.dials_dialled hr
    exact hdialled
  | replays _ hw | replayInterrupted _ hw | replayFails _ hw | sendsTo hw =>
    have hwrite := World.dials_write hw
    exact hwrite
  | reshutsRead hw | reshutsWrite hw | reshutFails hw | shuts hw =>
    have hshut := World.dials_shut hw
    exact hshut
  | sends hw | sendFails hw => exact (World.dials_setDeadline _ _ _).trans (World.dials_write hw)
  | bare hw => exact (BareCall.effect_of_step hw).dials

namespace StreamSession

open Redial.Stream

variable {rule : Rule} {setup : Setup} {m : Moment}

theorem dials_of_opening {s : State} (h : setup.opening = .opened s) :
    s.world.dials = setup.dials := by
  unfold Setup.opening World.dialledAtOnce World.connect at h
  dsimp only at h
  split at h
  · cases h
  · rename_i w link hc
    split at hc
    · cases hc
    · cases hc
      cases h
      rfl

/-- The dials of a session end as it was laid down when the stream was opened. -/
theorem Reachable.dials (h : Reachable rule setup m) : m.state.world.dials = setup.dials := by
  refine h.induction (P := fun m => m.state.world.dials = setup.dials)
    (fun s hs => dials_of_opening hs) fun m m' hm hdials hn => ?_
  rcases hn.split with ⟨action, machine, -, ha, rfl⟩ | ⟨k, c, s, p, hk, hstep, rfl⟩
  · show machine.env.world.dials = _
    rcases ha.env with ⟨l, he⟩ | he
    · rw [he]
      exact hdials
    · rw [he]
      exact (World.dials_change _ action).trans hdials
  · obtain ⟨s₁, l, he, -, rfl⟩ := does_of_step hstep
    rw [Moment.state_advance]
    exact (he.dials hm.sound).trans hdials

/-- The connection that a retry would make takes something of every write, at once. -/
def Setup.PlainReplacement (setup : Setup) : Prop :=
  ∀ g script, setup.dials[secondLink]? = some g → g.item.answer = .ok script →
    script.writes = [] ∧ script.writeMax ≠ some 0

theorem Reachable.plain_dialled (h : Reachable rule setup m) (hp : setup.PlainReplacement)
    (ht : m.state.memory.retried = true) {w : World} {link : LinkId}
    (hd : m.state.world.dialled secondLink = some (w, .ok link)) :
    link = secondLink ∧ ∃ l, w.link? secondLink = some l ∧ l.Plain := by
  obtain ⟨g, script, now, rfl, hg, hscript, rfl⟩ := World.dialled_script hd
  rw [h.dials] at hg
  obtain ⟨hwrites, hmax⟩ := hp g script hg hscript
  have hlen : m.state.world.links.length = 2 := by
    rw [h.sound.dials, ht]
    rfl
  have hlt : secondLink < m.state.world.links.length := hlen ▸ Nat.one_lt_two
  exact ⟨rfl, _, World.link?_setLink_self (w := { m.state.world with now := now }) hlt _,
    Link.plain_ofScript hwrites hmax⟩

end StreamSession

end Redial
