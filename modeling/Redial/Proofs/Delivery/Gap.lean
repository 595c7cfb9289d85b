import Redial.Proofs.Delivery.Outbound

/-!
# The gap that a replay can leave

The stream goes over to the second connection before the hello is replayed, and stays there when the
replay fails or its read is dropped. Then callers go on behind a part of the hello, and what was
missing of it stays missing. So what callers have written falls into three parts: what was `sent` of
the hello, what is `missing` of it, and what came `late`, after the replay (`Moment.Spread`).
-/

namespace Redial.Stream

/-- The second connection, once it is in use, has accepted a part of what the first one has, and
after it what callers have written since. -/
def State.Continues (s : State) : Prop :=
  s.memory.current = secondLink → ∃ sent late,
    sent <+: s.journal.bytesAccepted firstLink ∧
    s.journal.acknowledged = s.journal.bytesAccepted firstLink ++ late ∧
    s.journal.bytesAccepted secondLink = sent ++ late

/-- During a replay and until its read ends, all that callers have written is on the first
connection. -/
def Call.Precedes (s : State) (c : Call) : Prop :=
  c.renews = true → s.journal.bytesAccepted firstLink = s.journal.acknowledged

section Steps

variable {k j : TaskId} {s s₁ : State} {c c' d : Call} {p : Progress Call Outcome}

theorem Call.Precedes.congr (h : c.Precedes s) (hw : s.world.SameAccepted s₁.world) :
    c.Precedes s₁ := by
  intro hc
  exact (hw.bytesAccepted firstLink).trans ((h hc).trans hw.acknowledged.symm)

/-- What is left of a piece continues what the second connection has of the hello. -/
theorem Call.Replays.isPrefix {len : Nat} {cut : Cut} {piece : Piece} {rest bytes : Bytes}
    (h : Call.Replays s (.replaying len cut piece rest)) (hb : bytes <+: rest) :
    s.journal.bytesAccepted secondLink ++ bytes <+: s.memory.hello.bytes := by
  have hrest := (List.prefix_append_right_inj (s.journal.bytesAccepted secondLink)).mpr hb
  cases piece with
  | first =>
    obtain ⟨hcut, hpiece⟩ := h
    rw [hpiece] at hrest
    rw [← hcut]
    exact hrest.trans (List.prefix_append _ _)
  | second =>
    obtain ⟨-, hpiece⟩ := h
    rw [hpiece] at hrest
    exact hrest

theorem State.Continues.idles (h : s.Continues) (hs : s.Sound) (hd : s.Delivered)
    (hi : s.Idles s₁) : s₁.Continues := by
  intro hcur
  unfold State.journal
  rw [hi.accepted.bytesAccepted, hi.accepted.bytesAccepted, hi.accepted.acknowledged]
  rcases hs.current with hfirst | ⟨hsecond, -⟩
  · -- The stream has just gone over to the second connection.
    refine ⟨[], [], List.nil_prefix, ?_, hd.onSecond hfirst⟩
    exact (hd.onFirst hfirst).symm.trans (List.append_nil _).symm
  · exact h hsecond

theorem State.Continues.writes (h : s.Continues) {bytes : Bytes} (hw : s.Writes s₁ bytes) :
    s₁.Continues := by
  intro hcur
  have hsecond : s.memory.current = secondLink := hw.current.symm.trans hcur
  obtain ⟨sent, late, hsent, hall, hon⟩ := h hsecond
  obtain ⟨hself, hfirst⟩ := onSecond_of_accepts hw.accepts hsecond
  unfold State.journal at hall hon hsent ⊢
  refine ⟨sent, late ++ bytes, ?_, ?_, ?_⟩
  · rw [hfirst]
    exact hsent
  · rw [hw.acknowledged, hall, hfirst, List.append_assoc]
  · rw [hself, hon, List.append_assoc]

theorem Effect.continues (h : Effect k s c s₁ p) (hs : s.Sound) (hc : c.Phase s) (hd : s.Delivered)
    (hr : c.Replays s) (hcont : s.Continues) (hprec : c.Precedes s) : s₁.Continues := by
  rcases h.writes hs hc with hi | ⟨bytes, hw⟩ | ⟨len, cut, piece, rest, bytes, -, hb, hrep, rfl, -⟩
  · exact hcont.idles hs hd hi
  · exact hcont.writes hw
  · intro _
    obtain ⟨hcur, hopen⟩ : s.memory.current = secondLink ∧ s.isDecided = false := hc
    obtain ⟨hself, hfirst⟩ := onSecond_of_accepts hrep.accepts hcur
    have hall : s.journal.bytesAccepted firstLink = s.journal.acknowledged := hprec rfl
    have hsent := hr.isPrefix hb
    rw [hd.hello hopen, ← hall] at hsent
    unfold State.journal at hall hsent ⊢
    refine ⟨s.world.journal.bytesAccepted secondLink ++ bytes, [], ?_, ?_, ?_⟩
    · rw [hfirst]
      exact hsent
    · rw [hrep.acknowledged, hfirst, hall, List.append_nil]
    · rw [hself, List.append_nil]

/-- Callers write nothing on the way to a place of the retry after its dial. -/
theorem Renewal.precedes (h : Renewal k s c s₁ d) (hc : c.Phase s) (hd : s.Delivered)
    (hprec : c.Precedes s) : d.Precedes s₁ := by
  intro _
  cases h with
  | @redials len dial w link hr =>
    have hw : s.world.SameAccepted (beginReplay (s.withWorld w) len link).1.world :=
      (World.SameAccepted.dialled hr).trans (.note _ _)
    have hall := hd.onFirst hc.2.2.1
    exact (hw.bytesAccepted firstLink).trans (hall.trans hw.acknowledged.symm)
  | nextPiece | toReadHalf | toWriteHalf => exact hprec rfl
  | replays _ _ hw =>
    obtain ⟨-, hfirst⟩ := onSecond_of_accepts (World.Accepts.write hw) hc.1
    exact hfirst.trans ((hprec rfl).trans (World.acknowledged_write_replay hw).symm)
  | interrupted _ hw => exact hprec.congr (.writeFailed hw) rfl
  | reshutsRead hw | reshutsWrite hw => exact hprec.congr (.shut hw) rfl

theorem Effect.precedes_of_ne (h : Effect k s c s₁ p) (hc : c.Phase s)
    (hk : c.holds = true → s.memory.lock.holder? = some k) (hdp : d.Phase s)
    (hd : d.holds = true → s.memory.lock.holder? = some j) (hjk : j ≠ k) (hprec : d.Precedes s) :
    d.Precedes s₁ := by
  intro hrenews
  have hholds := Call.holds_of_renews hrenews
  have hopen := (hdp.of_renews hrenews).2
  rcases h.aside hc hopen hk (hd hholds) hjk with rfl | ⟨half, rfl⟩ | ⟨_, _, w, _, -, hw, rfl⟩
  · exact hprec hrenews
  · cases half <;> exact hprec hrenews
  · have hread : s.world.SameAccepted (s.withWorld w).world := .read hw
    exact hprec.congr hread hrenews

end Steps

end Redial.Stream

namespace Redial.StreamSession

open Redial.Stream

variable {rule : Rule} {setup : Setup} {m m' : Moment}

theorem continues_of_opening {s : State} (h : setup.opening = .opened s) : s.Continues := by
  intro hcur
  rw [memory_of_opening h] at hcur
  cases hcur

theorem inductive_continues : Inductive rule setup State.Continues fun _ s c => c.Precedes s where
  opened s hs := continues_of_opening hs
  started k s request := fun h => nomatch h
  changes s action hc := by
    have hw : s.world.SameAccepted (action.change s.world) := .of_enters (enters_change _ _)
    refine ⟨fun hcur => ?_, fun k c hprec => hprec.congr hw⟩
    unfold State.journal State.withWorld
    dsimp only
    rw [hw.bytesAccepted, hw.bytesAccepted, hw.acknowledged]
    exact hc hcur
  locks s l hc := ⟨hc, fun k c hprec => hprec⟩
  steps m k c s₁ p hm hk hcont hprec he := by
    obtain ⟨hd, hr⟩ := inductive_replays.holds hm
    refine ⟨he.continues hm.sound (hm.phase hk) hd (hr k c hk) hcont hprec, fun c' hp hn => ?_⟩
    exact (he.renewal hp hn).precedes (hm.phase hk) hd hprec hn
  others m k c s₁ p j d hm hk hj hjk _ _ he hprec :=
    he.precedes_of_ne (hm.phase hk) (hm.holder hk) (hm.phase hj) (hm.holder hj) hjk hprec

/-- The three parts of what callers have written. The first connection has accepted what was sent
and what is missing, the connection in use what was sent and what came late. -/
structure Moment.Spread (m : Moment) (sent missing late : Bytes) : Prop where
  acknowledged : m.journal.acknowledged = sent ++ missing ++ late
  onFirst : m.journal.bytesAccepted firstLink = sent ++ missing
  inUse : m.journal.bytesAccepted m.state.memory.current = sent ++ late

theorem Reachable.spread (h : Reachable rule setup m) :
    ∃ sent missing late, m.Spread sent missing late ∧
      (m.state.memory.current = firstLink → missing = []) := by
  rcases h.sound.current with hfirst | ⟨hsecond, -⟩
  · have hall := (inductive_replays.holds h).1.onFirst hfirst
    refine ⟨m.journal.acknowledged, [], [], ⟨by simp, ?_, ?_⟩, fun _ => rfl⟩
    · rw [List.append_nil]
      exact hall
    · rw [List.append_nil, hfirst]
      exact hall
  · obtain ⟨sent, late, ⟨missing, hsent⟩, hall, hon⟩ := (inductive_continues.holds h).1 hsecond
    refine ⟨sent, missing, late, ⟨?_, hsent.symm, ?_⟩, fun hfirst => ?_⟩
    · rw [hsent]
      exact hall
    · rw [hsecond]
      exact hon
    · rw [hsecond] at hfirst
      cases hfirst

theorem Moment.Leads.spread (hl : m.Leads rule m') (h : Reachable rule setup m)
    (hpast : m.PastReplay) {sent missing late : Bytes} (hs : m.Spread sent missing late) :
    m'.PastReplay ∧ ∃ more, m'.Spread sent missing (late ++ more) := by
  refine Moment.Leads.keeps
    (P := fun m' => m'.PastReplay ∧ ∃ more, m'.Spread sent missing (late ++ more)) hl h
    ⟨hpast, [], by rw [List.append_nil]; exact hs⟩ ?_
  rintro m₁ m₂ h₁ ⟨hpast₁, more, hs₁⟩ hn
  obtain ⟨hpast₂, bytes, ha⟩ := hpast₁.next h₁ hn
  have hinUse := hs₁.inUse
  rw [hpast₁.current] at hinUse
  refine ⟨hpast₂, more ++ bytes, ?_, ha.onFirst.trans hs₁.onFirst, ?_⟩
  · rw [ha.acknowledged, hs₁.acknowledged]
    simp only [List.append_assoc]
  · rw [hpast₂.current, ha.onSecond, hinUse]
    simp only [List.append_assoc]

/-- The bytes that the connection in use has accepted are a prefix of what callers have written just
if what came late, after a replay, is a prefix of what is missing of the hello and itself; and they
are all of it just if nothing is missing. Something can be missing on the second connection only,
when its replay has not been completed; and once nobody replays the hello any more, the same bytes
are missing ever after, and all that is accepted from then on comes late. -/
theorem accepted_prefix_iff {setup : Setup} {m : Moment} (h : Reachable anything setup m) :
    ∃ sent missing late, m.Spread sent missing late ∧
      (m.journal.bytesAccepted m.state.memory.current <+: m.journal.acknowledged ↔
        late <+: missing ++ late) ∧
      (m.journal.bytesAccepted m.state.memory.current = m.journal.acknowledged ↔ missing = []) ∧
      (missing ≠ [] → m.state.memory.current = secondLink ∧
        ∀ m₁, Reachable anything setup m₁ → m₁.Leads anything m → m₁.replayed = false) ∧
      (m.PastReplay → ∀ m', m.Leads anything m' →
        ∃ more, m'.Spread sent missing (late ++ more)) := by
  obtain ⟨sent, missing, late, hs, hfirst⟩ := h.spread
  have hequal : m.journal.bytesAccepted m.state.memory.current = m.journal.acknowledged ↔
      missing = [] := by
    rw [hs.inUse, hs.acknowledged, List.append_assoc, List.append_right_inj]
    exact List.self_eq_append_left
  refine ⟨sent, missing, late, hs, ?_, hequal, fun hmissing => ⟨?_, fun m₁ h₁ hl => ?_⟩,
    fun hpast m' hl => (hl.spread h hpast hs).2⟩
  · rw [hs.inUse, hs.acknowledged, List.append_assoc]
    exact List.prefix_append_right_inj sent
  · rcases h.sound.current with hcur | ⟨hcur, -⟩
    · exact absurd (hfirst hcur) hmissing
    · exact hcur
  · rw [← Bool.not_eq_true]
    intro hr
    have hcaught : m.Caught := hl.keeps h₁ (h₁.caught hr) fun _ _ hm hP hn => hP.next hm hn
    refine hmissing (hequal.mp ?_)
    rw [hcaught.current]
    exact hcaught.onSecond

/-- A session whose first connection is reset by its first read, and whose second one is reset by
the second write of the replay. -/
def brokenReplaySession : Setup :=
  .localhost 1
    [dialledAtOnce { LinkScript.silent with
      reads := [⟨none, .fault (.ofKind .connectionReset)⟩] },
    dialledAtOnce { LinkScript.silent with
      writes := [⟨none, .usual⟩, ⟨none, .fault (.ofKind .connectionReset)⟩] }]

theorem accepted_prefix_after_broken_replay : ∃ m, Reachable anything brokenReplaySession m ∧
    m.Spread [1] [2] [] ∧
    m.journal.bytesAccepted m.state.memory.current <+: m.journal.acknowledged ∧
    (∀ m₁, Reachable anything brokenReplaySession m₁ → m₁.Leads anything m →
      m₁.replayed = false) ∧
    ∃ more, (m.next (.call (.write [3]))).Spread [1] [2] more := by
  have hm : ∃ m, brokenReplaySession.played [.call (.write [1, 2]), .call (.read 4)] = some m ∧
      m.journal.acknowledged = [1, 2] ∧ m.journal.bytesAccepted firstLink = [1, 2] ∧
      m.journal.bytesAccepted m.state.memory.current = [1] ∧
      m.state.memory.current = secondLink ∧ m.machine.tasks.isEmpty = true := by
    refine ⟨_, rfl, ?_, ?_, ?_, ?_, ?_⟩
    · decide +kernel
    · decide +kernel
    · decide +kernel
    · decide +kernel
    · decide +kernel
  obtain ⟨m, hplayed, hall, hfirst, hinUse, hcur, hdone⟩ := hm
  have h : Reachable anything brokenReplaySession m :=
    reachable_of_played (Setup.keeps_anything _ _) hplayed
  have hl : m.Leads anything (m.next (.call (.write [3]))) := Moment.leads_next trivial
  have hpast : m.PastReplay := by
    refine ⟨hcur, fun k c hk => ?_⟩
    rw [List.isEmpty_iff.mp hdone] at hk
    cases hk
  obtain ⟨sent, missing, late, hs, hprefix, -, hunfinished, hstays⟩ := accepted_prefix_iff h
  have hlate : late = [] := by
    have hack := hs.acknowledged
    rw [hall, ← hs.onFirst, hfirst] at hack
    exact List.self_eq_append_right.mp hack
  have hsent : sent = [1] := by
    have hin := hs.inUse
    rw [hinUse, hlate, List.append_nil] at hin
    exact hin.symm
  have hmissing : missing = [2] := by
    have hon := hs.onFirst
    rw [hfirst, hsent] at hon
    simpa using hon.symm
  subst hlate hsent hmissing
  exact ⟨m, h, hs, hprefix.mpr (List.nil_prefix), (hunfinished (by decide)).2, hstays hpast _ hl⟩

/-- A write behind a broken replay is accepted on a connection that lacks a part of what callers
have written before it. -/
theorem write_accepted_behind_gap : ∃ m, Reachable anything brokenReplaySession m ∧
    m.journal.acknowledged = [1, 2, 3] ∧
    m.journal.bytesAccepted m.state.memory.current = [1, 3] ∧
    ¬m.journal.bytesAccepted m.state.memory.current <+: m.journal.acknowledged := by
  have hm : ∃ m, brokenReplaySession.played [.call (.write [1, 2]), .call (.read 4),
      .call (.write [3])] = some m ∧ m.journal.acknowledged = [1, 2, 3] ∧
      m.journal.bytesAccepted m.state.memory.current = [1, 3] ∧
      ¬m.journal.bytesAccepted m.state.memory.current <+: m.journal.acknowledged := by
    refine ⟨_, rfl, ?_, ?_, ?_⟩
    · decide +kernel
    · decide +kernel
    · decide +kernel
  obtain ⟨m, hplayed, hstate⟩ := hm
  exact ⟨m, reachable_of_played (Setup.keeps_anything _ _) hplayed, hstate⟩

end Redial.StreamSession
