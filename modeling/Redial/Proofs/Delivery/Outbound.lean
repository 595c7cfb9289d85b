import Redial.Proofs.Stream.Places
import Redial.Proofs.Wire.Acceptance

/-!
# Outbound bytes

Callers write to a stream, and the bytes of their accepted writes must reach the peer once and in
order, on whichever connection becomes the final one. While the question is open the hello holds
exactly these bytes, so the first connection has them all (`State.Delivered`), and a replay that
has been completed has brought them to the second connection (`Call.Replays`). From then on both
are written by callers alone, so they stay equal.
-/

namespace Redial.Stream

/-- The events around a stream. -/
abbrev State.journal (s : State) : Journal := s.world.journal

/-! ## What one step writes -/

/-- What is accepted on the second connection leaves the first one alone. -/
theorem onSecond_of_accepts {w w' : World} {i : LinkId} {bytes : Bytes}
    (h : World.Accepts i bytes w w') (hi : i = secondLink) :
    w'.journal.bytesAccepted secondLink = w.journal.bytesAccepted secondLink ++ bytes ∧
    w'.journal.bytesAccepted firstLink = w.journal.bytesAccepted firstLink := by
  subst hi
  exact ⟨h.self, h.others firstLink (by decide)⟩

/-- A step in which nothing was accepted. -/
structure State.Idles (s s' : State) : Prop where
  accepted : s.world.SameAccepted s'.world
  hello : s'.isDecided = false → s'.memory.hello = s.memory.hello ∧ s.isDecided = false
  current : s'.memory.current = s.memory.current ∨ s'.memory.current = secondLink

/-- A step in which `bytes` of a caller were accepted, on the connection in use. -/
structure State.Writes (s s' : State) (bytes : Bytes) : Prop where
  acknowledged : s'.journal.acknowledged = s.journal.acknowledged ++ bytes
  accepts : World.Accepts s.memory.current bytes s.world s'.world
  current : s'.memory.current = s.memory.current
  hello : s'.isDecided = false →
    s'.memory.hello.bytes = s.memory.hello.bytes ++ bytes ∧ s.isDecided = false

/-- A step in which `bytes` of the replay were accepted, on the connection in use. -/
structure State.Repeats (s s' : State) (bytes : Bytes) : Prop where
  acknowledged : s'.journal.acknowledged = s.journal.acknowledged
  accepts : World.Accepts s.memory.current bytes s.world s'.world
  guarded : s.SameGuarded s'

section Steps

variable {k j : TaskId} {s s₁ : State} {c d : Call} {p : Progress Call Outcome}

theorem State.Idles.of_same (hg : s.SameGuarded s₁) (hw : s.world.SameAccepted s₁.world) :
    s.Idles s₁ := by
  refine ⟨hw, fun hd => ⟨hg.hello, ?_⟩, Or.inl hg.current⟩
  rw [← hg.isDecided]
  exact hd

/-- A step that ends with the question settled. -/
theorem State.Idles.settle {s' : State} (hw : s.world.SameAccepted s'.world)
    (hc : s'.memory.current = s.memory.current) : s.Idles s'.settle := by
  refine ⟨hw.trans (.note _ _), fun hd => ?_, Or.inl hc⟩
  rw [State.isDecided_settle] at hd
  cases hd

/-- A write on a final connection is a write of a caller on the connection in use. -/
theorem State.Writes.onFinal {link : LinkId} {buf bytes : Bytes} {w : World} (hs : s.Sound)
    (hd : s.finalLink? = some link)
    (hw : s.world.write link (.call k) buf = some (w, .ok bytes)) :
    s.Writes (s.withWorld w) bytes := by
  cases hs.final link hd
  refine ⟨World.acknowledged_write_call hw, .write hw, rfl, fun hopen => ?_⟩
  have hnone := State.isDecided_eq_false_iff.mp hopen
  rw [show s.finalLink? = none from hnone] at hd
  cases hd

/-- What a step does to the bytes that have been accepted: nothing, or it writes for a caller, or it
goes on with the replay. -/
theorem Effect.writes (h : Effect k s c s₁ p) (hs : s.Sound) (hc : c.Phase s) :
    s.Idles s₁ ∨ (∃ bytes, s.Writes s₁ bytes) ∨
    ∃ len cut piece rest bytes, rest ≠ [] ∧ bytes <+: rest ∧ s.Repeats s₁ bytes ∧
      c = .replaying len cut piece rest ∧
      p = .goesOn (.replaying len cut piece (rest.drop bytes.length)) := by
  cases h with
  | passes => exact Or.inl (.of_same (.refl s) (.refl _))
  | @asksShut half => cases half <;> exact Or.inl (.of_same (.askShut s _) (.refl _))
  | reads hr => exact Or.inl (.of_same (.withWorld s _) (.read hr))
  | settlesAtEnd => exact Or.inl (.settle (.refl _) rfl)
  | settlesOnBytes => exact Or.inl (.settle (.setDeadline _ _ _) rfl)
  | settlesOnFault => exact Or.inl (.settle (.note _ _) rfl)
  | @retries link len f _ _ hd =>
    obtain ⟨l, hl⟩ := hs.current_isSome
    rw [beginRetry_eq hl]
    exact Or.inl ⟨.of_enters (enters_retryWorld s l f (fun _ => rfl) rfl (fun _ => rfl) rfl),
      fun _ => ⟨rfl, hd⟩, Or.inl rfl⟩
  | @redials len dial w link hr =>
    obtain ⟨now, script, hlink, -⟩ := World.dialled_ok hr
    have hw : s.world.SameAccepted w := .dialled hr
    exact Or.inl ⟨hw.trans (.note _ _), fun hd => ⟨rfl, hd⟩, Or.inr (hlink.trans hc.1)⟩
  | redialFails hr => exact Or.inl (.settle ((World.SameAccepted.dialled hr).trans (.note _ _)) rfl)
  | replays hrest hw =>
    obtain ⟨l, l', -, hl, -⟩ := World.write_eq_some hw
    exact Or.inr (Or.inr ⟨_, _, _, _, _, hrest, Link.write_isPrefix hl,
      ⟨World.acknowledged_write_replay hw, .write hw, .withWorld s _⟩, rfl, rfl⟩)
  | replayInterrupted _ hw => exact Or.inl (.of_same (.withWorld s _) (.writeFailed hw))
  | replayFails _ hw hf =>
    cases hf with
    | stuck => exact Or.inl (.settle ((World.SameAccepted.writeStuck hw).trans (.note _ _)) rfl)
    | fault => exact Or.inl (.settle ((World.SameAccepted.writeFailed hw).trans (.note _ _)) rfl)
  | reshutsRead hw | reshutsWrite hw | shuts hw =>
    exact Or.inl (.of_same (.withWorld s _) (.shut hw))
  | reshutFails hw => exact Or.inl (.settle (.shut hw) rfl)
  | answers hr => exact Or.inl (.settle (.read hr) rfl)
  | @sends goal buf w bytes hw =>
    have hd := World.SameAccepted.setDeadline w s.memory.current (s.withWorld w).replyDeadline
    have ha := World.Accepts.write hw
    refine Or.inr (Or.inl ⟨bytes, ?_, ⟨?_, fun i hi => ?_⟩, rfl, fun hopen => ⟨?_, hopen⟩⟩)
    · exact hd.acknowledged.trans (World.acknowledged_write_call hw)
    · exact (hd.bytesAccepted _).trans ha.self
    · exact (hd.bytesAccepted i).trans (ha.others i hi)
    · exact Hello.bytes_push _ _
  | @sendFails goal buf w f hw =>
    have hd := World.SameAccepted.setDeadline w s.memory.current (s.withWorld w).replyDeadline
    have ha := (World.SameAccepted.writeFailed hw).trans hd
    exact Or.inl ⟨ha.trans (.note _ _), fun hopen => ⟨rfl, hopen⟩, Or.inl rfl⟩
  | @sendsTo link goal buf w r hw =>
    cases r with
    | ok bytes => exact Or.inr (Or.inl ⟨bytes, .onFinal hs hc hw⟩)
    | error f => exact Or.inl (.of_same (.withWorld s _) (.writeFailed hw))
  | @bare link call w p' hw =>
    obtain ⟨hd, hcall⟩ := hc
    cases BareCall.effect_of_step hw with
    | reads hr => exact Or.inl (.of_same (.withWorld s _) (.read hr))
    | @copies copied source rest w r _ hcopy =>
      cases r with
      | ok bytes => exact Or.inr (Or.inl ⟨bytes, .onFinal hs hd hcopy⟩)
      | error f => exact Or.inl (.of_same (.withWorld s _) (.writeFailed hcopy))
    | pullsEnd | pulls | pullInterrupted | pullFault =>
      exact Or.inl (.of_same (.withWorld s _) (.refl _))
    | _ => cases hcall

/-! ## What the hello and the replay keep -/

/-- What the hello and the connections hold of the bytes of callers. -/
structure State.Delivered (s : State) : Prop where
  hello : s.isDecided = false → s.memory.hello.bytes = s.journal.acknowledged
  onFirst : s.memory.current = firstLink →
    s.journal.bytesAccepted firstLink = s.journal.acknowledged
  onSecond : s.memory.current = firstLink → s.journal.bytesAccepted secondLink = []

/-- What the second connection holds of the hello while a call is at a place of the retry. -/
def Call.Replays (s : State) : Call → Prop
  | replaying _ cut .first rest => cut.first ++ cut.second = s.memory.hello.bytes ∧
      s.journal.bytesAccepted secondLink ++ rest = cut.first
  | replaying _ cut .second rest => cut.first ++ cut.second = s.memory.hello.bytes ∧
      s.journal.bytesAccepted secondLink ++ rest = s.memory.hello.bytes
  | reshutting .. => s.journal.bytesAccepted secondLink = s.memory.hello.bytes
  | answering _ => s.journal.bytesAccepted secondLink = s.memory.hello.bytes
  | _ => True

theorem State.Delivered.idles (h : s.Delivered) (hi : s.Idles s₁) : s₁.Delivered := by
  have hfirst : s₁.memory.current = firstLink → s.memory.current = firstLink := by
    intro hc
    rcases hi.current with hsame | hsecond
    · exact hsame.symm.trans hc
    · rw [hsecond] at hc
      cases hc
  refine ⟨fun hd => ?_, fun hc => ?_, fun hc => ?_⟩
  · obtain ⟨hhello, hopen⟩ := hi.hello hd
    rw [hhello, hi.accepted.acknowledged]
    exact h.hello hopen
  · rw [hi.accepted.bytesAccepted, hi.accepted.acknowledged]
    exact h.onFirst (hfirst hc)
  · rw [hi.accepted.bytesAccepted]
    exact h.onSecond (hfirst hc)

theorem State.Delivered.writes (h : s.Delivered) {bytes : Bytes} (hw : s.Writes s₁ bytes) :
    s₁.Delivered := by
  refine ⟨fun hd => ?_, fun hc => ?_, fun hc => ?_⟩
  · obtain ⟨hhello, hopen⟩ := hw.hello hd
    rw [hhello, hw.acknowledged, h.hello hopen]
  · rw [hw.current] at hc
    have hself := hw.accepts.self
    rw [hc] at hself
    rw [hself, hw.acknowledged, h.onFirst hc]
  · rw [hw.current] at hc
    have hne : secondLink ≠ s.memory.current := by
      rw [hc]
      decide
    rw [hw.accepts.others _ hne]
    exact h.onSecond hc

theorem Effect.delivered (h : Effect k s c s₁ p) (hs : s.Sound) (hc : c.Phase s)
    (hd : s.Delivered) : s₁.Delivered := by
  rcases h.writes hs hc with hi | ⟨bytes, hw⟩ | ⟨len, cut, piece, rest, bytes, -, -, hr, rfl, -⟩
  · exact hd.idles hi
  · exact hd.writes hw
  · have hcur : s.memory.current = secondLink := hc.1
    refine ⟨fun hopen => ?_, fun hfirst => ?_, fun hfirst => ?_⟩
    · rw [hr.guarded.hello, hr.acknowledged]
      exact hd.hello hc.2
    · rw [hr.guarded.current, hcur] at hfirst
      cases hfirst
    · rw [hr.guarded.current, hcur] at hfirst
      cases hfirst

theorem Call.Replays.congr (h : c.Replays s) (hello : s₁.memory.hello = s.memory.hello)
    (hw : s.world.SameAccepted s₁.world) : c.Replays s₁ := by
  unfold Call.Replays at h ⊢
  unfold State.journal at h ⊢
  rw [hello, hw.bytesAccepted secondLink]
  exact h

theorem Call.Replays.of_not_renews (h : c.renews = false) : c.Replays s := by
  cases c with
  | replaying | reshutting | answering => cases h
  | _ => trivial

theorem WriteHalfNext.replays {len : Nat} (h : WriteHalfNext s len c)
    (hr : s₁.journal.bytesAccepted secondLink = s₁.memory.hello.bytes) : c.Replays s₁ := by
  cases h <;> exact hr

/-- A call that goes on at a place of the retry has brought the second connection what the place
says. -/
theorem Renewal.replays_goesOn (h : Renewal k s c s₁ d) (hc : c.Phase s) (hd : s.Delivered)
    (hr : c.Replays s) : d.Replays s₁ := by
  cases h with
  | @redials len dial w link hdial =>
    -- Nothing has been sent on a connection that was not in use before.
    have hnone : w.journal.bytesAccepted secondLink = [] := by
      rw [(World.SameAccepted.dialled hdial).bytesAccepted]
      exact hd.onSecond hc.2.2.1
    refine ⟨SplitStrategy.first_append_second_cut _ _, ?_⟩
    show (w.note _).journal.bytesAccepted secondLink ++ _ = _
    rw [(World.SameAccepted.note w _).bytesAccepted, hnone]
    rfl
  | @nextPiece len cut =>
    obtain ⟨hcut, hsent⟩ := hr
    refine ⟨hcut, ?_⟩
    rw [← hcut, ← hsent, List.append_nil]
  | @replays len cut piece rest w bytes hrest hpre hw =>
    have happ : bytes ++ rest.drop bytes.length = rest := List.prefix_iff_eq_append.mp hpre
    have hsent := (World.Accepts.write hw).self
    rw [show s.memory.current = secondLink from hc.1] at hsent
    cases piece with
    | first =>
      refine ⟨hr.1, ?_⟩
      show w.journal.bytesAccepted secondLink ++ _ = _
      rw [hsent, List.append_assoc, happ]
      exact hr.2
    | second =>
      refine ⟨hr.1, ?_⟩
      show w.journal.bytesAccepted secondLink ++ _ = _
      rw [hsent, List.append_assoc, happ]
      exact hr.2
  | interrupted _ hw => exact hr.congr rfl (.writeFailed hw)
  | toReadHalf => exact (List.append_nil _).symm.trans hr.2
  | toWriteHalf _ hn => exact hn.replays ((List.append_nil _).symm.trans hr.2)
  | reshutsRead hw hn => exact hn.replays (((World.SameAccepted.shut hw).bytesAccepted _).trans hr)
  | reshutsWrite hw => exact ((World.SameAccepted.shut hw).bytesAccepted _).trans hr

/-- A step of one call leaves alone what another one has replayed. -/
theorem Effect.replays_of_ne (h : Effect k s c s₁ p) (hc : c.Phase s)
    (hk : c.holds = true → s.memory.lock.holder? = some k) (hdp : d.Phase s)
    (hd : d.holds = true → s.memory.lock.holder? = some j) (hjk : j ≠ k) (hr : d.Replays s) :
    d.Replays s₁ := by
  have hkept : s.isDecided = false → d.holds = true → d.Replays s₁ := by
    intro hopen hholds
    rcases h.aside hc hopen hk (hd hholds) hjk with rfl | ⟨half, rfl⟩ | ⟨_, _, w, _, -, hw, rfl⟩
    · exact hr
    · cases half <;> exact hr.congr rfl (.refl _)
    · exact hr.congr rfl (.read hw)
  cases d with
  | replaying | reshutting | answering => exact hkept hdp.2 rfl
  | _ => trivial

/-! ## After the replay -/

/-- Whether the replay of the hello has been completed by a call at this place. -/
def Call.isReplayed : Call → Bool
  | replaying _ _ .second [] => true
  | reshutting .. => true
  | answering _ => true
  | _ => false

/-- Whether a call has part of a replay before it. -/
def Call.isReplaying : Call → Bool
  | replaying _ _ .first _ => true
  | replaying _ _ .second (_ :: _) => true
  | _ => false

theorem Call.Replays.of_isReplayed (h : c.Replays s) (hc : c.isReplayed = true) :
    s.journal.bytesAccepted secondLink = s.memory.hello.bytes := by
  cases c with
  | replaying len cut piece rest =>
    cases piece with
    | first => cases hc
    | second =>
      cases rest with
      | nil => exact (List.append_nil _).symm.trans h.2
      | cons b bs => cases hc
  | reshutting | answering => exact h
  | _ => cases hc

/-- A replay is begun on the first connection only. -/
theorem Renewal.isReplaying_eq_false (h : Renewal k s c s₁ d) (hc : c.Phase s)
    (hcur : s.memory.current = secondLink) (hr : c.isReplaying = false) :
    d.isReplaying = false := by
  cases h with
  | redials =>
    rw [show s.memory.current = firstLink from hc.2.2.1] at hcur
    cases hcur
  | nextPiece => cases hr
  | @replays len cut piece rest w bytes hrest | @interrupted len cut piece rest w f hrest =>
    cases piece with
    | first => cases hr
    | second =>
      cases rest with
      | nil => exact absurd rfl hrest
      | cons b bs => cases hr
  | toReadHalf | reshutsWrite => rfl
  | toWriteHalf _ hn | reshutsRead _ hn => cases hn <;> rfl

theorem Call.isReplaying_of_not_renews (h : c.renews = false) : c.isReplaying = false := by
  cases c with
  | replaying => cases h
  | _ => rfl

end Steps

end Redial.Stream

namespace Redial.StreamSession

open Redial.Stream

variable {rule : Rule} {setup : Setup} {m m' : Moment}

/-! ## Along runs -/

theorem delivered_of_opening {s : State} (h : setup.opening = .opened s) : s.Delivered := by
  obtain ⟨now, script, timeout, -, hm, -, hj⟩ := opening_eq_opened h
  have hempty : ({ s.world with journal := [] } : World).SameAccepted s.world := by
    refine .of_enters ⟨_, hj.trans (List.append_nil _).symm, fun e he => ?_⟩
    simp only [List.mem_cons, List.not_mem_nil, or_false] at he
    rcases he with rfl | rfl | rfl <;> rfl
  refine ⟨fun _ => ?_, fun _ => ?_, fun _ => ?_⟩
  · rw [hm]
    exact hempty.acknowledged.symm
  · exact (hempty.bytesAccepted firstLink).trans hempty.acknowledged.symm
  · exact hempty.bytesAccepted secondLink

/-- The hello and the replay keep to what callers have written. -/
theorem inductive_replays : Inductive rule setup State.Delivered fun _ s c => c.Replays s where
  opened s hs := delivered_of_opening hs
  started k s request := trivial
  changes s action hd := by
    have hw : s.world.SameAccepted (action.change s.world) := .of_enters (enters_change _ _)
    exact ⟨hd.idles (.of_same (.withWorld s _) hw), fun k c hc => hc.congr rfl hw⟩
  locks s l hd :=
    ⟨hd.idles (.of_same (.withLock s l) (.refl _)), fun k c hc => hc.congr rfl (.refl _)⟩
  steps m k c s₁ p hm hk hd hr he := by
    refine ⟨he.delivered hm.sound (hm.phase hk) hd, fun c' hp => ?_⟩
    cases hn : c'.renews with
    | false => exact .of_not_renews hn
    | true => exact (he.renewal hp hn).replays_goesOn (hm.phase hk) hd hr
  others m k c s₁ p j d hm hk hj hjk _ _ he hr :=
    he.replays_of_ne (hm.phase hk) (hm.holder hk) (hm.phase hj) (hm.holder hj) hjk hr

/-- What holds once a replay has been completed: the second connection is in use and has accepted
what callers have written, and nothing is left to replay. -/
structure Moment.Caught (m : Moment) : Prop where
  current : m.state.memory.current = secondLink
  onSecond : m.journal.bytesAccepted secondLink = m.journal.acknowledged
  rest : ∀ k c, ⟨k, c⟩ ∈ m.machine.tasks → Call.isReplaying c = false

/-- Whether a call has completed the replay of the hello and is still in the retry. -/
def Moment.replayed (m : Moment) : Bool := m.machine.tasks.any fun t => t.call.isReplayed

theorem Reachable.caught (h : Reachable rule setup m) (hr : m.replayed = true) : m.Caught := by
  obtain ⟨hd, hl⟩ := inductive_replays.holds h
  unfold Moment.replayed at hr
  rw [List.any_eq_true] at hr
  obtain ⟨⟨k, c⟩, hk, hc⟩ := hr
  have hrenews : c.renews = true := by
    cases c with
    | replaying | reshutting | answering => rfl
    | _ => cases hc
  have hphase := (h.phase hk).of_renews hrenews
  have hholds := Call.holds_of_renews hrenews
  refine ⟨hphase.1, ?_, fun j d hj => ?_⟩
  · exact ((hl k c hk).of_isReplayed hc).trans (hd.hello hphase.2)
  · by_contra hd'
    rw [Bool.not_eq_false] at hd'
    have hdholds : d.holds = true := by
      cases d with
      | replaying => rfl
      | _ => cases hd'
    -- The lock has one holder, and it is not about to replay anything.
    have hjk : j = k := Option.some.inj ((h.holder hj hdholds).symm.trans (h.holder hk hholds))
    subst hjk
    cases Machine.call_unique h.numbered.nodup hk hj
    cases c with
    | replaying len cut piece rest =>
      cases piece with
      | first => cases hc
      | second =>
        cases rest with
        | nil => cases hd'
        | cons b bs => cases hc
    | _ => cases hd'

/-- The second connection is in use, and nothing is left to replay. -/
structure Moment.PastReplay (m : Moment) : Prop where
  current : m.state.memory.current = secondLink
  rest : ∀ k c, ⟨k, c⟩ ∈ m.machine.tasks → Call.isReplaying c = false

/-- `bytes` of callers were accepted on the second connection, and nothing else was accepted. -/
structure Moment.Appends (m m' : Moment) (bytes : Bytes) : Prop where
  acknowledged : m'.journal.acknowledged = m.journal.acknowledged ++ bytes
  onSecond : m'.journal.bytesAccepted secondLink = m.journal.bytesAccepted secondLink ++ bytes
  onFirst : m'.journal.bytesAccepted firstLink = m.journal.bytesAccepted firstLink

theorem Moment.Appends.of_same (h : m.state.world.SameAccepted m'.state.world) :
    m.Appends m' [] := by
  refine ⟨?_, ?_, h.bytesAccepted firstLink⟩
  · exact h.acknowledged.trans (List.append_nil _).symm
  · exact (h.bytesAccepted secondLink).trans (List.append_nil _).symm

/-- After the replay only callers write, on the second connection. -/
theorem Moment.PastReplay.next (h : m.PastReplay) (hm : Reachable rule setup m)
    (hn : m.Next rule m') : m'.PastReplay ∧ ∃ bytes, m.Appends m' bytes := by
  rcases hn.split with ⟨action, machine, -, ha, rfl⟩ | ⟨k, c, s, p, hk, hstep, rfl⟩
  · refine ⟨⟨?_, fun j d hj => ?_⟩, [], .of_same (.of_enters ha.enters)⟩
    · exact ha.sameGuarded.current.trans h.current
    · rcases ha.mem_tasks hj with hj | ⟨request, -, -, rfl⟩
      · exact h.rest j d hj
      · rfl
  · obtain ⟨s₁, l, he, -, rfl⟩ := does_of_step hstep
    have hc : c.Phase m.state := hm.phase hk
    have hstart : m.state.memory.current ≠ firstLink := by
      rw [h.current]
      decide
    have hcur : s₁.memory.current = secondLink := by
      rcases he.current hm.sound hc with hsame | ⟨hfirst, -⟩
      · exact hsame.trans h.current
      · exact absurd hfirst hstart
    have hworld : (Moment.state ⟨m.actions, m.machine.advance k (s₁.withLock l) p⟩).world =
        s₁.world := by
      rw [Moment.state_advance]
      rfl
    refine ⟨⟨?_, fun j d hj => ?_⟩, ?_⟩
    · rw [Moment.state_advance]
      exact hcur
    · rcases Machine.mem_advance hj with ⟨c', hgo, hc'⟩ | ⟨hj, -⟩
      · cases hc'
        cases hn' : d.renews with
        | false => exact Call.isReplaying_of_not_renews hn'
        | true => exact (he.renewal hgo hn').isReplaying_eq_false hc h.current (h.rest k c hk)
      · exact h.rest j d hj
    · rcases he.writes hm.sound hc with hi | ⟨bytes, hw⟩ |
        ⟨len, cut, piece, rest, bytes, hrest, -, -, rfl, -⟩
      · exact ⟨[], .of_same (hworld ▸ hi.accepted)⟩
      · obtain ⟨hsecond, hfirst⟩ := onSecond_of_accepts hw.accepts h.current
        refine ⟨bytes, ?_, ?_, ?_⟩
        · exact (congrArg (·.journal.acknowledged) hworld).trans hw.acknowledged
        · exact (congrArg (·.journal.bytesAccepted secondLink) hworld).trans hsecond
        · exact (congrArg (·.journal.bytesAccepted firstLink) hworld).trans hfirst
      · have hnot := h.rest k _ hk
        cases piece with
        | first => cases hnot
        | second =>
          cases rest with
          | nil => exact absurd rfl hrest
          | cons b bs => cases hnot

theorem Moment.Caught.next (h : m.Caught) (hm : Reachable rule setup m) (hn : m.Next rule m') :
    m'.Caught := by
  have hpast : m.PastReplay := ⟨h.current, h.rest⟩
  obtain ⟨hpast', bytes, ha⟩ := hpast.next hm hn
  refine ⟨hpast'.current, ?_, hpast'.rest⟩
  rw [ha.onSecond, ha.acknowledged, h.onSecond]

/-- The bytes of callers are delivered once and in order: the first connection has accepted them as
long as it is in use, and once a replay has been completed, the second connection has accepted
them, then and at every later moment. Calls may be started, dropped and interleaved in any way. -/
theorem acknowledged_bytes_delivered_once {setup : Setup} {m : Moment}
    (h : Reachable anything setup m) :
    (m.state.memory.current = firstLink →
      m.journal.bytesAccepted firstLink = m.journal.acknowledged) ∧
    (m.replayed = true → ∀ m', m.Leads anything m' →
      m'.state.memory.current = secondLink ∧
      m'.journal.bytesAccepted secondLink = m'.journal.acknowledged) := by
  refine ⟨(inductive_replays.holds h).1.onFirst, fun hr m' hl => ?_⟩
  have hcaught : m'.Caught := hl.keeps h (h.caught hr) fun _ _ hm hP hn => hP.next hm hn
  exact ⟨hcaught.current, hcaught.onSecond⟩

theorem acknowledged_bytes_delivered_after_reset : ∃ m m',
    Reachable anything resetSession m ∧ m.replayed = true ∧ m.Leads anything m' ∧
    m'.journal.acknowledged = [1, 2, 3, 4] ∧
    m'.journal.bytesAccepted secondLink = [1, 2, 3, 4] := by
  have hm : ∃ m, resetSession.played [.call (.write [1, 2, 3]), .call (.read 4)] = some m ∧
      m.replayed = true ∧ (m.play [reply, .call (.write [4])]).journal.acknowledged = [1, 2, 3, 4] := by
    refine ⟨_, rfl, ?_, ?_⟩
    · decide +kernel
    · decide +kernel
  obtain ⟨m, hplayed, hr, ha⟩ := hm
  have hreach := reachable_of_played (Setup.keeps_anything _ _) hplayed
  have hleads : m.Leads anything (m.play [reply, .call (.write [4])]) :=
    Moment.leads_play (Moment.keeps_anything _ _)
  have hon := ((acknowledged_bytes_delivered_once hreach).2 hr _ hleads).2
  exact ⟨m, _, hreach, hr, hleads, ha, hon.trans ha⟩

end Redial.StreamSession
