import Redial.Proofs.Delivery.Outbound
import Redial.Proofs.Random.Offsets
import Redial.Proofs.Stream.Events
import Redial.Proofs.Stream.Arming
import Redial.Proofs.Stream.Settlement

/-!
# The hello leaves in two pieces

When the dial of a retry succeeds, the hello is cut, once, at a place that is chosen then. From that
moment on the replay keeps to the cut: no write of it carries bytes from both sides of the place
(`Moment.CutAt`), so a completed replay has begun the new connection with the one side of the hello
and then the other.
-/

namespace Redial.Stream

section Steps

variable {k j : TaskId} {s s₁ : State} {c c' d : Call} {p : Progress Call Outcome}
  {hello : Bytes} {place : Nat}

theorem Call.holder_of_step {errand : Errand} {t : Turn}
    (h : Call.step k s (.queued errand) = some t) : s.memory.lock.holder? = some k := by
  unfold Call.step at h
  dsimp only at h
  split at h
  · assumption
  · cases h

/-! ## What one step does to the cut -/

/-- The hello is cut when the stream goes over to the second connection, and only then. -/
theorem Effect.cuts (h : Effect k s c s₁ p) (hs : s.Sound) (hc : c.Phase s) :
    (s₁.memory.split = s.memory.split ∧ s₁.memory.strategy = s.memory.strategy ∧
      s₁.memory.current = s.memory.current) ∨
    (s.memory.current = firstLink ∧ s₁.memory.current = secondLink ∧
      s₁.memory.split.isSome = true) := by
  cases h with
  | @asksShut half =>
    have hg := State.SameGuarded.askShut s half
    exact Or.inl ⟨hg.split, hg.strategy, hg.current⟩
  | retries =>
    obtain ⟨l, hl⟩ := hs.current_isSome
    rw [beginRetry_eq hl]
    exact Or.inl ⟨rfl, rfl, rfl⟩
  | redials hr =>
    obtain ⟨now, script, hlink, -⟩ := World.dialled_ok hr
    exact Or.inr ⟨hc.2.2.1, hlink.trans hc.1, rfl⟩
  | _ => exact Or.inl ⟨rfl, rfl, rfl⟩

/-- Only the dial of a retry that succeeds brings the stream to the second connection. -/
theorem Effect.redials_of_current (h : Effect k s c s₁ p) (hs : s.Sound)
    (hcur : s.memory.current = firstLink) (hcur₁ : s₁.memory.current = secondLink) :
    ∃ len dial w link, c = .redialling len dial ∧ s.world.dialled dial = some (w, .ok link) ∧
      s₁ = (beginReplay (s.withWorld w) len link).1 ∧
      p = (beginReplay (s.withWorld w) len link).2 := by
  have hne : s₁.memory.current ≠ s.memory.current := by
    rw [hcur, hcur₁]
    decide
  cases h with
  | redials hr => exact ⟨_, _, _, _, rfl, hr, rfl, rfl⟩
  | @asksShut half => exact absurd (State.SameGuarded.askShut s half).current hne
  | retries =>
    obtain ⟨l, hl⟩ := hs.current_isSome
    rw [beginRetry_eq hl] at hne
    exact absurd rfl hne
  | _ => exact absurd rfl hne

/-- There is no account while the question is open. -/
theorem State.stats?_of_open (hd : s.isDecided = false) : s.stats? = none := by
  unfold State.stats?
  rw [State.value_eq_none hd]
  rfl

/-- The account of what happened before the settlement is made in the step that settles. -/
theorem Effect.stats? (h : Effect k s c s₁ p) (hs : s.Sound) (hc : c.Phase s) :
    s₁.stats? = s.stats? ∨ s₁.stats? = some s.statsNow := by
  have hterms : s₁.terms = s.terms := h.terms hs
  cases h.turns hs hc with
  | stays hd =>
    left
    unfold State.stats?
    rw [hd]
  | @settles _ s' hd hm =>
    have hopen : s'.isDecided = false := by
      unfold State.isDecided at hd ⊢
      rw [hm]
      exact hd
    have hnow : s'.statsNow = s.statsNow := by
      unfold State.statsNow
      rw [hm, show s'.terms = s.terms from hterms]
    right
    rw [← hnow]
    exact State.stats?_settle hopen
  | retries => exact Or.inl rfl

/-! ## What has been replayed of the two sides -/

/-- What the second connection has accepted of the two sides of the hello while a call is at a place
of the retry. -/
def Call.Parts (hello : Bytes) (place : Nat) (s : State) : Call → Prop
  | replaying _ cut piece rest => cut = ⟨hello.take place, hello.drop place⟩ ∧
      (∀ e ∈ s.journal.uses secondLink, e.isReplay = true) ∧
      (∀ bytes ∈ s.journal.writes secondLink, bytes ≠ []) ∧
      match piece with
      | .first => s.journal.bytesAccepted secondLink ++ rest = hello.take place
      | .second => ∃ firsts seconds, s.journal.writes secondLink = firsts ++ seconds ∧
          firsts.flatten = hello.take place ∧ seconds.flatten ++ rest = hello.drop place
  | reshutting .. => s.journal.BegunInPieces hello place secondLink
  | answering _ => s.journal.BegunInPieces hello place secondLink
  | _ => True

/-- What is left of a piece lies on one side of the cut. -/
theorem Call.Parts.oneSided {len : Nat} {cut : Cut} {piece : Piece} {rest : Bytes}
    (h : Call.Parts hello place s (.replaying len cut piece rest)) (hplace : place ≤ hello.length)
    (hrest : rest ≠ []) :
    OneSided hello place (s.journal.bytesAccepted secondLink).length rest := by
  obtain ⟨-, -, -, hp⟩ := h
  cases piece with
  | first => exact .ofFirst hrest hp
  | second =>
    obtain ⟨firsts, seconds, hw, hf, hs⟩ := hp
    have hsent : s.journal.bytesAccepted secondLink = firsts.flatten ++ seconds.flatten := by
      unfold Journal.bytesAccepted
      rw [hw, List.flatten_append]
    rw [hsent]
    exact .ofSecond hrest hplace hf hs

/-- When nothing is left of the second piece, the connection has been begun in pieces. -/
theorem Call.Parts.begun {len : Nat} {cut : Cut}
    (h : Call.Parts hello place s (.replaying len cut .second [])) :
    s.journal.BegunInPieces hello place secondLink := by
  obtain ⟨-, huses, hne, firsts, seconds, hw, hf, hs⟩ := h
  rw [List.append_nil] at hs
  exact ⟨firsts, seconds, (Journal.beginnings_of_all huses).trans hw, hf, hs, hw ▸ hne⟩

/-- The beginnings of the second connection stay as they are while the replay is over. -/
theorem begunInPieces_of_enters {w : World} (hw : s.world.Enters (·.isReplay = false) w)
    (hb : s.journal.BegunInPieces hello place secondLink) :
    w.journal.BegunInPieces hello place secondLink := by
  obtain ⟨es, hj, he⟩ := hw
  rw [hj]
  exact hb.append he

/-- Events that are neither uses of the second connection nor writes of the replay do not matter to
what has been replayed. -/
theorem Call.Parts.enters (h : c.Parts hello place s)
    (hw : s.world.Enters (fun e => e.isReplay = false ∧ e.isUseOf secondLink = false) s₁.world) :
    c.Parts hello place s₁ := by
  have hbegun : s.journal.BegunInPieces hello place secondLink →
      s₁.journal.BegunInPieces hello place secondLink :=
    begunInPieces_of_enters (hw.mono fun _ he => he.1)
  obtain ⟨es, hj, he⟩ := hw
  have huses : s₁.journal.uses secondLink = s.journal.uses secondLink := by
    unfold State.journal
    rw [hj]
    clear hj
    induction es with
    | nil => rfl
    | cons e es ih =>
      have hnone : e.event.useOf? secondLink = none :=
        if_neg (by rw [(he e List.mem_cons_self).2]; exact Bool.false_ne_true)
      rw [List.cons_append, Journal.uses_cons, ih fun d hd => he d (List.mem_cons_of_mem e hd),
        hnone]
      exact List.append_nil _
  have hwrites : s₁.journal.writes secondLink = s.journal.writes secondLink := by
    rw [← Journal.filterMap_uses, huses, Journal.filterMap_uses]
  cases c with
  | replaying len cut piece rest =>
    unfold Call.Parts Journal.bytesAccepted at h ⊢
    rw [huses, hwrites]
    exact h
  | reshutting => exact hbegun h
  | answering => exact hbegun h
  | _ => trivial

theorem Call.Parts.of_not_renews (h : c.renews = false) : c.Parts hello place s := by
  cases c with
  | replaying | reshutting | answering => cases h
  | _ => trivial

theorem WriteHalfNext.parts {len : Nat} (h : WriteHalfNext s len c)
    (hb : s₁.journal.BegunInPieces hello place secondLink) : c.Parts hello place s₁ := by
  cases h <;> exact hb

/-- A write of the replay that ends is a use of the connection, by the replay. -/
theorem uses_replay {i : LinkId} {buf : Bytes} {w : World} {r : Except Fault Bytes}
    (hw : s.world.write i (.replay k) buf = some (w, r)) :
    w.journal.uses i = s.journal.uses i ++ [World.writeEvent i (.replay k) buf r] := by
  obtain ⟨l, l', -, -, rfl⟩ := World.write_eq_some hw
  refine (Journal.uses_cons _ _ _).trans ?_
  cases r <;> simp [World.writeEvent, Event.useOf?, Event.isUseOf, World.setLink]

theorem isReplay_writeEvent (i : LinkId) (k : TaskId) (buf : Bytes) (r : Except Fault Bytes) :
    (World.writeEvent i (.replay k) buf r).isReplay = true := by
  cases r <;> rfl

/-- As long as the replay has been the only user of the connection, its next write leaves it so. -/
theorem forall_uses_replay {i : LinkId} {buf : Bytes} {w : World} {r : Except Fault Bytes}
    (hw : s.world.write i (.replay k) buf = some (w, r))
    (h : ∀ e ∈ s.journal.uses i, e.isReplay = true) :
    ∀ e ∈ w.journal.uses i, e.isReplay = true := by
  intro e he
  rw [uses_replay hw, List.mem_append, List.mem_singleton] at he
  rcases he with he | rfl
  · exact h e he
  · exact isReplay_writeEvent _ _ _ _

theorem writes_replay {i : LinkId} {buf bytes : Bytes} {w : World}
    (hw : s.world.write i (.replay k) buf = some (w, .ok bytes)) :
    w.journal.writes i = s.journal.writes i ++ [bytes] := by
  rw [← Journal.filterMap_uses, uses_replay hw, List.filterMap_append, Journal.filterMap_uses]
  simp [World.writeEvent, Event.acceptedBy?]

theorem writes_replay_failed {i : LinkId} {buf : Bytes} {w : World} {f : Fault}
    (hw : s.world.write i (.replay k) buf = some (w, .error f)) :
    w.journal.writes i = s.journal.writes i := by
  rw [← Journal.filterMap_uses, uses_replay hw, List.filterMap_append, Journal.filterMap_uses]
  exact List.append_nil _

/-- A write of the replay after which the call goes on has taken something, or has failed. -/
theorem Effect.replayed_ne_nil {len : Nat} {cut : Cut} {piece : Piece} {rest bytes : Bytes}
    {w : World} (h : Effect k s (.replaying len cut piece rest) s₁ p) (hp : p = .goesOn d)
    (hrest : rest ≠ [])
    (hw : s.world.write s.memory.current (.replay k) rest = some (w, .ok bytes)) : bytes ≠ [] := by
  cases h with
  | passes hpass => cases hpass <;> exact absurd rfl hrest
  | replays _ hw' hb =>
    rw [hw] at hw'
    cases hw'
    exact hb
  | replayInterrupted _ hw' =>
    rw [hw] at hw'
    cases hw'
  | replayFails => cases hp

/-- A call that goes on at a place of the retry has brought the second connection what the place
says of the two sides. -/
theorem Effect.parts (h : Effect k s c s₁ p) (hp : p = .goesOn d) (hc : c.Phase s)
    (hcur : s.memory.current = secondLink) (hparts : c.Parts hello place s) :
    d.Parts hello place s₁ := by
  cases hr : d.renews with
  | false => exact .of_not_renews hr
  | true =>
    cases h.renewal hp hr with
    | redials =>
      rw [show s.memory.current = firstLink from hc.2.2.1] at hcur
      cases hcur
    | nextPiece =>
      obtain ⟨hcut, huses, hne, hfirst⟩ := hparts
      rw [List.append_nil] at hfirst
      refine ⟨hcut, huses, hne, _, [], (List.append_nil _).symm, hfirst, ?_⟩
      rw [hcut]
      rfl
    | @replays len cut piece rest w bytes hrest hpre hw =>
      have htook := h.replayed_ne_nil hp hrest hw
      have happ : bytes ++ rest.drop bytes.length = rest := List.prefix_iff_eq_append.mp hpre
      obtain ⟨hcut, huses, hne, hpiece⟩ := hparts
      rw [hcur] at hw
      have hwrites' : (s.withWorld w).journal.writes secondLink =
          s.journal.writes secondLink ++ [bytes] := writes_replay hw
      refine ⟨hcut, forall_uses_replay hw huses, fun bs hbs => ?_, ?_⟩
      · rw [hwrites', List.mem_append, List.mem_singleton] at hbs
        rcases hbs with hbs | rfl
        · exact hne bs hbs
        · exact htook
      · cases piece with
        | first =>
          show w.journal.bytesAccepted secondLink ++ _ = _
          rw [(World.Accepts.write hw).self, List.append_assoc, happ]
          exact hpiece
        | second =>
          obtain ⟨firsts, seconds, hw₀, hf, hs⟩ := hpiece
          refine ⟨firsts, seconds ++ [bytes], ?_, hf, ?_⟩
          · rw [hwrites', hw₀, List.append_assoc]
          · rw [List.flatten_append, List.append_assoc, List.flatten_singleton, happ]
            exact hs
    | @interrupted len cut piece rest w f hrest hw =>
      rw [hcur] at hw
      have hwrites' : (s.withWorld w).journal.writes secondLink = s.journal.writes secondLink :=
        writes_replay_failed hw
      obtain ⟨hcut, huses, hne, hpiece⟩ := hparts
      refine ⟨hcut, forall_uses_replay hw huses, fun bs hbs => ?_, ?_⟩
      · rw [hwrites'] at hbs
        exact hne bs hbs
      · unfold Journal.bytesAccepted at hpiece ⊢
        rw [hwrites']
        exact hpiece
    | toReadHalf => exact hparts.begun
    | toWriteHalf _ hn => exact hn.parts hparts.begun
    | reshutsRead hw hn => exact hn.parts (begunInPieces_of_enters (.shut hw rfl) hparts)
    | reshutsWrite hw => exact begunInPieces_of_enters (.shut hw rfl) hparts

/-- Only a call that has part of a replay before it makes writes of the replay. -/
theorem Effect.enters_no_replay (h : Effect k s c s₁ p) (hs : s.Sound)
    (hc : c.isReplaying = false) : s.world.Enters (·.isReplay = false) s₁.world := by
  refine (h.enters_possible hs).mono fun e he => ?_
  rw [← Bool.not_eq_true]
  intro hreplay
  obtain ⟨len, cut, piece, rest, r, hrest, rfl, -⟩ := he.isReplay hreplay
  cases rest with
  | nil => exact absurd rfl hrest
  | cons b bs => cases piece <;> cases hc

/-- A step that is taken while the first connection is in use makes no use of another one and is no
write of a replay. -/
theorem Effect.enters_on_first (h : Effect k s c s₁ p) (hs : s.Sound) (hc : c.Phase s)
    (hcur : s.memory.current = firstLink) :
    s.world.Enters (fun e => e.isReplay = false ∧ e.isUseOf secondLink = false) s₁.world := by
  refine (h.enters_possible hs).mono fun e hcan => ⟨?_, ?_⟩
  · rw [← Bool.not_eq_true]
    intro hreplay
    obtain ⟨len, cut, piece, rest, r, -, rfl, -⟩ := hcan.isReplay hreplay
    cases hc.1.symm.trans hcur
  · rw [← Bool.not_eq_true]
    intro huse
    rcases hcan.isUseOf hs hc huse with hlink | hlink
    · cases hlink
    · cases hlink.trans hcur

theorem keepsCut_of_enters {w w' : World} (hw : w.Enters (·.isReplay = false) w')
    (hk : w.journal.KeepsCut hello place secondLink) :
    w'.journal.KeepsCut hello place secondLink := by
  obtain ⟨es, hj, he⟩ := hw
  rw [hj]
  exact Journal.keepsCut_append he hk

theorem keepsCut_write {rest : Bytes} {w : World} {r : Except Fault Bytes}
    (hw : s.world.write secondLink (.replay k) rest = some (w, r))
    (hside : OneSided hello place (s.journal.bytesAccepted secondLink).length rest)
    (hk : s.journal.KeepsCut hello place secondLink) :
    w.journal.KeepsCut hello place secondLink := by
  obtain ⟨l, l', -, hl, rfl⟩ := World.write_eq_some hw
  refine ⟨fun bytes hb => ?_, hk⟩
  cases r with
  | ok accepted =>
    cases hb
    exact hside.of_prefix (Link.write_isPrefix hl)
  | error f =>
    cases hb
    exact hside

/-- The writes of a replay that keep to the cut go on to do so. -/
theorem Effect.keepsCut (h : Effect k s c s₁ p) (hs : s.Sound) (hc : c.Phase s)
    (hcur : s.memory.current = secondLink) (hplace : place ≤ hello.length)
    (hparts : c.Parts hello place s) (hk : s.journal.KeepsCut hello place secondLink) :
    s₁.journal.KeepsCut hello place secondLink := by
  cases hren : c.isReplaying with
  | false =>
    exact keepsCut_of_enters (h.enters_no_replay hs hren) hk
  | true =>
    cases h with
    | passes => exact hk
    | replays hrest hw | replayInterrupted hrest hw =>
      rw [hcur] at hw
      exact keepsCut_write hw (hparts.oneSided hplace hrest) hk
    | replayFails hrest hw =>
      rw [hcur] at hw
      have hwrite := keepsCut_write hw (hparts.oneSided hplace hrest) hk
      exact keepsCut_of_enters (World.Enters.trans (.note rfl) (.note rfl)) hwrite
    | _ => cases hren

/-- When the replay starts on a connection that has not been used, all of the first piece is left.
-/
theorem parts_beginReplay (len : Nat) {dial link : LinkId} {w : World}
    (hr : s.world.dialled dial = some (w, .ok link))
    (hfresh : ∀ e ∈ s.journal, e.event.isReplay = false ∧ e.event.isUseOf secondLink = false)
    (hcut : (s.memory.strategy.cut s.memory.hello.bytes).1 =
      ⟨hello.take place, hello.drop place⟩) :
    (beginReplay (s.withWorld w) len link).1.journal.KeepsCut hello place secondLink ∧
    Call.Parts hello place (beginReplay (s.withWorld w) len link).1
      (.replaying len (s.memory.strategy.cut s.memory.hello.bytes).1 .first
        (s.memory.strategy.cut s.memory.hello.bytes).1.first) := by
  -- Nothing is entered but that the dial has succeeded and that the replay starts.
  obtain ⟨es, hj, hes⟩ : s.world.Enters
      (fun e => e.isReplay = false ∧ e.isUseOf secondLink = false)
      (beginReplay (s.withWorld w) len link).1.world :=
    (World.Enters.dialled hr ⟨rfl, rfl⟩ fun _ => ⟨rfl, rfl⟩).trans (.note ⟨rfl, rfl⟩)
  have hjournal : (beginReplay (s.withWorld w) len link).1.journal = es ++ s.journal := hj
  have hnew : ∀ e ∈ es ++ s.journal,
      e.event.isReplay = false ∧ e.event.isUseOf secondLink = false := by
    intro e hmem
    rcases List.mem_append.mp hmem with hmem | hmem
    · exact hes e hmem
    · exact hfresh e hmem
  have huses : Journal.uses (es ++ s.journal) secondLink = [] := by
    unfold Journal.uses Journal.findings
    rw [List.reverse_eq_nil_iff, List.filterMap_eq_nil_iff]
    intro e hmem
    exact if_neg (by rw [(hnew e hmem).2]; exact Bool.false_ne_true)
  have hwrites : Journal.writes (es ++ s.journal) secondLink = [] := by
    rw [← Journal.filterMap_uses, huses]
    rfl
  constructor
  · rw [hjournal, ← List.append_nil (es ++ _)]
    exact Journal.keepsCut_append (fun e hmem => (hnew e hmem).1) trivial
  · unfold Call.Parts Journal.bytesAccepted
    rw [hjournal, huses, hwrites]
    refine ⟨hcut, fun e he => absurd he List.not_mem_nil,
      fun bs hbs => absurd hbs List.not_mem_nil, ?_⟩
    exact congrArg Cut.first hcut

end Steps

end Redial.Stream

namespace Redial.StreamSession

open Redial.Stream

variable {rule : Rule} {setup : Setup} {m m' m₁ : Moment} {k : TaskId} {hello : Bytes}
  {place : Nat} {strategy : SplitStrategy}

/-! ## Before the stream goes over -/

/-- While the first connection is in use, no other one is used, nothing is replayed, and the
strategy has not been asked. -/
theorem Reachable.uncut (h : Reachable rule setup m) (hcur : m.state.memory.current = firstLink) :
    m.state.memory.strategy = setup.strategy ∧
      ∀ e ∈ m.journal, e.event.isReplay = false ∧ e.event.isUseOf secondLink = false := by
  refine Reachable.induction (P := fun m => m.state.memory.current = firstLink →
    m.state.memory.strategy = setup.strategy ∧
      ∀ e ∈ m.journal, e.event.isReplay = false ∧ e.event.isUseOf secondLink = false) h ?_ ?_ hcur
  · intro s hs _
    obtain ⟨now, script, timeout, -, hm, -, hj⟩ := opening_eq_opened hs
    refine ⟨?_, fun e he => ?_⟩
    · show s.memory.strategy = _
      rw [hm]
      rfl
    · rw [show (Moment.first s).journal = _ from hj] at he
      simp only [List.mem_cons, List.not_mem_nil, or_false] at he
      rcases he with rfl | rfl | rfl <;> exact ⟨rfl, rfl⟩
  · intro m m' hm ih hn hcur
    rcases hn.split with ⟨action, machine, -, ha, rfl⟩ | ⟨k, c, s, p, hk, hstep, rfl⟩
    · obtain ⟨hstrategy, hj⟩ := ih (ha.sameGuarded.current.symm.trans hcur)
      refine ⟨ha.sameGuarded.strategy.trans hstrategy, fun e he => ?_⟩
      obtain ⟨es, hes, hnone⟩ := ha.enters (P := fun _ => False)
      rw [show Moment.journal ⟨m.actions ++ [action], machine⟩ = es ++ m.journal from hes] at he
      rcases List.mem_append.mp he with he | he
      · exact absurd (hnone e he) not_false
      · exact hj e he
    · obtain ⟨s₁, l, he, -, rfl⟩ := does_of_step hstep
      have hc : c.Phase m.state := hm.phase hk
      have hcur₁ : s₁.memory.current = firstLink := by
        rw [Moment.state_advance] at hcur
        exact hcur
      have hcur₀ : m.state.memory.current = firstLink := by
        rcases he.current hm.sound hc with hsame | ⟨hfirst, -⟩
        · exact hsame.symm.trans hcur₁
        · exact hfirst
      obtain ⟨hstrategy, hj⟩ := ih hcur₀
      refine ⟨?_, fun e hmem => ?_⟩
      · rw [Moment.state_advance]
        rcases he.cuts hm.sound hc with ⟨-, hsame, -⟩ | ⟨-, hsecond, -⟩
        · exact hsame.trans hstrategy
        · rw [hcur₁] at hsecond
          cases hsecond
      · obtain ⟨es, hes, hnone⟩ := he.enters_on_first hm.sound hc hcur₀
        unfold Moment.journal at hmem
        rw [Machine.env_advance] at hmem
        rw [show (s₁.withLock l).world.journal = es ++ m.journal from hes] at hmem
        rcases List.mem_append.mp hmem with hmem | hmem
        · exact hnone e hmem
        · exact hj e hmem

/-- The hello has been cut once the stream has gone over, and not before. -/
theorem Reachable.split_eq_none_iff (h : Reachable rule setup m) :
    m.state.memory.split = none ↔ m.state.memory.current = firstLink := by
  refine Reachable.induction (P := fun m => m.state.memory.split = none ↔
    m.state.memory.current = firstLink) h ?_ ?_
  · intro s hs
    have hm : (Moment.first s).state.memory = .start firstLink setup.strategy :=
      memory_of_opening hs
    rw [hm]
    exact iff_of_true rfl rfl
  · intro m m' hm ih hn
    rcases hn.split with ⟨action, machine, -, ha, rfl⟩ | ⟨k, c, s, p, hk, hstep, rfl⟩
    · have hg := ha.sameGuarded
      show machine.env.memory.split = none ↔ machine.env.memory.current = firstLink
      rw [hg.split, hg.current]
      exact ih
    · obtain ⟨s₁, l, he, -, rfl⟩ := does_of_step hstep
      rw [Moment.state_advance]
      show s₁.memory.split = none ↔ s₁.memory.current = firstLink
      rcases he.cuts hm.sound (hm.phase hk) with ⟨hsplit, -, hcur⟩ | ⟨-, hsecond, hsome⟩
      · rw [hsplit, hcur]
        exact ih
      · refine iff_of_false ?_ ?_
        · exact Option.isSome_iff_ne_none.mp hsome
        · rw [hsecond]
          decide

/-- While a retry is under way on the second connection, no other read is made on it. -/
theorem Reachable.reading_first (h : Reachable rule setup m) {c : Call}
    (hk : ⟨k, c⟩ ∈ m.machine.tasks) (hc : c.renews = true) {j : TaskId} {link : LinkId} {len : Nat}
    (hj : ⟨j, .reading link len⟩ ∈ m.machine.tasks) : link = firstLink := by
  refine Reachable.induction (P := fun m => ∀ k c j link len, ⟨k, c⟩ ∈ m.machine.tasks →
    Call.renews c = true → ⟨j, .reading link len⟩ ∈ m.machine.tasks → link = firstLink)
    h ?_ ?_ k c j link len hk hc hj
  · intro s _ k c j link len hk
    exact absurd hk List.not_mem_nil
  · intro m m' hm ih hn k c j link len hk hc hj
    rcases hn.split with ⟨action, machine, -, ha, rfl⟩ | ⟨i, d, s, p, hi, hstep, rfl⟩
    · rcases ha.mem_tasks hk with hk | ⟨request, -, -, rfl⟩
      · rcases ha.mem_tasks hj with hj | ⟨request, -, -, hstart⟩
        · exact ih k c j link len hk hc hj
        · cases hstart
      · cases hc
    · obtain ⟨s₁, l, he, -, rfl⟩ := does_of_step hstep
      have hd : d.Phase m.state := hm.phase hi
      rcases Machine.mem_advance hk with ⟨c', rfl, hc'⟩ | ⟨hk, hki⟩
      · cases hc'
        -- The retry has taken a step: it was under way before, or it goes over only now.
        rcases Machine.mem_advance hj with ⟨_, hgo, hsame⟩ | ⟨hj', -⟩
        · cases hsame
          cases hgo
          cases hc
        · cases hren : d.renews with
          | true => exact ih _ d j link len hi hren hj'
          | false =>
            cases he.renewal rfl hc with
            | redials =>
              rcases hm.phase hj' with hlink | hlink
              · exact hlink
              · exact hlink.trans hd.2.2.1
            | _ => cases hren
      · have hholder := hm.holder hk (Call.holds_of_renews hc)
        rcases Machine.mem_advance hj with ⟨_, rfl, hsame⟩ | ⟨hj', -⟩
        · cases hsame
          -- A read that begins to read has had the lock.
          cases he.retrieval rfl rfl with
          | locates =>
            have hmine := Call.holder_of_step hstep
            exact absurd (Option.some.inj (hholder.symm.trans hmine)) hki
        · exact ih k c j link len hk hc hj'

/-! ## From the cut on -/

/-- A step of the read of task `k` brings the stream to the connection that the retry has made. -/
structure Moment.Obtains (k : TaskId) (m m' : Moment) : Prop extends m.Moves k m' where
  before : m.state.memory.current = firstLink
  after : m'.state.memory.current = secondLink

/-- What holds once the hello has been cut: the strategy stays as it is, the writes of the replay
keep to the cut, and the account of what happened tells its place. -/
structure Moment.CutAt (hello : Bytes) (place : Nat) (strategy : SplitStrategy) (m : Moment) :
    Prop where
  current : m.state.memory.current = secondLink
  split : m.state.memory.split = some place
  strategy : m.state.memory.strategy = strategy
  stats : ∀ stats, m.state.stats? = some stats → stats.split = some place
  keeps : m.journal.KeepsCut hello place secondLink
  parts : ∀ j c, ⟨j, c⟩ ∈ m.machine.tasks → Call.Parts hello place m.state c

/-- The hello is cut when the stream goes over. -/
theorem Moment.Obtains.cutAt (ho : m.Obtains k m₁) (h : Reachable rule setup m)
    (hhello : hello = m.state.memory.hello.bytes)
    (hplace : place = Cut.place (setup.strategy.offset hello.length).1 hello.length) :
    m₁.CutAt hello place
      (if hello = [] then setup.strategy else (setup.strategy.offset hello.length).2) := by
  obtain ⟨hstrategy, hfresh⟩ := h.uncut ho.before
  obtain ⟨c, s₁, l, p, hk, he, rfl⟩ := ho.toMoves.effect
  have hafter : s₁.memory.current = secondLink := by
    have hcur := ho.after
    rw [Moment.state_advance] at hcur
    exact hcur
  obtain ⟨len, dial, w, link, rfl, hr, rfl, rfl⟩ := he.redials_of_current h.sound ho.before hafter
  have hcut : m.state.memory.strategy.cut m.state.memory.hello.bytes =
      (⟨hello.take place, hello.drop place⟩,
        if hello = [] then setup.strategy else (setup.strategy.offset hello.length).2) := by
    rw [hstrategy, ← hhello]
    exact SplitStrategy.cut_eq hplace
  have hlen : (hello.take place).length = place := by
    rw [List.length_take, hplace]
    exact Nat.min_eq_left (Cut.place_le _ _)
  obtain ⟨hkeeps, hparts⟩ := parts_beginReplay len hr hfresh (congrArg Prod.fst hcut)
  refine ⟨ho.after, ?_, ?_, ?_, ?_, ?_⟩
  · rw [Moment.state_advance]
    show some (m.state.memory.strategy.cut m.state.memory.hello.bytes).1.first.length = _
    rw [hcut]
    exact congrArg some hlen
  · rw [Moment.state_advance]
    show (m.state.memory.strategy.cut m.state.memory.hello.bytes).2 = _
    rw [hcut]
  · intro stats hstats
    rw [Moment.state_advance] at hstats
    have hnone : m.state.stats? = none := State.stats?_of_open (h.phase hk).2.2.2
    cases hnone.symm.trans hstats
  · unfold Moment.journal
    rw [Machine.env_advance]
    exact hkeeps
  · intro j d hjd
    rw [Moment.state_advance]
    rcases Machine.mem_advance hjd with ⟨c', hgo, hc'⟩ | ⟨hjd, hjk⟩
    · cases hc'
      cases hgo
      exact hparts
    · -- The lock is held by the retry.
      refine .of_not_renews ?_
      rw [← Bool.not_eq_true]
      intro hren
      have hmine := h.holder hjd (Call.holds_of_renews hren)
      have hother := h.holder hk rfl
      exact hjk (Option.some.inj (hmine.symm.trans hother))

/-- What holds once the hello has been cut stays. -/
theorem Moment.CutAt.next (hcut : m.CutAt hello place strategy) (hplace : place ≤ hello.length)
    (h : Reachable rule setup m) (hn : m.Next rule m') : m'.CutAt hello place strategy := by
  rcases hn.split with ⟨action, machine, -, ha, rfl⟩ | ⟨k, c, s, p, hk, hstep, rfl⟩
  · have hg := ha.sameGuarded
    refine ⟨hg.current.trans hcut.current, hg.split.trans hcut.split,
      hg.strategy.trans hcut.strategy, fun stats hstats => ?_, ?_, fun j c hj => ?_⟩
    · exact hcut.stats stats (hg.stats?.symm.trans hstats)
    · exact keepsCut_of_enters ha.enters hcut.keeps
    · rcases ha.mem_tasks hj with hj | ⟨request, -, -, rfl⟩
      · exact (hcut.parts j c hj).enters ha.enters
      · trivial
  · obtain ⟨s₁, l, he, -, rfl⟩ := does_of_step hstep
    have hc : c.Phase m.state := h.phase hk
    have hown := hcut.parts k c hk
    have hnotFirst : m.state.memory.current ≠ firstLink := by
      rw [hcut.current]
      decide
    refine ⟨?_, ?_, ?_, ?_, ?_, ?_⟩
    · exact (Moment.Leads.second (.single hn) h hcut.current)
    · rw [Moment.state_advance]
      rcases he.cuts h.sound hc with ⟨hsame, -⟩ | ⟨hfirst, -⟩
      · exact hsame.trans hcut.split
      · exact absurd hfirst hnotFirst
    · rw [Moment.state_advance]
      rcases he.cuts h.sound hc with ⟨-, hsame, -⟩ | ⟨hfirst, -⟩
      · exact hsame.trans hcut.strategy
      · exact absurd hfirst hnotFirst
    · intro stats hstats
      rw [Moment.state_advance] at hstats
      rcases he.stats? h.sound hc with hsame | hnow
      · exact hcut.stats stats (hsame.symm.trans hstats)
      · cases hnow.symm.trans hstats
        exact hcut.split
    · unfold Moment.journal
      rw [Machine.env_advance]
      exact he.keepsCut h.sound hc hcut.current hplace hown hcut.keeps
    · intro j d hj
      rw [Moment.state_advance]
      rcases Machine.mem_advance hj with ⟨c', hgo, hc'⟩ | ⟨hj', hjk⟩
      · cases hc'
        exact he.parts hgo hc hcut.current hown
      · have hother := hcut.parts j d hj'
        cases hren : d.renews with
        | false => exact .of_not_renews hren
        | true =>
          have hopen := ((h.phase hj').of_renews hren).2
          have hholder := h.holder hj' (Call.holds_of_renews hren)
          rcases he.aside hc hopen (h.holder hk) hholder hjk with
            rfl | ⟨half, rfl⟩ | ⟨link, len, w, r, rfl, hr, rfl⟩
          · exact hother.enters (.refl _)
          · cases half <;> exact hother.enters (.refl _)
          · -- Other reads go on at most on the first connection.
            cases h.reading_first hj' hren hk
            refine hother.enters (.read hr ?_)
            cases r <;> exact ⟨rfl, rfl⟩

/-! ## After the replay -/

/-- What the second connection was begun with stays as it is once the replay is over. -/
theorem Moment.PastReplay.begunInPieces (hpast : m.PastReplay)
    (hb : m.journal.BegunInPieces hello place secondLink) (h : Reachable rule setup m)
    (hn : m.Next rule m') : m'.journal.BegunInPieces hello place secondLink := by
  rcases hn.split with ⟨action, machine, -, ha, rfl⟩ | ⟨k, c, s, p, hk, hstep, rfl⟩
  · exact begunInPieces_of_enters ha.enters hb
  · obtain ⟨s₁, l, he, -, rfl⟩ := does_of_step hstep
    unfold Moment.journal
    rw [Machine.env_advance]
    exact begunInPieces_of_enters (he.enters_no_replay h.sound (hpast.rest k c hk)) hb

/-- A completed replay has begun the second connection with the one side of the hello and then the
other, now and at every later moment. -/
theorem Moment.CutAt.begun (hcut : m.CutAt hello place strategy) (h : Reachable rule setup m)
    (hr : m.replayed = true) (hl : m.Leads rule m') :
    m'.journal.BegunInPieces hello place secondLink := by
  have hcaught := h.caught hr
  have hnow : m.journal.BegunInPieces hello place secondLink := by
    unfold Moment.replayed at hr
    rw [List.any_eq_true] at hr
    obtain ⟨⟨k, c⟩, hk, hc⟩ := hr
    have hparts := hcut.parts k c hk
    cases c with
    | replaying len cut piece rest =>
      cases piece with
      | first => cases hc
      | second =>
        cases rest with
        | nil => exact hparts.begun
        | cons b bs => cases hc
    | reshutting | answering => exact hparts
    | _ => cases hc
  have hstays := hl.keeps (P := fun m => m.PastReplay ∧
    m.journal.BegunInPieces hello place secondLink) h
    ⟨⟨hcaught.current, hcaught.rest⟩, hnow⟩ fun _ _ hm hP hn =>
      ⟨(hP.1.next hm hn).1, hP.1.begunInPieces hP.2 hm hn⟩
  exact hstays.2

/-- A retry that obtains a connection cuts the hello at `place`, behind the first offset of the
strategy but not behind its middle, and the cut is on the wire. Whatever short or interrupted writes
the connection has in store, no write of the replay carries bytes from both sides of the place: none
of those that have come to an end, and none that has still to. If the replay is completed, the
writes that the connection accepted before any other use make up the one side of the hello and then
the other, and the account of what happened tells the place. An offset that is drawn from a range
above 0 leaves something on both sides of a hello of two bytes or more, so it is sent in two writes
at least. Of an empty hello nothing is written, and the strategy is not asked. -/
theorem cut_on_wire {setup : Setup} {m m₁ m' : Moment} {k : TaskId} {hello : Bytes} {place : Nat}
    (h : Reachable anything setup m) (ho : m.Obtains k m₁) (hl : m₁.Leads anything m')
    (hhello : hello = m.state.memory.hello.bytes)
    (hplace : place = min (setup.strategy.offset hello.length).1 (hello.length / 2)) :
    hello = m.journal.bytesAccepted firstLink ∧
    (∀ j len cut piece rest, ⟨j, .replaying len cut piece rest⟩ ∈ m'.machine.tasks → rest ≠ [] →
      OneSided hello place (m'.journal.bytesAccepted secondLink).length rest) ∧
    (∀ later e (earlier : Journal) bytes, m'.journal = later ++ e :: earlier →
      e.event.replayed? = some bytes →
      OneSided hello place (earlier.bytesAccepted secondLink).length bytes) ∧
    (∀ m₂, m₁.Leads anything m₂ → m₂.Leads anything m' → m₂.replayed = true →
      m'.journal.BegunInPieces hello place secondLink) ∧
    (m'.state.isDecided = true →
      ∃ stats, m'.state.stats? = some stats ∧ stats.split = some place) ∧
    (∀ range stream, setup.strategy = .uniform range stream → 1 ≤ range.lo → 2 ≤ hello.length →
      hello.take place ≠ [] ∧ hello.drop place ≠ [] ∧
      min range.lo (hello.length / 2) ≤ place ∧ place ≤ min range.hi (hello.length / 2) ∧
      ∀ m₂, m₁.Leads anything m₂ → m₂.Leads anything m' → m₂.replayed = true →
        2 ≤ (m'.journal.beginnings secondLink).length) ∧
    (hello ≠ [] → m'.state.memory.strategy = (setup.strategy.offset hello.length).2) ∧
    (hello = [] → (∀ e ∈ m'.journal, e.event.isReplay = false) ∧
      (∀ j len cut piece rest, ⟨j, .replaying len cut piece rest⟩ ∈ m'.machine.tasks →
        rest = []) ∧
      m'.state.memory.strategy = setup.strategy) := by
  have h₁ : Reachable anything setup m₁ := h.leads (.single ho.toMoves.next)
  have hle : place ≤ hello.length := hplace ▸ Cut.place_le _ _
  have hcuts : ∀ m₂, m₁.Leads anything m₂ → m₂.CutAt hello place
      (if hello = [] then setup.strategy else (setup.strategy.offset hello.length).2) :=
    fun m₂ hl₂ => hl₂.keeps h₁ (ho.cutAt h hhello hplace) fun _ _ hm hP hn => hP.next hle hm hn
  have hcut := hcuts m' hl
  have hbegun : ∀ m₂, m₁.Leads anything m₂ → m₂.Leads anything m' → m₂.replayed = true →
      m'.journal.BegunInPieces hello place secondLink :=
    fun m₂ hl₂ hl' hr => (hcuts m₂ hl₂).begun (h₁.leads hl₂) hr hl'
  have hopen : m.state.isDecided = false := by
    obtain ⟨c, s₁, l, p, hk, he, rfl⟩ := ho.toMoves.effect
    have hafter := ho.after
    rw [Moment.state_advance] at hafter
    obtain ⟨len, dial, w, link, rfl, -⟩ := he.redials_of_current h.sound ho.before hafter
    exact (h.phase hk).2.2.2
  refine ⟨?_, ?_, ?_, hbegun, ?_, ?_, ?_, ?_⟩
  · have hdelivered := (inductive_replays.holds h).1
    rw [hhello, hdelivered.hello hopen]
    exact (hdelivered.onFirst ho.before).symm
  · intro j len cut piece rest hj hrest
    exact (hcut.parts j _ hj).oneSided hle hrest
  · intro later e earlier bytes hj hb
    exact hcut.keeps.oneSided hj hb
  · intro hd
    obtain ⟨d, hv⟩ := Option.isSome_iff_exists.mp hd
    have hstats : m'.state.stats? = some d.stats := by
      unfold State.stats?
      rw [hv]
      rfl
    exact ⟨d.stats, hstats, hcut.stats _ hstats⟩
  · intro range stream hs hlo hlen
    rw [hs] at hplace
    obtain ⟨hfirst, hsecond, hmin, hmax⟩ := Cut.place_uniform hlo hlen hplace
    refine ⟨hfirst, hsecond, hmin, hmax, fun m₂ hl₂ hl' hr => ?_⟩
    obtain ⟨firsts, seconds, hb, hf, hsec, -⟩ := hbegun m₂ hl₂ hl' hr
    have hfirsts : firsts ≠ [] := fun hnil => hfirst (hf ▸ hnil ▸ rfl)
    have hseconds : seconds ≠ [] := fun hnil => hsecond (hsec ▸ hnil ▸ rfl)
    have hf1 := List.length_pos_iff.mpr hfirsts
    have hs1 := List.length_pos_iff.mpr hseconds
    rw [hb, List.length_append]
    omega
  · intro hne
    rw [hcut.strategy, if_neg hne]
  · intro hnil
    refine ⟨?_, fun j len cut piece rest hj => ?_, ?_⟩
    · subst hnil
      exact hcut.keeps.nothing
    · by_contra hrest
      have hwithin := ((hcut.parts j _ hj).oneSided hle hrest).within
      rw [hnil] at hwithin
      exact absurd hwithin (Nat.not_lt_zero _)
    · rw [hcut.strategy, if_pos hnil]

/-- A session whose first connection is reset by its first read. The second one is made when a gate
is opened, and takes one byte at a time. -/
def slowWritesSession : Setup :=
  .localhost 1
    [dialledAtOnce { LinkScript.silent with
      reads := [⟨none, .fault (.ofKind .connectionReset)⟩] },
      ⟨some "redial", 0, .ok { LinkScript.silent with writeMax := some 1 }⟩]

theorem cut_on_wire_in_slow_writes : ∃ m', Reachable anything slowWritesSession m' ∧
    m'.journal.beginnings secondLink = [[1], [2], [3]] ∧
    m'.journal.BegunInPieces [1, 2, 3] 1 secondLink ∧
    ∃ stats, m'.state.stats? = some stats ∧ stats.split = some 1 := by
  have hm : ∃ m₀, slowWritesSession.played [.call (.write [1, 2, 3]), .call (.read 4)] = some m₀ ∧
      ∃ m₁ ∈ (m₀.act (.openGate "redial")).move? 1,
        m₀.state.memory.hello.bytes = [1, 2, 3] ∧ m₀.state.memory.current = firstLink ∧
        m₁.state.memory.current = secondLink ∧ (m₁.play [.idle]).replayed = true ∧
        ((m₁.play [.idle]).play [reply]).journal.beginnings secondLink = [[1], [2], [3]] ∧
        ((m₁.play [.idle]).play [reply]).state.isDecided = true := by
    refine ⟨_, rfl, ?_⟩
    decide +kernel
  obtain ⟨m₀, hplayed, m₁, hmove, hhello, hcur, hcur₁, hr, hb, hd⟩ := hm
  have h : Reachable anything slowWritesSession (m₀.act (.openGate "redial")) :=
    (reachable_of_played (Setup.keeps_anything _ _) hplayed).leads (.single (.act _ trivial))
  have ho : (m₀.act (.openGate "redial")).Obtains 1 m₁ :=
    ⟨Moment.moves_of_move? hmove, hcur, hcur₁⟩
  have hl₂ : m₁.Leads anything (m₁.play [.idle]) := Moment.leads_play (Moment.keeps_anything _ _)
  have hl' : (m₁.play [.idle]).Leads anything ((m₁.play [.idle]).play [reply]) :=
    Moment.leads_play (Moment.keeps_anything _ _)
  obtain ⟨-, -, -, hpieces, hstats, -⟩ := cut_on_wire h ho (hl₂.trans hl') hhello.symm rfl
  exact ⟨_, (h.leads (.single ho.toMoves.next)).leads (hl₂.trans hl'), hb,
    hpieces _ hl₂ hl' hr, hstats hd⟩

end Redial.StreamSession
