import Redial.Proofs.Stream.Places

/-!
# One retry, one settlement

The question of a retry is asked by a read that fails on the first connection, and it is settled
once. What a step does to the question is one of three things (`Effect.turns`): nothing, to settle
it, or to start the retry. A settled question stays settled, on a connection that stays in use.
-/

namespace Redial

/-! ## Views of a journal -/

namespace Event

/-- Whether the question was settled. -/
def isSettlement : Event → Bool
  | noticed (.decided ..) => true
  | _ => false

/-- Whether a read of a connection failed. -/
def isFailedRead (link : LinkId) : Event → Bool
  | readFailed l _ _ => l = link
  | _ => false

/-- Whether a dial call was made or the question was settled. -/
def isTurn (e : Event) : Bool := e.dialled?.isSome || e.isSettlement

end Event

namespace Journal

/-- How often the question was settled. -/
def settlements (j : Journal) : Nat := j.count Event.isSettlement

/-- A read of the first connection has failed, and the question is still open. -/
def FailedWhileOpen (j : Journal) : Prop :=
  (∃ e ∈ j, e.event.isFailedRead Stream.firstLink = true) ∧ j.settlements = 0

/-- Every dial call but the first is made after a read of the first connection has failed, and
before the question is settled. -/
def RedialsAfterFault : Journal → Prop
  | [] => True
  | e :: j => (e.event.dialled?.isSome = true → dials j ≠ [] → FailedWhileOpen j) ∧
    RedialsAfterFault j

theorem settlements_cons (e : Entered) (j : Journal) :
    settlements (e :: j) = j.settlements + if e.event.isSettlement then 1 else 0 := by
  unfold settlements count
  exact List.countP_cons

theorem dials_cons (e : Entered) (j : Journal) :
    dials (e :: j) = j.dials ++ e.event.dialled?.toList := findings_cons e j _

/-- Events that are no turns leave the dial calls and the settlements as they are. -/
theorem turns_append {es j : Journal} (h : ∀ e ∈ es, e.event.isTurn = false) :
    dials (es ++ j) = j.dials ∧ settlements (es ++ j) = j.settlements ∧
      (j.RedialsAfterFault → RedialsAfterFault (es ++ j)) := by
  induction es with
  | nil => exact ⟨rfl, rfl, id⟩
  | cons e es ih =>
    obtain ⟨hd, hs, hr⟩ := ih fun d hd => h d (List.mem_cons_of_mem e hd)
    have he := h e List.mem_cons_self
    unfold Event.isTurn at he
    rw [Bool.or_eq_false_iff] at he
    refine ⟨?_, ?_, fun hj => ⟨fun hdial => ?_, hr hj⟩⟩
    · have hnone : e.event.dialled? = none := by simpa using he.1
      rw [List.cons_append, dials_cons, hd, hnone]
      exact List.append_nil _
    · rw [List.cons_append, settlements_cons, hs, he.2]
      rfl
    · rw [he.1] at hdial
      cases hdial

end Journal

namespace Stream

/-! ## What one step does to the question -/

/-- What a step does to the question of a retry. -/
inductive State.Turns (s : State) : Call → State → Prop where
  /-- The question stays as it is. -/
  | stays {c} {s₁ : State} (hd : s₁.memory.decision = s.memory.decision)
      (hw : s.world.Enters (·.isTurn = false) s₁.world)
      (hl : s₁.world.links.length = s.world.links.length) : Turns s c s₁
  /-- The question is settled. -/
  | settles {c} {s' : State} (hd : s.isDecided = false) (hm : s'.memory = s.memory)
      (hw : s.world.Enters (·.isTurn = false) s'.world)
      (hl : s'.world.links.length = s.world.links.length) : Turns s c s'.settle
  /-- The retry is started. -/
  | retries {link len f} {l : Link} (hd : s.isDecided = false) (ht : s.memory.retried = false)
      (hl : s.world.link? s.memory.current = some l) :
      Turns s (.queued (.judge link len (.error f)))
        { s with memory := { s.memory with retried := true }, world := retryWorld s l f }

section Steps

variable {k j : TaskId} {s s₁ : State} {c d : Call} {p : Progress Call Outcome}

theorem isTurn_readEvent {i : LinkId} (r : Except Fault Bytes) :
    (World.readEvent i k r).isTurn = false := by
  cases r <;> rfl

theorem isTurn_writeEvent (i : LinkId) (purpose : Purpose) (buf : Bytes) (r : Except Fault Bytes) :
    (World.writeEvent i purpose buf r).isTurn = false := by
  cases r <;> rfl

theorem Effect.turns (h : Effect k s c s₁ p) (hs : s.Sound) (hc : c.Phase s) :
    s.Turns c s₁ := by
  cases h with
  | passes => exact .stays rfl (.refl _) rfl
  | @asksShut half => cases half <;> exact .stays rfl (.refl _) rfl
  | reads hr => exact .stays rfl (.read hr (isTurn_readEvent _)) (World.SameLinks.read hr).length
  | settlesAtEnd _ _ hd => exact .settles hd rfl (.refl _) rfl
  | settlesOnBytes _ hd =>
    exact .settles hd rfl (.setDeadline rfl) (World.SameLinks.setDeadline _ _ _).length
  | settlesOnFault _ _ hd => exact .settles hd rfl (.note rfl) rfl
  | retries _ ht hd =>
    obtain ⟨l, hl⟩ := hs.current_isSome
    rw [beginRetry_eq hl]
    exact .retries hd ht hl
  | @redials len dial w link hr =>
    have hdial : s.world.Enters (·.isTurn = false) w := .dialled hr rfl fun _ => rfl
    obtain ⟨now, script, -, rfl⟩ := World.dialled_ok hr
    exact .stays rfl (hdial.trans (.note rfl)) (World.length_links_setLink _ _ _)
  | @redialFails len dial w f hr =>
    have hdial : s.world.Enters (·.isTurn = false) w := .dialled hr rfl fun _ => rfl
    have hlinks := congrArg List.length (World.dialled_error hr)
    exact .settles hc.2.2.2 rfl (hdial.trans (.note rfl)) hlinks
  | replays _ hw | replayInterrupted _ hw | sendsTo hw =>
    exact .stays rfl (.write hw (isTurn_writeEvent _ _ _ _)) (World.SameLinks.write hw).length
  | replayFails _ hw =>
    exact .settles hc.2 rfl ((World.Enters.write hw (isTurn_writeEvent _ _ _ _)).trans (.note rfl))
      (World.SameLinks.write hw).length
  | reshutsRead hw | reshutsWrite hw | shuts hw =>
    exact .stays rfl (.shut hw rfl) (World.SameLinks.shut hw).length
  | reshutFails hw => exact .settles hc.2 rfl (.shut hw rfl) (World.SameLinks.shut hw).length
  | answers hr =>
    have hlinks := (World.SameLinks.read hr).length
    exact .settles hc.2 rfl (World.Enters.read hr (isTurn_readEvent _)) hlinks
  | @sends goal buf w bytes hw =>
    have hlinks := (World.SameLinks.write hw).trans
      (.setDeadline _ s.memory.current (s.withWorld w).replyDeadline)
    have hentered : s.world.Enters (·.isTurn = false) _ := .write hw (isTurn_writeEvent _ _ _ _)
    exact .stays rfl (hentered.trans (.setDeadline rfl)) hlinks.length
  | @sendFails goal buf w f hw =>
    have hlinks := (World.SameLinks.write hw).trans
      (.setDeadline _ s.memory.current (s.withWorld w).replyDeadline)
    have hwrite : s.world.Enters (·.isTurn = false)
        (w.setDeadline s.memory.current (s.withWorld w).replyDeadline) :=
      (World.Enters.write hw (isTurn_writeEvent _ _ _ _)).trans (.setDeadline rfl)
    exact .stays rfl (hwrite.trans (.note rfl)) hlinks.length
  | bare hw =>
    have heff := BareCall.effect_of_step hw
    exact .stays rfl (heff.enters isTurn_readEvent (isTurn_writeEvent _ _) fun _ _ => rfl)
      heff.sameLinks.length

/-! ## What holds of the question -/

/-- What the journal says of the question of a retry. -/
structure State.Questioned (s : State) : Prop where
  dials : s.world.journal.dials.length = s.world.links.length
  redials : s.world.journal.RedialsAfterFault
  settlements : s.world.journal.settlements = if s.isDecided then 1 else 0

/-- A read that brings a fault has met it on the connection that it names. -/
def Call.Blames (s : State) : Call → Prop
  | queued (.judge link _ (.error _)) => ∃ e ∈ s.world.journal, e.event.isFailedRead link = true
  | _ => True

theorem State.Questioned.congr (h : s.Questioned) (hd : s₁.memory.decision = s.memory.decision)
    (hw : s.world.Enters (·.isTurn = false) s₁.world)
    (hl : s₁.world.links.length = s.world.links.length) : s₁.Questioned := by
  obtain ⟨es, hj, he⟩ := hw
  obtain ⟨hdials, hset, hredials⟩ := Journal.turns_append (j := s.world.journal) he
  refine ⟨?_, ?_, ?_⟩
  · rw [hj, hdials, hl]
    exact h.dials
  · rw [hj]
    exact hredials h.redials
  · rw [hj, hset, h.settlements]
    unfold State.isDecided
    rw [hd]

theorem State.Questioned.settle (h : s.Questioned) (hd : s.isDecided = false) :
    s.settle.Questioned := by
  have hnew : s.settle.world.journal =
      ⟨s.world.now, .noticed (.decided s.terms.destination s.memory.retried)⟩ ::
        s.world.journal := rfl
  refine ⟨?_, ?_, ?_⟩
  · rw [hnew, Journal.dials_cons]
    exact (congrArg List.length (List.append_nil _)).trans h.dials
  · rw [hnew]
    exact ⟨fun hdial => Bool.noConfusion hdial, h.redials⟩
  · rw [hnew, Journal.settlements_cons, h.settlements, State.isDecided_settle, hd]
    rfl

theorem Effect.questioned (h : Effect k s c s₁ p) (hs : s.Sound) (hc : c.Phase s)
    (hq : s.Questioned) (hb : c.Blames s) : s₁.Questioned := by
  cases h.turns hs hc with
  | stays hd hw hl => exact hq.congr hd hw hl
  | @settles _ s' hd hm hw hl =>
    have hsame : s'.memory.decision = s.memory.decision := by rw [hm]
    refine (hq.congr hsame hw hl).settle ?_
    unfold State.isDecided at hd ⊢
    rw [hsame]
    exact hd
  | @retries link len f l hd ht hl =>
    have hfirst : link = firstLink := by
      rcases hc with hlink | hlink
      · exact hlink
      · exact hlink.trans (hs.current_eq_first ht)
    subst hfirst
    -- Before the dial call only the report of the retry and the closing are entered.
    have hclosing : ∀ e ∈ closingEntries s.world.now s.memory.current l.close.2 ++
        [⟨s.world.now, .noticed (.retrying s.terms.destination s.memory.hello.length f)⟩],
        e.event.isTurn = false := by
      intro e he
      unfold closingEntries at he
      split at he
      · simp only [List.mem_append, List.mem_cons, List.not_mem_nil, or_false] at he
        rcases he with rfl | rfl <;> rfl
      · simp only [List.mem_append, List.mem_cons, List.not_mem_nil, or_false] at he
        rcases he with (rfl | rfl) | rfl <;> rfl
    obtain ⟨hdials, hset, hredials⟩ := Journal.turns_append (j := s.world.journal) hclosing
    have hopen : s.world.journal.settlements = 0 := by rw [hq.settlements, hd]; rfl
    obtain ⟨e, he, hfault⟩ := hb
    refine ⟨?_, ?_, ?_⟩
    · show (Journal.dials (_ :: (_ ++ s.world.journal))).length = (retryWorld s l f).links.length
      rw [Journal.dials_cons, hdials, length_links_retryWorld, ← hq.dials]
      exact List.length_append
    · refine ⟨fun _ _ => ⟨⟨e, List.mem_append_right _ he, hfault⟩, ?_⟩, hredials hq.redials⟩
      exact hset.trans hopen
    · show Journal.settlements (_ :: (_ ++ s.world.journal)) = _
      rw [Journal.settlements_cons, hset, hq.settlements]
      rfl

theorem Call.Blames.enters {P : Event → Prop} (h : c.Blames s) (hw : s.world.Enters P s₁.world) :
    c.Blames s₁ := by
  obtain ⟨es, hj, -⟩ := hw
  unfold Call.Blames at h ⊢
  rw [hj]
  split at h
  · obtain ⟨e, he, hfault⟩ := h
    exact ⟨e, List.mem_append_right _ he, hfault⟩
  · trivial

theorem Effect.enters (h : Effect k s c s₁ p) (hs : s.Sound) (hc : c.Phase s) :
    s.world.Enters (fun _ => True) s₁.world := by
  cases h.turns hs hc with
  | stays _ hw => exact hw.mono fun _ _ => trivial
  | settles _ _ hw => exact (hw.mono fun _ _ => trivial).trans (.note trivial)
  | retries => exact enters_retryWorld _ _ _ (fun _ => trivial) trivial (fun _ => trivial) trivial

theorem Call.Blames.of_not_retrieves (h : c.retrieves = false) : c.Blames s := by
  unfold Call.Blames
  split
  · cases h
  · trivial

theorem Retrieval.blames (h : Retrieval k s c s₁ d) : d.Blames s₁ := by
  cases h with
  | @brings link len w r hr =>
    cases r with
    | ok bytes => trivial
    | error f =>
      obtain ⟨l, l', -, -, rfl⟩ := World.read_eq_some hr
      exact ⟨_, List.mem_cons_self, decide_eq_true rfl⟩
  | _ => trivial

end Steps

end Stream

namespace StreamSession

open Redial.Stream

variable {rule : Rule} {setup : Setup} {m m' : Moment}

theorem questioned_of_opening {s : State} (h : setup.opening = .opened s) : s.Questioned := by
  obtain ⟨now, script, timeout, -, hm, hl, hj⟩ := opening_eq_opened h
  refine ⟨?_, ?_, ?_⟩
  · rw [hj, hl]
    rfl
  · rw [hj]
    exact ⟨fun hd => Bool.noConfusion hd, fun hd => Bool.noConfusion hd,
      fun _ hd => absurd rfl hd, trivial⟩
  · unfold State.isDecided
    rw [hj, hm]
    rfl

/-- The journal keeps to what it says of the question. -/
theorem inductive_questioned :
    Inductive rule setup State.Questioned fun _ s c => c.Blames s where
  opened s hs := questioned_of_opening hs
  started k s request := trivial
  changes s action hq := by
    have hw : ∀ {P : Event → Prop}, s.world.Enters P (action.change s.world) :=
      enters_change _ _
    exact ⟨hq.congr rfl hw (sameLinks_change _ _).length,
      fun k c hc => hc.enters (hw (P := fun _ => True))⟩
  locks s l hq := by
    refine ⟨hq.congr rfl (.refl _) rfl, fun k c hc => ?_⟩
    exact hc.enters (P := fun _ => True) (.refl _)
  steps m k c s₁ p hm hk hq hb he := by
    refine ⟨he.questioned hm.sound (hm.phase hk) hq hb, fun c' hp => ?_⟩
    cases hr : c'.retrieves with
    | false => exact .of_not_retrieves hr
    | true => exact (he.retrieval hp hr).blames
  others m k c s₁ p j d hm hk _ _ _ _ he hb := hb.enters (he.enters hm.sound (hm.phase hk))

/-- A stream makes one retry and is settled once. At most two dial calls are made, the second one
after a read of the first connection has failed and while the question is open; the connection in
use is replaced at most once; and once the question is settled, it stays so, with the same account
of what happened before, on the connection that stays in use. -/
theorem one_retry_one_settlement {setup : Setup} {m : Moment} (h : Reachable anything setup m) :
    m.journal.dials.length ≤ 2 ∧ m.journal.RedialsAfterFault ∧
    (∀ m' m'', m.Leads anything m' → m'.Leads anything m'' →
      m'.state.memory.current ≠ m.state.memory.current →
      m''.state.memory.current = m'.state.memory.current) ∧
    m.journal.settlements ≤ 1 ∧
    (m.state.isDecided = true → ∃ stats, ∀ m', m.Leads anything m' →
      m'.state.isDecided = true ∧ m'.state.stats? = some stats ∧
      m'.state.finalLink? = some m.state.memory.current ∧
      m'.state.memory.current = m.state.memory.current) := by
  have hq := (inductive_questioned.holds h).1
  refine ⟨?_, hq.redials, ?_, ?_, ?_⟩
  · have hdials : m.journal.dials.length = m.state.world.links.length := hq.dials
    rw [hdials, h.sound.dials]
    split <;> omega
  · intro m' m'' hl hl' hne
    rcases hl.current h with hsame | ⟨-, hsecond⟩
    · exact absurd hsame hne
    · rcases hl'.current (h.leads hl) with hsame' | ⟨hfirst', -⟩
      · exact hsame'
      · rw [hsecond] at hfirst'
        cases hfirst'
  · rw [hq.settlements]
    split <;> omega
  · intro hd
    have hfinal := h.sound.finalLink?_eq hd
    have hstats : ∃ stats, m.state.stats? = some stats := by
      unfold State.isDecided Latch.isSet at hd
      obtain ⟨d, hv⟩ := Option.isSome_iff_exists.mp hd
      unfold State.stats?
      rw [hv]
      exact ⟨d.stats, rfl⟩
    obtain ⟨stats, hstats⟩ := hstats
    refine ⟨stats, fun m' hl => ?_⟩
    have hg := hl.sameGuarded h hd
    exact ⟨hg.isDecided.trans hd, hg.stats?.trans hstats, hg.finalLink?.trans hfinal, hg.current⟩

theorem one_retry_one_settlement_after_reset : ∃ m, Reachable anything resetSession m ∧
    m.journal.dials.length = 2 ∧ m.journal.settlements = 1 ∧
    ∀ m', m.Leads anything m' → m'.state.finalLink? = some secondLink := by
  have hm : ∃ m, resetSession.played [.call (.write [1, 2, 3]), .call (.read 4), reply] = some m ∧
      m.journal.dials.length = 2 ∧ m.journal.settlements = 1 ∧ m.state.isDecided = true ∧
      m.state.memory.current = secondLink := by
    refine ⟨_, rfl, ?_, ?_, ?_, ?_⟩
    · decide +kernel
    · decide +kernel
    · decide +kernel
    · decide +kernel
  obtain ⟨m, hplayed, hdials, hset, hd, hcur⟩ := hm
  have hreach := reachable_of_played (Setup.keeps_anything _ _) hplayed
  obtain ⟨-, -, -, -, hstays⟩ := one_retry_one_settlement hreach
  obtain ⟨stats, hstays⟩ := hstays hd
  refine ⟨m, hreach, hdials, hset, fun m' hl => ?_⟩
  rw [← hcur]
  exact (hstays m' hl).2.2.1

end StreamSession

end Redial
