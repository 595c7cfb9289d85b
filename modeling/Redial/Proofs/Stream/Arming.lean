import Redial.Proofs.Stream.Abandoned
import Redial.Proofs.Stream.Attempts
import Redial.Proofs.Wire.Deadlines

/-!
# How read deadlines are armed

While the question is open, a write of a caller that comes to an end arms the deadline of the
connection in use anew, whether or not anything was accepted; only bytes that settle the question
clear a deadline, and once it is settled all deadlines stay (`Effect.rearms`). So as long as the
question is open, the deadline of a connection is counted from the last write that a caller has made
on it (`Reachable.armed`).
-/

namespace Redial

/-- When the last write of a caller on a connection came to its end, if there was one. -/
def Journal.lastWrite (j : Journal) (i : LinkId) : Option Instant :=
  (j.find? fun e => e.event.isAttempt && e.event.link? == some i).map (·.time)

namespace World

variable {w w' : World}

theorem lastWrite_of_enters (h : w.Enters (·.isAttempt = false) w') (i : LinkId) :
    w'.journal.lastWrite i = w.journal.lastWrite i := by
  obtain ⟨es, hj, he⟩ := h
  have hnone : es.find? (fun e => e.event.isAttempt && e.event.link? == some i) = none :=
    List.find?_eq_none.mpr fun e hmem => by simp [he e hmem]
  unfold Journal.lastWrite
  rw [hj, List.find?_append, hnone]
  rfl

theorem lastWrite_write {i : LinkId} {k : TaskId} {buf : Bytes} {r : Except Fault Bytes}
    (h : w.write i (.call k) buf = some (w', r)) (j : LinkId) :
    w'.journal.lastWrite j = if j = i then some w.now else w.journal.lastWrite j := by
  obtain ⟨l, l', -, -, rfl⟩ := write_eq_some h
  have hfound : ((writeEvent i (.call k) buf r).isAttempt &&
      (writeEvent i (.call k) buf r).link? == some j) = decide (i = j) := by
    cases r <;> rfl
  unfold Journal.lastWrite
  rw [journal_enter, List.find?_cons, hfound]
  by_cases hij : i = j
  · rw [decide_eq_true hij, if_pos hij.symm]
    rfl
  · rw [decide_eq_false hij, if_neg (Ne.symm hij)]
    rfl

theorem now_write {i : LinkId} {purpose : Purpose} {buf : Bytes} {r : Except Fault Bytes}
    (h : w.write i purpose buf = some (w', r)) : w'.now = w.now := by
  obtain ⟨l, l', -, -, rfl⟩ := write_eq_some h
  rfl

end World

namespace Stream

/-- What a step of a call does to read deadlines. -/
inductive State.Rearms (s : State) : Call → State → Prop where
  /-- All deadlines stay. While the question is open, nothing is written for a caller then. -/
  | stays {c s₁} (hw : s.world.SameDeadlines s₁.world)
      (hrest : s.isDecided = false → s.world.Enters (·.isAttempt = false) s₁.world) :
      Rearms s c s₁
  /-- A write of a caller arms the deadline of the connection in use. -/
  | arms {goal buf s₁} (hd : s.isDecided = false)
      (hw : ∀ i, s₁.world.deadline? i =
        if i = s.memory.current then s.replyDeadline else s.world.deadline? i)
      (hj : ∀ i, s₁.world.journal.lastWrite i =
        if i = s.memory.current then some s.world.now else s.world.journal.lastWrite i) :
      Rearms s (.sending goal buf) s₁
  /-- Bytes that settle the question clear the deadline of the connection that they are from. -/
  | clears {link len bytes s₁} (hd : s.isDecided = false) (hd₁ : s₁.isDecided = true)
      (hw : ∀ i, s₁.world.deadline? i = if i = link then none else s.world.deadline? i) :
      Rearms s (.queued (.judge link len (.ok bytes))) s₁

section Steps

variable {k j : TaskId} {s s₁ : State} {c d : Call} {p : Progress Call Outcome}

theorem sameDeadlines_retryWorld {l : Link} (hl : s.world.link? s.memory.current = some l)
    (cause : Fault) : s.world.SameDeadlines (retryWorld s l cause) := by
  intro i
  have hclose : (s.world.setLink s.memory.current l.close.1).deadline? i = s.world.deadline? i :=
    World.SameDeadlines.setLink hl (Link.deadline_close l) i
  unfold World.deadline? at hclose ⊢
  rw [link?_retryWorld]
  exact hclose

/-- A write of a caller on the connection in use arms its deadline. -/
theorem State.Rearms.of_write {w : World} {goal : Goal} {buf : Bytes} {r : Except Fault Bytes}
    (hs : s.Sound) (hd : s.isDecided = false)
    (hw : s.world.write s.memory.current (.call k) buf = some (w, r))
    (hdeadline : (w.setDeadline s.memory.current
      (s.withWorld w).replyDeadline).SameDeadlines s₁.world)
    (hrest : w.Enters (·.isAttempt = false) s₁.world) : s.Rearms (.sending goal buf) s₁ := by
  obtain ⟨l, hl⟩ : ∃ l, w.link? s.memory.current = some l :=
    (hs.withWorld (.write hw)).current_isSome
  have hnow : (s.withWorld w).replyDeadline = s.replyDeadline :=
    congrArg (Instant.add? · s.terms.timeout) (World.now_write hw)
  refine .arms hd (fun i => ?_) fun i => ?_
  · rw [hdeadline i, hnow, World.deadline?_setDeadline hl, World.SameDeadlines.write hw i]
  · rw [World.lastWrite_of_enters hrest, World.lastWrite_write hw]

/-- While the question is open, only a write on the connection in use is made for a caller. -/
theorem State.Tries.enters (h : s.Tries k c s₁) (hc : ∀ goal buf, c ≠ .sending goal buf)
    (hd : s.isDecided = false) : s.world.Enters (·.isAttempt = false) s₁.world := by
  have hnone : s.finalLink? = none := State.isDecided_eq_false_iff.mp hd
  cases h with
  | rests hw => exact hw
  | writes hoffers =>
    cases hoffers with
    | sending => exact absurd rfl (hc _ _)
    | sendingTo hfinal | bare hfinal =>
      rw [hnone] at hfinal
      cases hfinal

theorem Effect.rearms (h : Effect k s c s₁ p) (hs : s.Sound) (hc : c.Phase s) :
    s.Rearms c s₁ := by
  have hrest : (∀ goal buf, c ≠ .sending goal buf) → s.isDecided = false →
      s.world.Enters (·.isAttempt = false) s₁.world := fun hne => (h.tries hs hc).enters hne
  have stays : s.world.SameDeadlines s₁.world → (∀ goal buf, c ≠ .sending goal buf) →
      s.Rearms c s₁ := fun hsame hne => .stays hsame (hrest hne)
  cases h with
  | passes => exact .stays (.refl _) fun _ => .refl _
  | @asksShut half =>
    refine stays ?_ fun _ _ => Call.noConfusion
    cases half <;> exact .refl _
  | reads hr => exact stays (.read hr) fun _ _ => Call.noConfusion
  | settlesAtEnd | settlesOnFault =>
    refine stays ?_ fun _ _ => Call.noConfusion
    exact .of_links rfl
  | @settlesOnBytes link len bytes _ hd =>
    obtain ⟨l, hl⟩ : ∃ l, s.world.link? link = some l := by
      rcases hc with hlink | hlink
      · rw [hlink]
        exact Option.isSome_iff_exists.mp hs.first
      · rw [hlink]
        exact hs.current_isSome
    refine .clears hd State.isDecided_settle fun i => ?_
    exact World.deadline?_setDeadline hl none i
  | @retries link len f =>
    obtain ⟨l, hl⟩ := hs.current_isSome
    refine stays ?_ fun _ _ => Call.noConfusion
    rw [beginRetry_eq hl]
    exact sameDeadlines_retryWorld hl f
  | redials hr =>
    refine stays ?_ fun _ _ => Call.noConfusion
    have hnone : s.world.link? _ = none := hc.1 ▸ hs.second_eq_none hc.2.2.1
    exact (World.SameDeadlines.dialled hr hnone).note _
  | redialFails hr =>
    refine stays ?_ fun _ _ => Call.noConfusion
    have hlinks := World.dialled_error hr
    exact .of_links hlinks
  | replays _ hw | replayInterrupted _ hw | sendsTo hw =>
    exact stays (.write hw) fun _ _ => Call.noConfusion
  | replayFails _ hw =>
    refine stays ?_ fun _ _ => Call.noConfusion
    exact ((World.SameDeadlines.write hw).note _).note _
  | reshutsRead hw | reshutsWrite hw | shuts hw =>
    exact stays (.shut hw) fun _ _ => Call.noConfusion
  | reshutFails hw =>
    refine stays ?_ fun _ _ => Call.noConfusion
    exact (World.SameDeadlines.shut hw).note _
  | answers hr =>
    refine stays ?_ fun _ _ => Call.noConfusion
    exact (World.SameDeadlines.read hr).note _
  | sends hw =>
    refine .of_write hs hc hw ?_ ?_
    · exact .refl _
    · exact .setDeadline rfl
  | sendFails hw =>
    refine .of_write hs hc hw ?_ ?_
    · exact .enter _ _
    · exact World.Enters.trans (.setDeadline rfl) (.note rfl)
  | bare hw =>
    refine stays ?_ fun _ _ => Call.noConfusion
    exact (BareCall.effect_of_step hw).sameDeadlines

/-! ## Deadlines while the question is open -/

/-- What holds of read deadlines while the question is open. -/
structure State.Armed (s : State) : Prop where
  /-- A deadline is counted from the last write of a caller on the connection. -/
  deadlines : s.isDecided = false → ∀ i, s.world.deadline? i =
    (s.world.journal.lastWrite i).bind (·.add? s.terms.timeout)
  unwritten : s.isDecided = false → s.memory.current = firstLink →
    s.world.journal.lastWrite secondLink = none

/-- Until a retry after its dial is done, no caller writes on the second connection. -/
def Call.Unwritten (s : State) (c : Call) : Prop :=
  c.renews = true → s.world.journal.lastWrite secondLink = none

theorem Effect.terms (h : Effect k s c s₁ p) (hs : s.Sound) : s₁.terms = s.terms := by
  cases h with
  | @asksShut half => cases half <;> rfl
  | retries =>
    obtain ⟨l, hl⟩ := hs.current_isSome
    rw [beginRetry_eq hl]
  | _ => rfl

theorem State.Armed.of_same (h : s.Armed) (hd : s₁.memory.decision = s.memory.decision)
    (hcur : s₁.memory.current = s.memory.current) (ht : s₁.terms = s.terms)
    (hw : s.world.SameDeadlines s₁.world)
    (hj : ∀ i, s₁.world.journal.lastWrite i = s.world.journal.lastWrite i) : s₁.Armed := by
  have hopen : s₁.isDecided = s.isDecided := congrArg Latch.isSet hd
  refine ⟨fun hd i => ?_, fun hd hfirst => ?_⟩
  · rw [hw i, hj i, ht]
    exact h.deadlines (hopen ▸ hd) i
  · rw [hj secondLink]
    exact h.unwritten (hopen ▸ hd) (hcur ▸ hfirst)

theorem Effect.armed (h : Effect k s c s₁ p) (hs : s.Sound) (hc : c.Phase s) (ha : s.Armed) :
    s₁.Armed := by
  cases hd : s.isDecided with
  | true =>
    have hd₁ := (h.settled hd (hc.not_provisional hd)).isDecided.trans hd
    refine ⟨fun hopen => ?_, fun hopen => ?_⟩
    all_goals
      rw [hd₁] at hopen
      cases hopen
  | false =>
    have hfirst : s₁.memory.current = firstLink → s.memory.current = firstLink := by
      intro hfirst
      rcases h.current hs hc with hsame | ⟨hfirst, -⟩
      · exact hsame.symm.trans hfirst
      · exact hfirst
    have ht := h.terms hs
    cases h.rearms hs hc with
    | stays hw hrest =>
      have hlast := World.lastWrite_of_enters (hrest hd)
      refine ⟨fun _ i => ?_, fun _ hcur => ?_⟩
      · rw [hw i, hlast i, ht]
        exact ha.deadlines hd i
      · rw [hlast secondLink]
        exact ha.unwritten hd (hfirst hcur)
    | arms _ hw hj =>
      refine ⟨fun _ i => ?_, fun _ hcur => ?_⟩
      · rw [hw i, hj i, ht]
        split
        · rfl
        · exact ha.deadlines hd i
      · rw [hj secondLink, hfirst hcur]
        exact ha.unwritten hd (hfirst hcur)
    | clears _ hd₁ =>
      refine ⟨fun hopen => ?_, fun hopen => ?_⟩
      all_goals
        rw [hd₁] at hopen
        cases hopen

theorem Effect.unwritten (h : Effect k s c s₁ (.goesOn d)) (hs : s.Sound) (hc : c.Phase s)
    (ha : s.Armed) (hu : c.Unwritten s) : d.Unwritten s₁ := by
  intro hrenews
  have hold : s.isDecided = false ∧ (∀ goal buf, c ≠ .sending goal buf) ∧
      s.world.journal.lastWrite secondLink = none := by
    cases h.renewal rfl hrenews with
    | redials => exact ⟨hc.2.2.2, fun _ _ => Call.noConfusion, ha.unwritten hc.2.2.2 hc.2.2.1⟩
    | _ => exact ⟨hc.2, fun _ _ => Call.noConfusion, hu rfl⟩
  obtain ⟨hd, hne, hnone⟩ := hold
  exact (World.lastWrite_of_enters ((h.tries hs hc).enters hne hd) _).trans hnone

/-- A retry after its dial has the lock, so no other call writes for a caller. -/
theorem Effect.unwritten_of_ne (h : Effect k s c s₁ p) (hs : s.Sound) (hc : c.Phase s)
    (hk : c.holds = true → s.memory.lock.holder? = some k) (hd : d.Phase s)
    (hj : d.holds = true → s.memory.lock.holder? = some j) (hjk : j ≠ k) (hu : d.Unwritten s) :
    d.Unwritten s₁ := by
  intro hrenews
  have hholder := hj (Call.holds_of_renews hrenews)
  have hne : ∀ goal buf, c ≠ .sending goal buf := by
    rintro goal buf rfl
    exact hjk (Option.some.inj (hholder.symm.trans (hk rfl)))
  have hopen := (hd.of_renews hrenews).2
  exact (World.lastWrite_of_enters ((h.tries hs hc).enters hne hopen) _).trans (hu hrenews)

end Steps

end Stream

namespace StreamSession

open Redial.Stream

variable {rule : Rule} {setup : Setup} {m m' : Moment}

theorem armed_of_opening {s : State} (h : setup.opening = .opened s) : s.Armed := by
  obtain ⟨now, script, timeout, -, -, hl, hj⟩ := opening_eq_opened h
  have hlast : ∀ i, s.world.journal.lastWrite i = none := by
    intro i
    rw [hj]
    rfl
  refine ⟨fun _ i => ?_, fun _ _ => hlast secondLink⟩
  rw [hlast i]
  unfold World.deadline? World.link?
  rw [hl]
  cases i <;> rfl

/-- The clock when the dial of the opening has ended. -/
def Setup.dialEnd (setup : Setup) : Instant :=
  let script : DialScript := (setup.dials[0]?.map (·.item)).getD .refused
  setup.clock.advance script.latency

theorem terms_of_opening {s : State} (h : setup.opening = .opened s) :
    s.terms = ⟨setup.destination, setup.config.timeoutFor setup.clock setup.dialEnd,
      setup.config.chunkLen⟩ := by
  unfold Setup.opening World.dialledAtOnce World.connect at h
  dsimp only at h
  split at h
  · cases h
  · rename_i w link hc
    split at hc
    · cases hc
    · cases hc
      cases h
      rfl

/-- What a stream was opened with stays as it is. -/
theorem Reachable.terms (h : Reachable rule setup m) :
    m.state.terms = ⟨setup.destination, setup.config.timeoutFor setup.clock setup.dialEnd,
      setup.config.chunkLen⟩ := by
  refine Reachable.induction (P := fun m => m.state.terms = ⟨setup.destination,
    setup.config.timeoutFor setup.clock setup.dialEnd, setup.config.chunkLen⟩) h ?_ ?_
  · intro s hs
    exact terms_of_opening hs
  · intro m m' hm ih hn
    rcases hn.split with ⟨action, machine, -, ha, rfl⟩ | ⟨k, c, s, p, hk, hstep, rfl⟩
    · rcases ha.env with ⟨l, he⟩ | he
      · unfold Moment.state
        rw [he]
        exact ih
      · unfold Moment.state
        rw [he]
        exact ih
    · obtain ⟨s₁, l, he, -, rfl⟩ := does_of_step hstep
      rw [Moment.state_advance]
      exact (he.terms hm.sound).trans ih

theorem sameDeadlines_change (w : World) (action : Session.Action) :
    w.SameDeadlines (action.change w) := by
  cases action with
  | feed link more => exact .feed w link more
  | _ => exact .of_links rfl

theorem inductive_armed : Inductive rule setup State.Armed fun _ s c => c.Unwritten s where
  opened s hs := armed_of_opening hs
  started k s request := fun hrenews => Bool.noConfusion hrenews
  changes s action ha := by
    have hj := World.lastWrite_of_enters (enters_change s.world action)
    refine ⟨ha.of_same rfl rfl rfl (sameDeadlines_change _ _) hj, fun k c hc hrenews => ?_⟩
    exact (hj secondLink).trans (hc hrenews)
  locks s l ha := ⟨ha.of_same rfl rfl rfl (.refl _) fun _ => rfl, fun k c hc => hc⟩
  steps m k c s₁ p hm hk ha hc he := by
    refine ⟨he.armed hm.sound (hm.phase hk) ha, ?_⟩
    rintro c' rfl
    exact he.unwritten hm.sound (hm.phase hk) ha hc
  others m k c s₁ p j d hm hk hj hjk _ _ he hd :=
    he.unwritten_of_ne hm.sound (hm.phase hk) (hm.holder hk) (hm.phase hj) (hm.holder hj) hjk hd

theorem Reachable.armed (h : Reachable rule setup m) : m.state.Armed :=
  (inductive_armed.holds h).1

theorem Reachable.unwritten (h : Reachable rule setup m) {k : TaskId} {c : Call}
    (hk : ⟨k, c⟩ ∈ m.machine.tasks) : c.Unwritten m.state :=
  (inductive_armed.holds h).2 k c hk

/-- Once the question is settled, no deadline is set or cleared any more. -/
theorem Moment.Leads.sameDeadlines (hl : m.Leads rule m') (h : Reachable rule setup m)
    (hd : m.state.isDecided = true) : m.state.world.SameDeadlines m'.state.world := by
  induction hl with
  | refl => exact .refl _
  | @tail m₁ m₂ hl hn ih =>
    have h₁ := h.leads hl
    have hd₁ := (Moment.Leads.sameGuarded hl h hd).isDecided.trans hd
    refine ih.trans ?_
    rcases hn.split with ⟨action, machine, -, ha, rfl⟩ | ⟨k, c, s, p, hk, hstep, rfl⟩
    · rcases ha.env with ⟨l, he⟩ | he
      · unfold Moment.state
        rw [he]
        exact .refl _
      · unfold Moment.state
        rw [he]
        exact sameDeadlines_change _ action
    · obtain ⟨s₁, l, he, -, rfl⟩ := does_of_step hstep
      rw [Moment.state_advance]
      cases he.rearms h₁.sound (h₁.phase hk) with
      | stays hw => exact hw
      | arms hopen | clears hopen =>
        rw [hd₁] at hopen
        cases hopen

end StreamSession

end Redial
