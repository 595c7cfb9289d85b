import Redial.Proofs.Progress.Completion
import Redial.Proofs.Stream.Arming
import Redial.Proofs.Stream.Reader

/-!
# Deadlines that outlive the question

Bytes that settle the question clear the deadline of the connection that they are from, and a
connection that a retry has made has none as long as the retry is under way. But after a retry has
been dropped, writes of callers arm the deadline of the second connection, and a read that settles
the question without bytes leaves it as it is. Nothing else leaves a deadline on a final connection
that no retry has closed (`deadline_outlives_question_iff`).
-/

namespace Redial

/-! ## Faults of a connection -/

/-- A fault that a read of a connection meets whatever the time is. -/
inductive Link.Fails (l : Link) : Fault → Prop where
  | closed {kind} (hc : l.closed = true) (hr : l.closedRead = .fault kind) : Fails l (.ofKind kind)
  | arrived {g rest f} (hr : l.reads = g :: rest) (hf : g.item = .fault f) : Fails l f

theorem Link.waitForData_error {l l' : Link} {now : Instant} {f : Fault}
    (h : l.waitForData now = some (l', .error f)) :
    f = .deadlineExceeded ∧ l.overdue now = true := by
  unfold waitForData at h
  split at h
  · rename_i hpassed
    cases h
    exact ⟨rfl, hpassed⟩
  · cases h

/-- A read fails with a fault of the connection itself, or because the deadline has passed. -/
theorem Link.fails_or_overdue {l l' : Link} {now : Instant} {opened : List Gate} {len : Nat}
    {f : Fault} (h : l.read now opened len = some (l', .error f)) :
    l.Fails f ∨ f = .deadlineExceeded ∧ l.overdue now = true := by
  unfold read at h
  split at h
  · rename_i hclosed
    split at h
    · rename_i kind hr
      cases h
      exact .inl (.closed hclosed hr)
    · cases h
  · split at h
    · split at h
      · cases h
      · exact .inr (waitForData_error h)
    · rename_i g rest hr
      split at h
      · split at h
        · rename_i f' hf
          cases h
          exact .inl (.arrived hr hf)
        · split at h
          · cases h
          · split at h <;> cases h
      · split at h
        · cases h
        · exact .inr (waitForData_error h)

namespace World

variable {w w' : World} {i : LinkId}

theorem isOverdue_iff : w.isOverdue i = true ↔
    ∃ d, w.deadline? i = some d ∧ d.reached w.now = true := by
  unfold isOverdue deadline?
  cases w.link? i with
  | none => simp
  | some l =>
    show l.overdue w.now = true ↔ ∃ d, l.deadline = some d ∧ _
    unfold Link.overdue
    cases l.deadline with
    | none => simp
    | some d => simp

theorem fails_or_overdue {task : TaskId} {len : Nat} {f : Fault}
    (h : w.read i task len = some (w', .error f)) :
    (∃ l, w.link? i = some l ∧ l.Fails f) ∨ f = .deadlineExceeded ∧ w.isOverdue i = true := by
  obtain ⟨l, l', hl, hr, -⟩ := read_eq_some h
  rcases Link.fails_or_overdue hr with hf | ⟨hf, hpassed⟩
  · exact .inl ⟨l, hl, hf⟩
  · refine .inr ⟨hf, ?_⟩
    unfold isOverdue
    rw [hl]
    exact hpassed

theorem fails_of_not_overdue {task : TaskId} {len : Nat} {f : Fault}
    (h : w.read i task len = some (w', .error f)) (hi : w.isOverdue i = false) :
    ∃ l, w.link? i = some l ∧ l.Fails f := by
  refine (fails_or_overdue h).resolve_right ?_
  rintro ⟨-, hpassed⟩
  cases hi.symm.trans hpassed

end World

namespace Stream

/-- What the step of a read that settles the question leaves of the deadlines. -/
inductive State.SettledBy (k : TaskId) (s : State) (r : Except Fault Bytes) :
    Call → State → Prop where
  /-- Bytes clear the deadline of the connection in use. -/
  | bytes {c s₁} (hr : taken k r ≠ [])
      (hw : s₁.world.deadline? s.memory.current = none) : SettledBy k s r c s₁
  /-- A read that brings nothing after a retry was dropped leaves all deadlines. -/
  | nothing {errand s₁} (ht : s.memory.retried = true) (hr : taken k r = [])
      (hread : errand.kind = .read) (hw : s.world.SameDeadlines s₁.world) :
      SettledBy k s r (.queued errand) s₁
  /-- So does the retry itself. -/
  | retry {c s₁} (ht : s.memory.retried = true)
      (hc : s.memory.current = firstLink ∨ c.renews = true)
      (hw : s.world.SameDeadlines s₁.world) : SettledBy k s r c s₁

section Steps

variable {k : TaskId} {s s₁ : State} {c c' : Call} {p : Progress Call Outcome}
  {r : Except Fault Bytes}

/-- The start of the retry asks to close the first connection. -/
theorem Effect.closes (h : Effect k s c s₁ p) (hs : s.Sound) (ht : s.memory.retried = false)
    (ht₁ : s₁.memory.retried = true) :
    ∃ e ∈ s₁.world.journal, e.event.isCloseOf firstLink = true := by
  cases h with
  | @asksShut half => cases half <;> exact Bool.noConfusion (ht.symm.trans ht₁)
  | @retries link len f =>
    obtain ⟨l, hl⟩ := hs.current_isSome
    rw [beginRetry_eq hl]
    refine ⟨⟨s.world.now, .closed s.memory.current l.close.2⟩, ?_, ?_⟩
    · show _ ∈ retryEntries s l f ++ s.world.journal
      unfold retryEntries closingEntries
      cases l.close.2 <;> simp
    · exact decide_eq_true (hs.current_eq_first ht)
  | _ => exact Bool.noConfusion (ht.symm.trans ht₁)

/-! ## Retries after their dial -/

/-- A retry goes on after its dial until it settles the question. -/
theorem Effect.renews_or_settles (h : Effect k s c s₁ p) (hc : c.renews = true) :
    (∃ c', p = .goesOn c' ∧ c'.renews = true) ∨ s₁.isDecided = true := by
  have hwrite : ∀ len, ∃ c', (reshutWrite s len).2 = .goesOn c' ∧ c'.renews = true := by
    intro len
    rcases reshutWrite_cases s len with ⟨-, ha⟩ | ⟨-, ha⟩
    · exact ⟨_, ha, rfl⟩
    · exact ⟨_, ha, rfl⟩
  cases h with
  | passes h =>
    cases h with
    | nextPiece => exact Or.inl ⟨_, rfl, rfl⟩
    | @replayed len cut =>
      rcases afterReplay_cases s len with ⟨-, ha⟩ | ⟨-, ha⟩
      · exact Or.inl ⟨_, ha, rfl⟩
      · rw [ha]
        exact Or.inl (hwrite len)
    | _ => cases hc
  | replays | replayInterrupted | reshutsWrite => exact Or.inl ⟨_, rfl, rfl⟩
  | reshutsRead => exact Or.inl (hwrite _)
  | replayFails | reshutFails | answers => exact Or.inr State.isDecided_settle
  | _ => cases hc

/-- Only the dial of a retry replaces the connection in use, and the retry goes on then. -/
theorem Effect.renews_of_current (h : Effect k s c s₁ p) (hs : s.Sound)
    (hne : s₁.memory.current ≠ s.memory.current) : ∃ c', p = .goesOn c' ∧ c'.renews = true := by
  cases h with
  | redials => exact ⟨_, rfl, rfl⟩
  | @asksShut half => exact absurd (State.SameGuarded.askShut s half).current hne
  | retries =>
    obtain ⟨l, hl⟩ := hs.current_isSome
    rw [beginRetry_eq hl] at hne
    exact absurd rfl hne
  | _ => exact absurd rfl hne

/-! ## Reads that settle the question -/

theorem Effect.settledBy (h : Effect k s c s₁ (.done (.read r))) (hs : s.Sound) (hc : c.Phase s)
    (hplace : c.Placed s) (hfound : ∀ link len, c ≠ .queued (.judge link len (.ok [])))
    (hd : s.isDecided = false) (hd₁ : s₁.isDecided = true) :
    s₁.memory.current = s.memory.current ∧ s.SettledBy k r c s₁ := by
  generalize hp : Progress.done (κ := Call) (Outcome.read r) = p at h
  cases h with
  | settlesAtEnd _ ht =>
    cases hp
    exact ⟨rfl, .nothing ht rfl rfl (.of_links rfl)⟩
  | @settlesOnBytes link len bytes =>
    cases hp
    refine ⟨rfl, .bytes ?_ ?_⟩
    · cases bytes with
      | nil => exact absurd rfl (hfound link len)
      | cons b bs => exact List.cons_ne_nil _ _
    · obtain ⟨l, hl⟩ := hs.current_isSome
      have hcleared := World.deadline?_setDeadline hl none s.memory.current
      rw [if_pos rfl, ← hplace.1] at hcleared
      rw [← hplace.1]
      exact hcleared
  | settlesOnFault _ ht =>
    cases hp
    exact ⟨rfl, .nothing ht rfl rfl (.of_links rfl)⟩
  | redialFails hr =>
    have hlinks := World.dialled_error hr
    exact ⟨rfl, .retry hc.2.1 (Or.inl hc.2.2.1) (.of_links hlinks)⟩
  | replayFails _ hw =>
    refine ⟨rfl, .retry (hc.of_holds hs rfl rfl).1 (Or.inr rfl) ?_⟩
    exact ((World.SameDeadlines.write hw).note _).note _
  | reshutFails hw =>
    refine ⟨rfl, .retry (hc.of_holds hs rfl rfl).1 (Or.inr rfl) ?_⟩
    exact (World.SameDeadlines.shut hw).note _
  | answers hr =>
    refine ⟨rfl, .retry (hc.of_holds hs rfl rfl).1 (Or.inr rfl) ?_⟩
    exact (World.SameDeadlines.read hr).note _
  | asksShut => cases hp
  | retries =>
    obtain ⟨l, hl⟩ := hs.current_isSome
    rw [beginRetry_eq hl] at hd₁
    cases hd.symm.trans hd₁
  | _ => cases hd.symm.trans hd₁

end Steps

end Stream

namespace StreamSession

open Redial.Stream

variable {rule : Rule} {setup : Setup} {m m₀ m₁ m' : Moment} {k : TaskId} {r : Except Fault Bytes}
  {d : Instant}

/-- What a read brings to the lock is bytes or a fault. -/
theorem Reachable.found (h : Reachable rule setup m) {link : LinkId} {len : Nat}
    (hk : ⟨k, .queued (.judge link len r)⟩ ∈ m.machine.tasks) : r ≠ .ok [] := by
  refine Reachable.induction
    (P := fun m => ∀ k r, ⟨k, .queued (.judge link len r)⟩ ∈ m.machine.tasks → r ≠ .ok [])
    h ?_ ?_ k r hk
  · intro s _ k r hk
    exact absurd hk List.not_mem_nil
  · intro m m' _ ih hn j r hj
    rcases hn.split with ⟨action, machine, -, ha, rfl⟩ | ⟨k, c, s, p, -, hstep, rfl⟩
    · rcases ha.mem_tasks hj with hj | ⟨request, -, -, hstart⟩
      · exact ih j r hj
      · cases hstart
    · obtain ⟨s₁, l, he, -, rfl⟩ := does_of_step hstep
      rcases Machine.mem_advance hj with ⟨c', hgo, hc'⟩ | ⟨hj, -⟩
      · cases hc'
        cases he.retrieval hgo rfl with
        | brings _ _ hne => exact hne
      · exact ih j r hj

/-- Once a retry has been attempted, the first connection has been asked to close. -/
theorem Reachable.closed (h : Reachable rule setup m) (ht : m.state.memory.retried = true) :
    ∃ e ∈ m.journal, e.event.isCloseOf firstLink = true := by
  refine Reachable.induction (P := fun m => m.state.memory.retried = true →
    ∃ e ∈ m.journal, e.event.isCloseOf firstLink = true) h ?_ ?_ ht
  · intro s hs ht
    rw [show (Moment.first s).state.memory = _ from memory_of_opening hs] at ht
    cases ht
  · intro m m' hm ih hn ht
    have hgrows : ∀ {w : World}, m.state.world.Enters (fun _ => True) w →
        m.state.memory.retried = true → ∃ e ∈ w.journal, e.event.isCloseOf firstLink = true := by
      rintro w ⟨es, hj, -⟩ ht
      obtain ⟨e, he, hclose⟩ := ih ht
      exact ⟨e, hj ▸ List.mem_append_right es he, hclose⟩
    rcases hn.split with ⟨action, machine, -, ha, rfl⟩ | ⟨k, c, s, p, hk, hstep, rfl⟩
    · exact hgrows ha.enters (ha.sameGuarded.retried.symm.trans ht)
    · obtain ⟨s₁, l, he, -, rfl⟩ := does_of_step hstep
      unfold Moment.journal
      rw [Moment.state_advance] at ht
      rw [Machine.env_advance]
      cases hold : m.state.memory.retried with
      | true => exact hgrows (he.enters hm.sound (hm.phase hk)) hold
      | false => exact he.closes hm.sound hold ht

/-- A settled question has been settled by a read that ended. -/
theorem Reachable.settled (h : Reachable rule setup m) (hd : m.state.isDecided = true) :
    ∃ m₀ m₁ k r, Reachable rule setup m₀ ∧ m₀.state.isDecided = false ∧ m₀.EndsRead k r m₁ ∧
      m₁.state.isDecided = true ∧ m₁.Leads rule m := by
  obtain ⟨s, hs, hl⟩ := h
  induction hl with
  | refl =>
    unfold State.isDecided at hd
    rw [show (Moment.first s).state.memory = _ from memory_of_opening hs] at hd
    cases hd
  | @tail m m' hl hn ih =>
    have hm : Reachable rule setup m := ⟨s, hs, hl⟩
    cases hopen : m.state.isDecided with
    | true =>
      obtain ⟨m₀, m₁, k, r, h₀, hopen₀, hr, hd₁, hl₁⟩ := ih hopen
      exact ⟨m₀, m₁, k, r, h₀, hopen₀, hr, hd₁, hl₁.tail hn⟩
    | false =>
      cases hn with
      | act action allowed =>
        rw [(acts_act m action).sameGuarded.isDecided, hopen] at hd
        cases hd
      | @step machine k hs =>
        have hmove : m.Moves k ⟨m.actions, machine⟩ := ⟨hs, rfl⟩
        obtain ⟨c, s₁, l, p, hk, he, hm'⟩ := hmove.effect
        have hd₁ : s₁.isDecided = true := by
          rw [hm', Moment.state_advance] at hd
          exact hd
        obtain ⟨r, rfl⟩ := he.done_of_settles hm.sound hopen hd₁
        refine ⟨m, _, k, r, hm, hopen, ⟨hmove, ?_⟩, hd, .refl⟩
        rw [hm']
        exact List.mem_cons_self

/-! ## Retries that were dropped after their dial -/

/-- The read that made the retry has been dropped after its dial. -/
def Moment.RetryDropped (rule : Rule) (setup : Setup) (m : Moment) : Prop :=
  ∃ m₀ j c, Reachable rule setup m₀ ∧ ⟨j, c⟩ ∈ m₀.machine.tasks ∧ Call.renews c = true ∧
    m₀.Leads rule m ∧ .cancel j ∈ m.actions.drop m₀.actions.length

theorem Moment.RetryDropped.current (hdropped : m.RetryDropped rule setup) :
    m.state.memory.current = secondLink := by
  obtain ⟨m₀, j, c, h₀, hj, hc, hl, -⟩ := hdropped
  exact hl.second h₀ ((h₀.phase hj).of_renews hc).1

/-- The second connection is in use only after the dial of a retry. -/
theorem Reachable.renewed (h : Reachable rule setup m)
    (hcur : m.state.memory.current = secondLink) :
    ∃ m₀ j c, Reachable rule setup m₀ ∧ ⟨j, c⟩ ∈ m₀.machine.tasks ∧ Call.renews c = true ∧
      m₀.Leads rule m := by
  refine Reachable.induction (P := fun m => m.state.memory.current = secondLink →
    ∃ m₀ j c, Reachable rule setup m₀ ∧ ⟨j, c⟩ ∈ m₀.machine.tasks ∧ Call.renews c = true ∧
      m₀.Leads rule m) h ?_ ?_ hcur
  · intro s hs hcur
    rw [show (Moment.first s).state.memory = _ from memory_of_opening hs] at hcur
    cases hcur
  · intro m m' hm ih hn hcur
    by_cases hold : m.state.memory.current = secondLink
    · obtain ⟨m₀, j, c, h₀, hj, hc, hl⟩ := ih hold
      exact ⟨m₀, j, c, h₀, hj, hc, hl.tail hn⟩
    · have h' : Reachable rule setup m' := hm.leads (.single hn)
      rcases hn.split with ⟨action, machine, -, ha, rfl⟩ | ⟨k, c, s, p, hk, hstep, rfl⟩
      · exact absurd (ha.sameGuarded.current.symm.trans hcur) hold
      · obtain ⟨s₁, l, he, -, rfl⟩ := does_of_step hstep
        have hne : s₁.memory.current ≠ m.state.memory.current := by
          rw [Moment.state_advance] at hcur
          exact fun hsame => hold (hsame.symm.trans hcur)
        obtain ⟨c', rfl, hc'⟩ := he.renews_of_current hm.sound hne
        exact ⟨_, k, c', h', Machine.mem_advance_self hk, hc', .refl⟩

/-- While the question is open on the second connection, the retry is under way, or it has been
dropped. -/
theorem Reachable.renews_or_dropped (h : Reachable rule setup m) (hd : m.state.isDecided = false)
    (hcur : m.state.memory.current = secondLink) :
    (∃ j c, ⟨j, c⟩ ∈ m.machine.tasks ∧ Call.renews c = true) ∨ m.RetryDropped rule setup := by
  obtain ⟨m₀, j, c, h₀, hj, hc, hl⟩ := h.renewed hcur
  have hstays := hl.stays (L := fun c => c.renews = true)
    (Q := fun m => m.state.isDecided = true) h₀ hj hc ?_ ?_
  · rcases hstays with ⟨e, he, hrenews⟩ | hdropped | hsettled
    · exact Or.inl ⟨j, e, he, hrenews⟩
    · exact Or.inr ⟨m₀, j, c, h₀, hj, hc, hl, hdropped⟩
    · cases hd.symm.trans hsettled
  · intro m₁ e s₁ l p _ _ hrenews he
    rw [Moment.state_advance]
    exact he.renews_or_settles hrenews
  · intro m₁ m₂ h₁ hsettled hn
    exact (hn.sameGuarded h₁ hsettled).isDecided.trans hsettled

/-- The question is open although the retry has been dropped after its dial, and since then a caller
has written on the second connection; the last such write has armed the deadline `d`. -/
structure Moment.Exposed (setup : Setup) (m : Moment) (d : Instant) : Prop where
  unsettled : m.state.isDecided = false
  dropped : m.RetryDropped oneReader setup
  armed : ∃ t, m.journal.lastWrite secondLink = some t ∧ t.add? m.state.terms.timeout = some d

theorem Moment.Exposed.deadline (he : m.Exposed setup d) (h : Reachable oneReader setup m) :
    m.state.world.deadline? m.state.memory.current = some d := by
  obtain ⟨t, ht, hd⟩ := he.armed
  have hlast : m.state.world.journal.lastWrite secondLink = some t := ht
  rw [h.armed.deadlines he.unsettled, he.dropped.current, hlast]
  exact hd

/-- The read that settles the question does so on the connection in use. Unless a retry has asked to
close it, its deadline is left just if the read brings nothing after the retry was dropped. -/
theorem Moment.EndsRead.deadline_iff (hr : m₀.EndsRead k r m₁) (h : Reachable oneReader setup m₀)
    (hd : m₀.state.isDecided = false) (hd₁ : m₁.state.isDecided = true) :
    m₁.state.memory.current = m₀.state.memory.current ∧
    ((m₀.state.memory.retried = true → m₀.state.memory.current ≠ firstLink) →
      (m₁.state.world.deadline? m₀.state.memory.current = some d ↔
        m₀.Exposed setup d ∧ taken k r = [])) := by
  obtain ⟨c, s₁, l, hk, he, rfl⟩ := hr.toMoves.ends h hr.ended
  rw [Moment.state_advance] at hd₁ ⊢
  have hfound : ∀ link len, c ≠ .queued (.judge link len (.ok [])) := by
    rintro link len rfl
    exact h.found hk rfl
  obtain ⟨hsame, hby⟩ := he.settledBy h.sound (h.phase hk) (h.placed hk) hfound hd hd₁
  refine ⟨hsame, fun hcur => ?_⟩
  show s₁.world.deadline? m₀.state.memory.current = some d ↔ _
  cases hby with
  | bytes hbytes hnone =>
    rw [hnone]
    exact iff_of_false nofun fun hexposed => hbytes hexposed.2
  | @nothing errand _ ht hnothing hread hw =>
    rw [hw]
    refine ⟨fun harmed => ⟨?_, hnothing⟩, fun hexposed => hexposed.1.deadline h⟩
    have hsecond := (h.sound.current.resolve_left (hcur ht)).1
    rw [h.armed.deadlines hd, hsecond] at harmed
    refine ⟨hd, ?_, Option.bind_eq_some_iff.mp harmed⟩
    refine (h.renews_or_dropped hd hsecond).resolve_left ?_
    rintro ⟨j, e, hj, hrenews⟩
    -- The only read is at the lock, so no other one retries.
    have hjread : e.isRead = true := by
      cases e with
      | replaying | reshutting | answering => rfl
      | _ => cases hrenews
    cases h.single k _ j e hk hj (congrArg Kind.isRead hread) hjread
    cases Machine.call_unique h.numbered.nodup hk hj
    cases hrenews
  | retry ht hplace hw =>
    rw [hw]
    have hnone := h.unwritten hk (hplace.resolve_left (hcur ht))
    have hsecond := (h.sound.current.resolve_left (hcur ht)).1
    rw [h.armed.deadlines hd, hsecond, hnone]
    refine iff_of_false nofun fun hexposed => ?_
    obtain ⟨t, hwrite, -⟩ := hexposed.1.armed
    cases hnone.symm.trans hwrite

/-- The question was settled by a read that brought nothing after the retry had been dropped, and
the deadline `d` was left that a write of a caller had armed in between. -/
def Moment.LeftArmed (setup : Setup) (m : Moment) (d : Instant) : Prop :=
  ∃ m₀ m₁ k r, Reachable oneReader setup m₀ ∧ m₀.Exposed setup d ∧ m₀.EndsRead k r m₁ ∧
    taken k r = [] ∧ m₁.Leads oneReader m

/-- A deadline that is armed once the question is settled has been left so by the read that settled
it, unless a retry has asked to close the connection. -/
theorem Reachable.leftArmed (h : Reachable oneReader setup m) {link : LinkId}
    (hlink : m.state.finalLink? = some link)
    (hclosed : m.journal.count (Event.isCloseOf link) = 0)
    (harmed : m.state.world.deadline? link = some d) : m.LeftArmed setup d := by
  have hd : m.state.isDecided = true := State.isDecided_iff.mpr ⟨link, hlink⟩
  obtain ⟨m₀, m₁, k, r, h₀, hopen, hr, hd₁, hl⟩ := h.settled hd
  have h₁ := h₀.leads (.single hr.next)
  obtain ⟨hsame, hiff⟩ := hr.deadline_iff (d := d) h₀ hopen hd₁
  have hlink₀ : link = m₀.state.memory.current :=
    (h.sound.final link hlink).trans ((hl.sameGuarded h₁ hd₁).current.trans hsame)
  rw [hl.sameDeadlines h₁ hd₁, hlink₀] at harmed
  -- A retry on the first connection has asked to close it.
  have hnotfirst : m₀.state.memory.retried = true → m₀.state.memory.current ≠ firstLink := by
    intro ht hfirst
    obtain ⟨e, he, hclose⟩ := h.closed (hl.retried h₁ (hr.next.retried h₀ ht))
    rw [hlink₀, hfirst] at hclosed
    exact List.countP_eq_zero.mp hclosed e he hclose
  obtain ⟨hexposed, hnothing⟩ := (hiff hnotfirst).mp harmed
  exact ⟨m₀, m₁, k, r, h₀, hexposed, hr, hnothing, hl⟩

theorem Moment.LeftArmed.deadline (harmed : m.LeftArmed setup d)
    (h : Reachable oneReader setup m) {link : LinkId} (hlink : m.state.finalLink? = some link) :
    m.state.world.deadline? link = some d := by
  obtain ⟨m₀, m₁, k, r, h₀, hexposed, hr, hnothing, hl⟩ := harmed
  have h₁ := h₀.leads (.single hr.next)
  have hsecond := hexposed.dropped.current
  have hd₁ : m₁.state.isDecided = true := by
    refine (hr.settles h₀).resolve_right fun ⟨_, hfinds⟩ => ?_
    rw [h₀.sound.current_eq_first hfinds.unretried] at hsecond
    cases hsecond
  obtain ⟨hsame, hiff⟩ := hr.deadline_iff (d := d) h₀ hexposed.unsettled hd₁
  rw [h.sound.final link hlink, (hl.sameGuarded h₁ hd₁).current, hsame, hl.sameDeadlines h₁ hd₁]
  refine (hiff fun _ => ?_).mpr ⟨hexposed, hnothing⟩
  rw [hsecond]
  decide

/-- With one read at a time, when the question is settled on a connection that has not been asked to
close, its deadline is armed just if it was left so by the read that settled the question: one that
brought nothing after the retry had been dropped. The deadline stays as it is then, and a later read
meets it just if it was left and has passed; otherwise a read fails only with a fault of the
connection itself. -/
theorem deadline_outlives_question_iff {setup : Setup} {m : Moment} {link : LinkId}
    (h : Reachable oneReader setup m) (hlink : m.state.finalLink? = some link)
    (hclosed : m.journal.count (Event.isCloseOf link) = 0) :
    (∀ d, m.state.world.deadline? link = some d ↔ m.LeftArmed setup d) ∧
    ∀ m', m.Leads oneReader m' → m'.state.finalLink? = some link ∧
      (m'.state.world.isOverdue link = true ↔
        ∃ d, m.LeftArmed setup d ∧ d.reached m'.state.world.now = true) ∧
      (m'.state.world.isOverdue link = false → ∀ task len w f,
        m'.state.world.read link task len = some (w, .error f) →
        ∃ l, m'.state.world.link? link = some l ∧ l.Fails f) := by
  have hd : m.state.isDecided = true := State.isDecided_iff.mpr ⟨link, hlink⟩
  have hleft : ∀ d, m.state.world.deadline? link = some d ↔ m.LeftArmed setup d := fun d =>
    ⟨h.leftArmed hlink hclosed, fun harmed => harmed.deadline h hlink⟩
  refine ⟨hleft, fun m' hl => ⟨?_, ?_, fun hnot task len w f hr => ?_⟩⟩
  · exact (hl.sameGuarded h hd).finalLink?.trans hlink
  · rw [World.isOverdue_iff, hl.sameDeadlines h hd link]
    simp only [hleft]
  · exact World.fails_of_not_overdue hr hnot

/-- After a dropped retry and a write of a caller, a read that brings bytes clears the deadline, and
no later read is overdue; a read that fails leaves it. -/
theorem deadline_outlives_question_after_dropped_retry :
    (∃ m, Reachable oneReader resetSession m ∧ (m.journal.lastWrite secondLink).isSome = true ∧
      (∀ d, ¬m.LeftArmed resetSession d) ∧
      ∀ m', m.Leads oneReader m' → m'.state.world.isOverdue secondLink = false) ∧
    ∃ m d, Reachable oneReader resetSession m ∧ m.LeftArmed resetSession d := by
  constructor
  · have hm : ∃ m, resetSession.played [.call (.read 4), .cancel 0, .call (.write [1]),
        .call (.read 4), reply] = some m ∧ m.state.finalLink? = some secondLink ∧
        m.journal.count (Event.isCloseOf secondLink) = 0 ∧
        (m.journal.lastWrite secondLink).isSome = true ∧
        m.state.world.deadline? secondLink = none := by
      refine ⟨_, rfl, ?_, ?_, ?_, ?_⟩
      · decide +kernel
      · decide +kernel
      · decide +kernel
      · decide +kernel
    obtain ⟨m, hplayed, hlink, hclosed, hwrite, hnone⟩ := hm
    have h : Reachable oneReader resetSession m := reachable_of_played (by decide +kernel) hplayed
    obtain ⟨hleft, hlater⟩ := deadline_outlives_question_iff h hlink hclosed
    have hnever : ∀ d, ¬m.LeftArmed resetSession d := by
      intro d harmed
      rw [(hleft d).mpr harmed] at hnone
      cases hnone
    refine ⟨m, h, hwrite, hnever, fun m' hl => ?_⟩
    obtain ⟨-, hoverdue, -⟩ := hlater m' hl
    rw [← Bool.not_eq_true, hoverdue]
    rintro ⟨d, harmed, -⟩
    exact hnever d harmed
  · have hm : ∃ m, resetSession.played [.call (.read 4), .cancel 0, .call (.write [1]),
        .elapse 1200000000, .call (.read 4)] = some m ∧ m.state.finalLink? = some secondLink ∧
        m.journal.count (Event.isCloseOf secondLink) = 0 ∧
        (m.state.world.deadline? secondLink).isSome = true := by
      refine ⟨_, rfl, ?_, ?_, ?_⟩
      · decide +kernel
      · decide +kernel
      · decide +kernel
    obtain ⟨m, hplayed, hlink, hclosed, harmed⟩ := hm
    obtain ⟨d, hd⟩ := Option.isSome_iff_exists.mp harmed
    have h : Reachable oneReader resetSession m := reachable_of_played (by decide +kernel) hplayed
    exact ⟨m, d, h, ((deadline_outlives_question_iff h hlink hclosed).1 d).mp hd⟩

/-- The question is settled on a connection that has not been asked to close, and the next read of
it fails at once with the deadline of a write that was made before. -/
theorem later_read_meets_stale_deadline : ∃ m m', Reachable oneReader resetSession m ∧
    m.state.finalLink? = some secondLink ∧
    m.journal.count (Event.isCloseOf secondLink) = 0 ∧
    m.state.world.deadline? secondLink ≠ none ∧ m.Leads oneReader m' ∧
    m'.journal =
      ⟨m.state.world.now, .readFailed secondLink 5 .deadlineExceeded⟩ :: m.journal ∧
    ∃ t ∈ m'.machine.finished, t.1 = 5 ∧ t.2.isRead = true := by
  have hm : ∃ m, resetSession.played [.call (.read 4), .cancel 0, .call (.write [1]),
      .elapse 1200000000, .call (.read 4)] = some m ∧ m.state.finalLink? = some secondLink ∧
      m.journal.count (Event.isCloseOf secondLink) = 0 ∧
      m.state.world.deadline? secondLink ≠ none ∧ oneReader m (.call (.read 4)) ∧
      (m.next (.call (.read 4))).journal =
        ⟨m.state.world.now, .readFailed secondLink 5 .deadlineExceeded⟩ :: m.journal ∧
      ∃ t ∈ (m.next (.call (.read 4))).machine.finished, t.1 = 5 ∧ t.2.isRead = true := by
    refine ⟨_, rfl, ?_, ?_, ?_, ?_, ?_, ?_⟩
    · decide +kernel
    · decide +kernel
    · decide +kernel
    · decide +kernel
    · decide +kernel
    · decide +kernel
  obtain ⟨m, hplayed, hlink, hclosed, harmed, hrule, hfails, hdone⟩ := hm
  exact ⟨m, m.next (.call (.read 4)), reachable_of_played (by decide +kernel) hplayed, hlink,
    hclosed, harmed, Moment.leads_next hrule, hfails, hdone⟩

end StreamSession

end Redial
