import Mathlib.Data.List.Flatten
import Redial.Proofs.Stream.Abandoned

/-!
# Inbound bytes

What reads return to their callers comes from one connection. A read takes bytes from the connection
in use; until it returns them it holds them at the lock. So what has been returned, followed by what
the reader holds, is what was taken from the connection in use (`Moment.flows_of_step`), and less
just if a read has been dropped while it held something (`Reachable.lossless_iff`). When the
connection in use is replaced, the reader holds nothing.
-/

namespace Redial

/-- The bytes that a result returns to the caller of a task. -/
def Outcome.returned (k : TaskId) : Outcome → List (TaskId × Bytes)
  | read r => taken k r
  | _ => []

namespace Stream

/-- The bytes that a read has taken and not yet returned. -/
def Call.held (k : TaskId) : Call → List (TaskId × Bytes)
  | queued (.judge _ _ r) => taken k r
  | _ => []

/-- The bytes that a call returns or holds after a step. -/
def passedOn (k : TaskId) : Progress Call Outcome → List (TaskId × Bytes)
  | .goesOn c => c.held k
  | .done o => o.returned k

section Steps

variable {k : TaskId} {s s₁ : State} {c c' : Call} {p : Progress Call Outcome}

theorem Call.held_of_not_read (h : c.isRead = false) : c.held k = [] := by
  unfold Call.held
  split
  · cases h
  · rfl

theorem passedOn_offer (goal : Goal) (buf : Bytes) : passedOn k (offer s k goal buf).2 = [] := by
  rcases offer_cases s k goal buf with ⟨link, -, ho⟩ | ⟨-, ho⟩
  · rw [ho]
    rfl
  · rw [ho]
    rfl

theorem passedOn_afterWrite (buf : Bytes) (r : Except Fault Bytes) (goal : Goal) :
    passedOn k (afterWrite s k buf r goal).2 = [] := by
  unfold afterWrite
  split
  · rfl
  · split
    · rfl
    · split
      · rfl
      · exact passedOn_offer _ _
    · split
      · exact passedOn_offer _ _
      · rfl
  · split
    · rfl
    · dsimp only
      split
      · rfl
      · exact passedOn_offer _ _
    · rfl

/-- What a step of a call does to the bytes that were taken from connections: `new` ones are taken
from the connection in use, and all that the call has is passed on. -/
structure State.Flows (k : TaskId) (s : State) (c : Call) (s₁ : State)
    (p : Progress Call Outcome) (new : List (TaskId × Bytes)) : Prop where
  deliveries : ∀ i, s₁.world.journal.deliveries i =
    s.world.journal.deliveries i ++ if i = s.memory.current then new else []
  passed : passedOn k p = c.held k ++ new
  /-- When the connection in use is replaced, the call has nothing. -/
  current : s₁.memory.current = s.memory.current ∨
    (s₁.memory.current = secondLink ∧ s.memory.current = firstLink ∧ passedOn k p = [] ∧
      s.isDecided = false)

/-- A step that takes nothing from a connection. -/
theorem State.Flows.of_enters (hw : s.world.Enters (·.isRead = false) s₁.world)
    (hp : passedOn k p = c.held k) (hc : s₁.memory.current = s.memory.current) :
    s.Flows k c s₁ p [] := by
  refine ⟨fun i => ?_, ?_, Or.inl hc⟩
  · rw [World.deliveries_of_enters hw, ite_self, List.append_nil]
  · rw [hp, List.append_nil]

/-- A step that reads from the connection in use and passes the result on. -/
theorem State.Flows.of_read {link : LinkId} {len : Nat} {w : World} {r : Except Fault Bytes}
    (hr : s.world.read link k len = some (w, r)) (hlink : link = s.memory.current)
    (hw : w.Enters (·.isRead = false) s₁.world) (hc : c.held k = [])
    (hp : passedOn k p = taken k r) (hcur : s₁.memory.current = s.memory.current) :
    s.Flows k c s₁ p (taken k r) := by
  refine ⟨fun i => ?_, ?_, Or.inl hcur⟩
  · rw [World.deliveries_of_enters hw, World.deliveries_read hr, hlink]
  · rw [hp, hc, List.nil_append]

theorem Effect.flows_of_passes (h : Passes k s c p) : s.Flows k c s p [] := by
  refine .of_enters (.refl _) ?_ rfl
  cases h with
  | beginWrite | beginWriteAll | pullPiece => exact passedOn_offer _ _
  | @replayed len cut =>
    rcases afterReplay_cases s len with ⟨-, ha⟩ | ⟨-, ha⟩
    · rw [ha]
      rfl
    · rw [ha]
      rcases reshutWrite_cases s len with ⟨-, hw⟩ | ⟨-, hw⟩
      · rw [hw]
        rfl
      · rw [hw]
        rfl
  | _ => rfl

/-- What a call has taken it returns, or holds until it does. -/
theorem Effect.flows (h : Effect k s c s₁ p) (hs : s.Sound) (hc : c.Phase s)
    (hplace : c.Placed s) : ∃ new, s.Flows k c s₁ p new := by
  have hwrite : ∀ {i purpose buf w r}, s.world.write i purpose buf = some (w, r) →
      s.world.Enters (·.isRead = false) w := by
    intro i purpose buf w r hw
    refine .write hw ?_
    cases r <;> rfl
  cases h with
  | passes h => exact ⟨_, Effect.flows_of_passes h⟩
  | @asksShut half => exact ⟨_, .of_enters (by cases half <;> exact .refl _) rfl
      (by cases half <;> rfl)⟩
  | @reads link len w r hr =>
    refine ⟨_, .of_read hr hplace.1 (.refl _) rfl ?_ rfl⟩
    rcases afterReading_cases s k link len r with ⟨rfl, ha⟩ | ⟨-, -, ha⟩ | ⟨-, -, ha⟩
    · rw [ha]
      rfl
    · rw [ha]
      rfl
    · rw [ha]
      rfl
  | settlesAtEnd => exact ⟨_, .of_enters (.note rfl) rfl rfl⟩
  | settlesOnBytes =>
    exact ⟨_, .of_enters (World.Enters.trans (.setDeadline rfl) (.note rfl)) rfl rfl⟩
  | settlesOnFault => exact ⟨_, .of_enters (World.Enters.trans (.note rfl) (.note rfl)) rfl rfl⟩
  | retries =>
    obtain ⟨l, hl⟩ := hs.current_isSome
    rw [beginRetry_eq hl]
    exact ⟨_, .of_enters (enters_retryWorld _ _ _ (fun _ => rfl) rfl (fun _ => rfl) rfl) rfl rfl⟩
  | @redials len dial w link hr =>
    have hw : s.world.Enters (·.isRead = false) w := .dialled hr rfl fun _ => rfl
    obtain ⟨now, script, hlink, -⟩ := World.dialled_ok hr
    refine ⟨[], fun i => ?_, rfl, Or.inr ⟨hlink.trans hc.1, hc.2.2.1, rfl, hc.2.2.2⟩⟩
    show (w.note _).journal.deliveries i = _
    rw [World.deliveries_of_enters (hw.trans (.note rfl)), ite_self, List.append_nil]
  | @redialFails len dial w f hr =>
    have hw : s.world.Enters (·.isRead = false) w := .dialled hr rfl fun _ => rfl
    exact ⟨_, .of_enters (hw.trans (World.Enters.trans (.note rfl) (.note rfl))) rfl rfl⟩
  | replays _ hw | replayInterrupted _ hw => exact ⟨_, .of_enters (hwrite hw) rfl rfl⟩
  | replayFails _ hw =>
    exact ⟨_, .of_enters ((hwrite hw).trans (World.Enters.trans (.note rfl) (.note rfl))) rfl rfl⟩
  | @reshutsRead len w hw =>
    refine ⟨_, .of_enters (.shut hw rfl) ?_ rfl⟩
    rcases reshutWrite_cases s len with ⟨-, ha⟩ | ⟨-, ha⟩
    · rw [ha]
      rfl
    · rw [ha]
      rfl
  | reshutsWrite hw | shuts hw => exact ⟨_, .of_enters (.shut hw rfl) rfl rfl⟩
  | @reshutFails len half w f hw =>
    have hshut : s.world.Enters (·.isRead = false) w := .shut hw rfl
    exact ⟨_, .of_enters (hshut.trans (.note rfl)) rfl rfl⟩
  | answers hr => exact ⟨_, .of_read hr rfl (.note rfl) rfl rfl rfl⟩
  | sends hw =>
    exact ⟨_, .of_enters ((hwrite hw).trans (.setDeadline rfl)) (passedOn_afterWrite _ _ _) rfl⟩
  | sendFails hw =>
    exact ⟨_, .of_enters ((hwrite hw).trans (World.Enters.trans (.setDeadline rfl) (.note rfl)))
      rfl rfl⟩
  | sendsTo hw => exact ⟨_, .of_enters (hwrite hw) (passedOn_afterWrite _ _ _) rfl⟩
  | @bare link call w p' hw =>
    obtain ⟨hfinal, -⟩ := hc
    cases BareCall.effect_of_step hw with
    | reads hr => exact ⟨_, .of_read hr (hs.final link hfinal) (.refl _) rfl rfl rfl⟩
    | writes hin => exact ⟨_, .of_enters (hwrite hin) rfl rfl⟩
    | @writesAll rest _ r _ hin | @copies _ _ rest _ r _ hin =>
      refine ⟨_, .of_enters (hwrite hin) ?_ rfl⟩
      unfold BareCall.afterWrite
      split
      · rfl
      · rfl
      · split <;> rfl
    | shuts hin => exact ⟨_, .of_enters (.shut hin rfl) rfl rfl⟩
    | _ => exact ⟨_, .of_enters (.refl _) rfl rfl⟩

/-- A read returns bytes only with the question settled. -/
theorem Effect.isDecided_of_returned {o : Outcome} (h : Effect k s c s₁ p) (hc : c.Phase s)
    (hp : p = .done o) (hne : o.returned k ≠ []) : s₁.isDecided = true := by
  have hpassed : passedOn k p ≠ [] := by
    rw [hp]
    exact hne
  cases h with
  | passes h =>
    cases h with
    | bringLate _ hd => exact hd
    | beginWrite | beginWriteAll | pullPiece => exact absurd (passedOn_offer _ _) hpassed
    | @replayed len cut =>
      rcases afterReplay_cases s len with ⟨-, ha⟩ | ⟨-, ha⟩
      · rw [ha] at hp
        cases hp
      · rcases reshutWrite_cases s len with ⟨-, hw⟩ | ⟨-, hw⟩
        · rw [ha, hw] at hp
          cases hp
        · rw [ha, hw] at hp
          cases hp
    | _ => exact absurd rfl hpassed
  | @reads link len w r =>
    rcases afterReading_cases s k link len r with ⟨-, ha⟩ | ⟨-, hd, -⟩ | ⟨-, -, ha⟩
    · rw [ha] at hp
      cases hp
    · exact hd
    · rw [ha] at hp
      cases hp
  | settlesAtEnd | settlesOnBytes | settlesOnFault | redialFails | replayFails | reshutFails
  | answers => exact State.isDecided_settle
  | @reshutsRead len =>
    rcases reshutWrite_cases s len with ⟨-, hw⟩ | ⟨-, hw⟩
    · rw [hw] at hp
      cases hp
    · rw [hw] at hp
      cases hp
  | sends | sendsTo => exact absurd (passedOn_afterWrite _ _ _) hpassed
  | @bare link => exact State.isDecided_iff.mpr ⟨link, hc.1⟩
  | shuts => exact absurd rfl hpassed
  | _ => cases hp

end Steps

end Stream

namespace StreamSession

open Redial.Stream

variable {setup : Setup} {m m' : Moment}

/-! ## What one moment adds to another -/

/-- What reads have returned to their callers, in order. -/
def Moment.returned (m : Moment) : List (TaskId × Bytes) :=
  m.machine.finished.reverse.flatMap fun e => e.2.returned e.1

/-- What reads have taken and not yet returned. -/
def Moment.held (m : Moment) : List (TaskId × Bytes) :=
  m.machine.tasks.flatMap fun t => t.call.held t.id

theorem Moment.held_of_reader (hs : m.Single) (hn : m.machine.pending.Nodup) {k : TaskId}
    {c : Call} (hk : ⟨k, c⟩ ∈ m.machine.tasks) (hc : c.isRead = true) :
    m.held = c.held k := by
  refine Machine.flatMap_eq_of_others hn hk fun t ht hid => ?_
  refine Call.held_of_not_read ?_
  rw [← Bool.not_eq_true]
  intro hread
  exact hid (hs k c t.id t.call hk ht hc hread)

theorem Moment.held_of_no_reader
    (h : ∀ k c, ⟨k, c⟩ ∈ m.machine.tasks → Call.isRead c = false) : m.held = [] :=
  List.flatMap_eq_nil_iff.mpr fun t ht => Call.held_of_not_read (h t.id t.call ht)

theorem Moment.returned_advance (m : Moment) (k : TaskId) (s : State)
    (p : Progress Call Outcome) :
    Moment.returned ⟨m.actions, m.machine.advance k s p⟩ = m.returned ++
      (match p with
        | .goesOn _ => []
        | .done o => o.returned k) := by
  cases p with
  | goesOn c => exact (List.append_nil _).symm
  | done o =>
    unfold Moment.returned Machine.advance
    simp

/-- What the step of a call does to the bytes that were taken. -/
structure Moment.Flows (m m' : Moment) (new : List (TaskId × Bytes)) : Prop where
  deliveries : ∀ i, m'.journal.deliveries i =
    m.journal.deliveries i ++ if i = m.state.memory.current then new else []
  passed : m'.returned ++ m'.held = m.returned ++ m.held ++ new
  /-- When the connection in use is replaced, the reader has nothing. -/
  current : m'.state.memory.current = m.state.memory.current ∨
    (m'.state.memory.current = secondLink ∧ m.state.memory.current = firstLink ∧
      m.held ++ new = [] ∧ m.state.isDecided = false)

theorem Moment.flows_of_step {k : TaskId} {c : Call} {s₁ : State} {l : Lock}
    {p : Progress Call Outcome} (h : Reachable oneReader setup m)
    (h' : Reachable oneReader setup ⟨m.actions, m.machine.advance k (s₁.withLock l) p⟩)
    (hk : ⟨k, c⟩ ∈ m.machine.tasks) (he : Effect k m.state c s₁ p) :
    ∃ new, m.Flows ⟨m.actions, m.machine.advance k (s₁.withLock l) p⟩ new := by
  obtain ⟨new, hf⟩ := he.flows h.sound (h.phase hk) (h.placed hk)
  have hstate : ∀ {α : Type} (g : State → α),
      g (Moment.state ⟨m.actions, m.machine.advance k (s₁.withLock l) p⟩) =
        g (s₁.withLock l) := by
    intro α g
    rw [Moment.state_advance]
  refine ⟨new, ?_, ?_, ?_⟩
  · intro i
    exact (hstate fun s => s.world.journal.deliveries i).trans (hf.deliveries i)
  · rw [Moment.returned_advance]
    cases hc : c.isRead with
    | true =>
      -- The only reader has all that is held.
      rw [Moment.held_of_reader h.single h.numbered.nodup hk hc, List.append_assoc,
        List.append_assoc, ← hf.passed]
      cases p with
      | goesOn c' =>
        have hk' : ⟨k, c'⟩ ∈ (m.machine.advance k (s₁.withLock l) (.goesOn c')).tasks :=
          Machine.mem_advance_self hk
        rw [Moment.held_of_reader h'.single h'.numbered.nodup hk' ((he.isRead rfl).trans hc)]
        rfl
      | done o =>
        have hnone : Moment.held ⟨m.actions, m.machine.advance k (s₁.withLock l) (.done o)⟩ =
            [] := by
          refine Moment.held_of_no_reader fun j d hj => ?_
          rcases Machine.mem_advance hj with ⟨c', hgo, -⟩ | ⟨hj, hjk⟩
          · cases hgo
          · rw [← Bool.not_eq_true]
            intro hd
            exact hjk (h.single k c j d hk hj hc hd)
        rw [hnone, List.append_nil]
        rfl
    | false =>
      -- Others take nothing and hold nothing.
      obtain ⟨-, -, hw⟩ := he.of_not_read hc
      have hnew : new = [] := by
        have hd := hf.deliveries m.state.memory.current
        rw [World.deliveries_of_enters hw, if_pos rfl] at hd
        exact (List.self_eq_append_right.mp hd)
      have hpassed : passedOn k p = [] := by
        rw [hf.passed, Call.held_of_not_read hc, hnew]
        rfl
      have hheld : Moment.held ⟨m.actions, m.machine.advance k (s₁.withLock l) p⟩ = m.held := by
        refine Machine.flatMap_advance (fun t ht hid => ?_) fun c' hgo => ?_
        · subst hid
          rw [Machine.call_unique h.numbered.nodup ht hk]
          exact Call.held_of_not_read hc
        · subst hgo
          exact hpassed
      rw [hheld, hnew]
      cases p with
      | goesOn c' => simp
      | done o =>
        have ho : o.returned k = [] := hpassed
        simp [ho]
  · rcases hf.current with hcur | ⟨hsecond, hfirst, hnone, hopen⟩
    · exact Or.inl ((hstate (·.memory.current)).trans hcur)
    · refine Or.inr ⟨(hstate (·.memory.current)).trans hsecond, hfirst, ?_, hopen⟩
      cases hc : c.isRead with
      | true => rw [Moment.held_of_reader h.single h.numbered.nodup hk hc, ← hf.passed, hnone]
      | false =>
        obtain ⟨hcur, -, -⟩ := he.of_not_read hc
        rw [hcur, hfirst] at hsecond
        cases hsecond

/-- A step of the session returns nothing, takes nothing, and at most drops what is held. -/
theorem Acts.inbound {action : Session.Action} {machine : StreamMachine}
    (h : Acts m action machine) :
    Moment.returned ⟨m.actions ++ [action], machine⟩ = m.returned ∧
    (∀ i, machine.env.world.journal.deliveries i = m.journal.deliveries i) ∧
    (Moment.held ⟨m.actions ++ [action], machine⟩).Sublist m.held := by
  refine ⟨?_, World.deliveries_of_enters h.enters, ?_⟩
  · cases h with
    | drops k =>
      unfold Moment.returned
      rw [Machine.finished_cancel]
    | _ => rfl
  · cases h with
    | starts request =>
      have hheld : Moment.held ⟨m.actions ++ [.call request],
          m.machine.spawn m.actions.length (.start request)⟩ = m.held := by
        unfold Moment.held Machine.spawn
        simp [Call.held]
      rw [hheld]
    | drops k =>
      unfold Moment.held
      rw [Machine.tasks_cancel]
      exact List.filter_sublist.flatMap _
    | happens => exact .refl _

/-! ## Sparing readers -/

/-- Reads must not overlap, and none may be dropped while it holds bytes that it has taken. -/
def sparingReader : Rule
  | m, .call (.read _) => m.readless = true
  | m, .cancel k => m.machine.tasks.all (fun t => t.id != k || (t.call.held k).isEmpty) = true
  | _, _ => True

instance (m : Moment) : ∀ action, Decidable (sparingReader m action)
  | .call (.read _) => inferInstanceAs (Decidable (m.readless = true))
  | .cancel _ => inferInstanceAs (Decidable (_ = true))
  | .call (.write _) | .call (.writeAll _) | .call (.copy _) | .call (.shut _)
  | .openGate _ | .elapse _ | .feed _ _ | .describe | .idle => .isTrue trivial

theorem oneReader_of_sparingReader {m : Moment} {action : Session.Action}
    (h : sparingReader m action) : oneReader m action := by
  unfold sparingReader at h
  unfold oneReader
  split
  · exact h
  · trivial

/-- A read that is not dropped at all is not dropped while it holds something. -/
theorem sparingReader_of_patientReader {m : Moment} {action : Session.Action}
    (h : patientReader m action) : sparingReader m action := by
  unfold patientReader at h
  unfold sparingReader
  split
  · exact h
  · rename_i k
    refine List.all_eq_true.mpr fun t ht => ?_
    have hother := List.all_eq_true.mp h t ht
    rw [Bool.or_eq_true] at hother ⊢
    rcases hother with hid | hread
    · exact Or.inl hid
    · rw [Call.held_of_not_read (by simpa using hread)]
      exact Or.inr rfl
  · trivial

theorem Acts.held_of_sparing {action : Session.Action} {machine : StreamMachine}
    (h : Acts m action machine) (hrule : sparingReader m action) :
    Moment.held ⟨m.actions ++ [action], machine⟩ = m.held := by
  cases h with
  | starts request =>
    unfold Moment.held Machine.spawn
    simp [Call.held]
  | drops k =>
    unfold Moment.held
    rw [Machine.tasks_cancel]
    refine Machine.flatMap_without fun t ht hid => ?_
    have hall := List.all_eq_true.mp hrule t ht
    simpa [hid] using hall
  | happens => rfl

/-- A step of the session after which all is still held that was held before spares readers. -/
theorem Moment.sparing_of_held {action : Session.Action} (h : Reachable oneReader setup m)
    (hrule : oneReader m action) (hheld : (m.act action).held = m.held) :
    sparingReader m action := by
  cases action with
  | call request =>
    cases request with
    | read len => exact hrule
    | _ => trivial
  | cancel k =>
    refine List.all_eq_true.mpr fun t ht => ?_
    by_cases hid : t.id = k
    · subst hid
      have hnothing : t.call.held t.id = [] := by
        cases hread : t.call.isRead with
        | false => exact Call.held_of_not_read hread
        | true =>
          -- Without the only reader nothing is held.
          have hnone : (m.act (.cancel t.id)).held = [] := by
            refine Moment.held_of_no_reader fun j d hj => ?_
            obtain ⟨hj, hne⟩ := Machine.mem_cancel_iff.mp hj
            rw [← Bool.not_eq_true]
            intro hd
            exact hne (h.single t.id t.call j d ht hj hread hd)
          rw [← Moment.held_of_reader h.single h.numbered.nodup ht hread, ← hheld, hnone]
      simp [hnothing]
    · simp [hid]
  | _ => trivial

/-! ## What all reads have returned -/

/-- What has been returned and what is held was taken from the connection in use, in order, and
nothing is returned while the question is open. -/
structure Moment.Inbound (m : Moment) : Prop where
  returned : m.state.isDecided = false → m.returned = []
  passed : (m.returned ++ m.held).Sublist (m.journal.deliveries m.state.memory.current)

/-- What has been returned and what is held is all that was taken. -/
structure Moment.Lossless (m : Moment) : Prop where
  passed : m.returned ++ m.held = m.journal.deliveries m.state.memory.current
  elsewhere : ∀ i, i ≠ m.state.memory.current → m.journal.deliveries i = []

theorem Reachable.inbound (h : Reachable oneReader setup m) : m.Inbound := by
  refine Reachable.induction (P := Moment.Inbound) h ?_ ?_
  · intro s _
    exact ⟨fun _ => rfl, List.nil_sublist _⟩
  · intro m m' hm hi hn
    have hopen : m'.state.isDecided = false → m.state.isDecided = false := by
      intro hd'
      rw [← Bool.not_eq_true]
      intro hd
      rw [(hn.sameGuarded hm hd).isDecided, hd] at hd'
      cases hd'
    have hm' : Reachable oneReader setup m' := hm.leads (.single hn)
    rcases hn.split with ⟨action, machine, -, ha, rfl⟩ | ⟨k, c, s, p, hk, hstep, rfl⟩
    · obtain ⟨hreturned, hdeliveries, hheld⟩ := ha.inbound
      refine ⟨fun hd => hreturned.trans (hi.returned (hopen hd)), ?_⟩
      show List.Sublist _ (machine.env.world.journal.deliveries machine.env.memory.current)
      rw [hreturned, ha.sameGuarded.current, hdeliveries]
      exact ((List.Sublist.refl _).append hheld).trans hi.passed
    · obtain ⟨s₁, l, he, -, rfl⟩ := does_of_step hstep
      obtain ⟨new, hf⟩ := Moment.flows_of_step hm hm' hk he
      refine ⟨fun hd => ?_, ?_⟩
      · rw [Moment.returned_advance, hi.returned (hopen hd), List.nil_append]
        cases p with
        | goesOn c' => rfl
        | done o =>
          by_contra hne
          have hd₁ : s₁.isDecided = true := he.isDecided_of_returned (hm.phase hk) rfl hne
          rw [Moment.state_advance] at hd
          rw [show (s₁.withLock l).isDecided = s₁.isDecided from rfl, hd₁] at hd
          cases hd
      · rw [hf.passed, hf.deliveries]
        rcases hf.current with hcur | ⟨-, -, hnone, hd⟩
        · rw [hcur, if_pos rfl]
          exact hi.passed.append (.refl _)
        · rw [List.append_assoc, hnone, hi.returned hd]
          exact List.nil_sublist _

/-- A step of a call neither loses anything nor makes up for a loss. -/
theorem Moment.Flows.lossless_iff {new : List (TaskId × Bytes)} (hf : m.Flows m' new)
    (hi : m.Inbound) : m'.Lossless ↔ m.Lossless := by
  rcases hf.current with hcur | ⟨hsecond, hfirst, hnone, hd⟩
  · have hpassed : m'.returned ++ m'.held = m'.journal.deliveries m'.state.memory.current ↔
        m.returned ++ m.held = m.journal.deliveries m.state.memory.current := by
      rw [hf.passed, hf.deliveries, hcur, if_pos rfl]
      exact List.append_left_inj new
    have helsewhere : ∀ i, i ≠ m.state.memory.current →
        m'.journal.deliveries i = m.journal.deliveries i := by
      intro i hne
      rw [hf.deliveries, if_neg hne, List.append_nil]
    constructor
    · intro hl
      refine ⟨hpassed.mp hl.passed, fun i hne => ?_⟩
      rw [← helsewhere i hne]
      exact hl.elsewhere i (hcur ▸ hne)
    · intro hl
      refine ⟨hpassed.mpr hl.passed, fun i hne => ?_⟩
      rw [hcur] at hne
      rw [helsewhere i hne]
      exact hl.elsewhere i hne
  · -- What was in use before is left with what was lost of it, if anything was.
    have hreturned : m.returned = [] := hi.returned hd
    obtain ⟨hheld, hnew⟩ := List.append_eq_nil_iff.mp hnone
    have hsame : ∀ i, m'.journal.deliveries i = m.journal.deliveries i := by
      intro i
      rw [hf.deliveries, hnew, ite_self, List.append_nil]
    have hbefore : m.returned ++ m.held = [] := by rw [hreturned, hheld]; rfl
    have hafter : m'.returned ++ m'.held = [] := by rw [hf.passed, hbefore, hnew]; rfl
    constructor
    · intro hl
      have hall : ∀ i, m.journal.deliveries i = [] := by
        intro i
        rw [← hsame]
        by_cases hi' : i = m'.state.memory.current
        · rw [hi', ← hl.passed, hafter]
        · exact hl.elsewhere i hi'
      exact ⟨by rw [hbefore, hall], fun i _ => hall i⟩
    · intro hl
      have hall : ∀ i, m'.journal.deliveries i = [] := by
        intro i
        rw [hsame]
        by_cases hi' : i = m.state.memory.current
        · rw [hi', ← hl.passed, hbefore]
        · exact hl.elsewhere i hi'
      exact ⟨by rw [hafter, hall], fun i _ => hall i⟩

/-- A step that spares readers loses nothing. -/
theorem Moment.Lossless.next (hl : m.Lossless) (h : Reachable oneReader setup m)
    (hn : m.Next sparingReader m') : m'.Lossless := by
  have hm' : Reachable oneReader setup m' :=
    h.leads (Moment.Leads.mono (fun _ _ => oneReader_of_sparingReader) (.single hn))
  rcases hn.split with ⟨action, machine, hrule, ha, rfl⟩ | ⟨k, c, s, p, hk, hstep, rfl⟩
  · obtain ⟨hreturned, hdeliveries, -⟩ := ha.inbound
    refine ⟨?_, fun i hne => ?_⟩
    · show _ = machine.env.world.journal.deliveries machine.env.memory.current
      rw [hreturned, ha.held_of_sparing hrule, ha.sameGuarded.current, hdeliveries]
      exact hl.passed
    · exact (hdeliveries i).trans (hl.elsewhere i fun hcur =>
        hne (hcur.trans ha.sameGuarded.current.symm))
  · obtain ⟨s₁, l, he, -, rfl⟩ := does_of_step hstep
    obtain ⟨new, hf⟩ := Moment.flows_of_step h hm' hk he
    exact (hf.lossless_iff h.inbound).mpr hl

/-- A step after which nothing is lost has spared readers. -/
theorem Moment.Next.spares (hn : m.Next oneReader m') (h : Reachable oneReader setup m)
    (hl : m'.Lossless) : m.Lossless ∧ m.Next sparingReader m' := by
  have hm' : Reachable oneReader setup m' := h.leads (.single hn)
  cases hn with
  | act action allowed =>
    obtain ⟨hreturned, hdeliveries, hheld⟩ :
        (m.act action).returned = m.returned ∧
        (∀ i, (m.act action).journal.deliveries i = m.journal.deliveries i) ∧
        (m.act action).held.Sublist m.held := (acts_act m action).inbound
    have hcur : (m.act action).state.memory.current = m.state.memory.current :=
      (acts_act m action).sameGuarded.current
    have hpassed := hl.passed
    rw [hreturned, hcur, hdeliveries] at hpassed
    -- What is held has not become less, or less than what was taken would be left.
    have hlen := h.inbound.passed.length_le
    rw [← hpassed, List.length_append, List.length_append] at hlen
    have hsame : (m.act action).held = m.held := hheld.eq_of_length_le (by omega)
    rw [hsame] at hpassed
    refine ⟨⟨hpassed, fun i hne => ?_⟩, .act action (Moment.sparing_of_held h allowed hsame)⟩
    rw [← hdeliveries]
    exact hl.elsewhere i (hcur ▸ hne)
  | step hstep =>
    obtain ⟨c, s, p, hk, hs, rfl⟩ := Machine.step_eq_some hstep
    obtain ⟨s₁, l, he, -, rfl⟩ := does_of_step hs
    obtain ⟨new, hf⟩ := Moment.flows_of_step h hm' hk he
    exact ⟨(hf.lossless_iff h.inbound).mp hl, .step hstep⟩

/-- With one read at a time, nothing is lost just if no read is dropped while it holds something. -/
theorem Reachable.lossless_iff (h : Reachable oneReader setup m) :
    m.Lossless ↔ Reachable sparingReader setup m := by
  constructor
  · refine Reachable.induction (P := fun m => m.Lossless → Reachable sparingReader setup m) h ?_ ?_
    · intro s hs _
      exact ⟨s, hs, .refl⟩
    · intro m m' hm ih hn hl
      obtain ⟨hbefore, hspares⟩ := hn.spares hm hl
      exact (ih hbefore).leads (.single hspares)
  · intro hsparing
    refine Reachable.induction (P := Moment.Lossless) hsparing ?_ ?_
    · intro s hs
      obtain ⟨now, script, timeout, -, -, -, hj⟩ := opening_eq_opened hs
      have hnone : ∀ i, s.world.journal.deliveries i = [] := by
        intro i
        rw [hj]
        rfl
      exact ⟨(hnone _).symm, fun i _ => hnone i⟩
    · intro m m' hm hl hn
      exact hl.next (hm.mono fun _ _ => oneReader_of_sparingReader) hn

theorem Reachable.lossless (h : Reachable patientReader setup m) : m.Lossless := by
  have hone : Reachable oneReader setup m := h.mono fun _ _ => oneReader_of_patientReader
  exact hone.lossless_iff.mpr (h.mono fun _ _ => sparingReader_of_patientReader)

/-- Once the question is settled, the reader holds nothing at the lock. -/
theorem Reachable.held_of_decided (h : Reachable oneReader setup m)
    (hd : m.state.isDecided = true) : m.held = [] := by
  refine List.flatMap_eq_nil_iff.mpr fun t ht => ?_
  have hplace := h.placed (k := t.id) (c := t.call) ht
  unfold Call.held
  split
  · rename_i hcall
    rw [hcall] at hplace
    rw [hplace.2] at hd
    cases hd
  · rfl

/-- With one read at a time, what reads return comes from one connection, the final one, in its
order. Once a retry has made the second connection, the first one is left alone. If no read is
dropped, what was returned is all that was taken from the final connection, and nothing was taken
from the first one when another was in use. -/
theorem inbound_bytes_from_one_connection {setup : Setup} {m : Moment}
    (h : Reachable oneReader setup m) :
    (m.returned = [] ∨ ∃ link,
      (∀ m', m.Leads oneReader m' → m'.state.finalLink? = some link) ∧
      m.returned.Sublist (m.journal.deliveries link)) ∧
    ((m.state.world.link? secondLink).isSome = true → ∀ m', m.Leads oneReader m' →
      m'.journal.concerning firstLink = m.journal.concerning firstLink ∧
      ∀ k c, ⟨k, c⟩ ∈ m'.machine.tasks → Call.target? m'.state c ≠ some firstLink) ∧
    (Reachable patientReader setup m →
      (∀ link, m.state.finalLink? = some link → m.returned = m.journal.deliveries link) ∧
      (m.state.memory.current ≠ firstLink → m.journal.deliveries firstLink = [])) := by
  refine ⟨?_, fun hsecond m' hl => hl.abandons h hsecond, fun hp => ⟨fun link hlink => ?_, ?_⟩⟩
  · cases hd : m.state.isDecided with
    | false => exact Or.inl (h.inbound.returned hd)
    | true =>
      refine Or.inr ⟨m.state.memory.current, fun m' hl => ?_, ?_⟩
      · exact (hl.sameGuarded h hd).finalLink?.trans (h.sound.finalLink?_eq hd)
      · exact (List.sublist_append_left _ _).trans h.inbound.passed
  · have hheld := h.held_of_decided (State.isDecided_iff.mpr ⟨link, hlink⟩)
    have hpassed := hp.lossless.passed
    rw [hheld, List.append_nil, ← h.sound.final link hlink] at hpassed
    exact hpassed
  · intro hcur
    exact hp.lossless.elsewhere firstLink (Ne.symm hcur)

theorem inbound_bytes_from_second_connection_after_reset : ∃ m,
    Reachable oneReader resetSession m ∧ Reachable patientReader resetSession m ∧
    (m.state.world.link? secondLink).isSome = true ∧ m.returned = [(1, [9])] ∧
    m.journal.deliveries secondLink = [(1, [9])] ∧ m.journal.deliveries firstLink = [] ∧
    ∀ m', m.Leads oneReader m' →
      m'.journal.concerning firstLink = m.journal.concerning firstLink := by
  have hm : ∃ m, resetSession.played [.call (.write [1, 2, 3]), .call (.read 4), reply] = some m ∧
      m.state.finalLink? = some secondLink ∧ m.state.memory.current ≠ firstLink ∧
      (m.state.world.link? secondLink).isSome = true ∧ m.returned = [(1, [9])] := by
    refine ⟨_, rfl, ?_, ?_, ?_, ?_⟩
    · decide +kernel
    · decide +kernel
    · decide +kernel
    · decide +kernel
  obtain ⟨m, hplayed, hfinal, hcur, hsecond, hreturned⟩ := hm
  have hp : Reachable patientReader resetSession m :=
    reachable_of_played (by decide +kernel) hplayed
  have h := hp.mono fun _ _ => oneReader_of_patientReader
  obtain ⟨-, halone, hall⟩ := inbound_bytes_from_one_connection h
  obtain ⟨htaken, hnothing⟩ := hall hp
  exact ⟨m, h, hp, hsecond, hreturned, (htaken _ hfinal).symm.trans hreturned, hnothing hcur,
    fun m' hl => (halone hsecond m' hl).1⟩

end StreamSession

end Redial
