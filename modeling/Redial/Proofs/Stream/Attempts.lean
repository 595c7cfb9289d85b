import Redial.Proofs.Stream.Kinds

/-!
# Writes that calls attempt

The *attempts* of a call are the writes that it has made on connections, with their results; the
replay of a hello is not among them. A step of a call makes at most one attempt, at one of three
places (`Call.Offers`), and no other call makes one in it (`Effect.tries`). A single write offers
the whole buffer that was asked for, wherever it is (`Reachable.asked`).
-/

namespace Redial

/-- Whether a write that came to an end was made for a caller. -/
def Event.isAttempt : Event → Bool
  | accepted _ (.call _) _ => true
  | writeFailed _ (.call _) _ _ => true
  | _ => false

/-- Whether a write that came to an end was made by the call of a task. -/
def Event.isAttemptOf (k : TaskId) : Event → Bool
  | accepted _ (.call j) _ => j = k
  | writeFailed _ (.call j) _ _ => j = k
  | _ => false

theorem Event.isAttemptOf_eq_false {e : Event} (h : e.isAttempt = false) (k : TaskId) :
    e.isAttemptOf k = false := by
  cases e with
  | accepted link purpose bytes =>
    cases purpose with
    | call j => cases h
    | replay j => rfl
  | writeFailed link purpose buf f =>
    cases purpose with
    | call j => cases h
    | replay j => rfl
  | _ => rfl

namespace Journal

/-- The writes that the call of a task has made, the latest first. -/
def attempts (j : Journal) (k : TaskId) : Journal := j.filter fun e => e.event.isAttemptOf k

theorem attempts_cons_of_not {e : Entered} {k : TaskId} (h : e.event.isAttemptOf k = false)
    (j : Journal) : attempts (e :: j) k = j.attempts k :=
  List.filter_cons_of_neg (by rw [h]; exact Bool.false_ne_true)

theorem attempts_writeEvent (now : Instant) (i : LinkId) (k : TaskId) (buf : Bytes)
    (r : Except Fault Bytes) (j : Journal) :
    attempts (⟨now, World.writeEvent i (.call k) buf r⟩ :: j) k =
      ⟨now, World.writeEvent i (.call k) buf r⟩ :: j.attempts k := by
  refine List.filter_cons_of_pos ?_
  cases r <;> exact decide_eq_true rfl

end Journal

namespace World

variable {w w' : World}

theorem attempts_of_enters (h : w.Enters (·.isAttempt = false) w') (k : TaskId) :
    w'.journal.attempts k = w.journal.attempts k := by
  obtain ⟨es, hj, he⟩ := h
  have hnone : es.filter (fun e => e.event.isAttemptOf k) = [] := by
    refine List.filter_eq_nil_iff.mpr fun e hmem => ?_
    rw [Event.isAttemptOf_eq_false (he e hmem)]
    exact Bool.false_ne_true
  unfold Journal.attempts
  rw [hj, List.filter_append, hnone]
  rfl

theorem attempts_write {i : LinkId} {k : TaskId} {buf : Bytes} {r : Except Fault Bytes}
    (h : w.write i (.call k) buf = some (w', r)) :
    w'.journal.attempts k = ⟨w.now, writeEvent i (.call k) buf r⟩ :: w.journal.attempts k := by
  obtain ⟨l, l', -, -, rfl⟩ := write_eq_some h
  exact Journal.attempts_writeEvent _ _ _ _ _ _

theorem attempts_write_of_ne {i : LinkId} {k j : TaskId} (hj : j ≠ k) {buf : Bytes}
    {r : Except Fault Bytes} (h : w.write i (.call k) buf = some (w', r)) :
    w'.journal.attempts j = w.journal.attempts j := by
  obtain ⟨l, l', -, -, rfl⟩ := write_eq_some h
  refine Journal.attempts_cons_of_not ?_ _
  cases r <;> exact decide_eq_false (Ne.symm hj)

end World

/-- A step of a call on a connection makes no attempt, or is one. -/
theorem BareCall.Effect.tries {task : TaskId} {i : LinkId} {w w' : World} {call : BareCall}
    {p : Progress BareCall Outcome} (h : BareCall.Effect task i w call w' p) :
    w.Enters (·.isAttempt = false) w' ∨
      ∃ buf r, w.write i (.call task) buf = some (w', r) := by
  cases h with
  | @reads len _ r h =>
    refine Or.inl (.read h ?_)
    cases r <;> rfl
  | writes h | writesAll _ h | copies _ h => exact Or.inr ⟨_, _, h⟩
  | shuts h => exact Or.inl (.shut h rfl)
  | _ => exact Or.inl (.refl _)

namespace Stream

/-- A call is at a place from which it writes `buf` on connection `link`. -/
inductive Call.Offers (s : State) : Call → LinkId → Bytes → Prop where
  /-- On the connection in use, while the question is open. -/
  | sending {goal buf} (hd : s.isDecided = false) :
      Offers s (.sending goal buf) s.memory.current buf
  /-- On the final connection. -/
  | sendingTo {link goal buf} (hd : s.finalLink? = some link) :
      Offers s (.sendingTo link goal buf) link buf
  /-- On the final connection, without the stream. -/
  | bare {link call buf} (hd : s.finalLink? = some link) : Offers s (.bare link call) link buf

/-- What a step of a call does to the attempts: it makes none, or one of its own. -/
inductive State.Tries (k : TaskId) (s : State) (c : Call) (s₁ : State) : Prop where
  | rests (hw : s.world.Enters (·.isAttempt = false) s₁.world) : Tries k s c s₁
  | writes {link buf w r} (hc : c.Offers s link buf)
      (hw : s.world.write link (.call k) buf = some (w, r))
      (hrest : w.Enters (·.isAttempt = false) s₁.world) : Tries k s c s₁

/-- The request of a single write of `buf`. -/
def Goal.request? (buf : Bytes) : Goal → Option Request
  | once => some (.write buf)
  | _ => none

/-- The request of a single write, wherever it is, and of a call that is not yet begun. -/
def Call.request? : Call → Option Request
  | start request => some request
  | queued (.send goal buf) => goal.request? buf
  | sending goal buf => goal.request? buf
  | awaiting goal buf _ => goal.request? buf
  | sendingTo _ goal buf => goal.request? buf
  | _ => none

section Steps

variable {k j : TaskId} {s s₁ : State} {c c' : Call} {p : Progress Call Outcome}

theorem Effect.tries (h : Effect k s c s₁ p) (hs : s.Sound) (hc : c.Phase s) :
    s.Tries k c s₁ := by
  have hread : ∀ {link len w r}, s.world.read link k len = some (w, r) →
      s.world.Enters (·.isAttempt = false) w := by
    intro link len w r hr
    refine .read hr ?_
    cases r <;> rfl
  have hreplay : ∀ {link buf w r}, s.world.write link (.replay k) buf = some (w, r) →
      s.world.Enters (·.isAttempt = false) w := by
    intro link buf w r hw
    refine .write hw ?_
    cases r <;> rfl
  have hdial : ∀ {dial w r}, s.world.dialled dial = some (w, r) →
      s.world.Enters (·.isAttempt = false) w := fun hr => .dialled hr rfl fun _ => rfl
  cases h with
  | passes => exact .rests (.refl _)
  | @asksShut half => cases half <;> exact .rests (.refl _)
  | reads hr => exact .rests (hread hr)
  | settlesAtEnd => exact .rests (.note rfl)
  | settlesOnBytes => exact .rests (World.Enters.trans (.setDeadline rfl) (.note rfl))
  | settlesOnFault => exact .rests (World.Enters.trans (.note rfl) (.note rfl))
  | retries =>
    obtain ⟨l, hl⟩ := hs.current_isSome
    rw [beginRetry_eq hl]
    exact .rests (enters_retryWorld _ _ _ (fun _ => rfl) rfl (fun _ => rfl) rfl)
  | redials hr => exact .rests ((hdial hr).trans (.note rfl))
  | redialFails hr => exact .rests ((hdial hr).trans (World.Enters.trans (.note rfl) (.note rfl)))
  | replays _ hw | replayInterrupted _ hw => exact .rests (hreplay hw)
  | replayFails _ hw =>
    exact .rests ((hreplay hw).trans (World.Enters.trans (.note rfl) (.note rfl)))
  | reshutsRead hw | reshutsWrite hw | shuts hw => exact .rests (.shut hw rfl)
  | reshutFails hw => exact .rests (World.Enters.trans (.shut hw rfl) (.note rfl))
  | answers hr => exact .rests ((hread hr).trans (.note rfl))
  | sends hw => exact .writes (.sending hc) hw (.setDeadline rfl)
  | sendFails hw =>
    exact .writes (.sending hc) hw (World.Enters.trans (.setDeadline rfl) (.note rfl))
  | sendsTo hw => exact .writes (.sendingTo hc) hw (.refl _)
  | bare hw =>
    rcases (BareCall.effect_of_step hw).tries with hrests | ⟨buf, r, hin⟩
    · exact .rests hrests
    · exact .writes (.bare hc.1) hin (.refl _)

theorem State.Tries.attempts_of_ne (h : s.Tries k c s₁) (hj : j ≠ k) :
    s₁.world.journal.attempts j = s.world.journal.attempts j := by
  cases h with
  | rests hw => exact World.attempts_of_enters hw j
  | writes _ hw hrest =>
    exact (World.attempts_of_enters hrest j).trans (World.attempts_write_of_ne hj hw)

/-! ## What single writes offer -/

theorem request?_offer {goal : Goal} {buf : Bytes} (h : (offer s k goal buf).2 = .goesOn c') :
    c'.request? = goal.request? buf := by
  rcases offer_cases s k goal buf with ⟨link, -, ho⟩ | ⟨-, ho⟩
  all_goals
    rw [ho] at h
    cases h
    rfl

/-- What follows a write of a loop is no single write. -/
theorem request?_afterWrite {buf : Bytes} {r : Except Fault Bytes} {goal : Goal}
    (h : (afterWrite s k buf r goal).2 = .goesOn c') : c'.request? = none := by
  unfold afterWrite at h
  split at h
  · cases h
  · split at h
    · cases h
    · split at h
      · cases h
      · exact request?_offer h
    · split at h
      · exact request?_offer h
      · cases h
  · split at h
    · cases h
    · dsimp only at h
      split at h
      · cases h
        rfl
      · exact request?_offer h
    · cases h

theorem WriteHalfNext.request? {len : Nat} (h : WriteHalfNext s len c) : c.request? = none := by
  cases h <;> rfl

theorem Passes.request? (h : Passes k s c p) (hp : p = .goesOn c') {r : Request}
    (hr : c'.request? = some r) : c.request? = some r := by
  cases h with
  | beginWrite | beginWriteAll | pullPiece =>
    rw [request?_offer hp] at hr
    first
      | exact hr
      | cases hr
  | sendFinal | beginSending | goOnWaiting | released =>
    cases hp
    exact hr
  | @replayed len cut =>
    rcases afterReplay_cases s len with ⟨-, ha⟩ | ⟨-, ha⟩
    · rw [ha] at hp
      cases hp
      cases hr
    · rw [ha] at hp
      rw [(writeHalfNext_of_reshutWrite hp).request?] at hr
      cases hr
  | emptyWrite | emptyWriteAll | confirmEnd | bringLate | pullEnd | pullFault => cases hp
  | _ =>
    cases hp
    cases hr

theorem Effect.request? (h : Effect k s c s₁ p) (hp : p = .goesOn c') {r : Request}
    (hr : c'.request? = some r) : c.request? = some r := by
  cases h with
  | passes h => exact h.request? hp hr
  | @reads link len w r' =>
    rcases afterReading_cases s k link len r' with ⟨-, ha⟩ | ⟨-, -, ha⟩ | ⟨-, -, ha⟩
    all_goals
      rw [ha] at hp
      cases hp
    all_goals cases hr
  | reshutsRead =>
    rw [(writeHalfNext_of_reshutWrite hp).request?] at hr
    cases hr
  | sends | sendsTo =>
    rw [request?_afterWrite hp] at hr
    cases hr
  | sendFails =>
    cases hp
    exact hr
  | @bare link call w p' =>
    cases p' with
    | done o => cases hp
    | goesOn call' =>
      cases hp
      cases hr
  | retries | redials | replays | replayInterrupted | reshutsWrite | asksShut =>
    cases hp
    cases hr
  | _ => cases hp

/-! ## How writes end -/

/-- A single write ends with the result of a write on a connection: with what was accepted, or with
what a write of its buffer on the final connection came to. -/
theorem Effect.ends_write {r : Except Fault Nat} (h : Effect k s c s₁ (.done (.wrote r)))
    (hc : c.Phase s) : (∃ n, r = .ok n) ∨ ∃ link buf w r', c = .sendingTo link .once buf ∧
      s.world.write link (.call k) buf = some (w, r') ∧ s₁ = s.withWorld w ∧
      r = r'.map List.length := by
  generalize hp : Progress.done (κ := Call) (Outcome.wrote r) = p at h
  cases h with
  | passes h =>
    cases h with
    | emptyWrite =>
      cases hp
      exact Or.inl ⟨0, rfl⟩
    | beginWrite | beginWriteAll | pullPiece =>
      obtain ⟨c', hc'⟩ := offer_goesOn _ _ _ _
      rw [hc'] at hp
      cases hp
    | replayed =>
      obtain ⟨c', hc'⟩ := afterReplay_goesOn _ _
      rw [hc'] at hp
      cases hp
    | _ => cases hp
  | @reads link len w r' =>
    rcases afterReading_cases s k link len r' with ⟨-, ha⟩ | ⟨-, -, ha⟩ | ⟨-, -, ha⟩
    all_goals
      rw [ha] at hp
      cases hp
  | @reshutsRead len =>
    rcases reshutWrite_cases s len with ⟨-, ha⟩ | ⟨-, ha⟩
    all_goals
      rw [ha] at hp
      cases hp
  | @sends goal buf w bytes =>
    rcases afterWrite_done hp.symm with ⟨rfl, ho⟩ | ⟨_, ho⟩ | ⟨_, _, ho⟩
    · cases ho
      exact Or.inl ⟨bytes.length, rfl⟩
    · cases ho
    · cases ho
  | @sendsTo link goal buf w r' hw =>
    rcases afterWrite_done hp.symm with ⟨rfl, ho⟩ | ⟨_, ho⟩ | ⟨_, _, ho⟩
    · cases ho
      exact Or.inr ⟨link, buf, w, r', rfl, hw, rfl, rfl⟩
    · cases ho
    · cases ho
  | @bare link call w p' hw =>
    cases p' with
    | goesOn call' => cases hp
    | done o =>
      cases hp
      rcases (BareCall.effect_of_step hw).done hc.2 with ⟨_, _, -, ho⟩ | ⟨_, _, ho⟩ <;> cases ho
  | _ => cases hp

end Steps

end Stream

namespace StreamSession

open Redial.Stream

variable {rule : Rule} {setup : Setup} {m m' : Moment} {k j : TaskId}

/-- A single write carries the buffer that was asked for in the step that started it. -/
theorem Reachable.asked (h : Reachable rule setup m) {c : Call} (hk : ⟨k, c⟩ ∈ m.machine.tasks)
    {r : Request} (hr : c.request? = some r) : m.actions[k]? = some (.call r) := by
  refine Reachable.induction
    (P := fun m => ∀ k c, ⟨k, c⟩ ∈ m.machine.tasks → ∀ r, Call.request? c = some r →
      m.actions[k]? = some (.call r)) h ?_ ?_ k c hk r hr
  · intro s _ k c hk
    exact absurd hk List.not_mem_nil
  · intro m m' _ ih hn j d hj r hr
    rcases hn.split with ⟨action, machine, -, ha, rfl⟩ | ⟨k, c, s, p, hk, hstep, rfl⟩
    · rcases ha.mem_tasks hj with hj | ⟨request, rfl, rfl, rfl⟩
      · have hold := ih j d hj r hr
        exact (List.getElem?_append_left (List.getElem?_eq_some_iff.mp hold).1).trans hold
      · cases hr
        exact List.getElem?_concat_length
    · obtain ⟨s₁, l, he, -, rfl⟩ := does_of_step hstep
      rcases Machine.mem_advance hj with ⟨c', hgo, hc'⟩ | ⟨hj, -⟩
      · cases hc'
        exact ih _ c hk r (he.request? hgo hr)
      · exact ih j d hj r hr

/-! ## Attempts in a run -/

/-- Only its own steps change the attempts of a call. -/
theorem Moment.Next.attempts (hn : m.Next rule m') (h : Reachable rule setup m) :
    m'.journal.attempts k = m.journal.attempts k ∨ m.Moves k m' := by
  cases hn with
  | act action allowed =>
    exact Or.inl (World.attempts_of_enters (acts_act m action).enters k)
  | @step machine j hs =>
    by_cases hkj : k = j
    · exact Or.inr ⟨hkj ▸ hs, rfl⟩
    · obtain ⟨c, s, p, hc, hstep, rfl⟩ := Machine.step_eq_some hs
      obtain ⟨s₁, l, he, -, rfl⟩ := does_of_step hstep
      left
      unfold Moment.journal
      rw [Machine.env_advance]
      exact (he.tries h.sound (h.phase hc)).attempts_of_ne hkj

/-- A call that has not been started has made no attempts. -/
theorem Reachable.attempts_eq_nil (h : Reachable rule setup m) (hk : m.actions.length ≤ k) :
    m.journal.attempts k = [] := by
  refine Reachable.induction (P := fun m => m.actions.length ≤ k → m.journal.attempts k = [])
    h ?_ ?_ hk
  · intro s hs _
    obtain ⟨now, script, timeout, -, -, -, hj⟩ := opening_eq_opened hs
    unfold Moment.journal Moment.first
    show s.world.journal.attempts k = []
    rw [hj]
    rfl
  · intro m m' hm ih hn hk
    have hbefore : m.actions.length ≤ k := Nat.le_trans hn.actions.length_le hk
    rcases hn.attempts hm (k := k) with hsame | hmove
    · exact hsame.trans (ih hbefore)
    · obtain ⟨c, s, p, hc, -, -⟩ := hmove.call
      have hlt : k < m.actions.length := hm.numbered.lt k (List.mem_map_of_mem hc)
      exact absurd hbefore (Nat.not_le.mpr hlt)

/-- A call that is done makes no attempts any more. -/
theorem Moment.Leads.attempts_of_done (hl : m.Leads rule m') (h : Reachable rule setup m)
    {o : Outcome} (ho : (k, o) ∈ m.machine.finished) :
    m'.journal.attempts k = m.journal.attempts k := by
  induction hl with
  | refl => rfl
  | tail hl hn ih =>
    have h₁ := h.leads hl
    rcases hn.attempts h₁ (k := k) with hsame | hmove
    · exact hsame.trans ih
    · obtain ⟨c, s, p, hc, -, -⟩ := hmove.call
      exact absurd (Moment.Leads.finished hl |>.subset ho) (h₁.unfinished hc o)

end StreamSession

end Redial
