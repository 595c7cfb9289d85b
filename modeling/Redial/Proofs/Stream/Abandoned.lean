import Redial.Proofs.Stream.Reader

/-!
# The connection that was given up

Once a retry has made the second connection, no call is at a place where it would use the first one,
and nothing happens on it any more.
-/

namespace Redial

/-- The connection on which something happened. -/
def Event.link? : Event → Option LinkId
  | dialling _ => none
  | connected link => some link
  | dialFailed _ => none
  | accepted link _ _ => some link
  | writeFailed link _ _ _ => some link
  | delivered link _ _ => some link
  | readFailed link _ _ => some link
  | deadline link _ => some link
  | shut link _ _ => some link
  | closed link _ => some link
  | noticed _ => none

/-- What happened on a connection, the latest first. -/
def Journal.concerning (j : Journal) (link : LinkId) : Journal :=
  j.filter fun e => e.event.link? == some link

theorem World.concerning_of_enters {w w' : World} {i : LinkId}
    (h : w.Enters (·.link? ≠ some i) w') :
    w'.journal.concerning i = w.journal.concerning i := by
  obtain ⟨es, hj, he⟩ := h
  have hnone : es.filter (fun e => e.event.link? == some i) = [] := by
    refine List.filter_eq_nil_iff.mpr fun e hmem => ?_
    simpa using he e hmem
  unfold Journal.concerning
  rw [hj, List.filter_append, hnone]
  rfl

namespace Stream

/-- The connection that the next step of a call uses, whether or not it comes to an end. -/
def Call.target? (s : State) : Call → Option LinkId
  | queued (.judge link _ _) => some link
  | reading link _ => some link
  | replaying .. => some s.memory.current
  | reshutting .. => some s.memory.current
  | answering _ => some s.memory.current
  | sending .. => some s.memory.current
  | sendingTo link _ _ => some link
  | shutting _ => some s.memory.current
  | bare link _ => some link
  | _ => none

section Steps

variable {k : TaskId} {s s₁ : State} {c : Call} {p : Progress Call Outcome}

theorem Call.target?_eq (hs : s.Sound) (hc : c.Phase s) (hplace : c.Placed s) {link : LinkId}
    (h : c.target? s = some link) : link = s.memory.current := by
  cases c with
  | queued errand =>
    cases errand with
    | judge => exact (Option.some.inj h).symm.trans hplace.1
    | _ => cases h
  | reading => exact (Option.some.inj h).symm.trans hplace.1
  | sendingTo => exact (Option.some.inj h).symm.trans (hs.final _ hc)
  | bare => exact (Option.some.inj h).symm.trans (hs.final _ hc.1)
  | replaying | reshutting | answering | sending | shutting => exact (Option.some.inj h).symm
  | _ => cases h

theorem link?_readEvent (i : LinkId) (r : Except Fault Bytes) :
    (World.readEvent i k r).link? = some i := by
  cases r <;> rfl

theorem link?_writeEvent (i : LinkId) (purpose : Purpose) (buf : Bytes) (r : Except Fault Bytes) :
    (World.writeEvent i purpose buf r).link? = some i := by
  cases r <;> rfl

/-- A step lets nothing happen on connections that are not in use, the one apart that it dials. -/
theorem Effect.enters_elsewhere (h : Effect k s c s₁ p) (hs : s.Sound) (hc : c.Phase s)
    (hplace : c.Placed s) {i : LinkId} (hi : i ≠ s.memory.current) (hsecond : i ≠ secondLink) :
    s.world.Enters (·.link? ≠ some i) s₁.world := by
  have hcur : some s.memory.current ≠ some i := fun h => hi (Option.some.inj h).symm
  have hnone : (none : Option LinkId) ≠ some i := Option.some_ne_none i |>.symm
  have hwrite : ∀ {purpose buf w r}, s.world.write s.memory.current purpose buf = some (w, r) →
      s.world.Enters (·.link? ≠ some i) w := by
    intro purpose buf w r hw
    refine .write hw ?_
    rw [link?_writeEvent]
    exact hcur
  have hread : ∀ {len w r}, s.world.read s.memory.current k len = some (w, r) →
      s.world.Enters (·.link? ≠ some i) w := by
    intro len w r hr
    refine .read hr ?_
    rw [link?_readEvent]
    exact hcur
  have hshut : ∀ {half w r}, s.world.shut s.memory.current half = some (w, r) →
      s.world.Enters (·.link? ≠ some i) w := fun hw => .shut hw hcur
  cases h with
  | passes => exact .refl _
  | @asksShut half => cases half <;> exact .refl _
  | reads hr =>
    rw [hplace.1] at hr
    exact hread hr
  | settlesAtEnd => exact .note hnone
  | settlesOnBytes =>
    rw [hplace.1]
    exact World.Enters.trans (.setDeadline hcur) (.note hnone)
  | settlesOnFault => exact World.Enters.trans (.note hnone) (.note hnone)
  | retries =>
    obtain ⟨l, hl⟩ := hs.current_isSome
    rw [beginRetry_eq hl]
    exact enters_retryWorld _ _ _ (fun _ => hnone) hcur (fun _ => hnone) hnone
  | @redials len dial w link hr =>
    have hdial : s.world.Enters (·.link? ≠ some i) w := by
      refine .dialled hr (fun h => hsecond ?_) fun _ => hnone
      exact (Option.some.inj h).symm.trans hc.1
    exact hdial.trans (.note hnone)
  | @redialFails len dial w f hr =>
    have hdial : s.world.Enters (·.link? ≠ some i) w := by
      refine .dialled hr (fun h => hsecond ?_) fun _ => hnone
      exact (Option.some.inj h).symm.trans hc.1
    exact hdial.trans (World.Enters.trans (.note hnone) (.note hnone))
  | replays _ hw | replayInterrupted _ hw => exact hwrite hw
  | replayFails _ hw =>
    exact (hwrite hw).trans (World.Enters.trans (.note hnone) (.note hnone))
  | reshutsRead hw | reshutsWrite hw | shuts hw => exact hshut hw
  | reshutFails hw => exact (hshut hw).trans (.note hnone)
  | answers hr => exact (hread hr).trans (.note hnone)
  | sends hw => exact (hwrite hw).trans (.setDeadline hcur)
  | sendFails hw =>
    exact (hwrite hw).trans (World.Enters.trans (.setDeadline hcur) (.note hnone))
  | sendsTo hw =>
    rw [hs.final _ hc] at hw
    exact hwrite hw
  | bare hw =>
    have hlink := hs.final _ hc.1
    refine (BareCall.effect_of_step hw).enters (fun r => ?_) (fun buf r => ?_) fun half r => ?_
    · rw [link?_readEvent, hlink]
      exact hcur
    · rw [link?_writeEvent, hlink]
      exact hcur
    · rw [hlink]
      exact hcur

end Steps

end Stream

namespace StreamSession

open Redial.Stream

variable {setup : Setup} {m m' : Moment}

/-- Once a retry has made the second connection, the first one is left alone. -/
theorem Moment.Leads.abandons (hl : m.Leads oneReader m') (h : Reachable oneReader setup m)
    (hsecond : (m.state.world.link? secondLink).isSome = true) :
    m'.journal.concerning firstLink = m.journal.concerning firstLink ∧
    ∀ k c, ⟨k, c⟩ ∈ m'.machine.tasks → Call.target? m'.state c ≠ some firstLink := by
  have hcur : m.state.memory.current = secondLink := h.sound.second.mp hsecond
  have hkept : m'.state.memory.current = secondLink ∧
      m'.journal.concerning firstLink = m.journal.concerning firstLink := by
    refine Moment.Leads.keeps (P := fun m' => m'.state.memory.current = secondLink ∧
      m'.journal.concerning firstLink = m.journal.concerning firstLink) hl h ⟨hcur, rfl⟩ ?_
    rintro m₁ m₂ h₁ ⟨hcur₁, hsame⟩ hn
    have hcur₂ : m₂.state.memory.current = secondLink := by
      rcases hn.current h₁ with hkeep | ⟨-, hnew⟩
      · exact hkeep.trans hcur₁
      · exact hnew
    refine ⟨hcur₂, Eq.trans ?_ hsame⟩
    rcases hn.split with ⟨action, machine, -, ha, rfl⟩ | ⟨k, c, s, p, hk, hstep, rfl⟩
    · exact World.concerning_of_enters ha.enters
    · obtain ⟨s₁, l, he, -, rfl⟩ := does_of_step hstep
      have hne : firstLink ≠ m₁.state.memory.current := by
        rw [hcur₁]
        decide
      unfold Moment.journal
      rw [Machine.env_advance]
      exact World.concerning_of_enters
        (he.enters_elsewhere h₁.sound (h₁.phase hk) (h₁.placed hk) hne (by decide))
  refine ⟨hkept.2, fun k c hk htarget => ?_⟩
  have h' := h.leads hl
  have hfirst := Call.target?_eq h'.sound (h'.phase hk) (h'.placed hk) htarget
  rw [hkept.1] at hfirst
  cases hfirst

end StreamSession

end Redial
