import Redial.Proofs.Stream.Guard

/-!
# Invariants of streams

An invariant of a stream has two parts: what holds of the state that the calls share, and what holds
of it while a call is at its place. `Inductive` says that both are kept by whatever can happen, so
they hold at every reachable moment.
-/

namespace Redial.StreamSession

open Redial.Stream

variable {rule : Rule} {setup : Setup} {m : Moment}

/-- A property `I` of the shared state and a property `L` of the place of each call are kept
together. -/
structure Inductive (rule : Rule) (setup : Setup) (I : State → Prop)
    (L : TaskId → State → Call → Prop) : Prop where
  opened : ∀ s, setup.opening = .opened s → I s
  started : ∀ k s request, L k s (.start request)
  /-- Something happens in the world by itself. -/
  changes : ∀ s (action : Session.Action), I s → I (s.withWorld (action.change s.world)) ∧
    ∀ k c, L k s c → L k (s.withWorld (action.change s.world)) c
  /-- The lock changes. -/
  locks : ∀ s l, I s → I (s.withLock l) ∧ ∀ k c, L k s c → L k (s.withLock l) c
  /-- A call makes a step. -/
  steps : ∀ m k c s₁ p, Reachable rule setup m → ⟨k, c⟩ ∈ m.machine.tasks →
    I m.state → L k m.state c → Effect k m.state c s₁ p →
    I s₁ ∧ ∀ c', p = .goesOn c' → L k s₁ c'
  /-- Another call makes a step. -/
  others : ∀ m k c s₁ p j d, Reachable rule setup m → ⟨k, c⟩ ∈ m.machine.tasks →
    ⟨j, d⟩ ∈ m.machine.tasks → j ≠ k → I m.state → L k m.state c → Effect k m.state c s₁ p →
    L j m.state d → L j s₁ d

/-- What is kept by whatever can happen holds at every reachable moment. -/
theorem Inductive.holds {I : State → Prop} {L : TaskId → State → Call → Prop}
    (hi : Inductive rule setup I L) (h : Reachable rule setup m) :
    I m.state ∧ ∀ k c, ⟨k, c⟩ ∈ m.machine.tasks → L k m.state c := by
  refine Reachable.induction
    (P := fun m => I m.state ∧ ∀ k c, ⟨k, c⟩ ∈ m.machine.tasks → L k m.state c) h ?_ ?_
  · intro s hs
    exact ⟨hi.opened s hs, fun k c ht => absurd ht List.not_mem_nil⟩
  · rintro m m' hm ⟨hI, hL⟩ hn
    rcases hn.split with ⟨action, machine, -, ha, rfl⟩ | ⟨k, c, s, p, hk, hstep, rfl⟩
    · cases ha with
      | starts request =>
        refine ⟨hI, fun j d hj => ?_⟩
        rcases (Acts.starts request).mem_tasks hj with hj | ⟨_, -, -, rfl⟩
        · exact hL j d hj
        · exact hi.started _ _ _
      | drops k =>
        unfold Moment.state
        rcases Machine.env_cancel Stream.behaviour m.machine k with he | ⟨he, -⟩
        · rw [he]
          exact ⟨hI, fun j d hj => hL j d (Machine.mem_cancel_iff.mp hj).1⟩
        · rw [he]
          obtain ⟨hI', hL'⟩ := hi.locks m.state (m.state.memory.lock.forget k) hI
          exact ⟨hI', fun j d hj => hL' j d (hL j d (Machine.mem_cancel_iff.mp hj).1)⟩
      | happens action =>
        obtain ⟨hI', hL'⟩ := hi.changes m.state action hI
        exact ⟨hI', fun j d hj => hL' j d (hL j d hj)⟩
    · obtain ⟨s₁, l, he, -, rfl⟩ := does_of_step hstep
      have hown := hi.steps m k c s₁ p hm hk hI (hL k c hk) he
      obtain ⟨hI', hL'⟩ := hi.locks s₁ l hown.1
      rw [Moment.state_advance]
      refine ⟨hI', fun j d hj => hL' j d ?_⟩
      rcases Machine.mem_advance hj with ⟨c', hgo, hc'⟩ | ⟨hj, hjk⟩
      · cases hc'
        exact hown.2 _ hgo
      · exact hi.others m k c s₁ p j d hm hk hj hjk hI (hL k c hk) he (hL j d hj)

/-- A call that is at a place of kind `L` stays at such places until it is dropped, or makes a step
after which `Q` holds from then on. -/
theorem Moment.Leads.stays {m' : Moment} {L : Call → Prop} {Q : Moment → Prop} {k : TaskId}
    {c : Call} (hl : m.Leads rule m') (h : Reachable rule setup m) (hk : ⟨k, c⟩ ∈ m.machine.tasks)
    (hc : L c)
    (leaves : ∀ m d s₁ l p, Reachable rule setup m → ⟨k, d⟩ ∈ m.machine.tasks → L d →
      Effect k m.state d s₁ p →
      (∃ d', p = .goesOn d' ∧ L d') ∨ Q ⟨m.actions, m.machine.advance k (s₁.withLock l) p⟩)
    (keeps : ∀ m m', Reachable rule setup m → Q m → m.Next rule m' → Q m') :
    (∃ d, ⟨k, d⟩ ∈ m'.machine.tasks ∧ L d) ∨
      .cancel k ∈ m'.actions.drop m.actions.length ∨ Q m' := by
  induction hl with
  | refl => exact Or.inl ⟨c, hk, hc⟩
  | @tail m₁ m₂ hl hn ih =>
    have h₁ := h.leads hl
    rcases ih with ⟨d, hd, hL⟩ | hdropped | hq
    · rcases hn.keeps hd with hd' | hdrops | hmove
      · exact Or.inl ⟨d, hd', hL⟩
      · exact Or.inr (Or.inl (Moment.Leads.mem_taken hl hdrops))
      · obtain ⟨e, s₁, l, p, he, heff, rfl⟩ := hmove.effect
        cases Machine.call_unique h₁.numbered.nodup hd he
        rcases leaves m₁ d s₁ l p h₁ hd hL heff with ⟨d', rfl, hL'⟩ | hq
        · exact Or.inl ⟨d', Machine.mem_advance_self hd, hL'⟩
        · exact Or.inr (Or.inr hq)
    · exact Or.inr (Or.inl (Moment.Leads.mem_dropped (.single hn) hdropped))
    · exact Or.inr (Or.inr (keeps m₁ m₂ h₁ hq hn))

end Redial.StreamSession
