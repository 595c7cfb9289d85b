import Redial.Proofs.Stream.Places
import Redial.Proofs.Wire.Uses

/-!
# Events of steps

Which events a step can enter in the journal, by the place of the call that makes it
(`Effect.enters_possible`). A property that all of them have is kept by the step, and what has been
entered stays (`Moment.Leads.journal`).
-/

namespace Redial.Stream

/-- The events that a step of the call of task `k` can enter from a place. -/
inductive Call.CanEnter (k : TaskId) (s : State) : Call → Event → Prop where
  | notice {c} (n : Notice) : CanEnter k s c (.noticed n)
  | read {link len} (r : Except Fault Bytes) :
      CanEnter k s (.reading link len) (World.readEvent link k r)
  | clear {link len r} : CanEnter k s (.queued (.judge link len r)) (.deadline link none)
  | close {link len r} (refused : ShutAnswer) :
      CanEnter k s (.queued (.judge link len r)) (.closed s.memory.current refused)
  | dial {link len r} :
      CanEnter k s (.queued (.judge link len r)) (.dialling s.terms.destination)
  | connect {len dial} : CanEnter k s (.redialling len dial) (.connected dial)
  | dialFails {len dial} (f : Fault) : CanEnter k s (.redialling len dial) (.dialFailed f)
  | replay {len cut piece rest} (hrest : rest ≠ []) (r : Except Fault Bytes) :
      CanEnter k s (.replaying len cut piece rest)
        (World.writeEvent s.memory.current (.replay k) rest r)
  | reshut {len half} (r : ShutAnswer) :
      CanEnter k s (.reshutting len half) (.shut s.memory.current half r)
  | answer {len} (r : Except Fault Bytes) :
      CanEnter k s (.answering len) (World.readEvent s.memory.current k r)
  | send {goal buf} (r : Except Fault Bytes) :
      CanEnter k s (.sending goal buf) (World.writeEvent s.memory.current (.call k) buf r)
  | arm {goal buf} (deadline : Option Instant) :
      CanEnter k s (.sending goal buf) (.deadline s.memory.current deadline)
  | sendTo {link goal buf} (r : Except Fault Bytes) :
      CanEnter k s (.sendingTo link goal buf) (World.writeEvent link (.call k) buf r)
  | shut {half} (r : ShutAnswer) :
      CanEnter k s (.shutting half) (.shut s.memory.current half r)
  | bareRead {link call} (r : Except Fault Bytes) :
      CanEnter k s (.bare link call) (World.readEvent link k r)
  | bareWrite {link call} (buf : Bytes) (r : Except Fault Bytes) :
      CanEnter k s (.bare link call) (World.writeEvent link (.call k) buf r)
  | bareShut {link call} (half : Half) (r : ShutAnswer) :
      CanEnter k s (.bare link call) (.shut link half r)

section Steps

variable {k : TaskId} {s s₁ : State} {c : Call} {p : Progress Call Outcome} {e : Event}

theorem Effect.enters_possible (h : Effect k s c s₁ p) (hs : s.Sound) :
    s.world.Enters (c.CanEnter k s) s₁.world := by
  have hnote : ∀ {w : World} {n}, w.Enters (c.CanEnter k s) (w.note n) := .note (.notice _)
  cases h with
  | passes => exact .refl _
  | @asksShut half => cases half <;> exact .refl _
  | reads hr => exact .read hr (.read _)
  | settlesAtEnd => exact hnote
  | settlesOnBytes => exact World.Enters.trans (.setDeadline .clear) hnote
  | settlesOnFault => exact hnote.trans hnote
  | retries =>
    obtain ⟨l, hl⟩ := hs.current_isSome
    rw [beginRetry_eq hl]
    exact enters_retryWorld _ _ _ (fun _ => .notice _) (.close _) (fun _ => .notice _) .dial
  | redials hr => exact (World.Enters.dialled hr .connect fun _ => .dialFails _).trans hnote
  | redialFails hr =>
    exact (World.Enters.dialled hr .connect fun _ => .dialFails _).trans (hnote.trans hnote)
  | replays hrest hw | replayInterrupted hrest hw => exact .write hw (.replay hrest _)
  | replayFails hrest hw =>
    exact (World.Enters.write hw (.replay hrest _)).trans (hnote.trans hnote)
  | reshutsRead hw | reshutsWrite hw => exact .shut hw (.reshut _)
  | reshutFails hw => exact (World.Enters.shut hw (.reshut _)).trans hnote
  | answers hr => exact (World.Enters.read hr (.answer _)).trans hnote
  | sends hw => exact (World.Enters.write hw (.send _)).trans (.setDeadline (.arm _))
  | sendFails hw =>
    exact (World.Enters.write hw (.send _)).trans (World.Enters.trans (.setDeadline (.arm _)) hnote)
  | sendsTo hw => exact .write hw (.sendTo _)
  | shuts hw => exact .shut hw (.shut _)
  | bare hw => exact (BareCall.effect_of_step hw).enters .bareRead .bareWrite .bareShut

/-- A call that holds the lock and replays makes the writes of the replay, and no other call
does. -/
theorem Call.CanEnter.isReplay (h : c.CanEnter k s e) (he : e.isReplay = true) :
    ∃ len cut piece rest r, rest ≠ [] ∧ c = .replaying len cut piece rest ∧
      e = World.writeEvent s.memory.current (.replay k) rest r := by
  cases h with
  | replay hrest r => exact ⟨_, _, _, _, r, hrest, rfl, rfl⟩
  | read r | answer r | send r | sendTo r | bareRead r | bareWrite buf r =>
    cases r <;> cases he
  | _ => cases he

/-- The connections that a call uses are the first one and the one in use. -/
theorem Call.CanEnter.isUseOf (h : c.CanEnter k s e) (hs : s.Sound) (hc : c.Phase s)
    {link : LinkId} (he : e.isUseOf link = true) :
    link = firstLink ∨ link = s.memory.current := by
  have hread : ∀ {l r}, (World.readEvent l k r).isUseOf link = true → l = link := by
    intro l r he
    cases r <;> exact of_decide_eq_true he
  have hwrite : ∀ {l purpose buf r}, (World.writeEvent l purpose buf r).isUseOf link = true →
      l = link := by
    intro l purpose buf r he
    cases r <;> exact of_decide_eq_true he
  cases h with
  | read r => rw [← hread he]; exact hc
  | answer r => exact Or.inr (hread he).symm
  | bareRead r => exact Or.inr ((hread he).symm.trans (hs.final _ hc.1))
  | replay _ r | send r => exact Or.inr (hwrite he).symm
  | sendTo r => exact Or.inr ((hwrite he).symm.trans (hs.final _ hc))
  | bareWrite buf r => exact Or.inr ((hwrite he).symm.trans (hs.final _ hc.1))
  | bareShut half r => exact Or.inr ((of_decide_eq_true he).symm.trans (hs.final _ hc.1))
  | clear => rw [← of_decide_eq_true he]; exact hc
  | close | reshut | arm | shut => exact Or.inr (of_decide_eq_true he).symm
  | notice | dial | connect | dialFails => cases he

end Steps

end Redial.Stream

namespace Redial.StreamSession

open Redial.Stream

variable {rule : Rule} {setup : Setup} {m m' : Moment}

theorem Moment.Next.journal (hn : m.Next rule m') (h : Reachable rule setup m) :
    m.journal <:+ m'.journal := by
  rcases hn.split with ⟨action, machine, -, ha, rfl⟩ | ⟨k, c, s, p, hk, hstep, rfl⟩
  · obtain ⟨es, hes, -⟩ := ha.enters (P := fun _ => True)
    exact ⟨es, hes.symm⟩
  · obtain ⟨s₁, l, he, -, rfl⟩ := does_of_step hstep
    obtain ⟨es, hes, -⟩ := he.enters_possible h.sound
    refine ⟨es, ?_⟩
    show es ++ m.state.world.journal = (m.machine.advance k _ p).env.world.journal
    rw [Machine.env_advance]
    exact hes.symm

/-- What has been entered in the journal stays. -/
theorem Moment.Leads.journal (hl : m.Leads rule m') (h : Reachable rule setup m) :
    m.journal <:+ m'.journal := by
  refine Moment.Leads.keeps (P := fun m' => m.journal <:+ m'.journal) hl h (List.suffix_refl _) ?_
  intro m₁ m₂ h₁ hsuffix hn
  exact hsuffix.trans (hn.journal h₁)

end Redial.StreamSession
