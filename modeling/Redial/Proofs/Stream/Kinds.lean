import Redial.Proofs.Stream.Places

/-!
# What calls are for

A call is a read, a write or a request to shut a half, and it stays what it is until it is done. So
each unfinished call is for what was asked for in the step that started it
(`Reachable.requested`).
-/

namespace Redial

/-- What a call is for. -/
inductive Kind where
  | read
  | write
  | shut (half : Half)
  deriving DecidableEq

/-- Whether a call is for a read. -/
def Kind.isRead : Kind → Bool
  | read => true
  | _ => false

theorem Kind.eq_read_of_isRead {kind : Kind} (h : kind.isRead = true) : kind = .read := by
  cases kind with
  | read => rfl
  | _ => cases h

/-- What a request is for. -/
def Request.kind : Request → Kind
  | read _ => .read
  | shut half => .shut half
  | _ => .write

/-- What a call on a connection is for. -/
def BareCall.kind : BareCall → Kind
  | read _ => .read
  | shut half => .shut half
  | _ => .write

theorem BareCall.Effect.kind {task : TaskId} {i : LinkId} {w w' : World} {call call' : BareCall}
    {p : Progress BareCall Outcome} (h : BareCall.Effect task i w call w' p)
    (hp : p = .goesOn call') : call'.kind = call.kind := by
  cases h with
  | writesAll | copies =>
    unfold BareCall.afterWrite at hp
    split at hp
    · cases hp
    · cases hp
      rfl
    · split at hp
      · cases hp
        rfl
      · cases hp
  | pulls | pullInterrupted =>
    cases hp
    rfl
  | _ => cases hp

namespace Stream

/-- What an errand is part of. -/
def Errand.kind : Errand → Kind
  | locate _ => .read
  | confirmEnd => .read
  | judge .. => .read
  | send .. => .write
  | shut half => .shut half

/-- What a call is for, at whatever place. -/
def Call.kind : Call → Kind
  | start request => request.kind
  | queued errand => errand.kind
  | reading .. => .read
  | redialling .. => .read
  | replaying .. => .read
  | reshutting .. => .read
  | answering _ => .read
  | shutting half => .shut half
  | bare _ call => call.kind
  | _ => .write

/-- Whether a call is a read. -/
def Call.isRead (c : Call) : Bool := c.kind.isRead

section Steps

variable {k : TaskId} {s s₁ : State} {c c' : Call} {p : Progress Call Outcome}

theorem Resumes.kind (h : Resumes s c) : c.kind = .write := by
  cases h <;> rfl

theorem Passes.kind (h : Passes k s c p) (hp : p = .goesOn c') : c'.kind = c.kind := by
  cases h with
  | beginWrite | beginWriteAll | pullPiece => exact (resumes_offer hp).kind
  | emptyWrite | emptyWriteAll | confirmEnd | bringLate | pullEnd | pullFault => cases hp
  | @replayed len cut =>
    rcases afterReplay_cases s len with ⟨-, ha⟩ | ⟨-, ha⟩
    · rw [ha] at hp
      cases hp
      rfl
    · rw [ha] at hp
      cases writeHalfNext_of_reshutWrite hp <;> rfl
  | _ =>
    cases hp
    rfl

theorem Effect.kind (h : Effect k s c s₁ p) (hp : p = .goesOn c') : c'.kind = c.kind := by
  cases h with
  | passes h => exact h.kind hp
  | @reads link len w r =>
    rcases afterReading_cases s k link len r with ⟨-, ha⟩ | ⟨-, -, ha⟩ | ⟨-, -, ha⟩
    · rw [ha] at hp
      cases hp
      rfl
    · rw [ha] at hp
      cases hp
    · rw [ha] at hp
      cases hp
      rfl
  | reshutsRead => cases writeHalfNext_of_reshutWrite hp <;> rfl
  | sends | sendsTo => exact (resumes_afterWrite hp).kind
  | @bare link call w p' hw =>
    cases p' with
    | done o => cases hp
    | goesOn call' =>
      cases hp
      exact (BareCall.effect_of_step hw).kind rfl
  | retries | redials | replays | replayInterrupted | reshutsWrite | asksShut | sendFails =>
    cases hp
    rfl
  | _ => cases hp

theorem Effect.isRead (h : Effect k s c s₁ p) (hp : p = .goesOn c') : c'.isRead = c.isRead :=
  congrArg Kind.isRead (h.kind hp)

end Steps

end Stream

namespace StreamSession

open Redial.Stream

variable {rule : Rule} {setup : Setup} {m : Moment}

/-- Whether a step of the session started a call of a kind. -/
def Moment.Requested (m : Moment) (k : TaskId) (kind : Kind) : Prop :=
  ∃ request : Request, m.actions[k]? = some (.call request) ∧ request.kind = kind

theorem Moment.Requested.act {k : TaskId} {kind : Kind} (h : m.Requested k kind)
    (action : Session.Action) (machine : StreamMachine) :
    Moment.Requested ⟨m.actions ++ [action], machine⟩ k kind := by
  obtain ⟨request, hk, hkind⟩ := h
  have hlt : k < m.actions.length := (List.getElem?_eq_some_iff.mp hk).1
  exact ⟨request, (List.getElem?_append_left hlt).trans hk, hkind⟩

/-- Each unfinished call is of the kind that was asked for. -/
theorem Reachable.requested (h : Reachable rule setup m) {k : TaskId} {c : Call}
    (ht : ⟨k, c⟩ ∈ m.machine.tasks) : m.Requested k c.kind := by
  refine Reachable.induction
    (P := fun m => ∀ k c, ⟨k, c⟩ ∈ m.machine.tasks → m.Requested k (Call.kind c)) h ?_ ?_ k c ht
  · intro s _ k c ht
    exact absurd ht List.not_mem_nil
  · intro m m' _ ih hn j d hj
    rcases hn.split with ⟨action, machine, -, ha, rfl⟩ | ⟨k, c, s, p, hk, hstep, rfl⟩
    · rcases ha.mem_tasks hj with hj | ⟨request, rfl, rfl, rfl⟩
      · exact (ih j d hj).act action machine
      · exact ⟨request, List.getElem?_concat_length, rfl⟩
    · obtain ⟨s₁, l, he, -, rfl⟩ := does_of_step hstep
      rcases Machine.mem_advance hj with ⟨c', hgo, hc'⟩ | ⟨hj, -⟩
      · cases hc'
        rw [he.kind hgo]
        exact ih _ c hk
      · exact ih j d hj

end StreamSession

end Redial
