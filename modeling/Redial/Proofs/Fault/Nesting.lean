import Redial.Fault.Basic

/-!
# Faults within faults

A failed step of the retry may have been caused by another one, and so on down to a plain fault. The
fault that a caller is given tells all of it: the kind of the root, the labels of the steps in front
of the text of the root, and, cause by cause, the steps themselves.
-/

namespace Redial

namespace Fault

/-- A root wrapped by failed steps, the outermost first. -/
def under (root : Fault) (steps : List RetryStep) : Fault :=
  steps.foldr (fun step cause => RetryFault.toFault ⟨step, cause⟩) root

/-- The failed step that a caller finds by looking through a fault and then through `n` causes. -/
def level? (f : Fault) : Nat → Option RetryFault
  | 0 => f.retryFault?
  | n + 1 => (f.level? n).bind fun outer => outer.cause.retryFault?

theorem root_eq_plain (f : Fault) : ∃ kind text, f.root = plain kind text := by
  induction f with
  | plain kind text => exact ⟨kind, text, rfl⟩
  | retry _ _ ih => exact ih

/-- A fault is its root wrapped by its steps. -/
theorem root_under_steps (f : Fault) : f.root.under f.steps = f := by
  induction f with
  | plain _ _ => rfl
  | retry step _ ih => exact congrArg (retry step) ih

theorem kind_root (f : Fault) : f.root.kind = f.kind := by
  induction f with
  | plain _ _ => rfl
  | retry _ _ ih => exact ih

/-- The text of a fault is that of its root after the labels of its steps. -/
theorem message_eq (f : Fault) :
    f.message = String.join (f.steps.map RetryStep.label) ++ f.root.message := by
  induction f with
  | plain kind text => exact String.empty_append.symm
  | retry step cause ih =>
    calc step.label ++ cause.message
      _ = step.label ++ (String.join (cause.steps.map RetryStep.label) ++ cause.root.message) := by
          rw [ih]
      _ = step.label ++ String.join (cause.steps.map RetryStep.label) ++ cause.root.message :=
          String.append_assoc.symm
      _ = String.join ((step :: cause.steps).map RetryStep.label) ++ cause.root.message := by
          rw [List.map_cons, String.join_cons]

theorem level?_plain (kind : FaultKind) (text : Option String) (n : Nat) :
    (plain kind text).level? n = none := by
  induction n with
  | zero => rfl
  | succ n ih =>
    unfold level?
    rw [ih]
    rfl

/-- Behind the outermost step, a caller finds what there is in its cause. -/
theorem level?_retry (step : RetryStep) (cause : Fault) (n : Nat) :
    (retry step cause).level? (n + 1) = cause.level? n := by
  induction n with
  | zero => rfl
  | succ n ih =>
    unfold level?
    rw [ih]

/-- At every level is the step of that number, around all that it wraps. -/
theorem level?_eq (f : Fault) (n : Nat) :
    f.level? n = f.steps[n]?.map fun step => ⟨step, f.root.under (f.steps.drop (n + 1))⟩ := by
  induction f generalizing n with
  | plain kind text => exact level?_plain kind text n
  | retry step cause ih =>
    cases n with
    | zero => exact congrArg (fun c => some (RetryFault.mk step c)) cause.root_under_steps.symm
    | succ n => exact (level?_retry step cause n).trans (ih n)

end Fault

/-- However deep a failed step wraps others, the fault made of it has the kind of the root, a text in
which each step has its words in front of what it wraps, and every step to be found in its turn. -/
theorem RetryFault.root_kept (f : RetryFault) :
    f = ⟨f.step, f.cause.root.under f.cause.steps⟩ ∧
    (∃ kind text, f.cause.root = .plain kind text ∧ f.toFault.kind = kind ∧
      f.toFault.message = String.join ((f.step :: f.cause.steps).map fun
        | .redial destination => "RetryDialFailed: " ++ destination.text ++ ": "
        | .replay replayed => "ReplayFailed: after " ++ toString replayed ++ " bytes: ") ++
          text.getD kind.text) ∧
    f.message = f.toFault.message ∧
    ∀ n, f.toFault.level? n = (f.step :: f.cause.steps)[n]?.map fun step =>
      ⟨step, f.cause.root.under (f.cause.steps.drop n)⟩ := by
  obtain ⟨kind, text, hroot⟩ := f.cause.root_eq_plain
  refine ⟨?_, ⟨kind, text, hroot, ?_, ?_⟩, rfl, f.toFault.level?_eq⟩
  · rw [Fault.root_under_steps]
  · have hkind := f.toFault.kind_root
    rw [show f.toFault.root = _ from hroot] at hkind
    exact hkind.symm
  · have hmessage := f.toFault.message_eq
    rw [show f.toFault.root = _ from hroot] at hmessage
    refine hmessage.trans (congrArg (String.join · ++ text.getD kind.text) ?_)
    exact List.map_congr_left fun step _ => by cases step <;> rfl

/-- A failed redial around a failed replay around a plain fault. -/
def RetryFault.nested : RetryFault where
  step := .redial (.v4 (.replicate 4 10) 443)
  cause := .retry (.replay 32) (.ofKind .brokenPipe)

theorem RetryFault.root_kept_two_deep :
    RetryFault.nested.toFault.kind = .brokenPipe ∧
    RetryFault.nested.message =
      "RetryDialFailed: 10.10.10.10:443: ReplayFailed: after 32 bytes: broken pipe" ∧
    RetryFault.nested.toFault.message = RetryFault.nested.message ∧
    RetryFault.nested.toFault.level? 0 = some RetryFault.nested ∧
    RetryFault.nested.toFault.level? 1 = some ⟨.replay 32, .ofKind .brokenPipe⟩ ∧
    RetryFault.nested.toFault.level? 2 = none := by
  obtain ⟨-, ⟨kind, text, hroot, hkind, hmessage⟩, hsame, hlevels⟩ := RetryFault.nested.root_kept
  cases hroot
  refine ⟨hkind, ?_, hsame.symm, hlevels 0, hlevels 1, hlevels 2⟩
  rw [hsame, hmessage]
  decide +kernel

end Redial
