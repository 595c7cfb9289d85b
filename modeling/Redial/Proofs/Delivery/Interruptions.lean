import Redial.Proofs.Delivery.Copies

/-!
# Interrupted copies

An interruption is a reason to try again. Both loops of a copy try a read of the source again, the
loop of the final connection tries its writes again, and a write that is interrupted while the
question is open is made again on the final connection. But the write that is made then, and every
other one on the final connection before the copy is handed over, ends the copy if it is interrupted
(`copy_aborted_iff`).
-/

namespace Redial

/-- Whether a write that came to an end took something or was merely interrupted. -/
def Event.isHarmless : Event → Bool
  | accepted _ _ bytes => !bytes.isEmpty
  | writeFailed _ _ _ f => f.isInterrupted
  | _ => true

/-- Interruptions never end a copy on a connection. -/
theorem BareCall.copy_succeeds {task : TaskId} {link : LinkId} {w w' : World} {copied : Nat}
    {source left : Source} {rest : Bytes} {r : Except Fault Nat}
    (h : (BareCall.copy copied source rest).step task link w = some (w', .done (.copied r left)))
    (hsource : ∀ f ∈ source.faults, f.isInterrupted = true)
    (hwrites : ∀ e ∈ w'.journal.attempts task, e.event.isHarmless = true) :
    ∃ total, r = .ok total := by
  have heffect := effect_of_step h
  generalize hp : Progress.done (κ := BareCall) (Outcome.copied r left) = p at heffect
  cases heffect with
  | pullsEnd =>
    cases hp
    exact ⟨_, rfl⟩
  | pullFault hpull hf =>
    cases Source.pulls_of_pull hpull (by decide) with
    | fails hmem =>
      rw [hsource _ hmem] at hf
      cases hf
  | @copies _ _ _ _ r' _ hw =>
    have hlast := hwrites _ (World.mem_attempts_write hw)
    unfold afterWrite at hp
    split at hp
    · cases hlast
    · cases hp
    · split at hp
      · cases hp
      · rename_i hf
        exact absurd hlast hf
  | pulls | pullInterrupted => cases hp

namespace Stream

section Steps

variable {k : TaskId} {s s₁ : State} {c : Call} {x : Copy} {source left : Source} {f : Fault}

/-- A write of a copy on the final connection does not end it but with a fault. -/
theorem Effect.fails_of_sendingTo {link : LinkId} {copied : Nat} {buf : Bytes}
    {r : Except Fault Nat} (h : Effect k s (.sendingTo link (.copy copied source) buf) s₁
      (.done (.copied r left))) : ∃ f, r = .error f := by
  generalize hp : Progress.done (κ := Call) (Outcome.copied r left) = p at h
  cases h with
  | passes h => cases h
  | @sendsTo _ _ _ _ r' =>
    cases r' with
    | error f =>
      cases hp
      exact ⟨f, rfl⟩
    | ok bytes =>
      by_cases hne : bytes = []
      · subst hne
        cases hp
        exact ⟨_, rfl⟩
      · obtain ⟨c', hgo, -⟩ := afterWrite_copy s k copied source buf hne
        rw [hgo] at hp
        cases hp

/-- If the source and the writes are merely interrupted, a copy fails in one way only: by a write on
the final connection before it is handed over. -/
theorem CopyStep.aborted (h : CopyStep k s c x s₁ (.done (.copied (.error f) left)))
    (hfaults : x.source.faults ⊆ source.faults)
    (hsource : ∀ f ∈ source.faults, f.isInterrupted = true)
    (hwrites : ∀ e ∈ s₁.world.journal.attempts k, e.event.isHarmless = true) :
    ∃ link, left = x.source ∧ c = .sendingTo link (.copy x.copied x.source) x.rest ∧
      f.isInterrupted = true ∧ s₁.world.journal.attempts k =
        ⟨s.world.now, .writeFailed link (.call k) x.rest f⟩ :: s.world.journal.attempts k := by
  cases h with
  | pullFails _ hpull hf =>
    cases hpull with
    | fails hmem =>
      rw [hsource _ (hfaults hmem)] at hf
      cases hf
  | stuck htried =>
    have hlast := hwrites _ htried
    cases hlast
  | @fails link w f hc hw hs =>
    subst hs
    have hlast := hwrites _ (World.mem_attempts_write hw)
    exact ⟨link, rfl, hc, hlast, World.attempts_write hw⟩
  | failsBare hf hw hs =>
    subst hs
    have hlast := hwrites _ (World.mem_attempts_write hw)
    cases hf.symm.trans hlast

end Steps

end Stream

namespace StreamSession

open Redial.Stream

/-- When all faults of the source and all faults of its writes are interruptions, and each accepted
write takes something, a copy that is done has sent all that its source yields, unless its last step
was a write of its own loop on the final connection: then this write was interrupted, and the copy
ended with the interruption. A copy on a connection without a stream always succeeds then, and so
does one that has been handed over. -/
theorem copy_aborted_iff {setup : Setup} {m : Moment} {k : TaskId} {source left : Source}
    {r : Except Fault Nat} (h : Reachable anything setup m)
    (hasked : m.actions[k]? = some (.call (.copy source)))
    (ho : (k, .copied r left) ∈ m.machine.finished)
    (hsource : ∀ f ∈ source.faults, f.isInterrupted = true)
    (hwrites : ∀ e ∈ m.journal.attempts k, e.event.isHarmless = true) :
    (∀ total, r = .ok total →
      total = source.content.length ∧ m.journal.sentBy k = source.content) ∧
    ((∃ f, r = .error f) ↔ ∃ link copied buf, m.EndedAt anything setup k (.copied r left)
      (.sendingTo link (.copy copied left) buf)) ∧
    (∀ f, r = .error f → f.isInterrupted = true ∧ ∃ t link buf earlier,
      m.journal.attempts k = ⟨t, .writeFailed link (.call k) buf f⟩ :: earlier) ∧
    ∀ task link w w' copied rest r' left',
      (BareCall.copy copied source rest).step task link w = some (w', .done (.copied r' left')) →
      (∀ e ∈ w'.journal.attempts task, e.event.isHarmless = true) → ∃ total, r' = .ok total := by
  obtain ⟨c, x, s, s₁, hat, hstep, haccounts, hlen, -, hsame⟩ := h.copy_ended hasked ho
  rw [← hsame] at hwrites
  have haborted : ∀ f, r = .error f → ∃ link, left = x.source ∧
      c = .sendingTo link (.copy x.copied x.source) x.rest ∧ f.isInterrupted = true ∧
      s₁.world.journal.attempts k =
        ⟨s.world.now, .writeFailed link (.call k) x.rest f⟩ :: s.world.journal.attempts k := by
    intro f hr
    subst hr
    exact hstep.aborted haccounts.faults hsource hwrites
  refine ⟨fun total hr => ?_, ⟨?_, ?_⟩, fun f hr => ?_, ?_⟩
  · subst hr
    obtain ⟨hsent, htotal, -⟩ := (copy_exact h hasked).2.2.1 total left ho
    exact ⟨htotal, hsent⟩
  · rintro ⟨f, hr⟩
    obtain ⟨link, hleft, hc, -⟩ := haborted f hr
    rw [hc, ← hleft] at hat
    exact ⟨link, x.copied, x.rest, hat⟩
  · rintro ⟨link, copied, buf, m₀, m₁, h₀, hk, hmove, ho₁, -⟩
    obtain ⟨d, s₂, l, hd, he, -⟩ := hmove.ends h₀ ho₁
    cases Machine.call_unique h₀.numbered.nodup hk hd
    exact he.fails_of_sendingTo
  · obtain ⟨link, -, -, hf, hattempts⟩ := haborted f hr
    exact ⟨hf, s.world.now, link, x.rest, _, hsame ▸ hattempts⟩
  · intro task link w w' copied rest r' left' hcopy hharmless
    exact BareCall.copy_succeeds hcopy hsource hharmless

/-- A session whose connection has an answer in store, and `writes`. -/
def interruptedSession (writes : List Acceptance) : Setup :=
  .localhost 1
    [dialledAtOnce { LinkScript.silent with
      reads := [⟨none, .data [9]⟩]
      writes := writes.map fun a => ⟨none, a⟩ }]

/-- The fault of a call that was merely interrupted. -/
abbrev interruption : Fault := .ofKind .interrupted

/-- Two pieces, with an interruption before each of them. -/
def interruptedSource : Source :=
  ⟨[⟨none, .fault interruption⟩, ⟨none, .data [1, 2]⟩, ⟨none, .fault interruption⟩,
    ⟨none, .data [3]⟩]⟩

/-- A copy is interrupted at the source in either loop, in its write while the question is open, and
in a write after it was handed over, and sends all bytes. -/
theorem copy_survives_interruptions : ∃ m left,
    Reachable anything
      (interruptedSession [.fault interruption, .usual, .fault interruption]) m ∧
    m.actions[0]? = some (.call (.copy interruptedSource)) ∧
    (0, .copied (.ok 3) left) ∈ m.machine.finished ∧
    m.journal.sentBy 0 = interruptedSource.content ∧
    (m.journal.attempts 0).length = 4 := by
  have hm : ∃ m, (interruptedSession [.fault interruption, .usual, .fault interruption]).played
      [.call (.copy interruptedSource), .call (.read 4)] = some m ∧
      m.actions[0]? = some (.call (.copy interruptedSource)) ∧
      (∃ t ∈ m.machine.finished, t.1 = 0 ∧ t.2.copyResult? = some (.ok 3)) ∧
      (∀ f ∈ interruptedSource.faults, f.isInterrupted = true) ∧
      (∀ e ∈ m.journal.attempts 0, e.event.isHarmless = true) ∧
      (m.journal.attempts 0).length = 4 := by
    refine ⟨_, rfl, ?_, ?_, ?_, ?_, ?_⟩
    · decide +kernel
    · decide +kernel
    · decide +kernel
    · decide +kernel
    · decide +kernel
  obtain ⟨m, hplayed, hasked, ⟨⟨_, o⟩, ho, rfl, htotal⟩, hsource, hwrites, hlen⟩ := hm
  obtain ⟨left, rfl⟩ := Outcome.eq_copied htotal
  have h := reachable_of_played (Setup.keeps_anything _ _) hplayed
  obtain ⟨hok, -⟩ := copy_aborted_iff h hasked ho hsource hwrites
  exact ⟨m, left, h, hasked, ho, (hok 3 rfl).2, hlen⟩

/-- The write of a copy is interrupted while the question is open, and once more when it is made
again after the settlement. No half has been shut, and no retry was needed. -/
theorem copy_aborted_by_second_interruption : ∃ m f left,
    Reachable anything (interruptedSession [.fault interruption, .fault interruption]) m ∧
    m.actions[0]? = some (.call (.copy ⟨[⟨none, .data [1]⟩]⟩)) ∧
    (∀ e ∈ m.journal, e.event.isHarmless = true) ∧
    m.state.memory.retried = false ∧ (∀ half, m.state.askedShut half = false) ∧
    (0, .copied (.error f) left) ∈ m.machine.finished ∧ f.isInterrupted = true ∧
    m.journal.sentBy 0 = [] ∧ Source.content ⟨[⟨none, .data [1]⟩]⟩ = [1] := by
  have hm : ∃ m, (interruptedSession [.fault interruption, .fault interruption]).played
      [.call (.copy ⟨[⟨none, .data [1]⟩]⟩), .call (.read 4)] = some m ∧
      m.actions[0]? = some (.call (.copy ⟨[⟨none, .data [1]⟩]⟩)) ∧
      (∃ t ∈ m.machine.finished, t.1 = 0 ∧ t.2.copyResult? = some (.error interruption)) ∧
      (∀ e ∈ m.journal, e.event.isHarmless = true) ∧ m.state.memory.retried = false ∧
      m.state.memory.readShut = false ∧ m.state.memory.writeShut = false ∧
      m.journal.sentBy 0 = [] := by
    refine ⟨_, rfl, ?_, ?_, ?_, ?_, ?_, ?_, ?_⟩
    · decide +kernel
    · decide +kernel
    · decide +kernel
    · decide +kernel
    · decide +kernel
    · decide +kernel
    · decide +kernel
  obtain ⟨m, hplayed, hasked, ⟨⟨_, o⟩, ho, rfl, hfault⟩, hharmless, hretried, hread, hwrite,
    hsent⟩ := hm
  obtain ⟨left, rfl⟩ := Outcome.eq_copied hfault
  refine ⟨m, interruption, left, reachable_of_played (Setup.keeps_anything _ _) hplayed, hasked,
    hharmless, hretried, fun half => ?_, ho, rfl, hsent, rfl⟩
  cases half with
  | read => exact hread
  | write => exact hwrite

end StreamSession

end Redial
