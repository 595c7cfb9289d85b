import Redial.Proofs.Stream.Attempts
import Redial.Proofs.Wire.Acceptance
import Redial.Proofs.Wire.Sources

/-!
# Copies

A copy has the same three things at each of its places: the number of bytes that it has written, the
source before it, and what it has taken from the source and not yet written (`Copy`). While the
question is open it looks and pulls on its own and writes as single writes do; once the question is
settled, it is handed over to the loop of the final connection. `CopyStep` lists all that one step
of a copy can do, in either loop and at the hand-over (`Effect.copies`).
-/

namespace Redial

namespace Journal

/-- The bytes of the call of a task that connections have accepted. -/
def sentBy (j : Journal) (k : TaskId) : Bytes := (j.attempts k).acknowledged

theorem sentBy_congr {j j' : Journal} {k : TaskId} (h : j'.attempts k = j.attempts k) :
    j'.sentBy k = j.sentBy k := congrArg acknowledged h

end Journal

namespace World

variable {w w' : World} {i : LinkId} {k : TaskId} {buf : Bytes}

theorem sentBy_write {bytes : Bytes} (h : w.write i (.call k) buf = some (w', .ok bytes)) :
    w'.journal.sentBy k = w.journal.sentBy k ++ bytes := by
  unfold Journal.sentBy
  rw [attempts_write h]
  exact Journal.acknowledged_cons _ _

theorem sentBy_writeFailed {f : Fault} (h : w.write i (.call k) buf = some (w', .error f)) :
    w'.journal.sentBy k = w.journal.sentBy k := by
  unfold Journal.sentBy
  rw [attempts_write h]
  exact (Journal.acknowledged_cons _ _).trans (List.append_nil _)

theorem sentBy_of_enters (h : w.Enters (·.isAttempt = false) w') (k : TaskId) :
    w'.journal.sentBy k = w.journal.sentBy k := Journal.sentBy_congr (attempts_of_enters h k)

/-- A write that has come to an end is among the attempts of its call. -/
theorem mem_attempts_write {r : Except Fault Bytes} (h : w.write i (.call k) buf = some (w', r)) :
    ⟨w.now, writeEvent i (.call k) buf r⟩ ∈ w'.journal.attempts k := by
  rw [attempts_write h]
  exact List.mem_cons_self

theorem write_isPrefix {purpose : Purpose} {bytes : Bytes}
    (h : w.write i purpose buf = some (w', .ok bytes)) : bytes <+: buf := by
  obtain ⟨l, l', -, hl, -⟩ := write_eq_some h
  exact Link.write_isPrefix hl

end World

/-- What a copy has done, and what it has before it. -/
structure Copy where
  /-- How many bytes it has written. -/
  copied : Nat
  /-- The source. -/
  source : Source
  /-- What it has taken from the source and not yet written. -/
  rest : Bytes

/-- The copy that a call on a connection makes. -/
def BareCall.copy? : BareCall → Option Copy
  | copy copied source rest => some ⟨copied, source, rest⟩
  | _ => none

namespace Stream

/-- The copy that a write of `buf` is part of. -/
def Goal.copy? (buf : Bytes) : Goal → Option Copy
  | copy copied source => some ⟨copied, source, buf⟩
  | _ => none

/-- The copy that a call on a stream makes. -/
def Call.copy? : Call → Option Copy
  | start (.copy source) => some ⟨0, source, []⟩
  | queued (.send goal buf) => goal.copy? buf
  | sending goal buf => goal.copy? buf
  | awaiting goal buf _ => goal.copy? buf
  | sendingTo _ goal buf => goal.copy? buf
  | looking copied source => some ⟨copied, source, []⟩
  | pulling copied source => some ⟨copied, source, []⟩
  | bare _ call => call.copy?
  | _ => none

/-- Whether a call has been handed over to the final connection. -/
def Call.isHandedOver : Call → Bool
  | bare .. => true
  | _ => false

/-- How many bytes a copy takes from its source at a time, if it takes `chunkLen` before it is
handed over. -/
def Call.pieceLen (chunkLen : Nat) (c : Call) : Nat := if c.isHandedOver then copyLen else chunkLen

/-- What one step of a copy does. -/
inductive CopyStep (k : TaskId) (s : State) (c : Call) (x : Copy) (s₁ : State) :
    Progress Call Outcome → Prop where
  /-- It goes to another place with what it has. -/
  | stays {c'} (hx : c'.copy? = some x)
      (hlen : x.rest = [] ∨ c'.pieceLen s.terms.chunkLen = c.pieceLen s.terms.chunkLen)
      (hsent : s₁.world.journal.sentBy k = s.world.journal.sentBy k) :
      CopyStep k s c x s₁ (.goesOn c')
  /-- The source yields a piece. -/
  | takes {c' source piece} (hrest : x.rest = []) (hpiece : piece ≠ [])
      (hpull : x.source.Pulls (c.pieceLen s.terms.chunkLen) source (.ok piece))
      (hx : c'.copy? = some ⟨x.copied, source, piece⟩)
      (hlen : c'.pieceLen s.terms.chunkLen = c.pieceLen s.terms.chunkLen)
      (hsent : s₁.world.journal.sentBy k = s.world.journal.sentBy k) :
      CopyStep k s c x s₁ (.goesOn c')
  /-- A read of the source is interrupted. -/
  | interrupted {c' source f} (hrest : x.rest = [])
      (hpull : x.source.Pulls (c.pieceLen s.terms.chunkLen) source (.error f))
      (hx : c'.copy? = some ⟨x.copied, source, []⟩)
      (hsent : s₁.world.journal.sentBy k = s.world.journal.sentBy k) :
      CopyStep k s c x s₁ (.goesOn c')
  /-- A write is accepted, in part or as a whole. -/
  | writes {c' bytes} (hpre : bytes <+: x.rest)
      (hx : c'.copy? = some ⟨x.copied + bytes.length, x.source, x.rest.drop bytes.length⟩)
      (hlen : c'.pieceLen s.terms.chunkLen = c.pieceLen s.terms.chunkLen)
      (hsent : s₁.world.journal.sentBy k = s.world.journal.sentBy k ++ bytes) :
      CopyStep k s c x s₁ (.goesOn c')
  /-- The source comes to its end. -/
  | ends {source} (hrest : x.rest = [])
      (hpull : x.source.Pulls (c.pieceLen s.terms.chunkLen) source (.ok []))
      (hsent : s₁.world.journal.sentBy k = s.world.journal.sentBy k) :
      CopyStep k s c x s₁ (.done (.copied (.ok x.copied) source))
  /-- A read of the source fails for good. -/
  | pullFails {source f} (hrest : x.rest = [])
      (hpull : x.source.Pulls (c.pieceLen s.terms.chunkLen) source (.error f))
      (hf : f.isInterrupted = false)
      (hsent : s₁.world.journal.sentBy k = s.world.journal.sentBy k) :
      CopyStep k s c x s₁ (.done (.copied (.error f) source))
  /-- A write takes nothing. -/
  | stuck {link} (htried : ⟨s.world.now, .accepted link (.call k) []⟩ ∈ s₁.world.journal.attempts k)
      (hsent : s₁.world.journal.sentBy k = s.world.journal.sentBy k) :
      CopyStep k s c x s₁ (.done (.copied (.error .writeZero) x.source))
  /-- A write on the final connection fails. -/
  | fails {link w f} (hc : c = .sendingTo link (.copy x.copied x.source) x.rest)
      (hw : s.world.write link (.call k) x.rest = some (w, .error f)) (hs : s₁ = s.withWorld w) :
      CopyStep k s c x s₁ (.done (.copied (.error f) x.source))
  /-- A write of the loop of the final connection fails for good. -/
  | failsBare {link w f} (hf : f.isInterrupted = false)
      (hw : s.world.write link (.call k) x.rest = some (w, .error f)) (hs : s₁ = s.withWorld w) :
      CopyStep k s c x s₁ (.done (.copied (.error f) x.source))

section Steps

variable {k : TaskId} {s s₁ : State} {c c' : Call} {p : Progress Call Outcome} {x : Copy}
  {copied : Nat} {source : Source} {buf : Bytes}

/-! ## Writes of a copy -/

theorem copy?_offer {goal : Goal} (h : (offer s k goal buf).2 = .goesOn c') :
    c'.copy? = goal.copy? buf ∧ c'.isHandedOver = false := by
  rcases offer_cases s k goal buf with ⟨link, -, ho⟩ | ⟨-, ho⟩
  · rw [ho] at h
    cases h
    exact ⟨rfl, rfl⟩
  · rw [ho] at h
    cases h
    exact ⟨rfl, rfl⟩

/-- A copy goes on with what a write has left. -/
theorem afterWrite_copy (s : State) (k : TaskId) (copied : Nat) (source : Source) (buf : Bytes)
    {bytes : Bytes} (hne : bytes ≠ []) :
    ∃ c', (afterWrite s k buf (.ok bytes) (.copy copied source)).2 = .goesOn c' ∧
      c'.copy? = some ⟨copied + bytes.length, source, buf.drop bytes.length⟩ ∧
      c'.isHandedOver = false := by
  obtain ⟨b, bs, rfl⟩ := List.exists_cons_of_ne_nil hne
  unfold afterWrite
  dsimp only
  split
  · rename_i hdrop
    exact ⟨_, rfl, congrArg (fun rest => some (Copy.mk _ source rest)) hdrop.symm, rfl⟩
  · obtain ⟨c', hgo⟩ := offer_goesOn s k (.copy (copied + (b :: bs).length) source)
      (buf.drop (b :: bs).length)
    obtain ⟨hx, hover⟩ := copy?_offer hgo
    exact ⟨c', hgo, hx, hover⟩

theorem pieceLen_of_not_handedOver (h : c.isHandedOver = false) (chunkLen : Nat) :
    c.pieceLen chunkLen = chunkLen := if_neg (by rw [h]; exact Bool.false_ne_true)

/-- What a copy does after a write that was accepted while it had not been handed over. -/
theorem CopyStep.of_accepted {link : LinkId} {bytes : Bytes} {w : World}
    (hover : c.isHandedOver = false)
    (hw : s.world.write link (.call k) buf = some (w, .ok bytes))
    (hrest : w.Enters (·.isAttempt = false) s₁.world) :
    CopyStep k s c ⟨copied, source, buf⟩ s₁
      (afterWrite s k buf (.ok bytes) (.copy copied source)).2 := by
  have hsent : s₁.world.journal.sentBy k = s.world.journal.sentBy k ++ bytes :=
    (World.sentBy_of_enters hrest k).trans (World.sentBy_write hw)
  by_cases hne : bytes = []
  · subst hne
    rw [List.append_nil] at hsent
    have htried : ⟨s.world.now, .accepted link (.call k) []⟩ ∈ s₁.world.journal.attempts k := by
      rw [World.attempts_of_enters hrest]
      exact World.mem_attempts_write hw
    exact .stuck htried hsent
  · obtain ⟨c', hgo, hx, hover'⟩ := afterWrite_copy s k copied source buf hne
    rw [hgo]
    refine .writes (World.write_isPrefix hw) hx ?_ hsent
    rw [pieceLen_of_not_handedOver hover, pieceLen_of_not_handedOver hover']

/-! ## Steps of a copy -/

theorem Passes.copies (h : Passes k s c p) (hx : c.copy? = some x)
    (hlen : 0 < s.terms.chunkLen) : CopyStep k s c x s p := by
  cases h with
  | beginCopy | lookOpen =>
    cases hx
    exact .stays rfl (Or.inl rfl) rfl
  | lookDecided =>
    cases hx
    exact .stays rfl (Or.inl rfl) rfl
  | sendFinal | beginSending | goOnWaiting | released => exact .stays hx (Or.inr rfl) rfl
  | pullEnd hp =>
    cases hx
    exact .ends rfl (Source.pulls_of_pull hp hlen) rfl
  | pullPiece hp hpiece =>
    cases hx
    obtain ⟨c', hgo⟩ := offer_goesOn s k _ _
    obtain ⟨hx', hover⟩ := copy?_offer hgo
    rw [hgo]
    exact .takes rfl hpiece (Source.pulls_of_pull hp hlen) hx' (pieceLen_of_not_handedOver hover _)
      rfl
  | pullInterrupted hp =>
    cases hx
    exact .interrupted rfl (Source.pulls_of_pull hp hlen) rfl rfl
  | pullFault hp hf =>
    cases hx
    exact .pullFails rfl (Source.pulls_of_pull hp hlen) hf rfl
  | _ => cases hx

/-- The loop of the final connection goes on with the copy as it has been handed over. -/
theorem copies_bare {link : LinkId} {call : BareCall} {w : World} {p : Progress BareCall Outcome}
    (h : BareCall.Effect k link s.world call w p) (hx : call.copy? = some x) :
    CopyStep k s (.bare link call) x (s.withWorld w) (bareProgress link p) := by
  have hlen : 0 < copyLen := by decide
  cases h with
  | pullsEnd hp =>
    cases hx
    exact .ends rfl (Source.pulls_of_pull hp hlen) rfl
  | pulls hp hpiece =>
    cases hx
    exact .takes rfl hpiece (Source.pulls_of_pull hp hlen) rfl rfl rfl
  | pullInterrupted hp =>
    cases hx
    exact .interrupted rfl (Source.pulls_of_pull hp hlen) rfl rfl
  | pullFault hp hf =>
    cases hx
    exact .pullFails rfl (Source.pulls_of_pull hp hlen) hf rfl
  | @copies copied source rest w r hrest hw =>
    cases hx
    unfold BareCall.afterWrite
    split
    · have hsent := World.sentBy_write hw
      rw [List.append_nil] at hsent
      exact .stuck (World.mem_attempts_write hw) hsent
    · exact .writes (World.write_isPrefix hw) rfl rfl (World.sentBy_write hw)
    · rename_i f
      split
      · refine .stays ?_ (Or.inr rfl) (World.sentBy_writeFailed hw)
        rfl
      · rename_i hf
        exact .failsBare (Bool.not_eq_true _ ▸ hf) hw rfl
  | _ => cases hx

/-- All that one step of a copy can do. -/
theorem Effect.copies (h : Effect k s c s₁ p) (hx : c.copy? = some x)
    (hlen : 0 < s.terms.chunkLen) : CopyStep k s c x s₁ p := by
  cases h with
  | passes h => exact h.copies hx hlen
  | @sends goal buf w bytes hw =>
    cases goal with
    | copy copied source =>
      cases hx
      exact .of_accepted rfl hw (.setDeadline rfl)
    | _ => cases hx
  | @sendFails goal buf w f hw =>
    have hentered : w.Enters (·.isAttempt = false)
        ((w.setDeadline s.memory.current (s.withWorld w).replyDeadline).note (.writeFailed f)) :=
      World.Enters.trans (.setDeadline rfl) (.note rfl)
    have hsent := (World.sentBy_of_enters hentered k).trans (World.sentBy_writeFailed hw)
    exact .stays hx (Or.inr rfl) hsent
  | @sendsTo link goal buf w r hw =>
    cases goal with
    | copy copied source =>
      cases hx
      cases r with
      | ok bytes => exact .of_accepted rfl hw (.refl _)
      | error f => exact .fails rfl hw rfl
    | _ => cases hx
  | bare hw => exact copies_bare (BareCall.effect_of_step hw) hx
  | _ => cases hx

end Steps

end Stream

end Redial
