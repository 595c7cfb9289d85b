import Mathlib.Data.List.TakeWhile
import Redial.Proofs.Wire.Calls

/-!
# How a connection is used

The *uses* of a connection are the calls on it that came to an end, in order. A replay of a hello
that has been cut at a place keeps to the cut (`Journal.KeepsCut`) if none of its writes carries
bytes from both sides of the place. A connection is *begun* in pieces (`Journal.BegunInPieces`) if
the writes that it accepted before it was used in any other way than by the replay make up the one
side of the hello, and then the other.
-/

namespace Redial

namespace Event

/-- The bytes that a write of the replay carried: those that were accepted, or those that were
offered if it failed. -/
def replayed? : Event → Option Bytes
  | accepted _ (.replay _) bytes => some bytes
  | writeFailed _ (.replay _) offered _ => some offered
  | _ => none

/-- Whether a write of the replay came to an end. -/
def isReplay (e : Event) : Bool := e.replayed?.isSome

/-- Whether a call on a connection came to an end. -/
def isUseOf (link : LinkId) : Event → Bool
  | accepted l _ _ => l = link
  | writeFailed l _ _ _ => l = link
  | delivered l _ _ => l = link
  | readFailed l _ _ => l = link
  | deadline l _ => l = link
  | shut l _ _ => l = link
  | closed l _ => l = link
  | _ => false

/-- An event that is a use of a connection. -/
def useOf? (link : LinkId) (e : Event) : Option Event := if e.isUseOf link then some e else none

/-- A connection is used by whatever it accepts. -/
theorem useOf?_bind_acceptedBy? (e : Event) (link : LinkId) :
    (e.useOf? link).bind (acceptedBy? link) = e.acceptedBy? link := by
  unfold useOf?
  cases hu : e.isUseOf link with
  | true => rfl
  | false =>
    cases e with
    | accepted l purpose bytes =>
      have hl : l ≠ link := of_decide_eq_false hu
      exact (if_neg hl).symm
    | _ => rfl

end Event

/-- A write carries `bytes` of a hello from position `pos` on, and none from both sides of
`place`. -/
structure OneSided (hello : Bytes) (place pos : Nat) (bytes : Bytes) : Prop where
  within : pos < hello.length
  carries : bytes <+: hello.drop pos
  side : pos + bytes.length ≤ place ∨ place ≤ pos

/-- The front of what a write offers is on the same side. -/
theorem OneSided.of_prefix {hello bytes bytes' : Bytes} {place pos : Nat}
    (h : OneSided hello place pos bytes) (hb : bytes' <+: bytes) :
    OneSided hello place pos bytes' := by
  refine ⟨h.within, hb.trans h.carries, ?_⟩
  rcases h.side with hside | hside
  · exact Or.inl (Nat.le_trans (Nat.add_le_add_left hb.length_le pos) hside)
  · exact Or.inr hside

/-- What is left of the first side of a hello is on one side. -/
theorem OneSided.ofFirst {hello sent rest : Bytes} {place : Nat} (hrest : rest ≠ [])
    (h : sent ++ rest = hello.take place) : OneSided hello place sent.length rest := by
  have hlen := congrArg List.length h
  have hpos := List.length_pos_iff.mpr hrest
  rw [List.length_append, List.length_take] at hlen
  refine ⟨by omega, ?_, Or.inl (by omega)⟩
  have hall : sent ++ (rest ++ hello.drop place) = hello := by
    rw [← List.append_assoc, h, List.take_append_drop]
  have hdrop : hello.drop sent.length = rest ++ hello.drop place :=
    (congrArg (List.drop sent.length) hall).symm.trans List.drop_left
  rw [hdrop]
  exact List.prefix_append _ _

/-- What is left of the second side of a hello is on one side. -/
theorem OneSided.ofSecond {hello firsts sent rest : Bytes} {place : Nat} (hrest : rest ≠ [])
    (hplace : place ≤ hello.length) (hf : firsts = hello.take place)
    (h : sent ++ rest = hello.drop place) :
    OneSided hello place (firsts ++ sent).length rest := by
  have hlen := congrArg List.length h
  have hpos := List.length_pos_iff.mpr hrest
  rw [List.length_append, List.length_drop] at hlen
  rw [List.length_append, hf, List.length_take, Nat.min_eq_left hplace]
  have hdrop : hello.drop (place + sent.length) = rest := by
    rw [← List.drop_drop, ← h, List.drop_left]
  exact ⟨by omega, ⟨[], by rw [List.append_nil, hdrop]⟩, Or.inr (by omega)⟩

namespace Journal

/-- The calls on a connection that came to an end, in order. -/
def uses (j : Journal) (link : LinkId) : List Event := j.findings (Event.useOf? link)

/-- The writes that a connection accepted before it was used in any other way than by the replay. -/
def beginnings (j : Journal) (link : LinkId) : List Bytes :=
  ((j.uses link).takeWhile Event.isReplay).filterMap (Event.acceptedBy? link)

/-- Each write of the replay carries bytes of the hello from one side of `place` only, from where
the connection has got to. -/
def KeepsCut (hello : Bytes) (place : Nat) (link : LinkId) : Journal → Prop
  | [] => True
  | e :: j => (∀ bytes, e.event.replayed? = some bytes →
      OneSided hello place (bytesAccepted j link).length bytes) ∧ KeepsCut hello place link j

/-- The writes that a connection accepted at first make up the one side of the hello and then the
other, and each of them takes something. -/
def BegunInPieces (hello : Bytes) (place : Nat) (link : LinkId) (j : Journal) : Prop :=
  ∃ firsts seconds, j.beginnings link = firsts ++ seconds ∧
    firsts.flatten = hello.take place ∧ seconds.flatten = hello.drop place ∧
    ∀ bytes ∈ firsts ++ seconds, bytes ≠ []

variable {hello : Bytes} {place : Nat} {link : LinkId} {j : Journal}

theorem uses_cons (e : Entered) (j : Journal) (link : LinkId) :
    uses (e :: j) link = j.uses link ++ (e.event.useOf? link).toList := findings_cons e j _

/-- The writes that a connection accepted are among its uses. -/
theorem filterMap_uses (j : Journal) (link : LinkId) :
    (j.uses link).filterMap (Event.acceptedBy? link) = j.writes link := by
  unfold uses writes findings
  rw [List.filterMap_reverse, List.filterMap_filterMap]
  simp only [Event.useOf?_bind_acceptedBy?]

/-- As long as only the replay has used a connection, its beginnings are all that it accepted. -/
theorem beginnings_of_all (h : ∀ e ∈ j.uses link, e.isReplay = true) :
    j.beginnings link = j.writes link := by
  unfold beginnings
  rw [List.takeWhile_eq_self_iff.mpr h, filterMap_uses]

/-- Once the replay is over, nothing changes the beginnings of a connection. -/
theorem beginnings_append {es : Journal} (h : ∀ e ∈ es, e.event.isReplay = false) :
    beginnings (es ++ j) link = j.beginnings link := by
  induction es with
  | nil => rfl
  | cons e es ih =>
    have hrest := ih fun d hd => h d (List.mem_cons_of_mem e hd)
    rw [← hrest]
    unfold beginnings
    rw [List.cons_append, uses_cons, List.takeWhile_append]
    split
    · -- The new use, if it is one, is not by the replay.
      have hnone : (e.event.useOf? link).toList.takeWhile Event.isReplay = [] := by
        unfold Event.useOf?
        split
        · refine List.takeWhile_cons_of_neg ?_
          rw [h e List.mem_cons_self]
          exact Bool.false_ne_true
        · rfl
      rename_i hall
      rw [hnone, List.append_nil]
      exact congrArg _ ((List.takeWhile_prefix _).eq_of_length hall).symm
    · rfl

theorem keepsCut_append {es : Journal} (h : ∀ e ∈ es, e.event.isReplay = false)
    (hj : j.KeepsCut hello place link) : KeepsCut hello place link (es ++ j) := by
  induction es with
  | nil => exact hj
  | cons e es ih =>
    refine ⟨fun bytes hb => ?_, ih fun d hd => h d (List.mem_cons_of_mem e hd)⟩
    have hnone := h e List.mem_cons_self
    unfold Event.isReplay at hnone
    rw [hb] at hnone
    cases hnone

/-- What holds of the writes of the replay holds of each of them, wherever it is in the journal. -/
theorem KeepsCut.oneSided (h : j.KeepsCut hello place link) {later earlier : Journal} {e : Entered}
    (hj : j = later ++ e :: earlier) {bytes : Bytes} (hb : e.event.replayed? = some bytes) :
    OneSided hello place (earlier.bytesAccepted link).length bytes := by
  induction later generalizing j with
  | nil =>
    subst hj
    exact h.1 bytes hb
  | cons d later ih =>
    subst hj
    exact ih h.2 rfl

/-- Nothing of an empty hello is replayed. -/
theorem KeepsCut.nothing (h : j.KeepsCut [] place link) : ∀ e ∈ j, e.event.isReplay = false := by
  induction j with
  | nil => exact fun e he => absurd he List.not_mem_nil
  | cons d j ih =>
    intro e he
    rcases List.mem_cons.mp he with rfl | he
    · cases hb : e.event.replayed? with
      | none =>
        unfold Event.isReplay
        rw [hb]
        rfl
      | some bytes => exact absurd (h.1 bytes hb).within (Nat.not_lt_zero _)
    · exact ih h.2 e he

theorem BegunInPieces.append {es : Journal} (h : ∀ e ∈ es, e.event.isReplay = false)
    (hj : j.BegunInPieces hello place link) : BegunInPieces hello place link (es ++ j) := by
  obtain ⟨firsts, seconds, hb, hf, hs, hne⟩ := hj
  exact ⟨firsts, seconds, (beginnings_append h).trans hb, hf, hs, hne⟩

end Journal

end Redial
