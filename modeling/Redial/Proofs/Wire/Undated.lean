import Redial.Proofs.Wire.Deadlines
import Redial.Proofs.Wire.Trace
import Redial.Session.Action

/-!
# Connections without a deadline

A connection from which the deadline of its reads is taken away does the same, except that no read
gives up waiting (`Link.read_eq_undated`). So two worlds with one connection each, of which the one
is the other without the deadline, go through the same calls on it with the same results
(`World.Mirrors`), however their clocks go.
-/

namespace Redial

namespace Link

variable {l l' : Link} {now now' : Instant} {opened : List Gate} {len : Nat}

/-- The connection without the deadline of its reads. -/
def undated (l : Link) : Link := { l with deadline := none }

/-- A read meets what it would meet without the deadline, and where it would wait it looks at the
deadline. -/
theorem read_eq_undated (l : Link) (now now' : Instant) (opened : List Gate) (len : Nat) :
    l.read now opened len = match l.undated.read now' opened len with
      | some (l', r) => some ({ l' with deadline := l.deadline }, r)
      | none => l.waitForData now := by
  obtain ⟨⟨reads, writes, readShuts, writeShuts, closeFault, closedRead, writeMax⟩, closed,
    readShut, writeShut, deadline⟩ := l
  unfold read undated
  dsimp only
  cases closed with
  | true => cases closedRead <;> rfl
  | false =>
    cases reads with
    | nil => cases readShut <;> rfl
    | cons g rest =>
      cases hready : g.ready opened with
      | false => cases readShut <;> simp [hready, waitForData, overdue]
      | true =>
        cases hitem : g.item with
        | fault f => simp [hready, hitem]
        | data bytes =>
          cases readShut with
          | true => simp [hready, hitem]
          | false => cases hleft : bytes.drop len <;> simp [hready, hitem, hleft]

/-- A read that does not give up waiting has the same result without the deadline. -/
theorem read_undated {r : Except Fault Bytes} (h : l.read now opened len = some (l', r))
    (hr : l.deadline = none ∨ ∃ bytes, r = .ok bytes) (now' : Instant) :
    l.undated.read now' opened len = some (l'.undated, r) := by
  rw [read_eq_undated l now now' opened len] at h
  cases hread : l.undated.read now' opened len with
  | some t =>
    obtain ⟨l₁, r₁⟩ := t
    rw [hread] at h
    cases h
    have hnone : l₁.deadline = none := deadline_read hread
    obtain ⟨script, closed, readShut, writeShut, deadline⟩ := l₁
    cases hnone
    rfl
  | none =>
    rw [hread] at h
    -- The read has given up waiting.
    dsimp only at h
    unfold waitForData at h
    by_cases hover : l.overdue now = true
    · rw [if_pos hover] at h
      cases h
      rcases hr with hnone | ⟨bytes, hok⟩
      · unfold overdue at hover
        rw [hnone] at hover
        cases hover
      · cases hok
    · rw [if_neg hover] at h
      cases h

theorem read_undated_of_waits (h : l.read now opened len = none) (now' : Instant) :
    l.undated.read now' opened len = none := by
  rw [read_eq_undated l now now' opened len] at h
  cases hread : l.undated.read now' opened len with
  | some t =>
    rw [hread] at h
    cases h
  | none => rfl

theorem write_undated (l : Link) (opened : List Gate) (buf : Bytes) :
    l.undated.write opened buf = (l.write opened buf).map fun t => (t.1.undated, t.2) := by
  unfold write undated
  dsimp only
  split
  · rfl
  · split
    · rfl
    · rename_i g rest _
      split
      · cases g.item <;> rfl
      · rfl

theorem shut_undated (l : Link) (opened : List Gate) (half : Half) :
    l.undated.shut opened half = (l.shut opened half).map fun t => (t.1.undated, t.2) := by
  have hshuts : l.undated.shuts half = l.shuts half := by cases half <;> rfl
  unfold shut
  rw [hshuts]
  cases l.shuts half with
  | nil => cases half <;> rfl
  | cons g rest =>
    dsimp only
    split
    · cases g.item <;> cases half <;> rfl
    · rfl

end Link

/-! ## Traffic -/

/-- Whether an event is that of a call on a connection. -/
def Event.isTraffic : Event → Bool
  | accepted .. | writeFailed .. | delivered .. | readFailed .. | shut .. | closed .. => true
  | _ => false

namespace Journal

/-- What happened, in order. -/
def events (j : Journal) : List Event := (j.map (·.event)).reverse

/-- What became of the calls on connections, in order. -/
def traffic (j : Journal) : List Event := j.events.filter Event.isTraffic

variable {j j' : Journal}

theorem events_cons (e : Entered) (j : Journal) : events (e :: j) = j.events ++ [e.event] := by
  unfold events
  rw [List.map_cons, List.reverse_cons]

theorem events_append (es j : Journal) : events (es ++ j) = j.events ++ es.events := by
  unfold events
  rw [List.map_append, List.reverse_append]

theorem length_events (j : Journal) : j.events.length = j.length := by
  unfold events
  rw [List.length_reverse, List.length_map]

theorem events_after (j : Journal) (n : Nat) : (j.after n).events = j.events.drop n := by
  unfold after events
  rw [List.map_take, List.drop_reverse, List.length_map]

theorem traffic_cons (e : Entered) (j : Journal) :
    traffic (e :: j) = j.traffic ++ [e.event].filter Event.isTraffic := by
  unfold traffic
  rw [events_cons, List.filter_append]

theorem traffic_append (es j : Journal) : traffic (es ++ j) = j.traffic ++ es.traffic := by
  unfold traffic
  rw [events_append, List.filter_append]

theorem findings_eq_filterMap {α : Type} (j : Journal) (f : Event → Option α) :
    j.findings f = j.events.filterMap f := by
  induction j with
  | nil => rfl
  | cons e j ih =>
    rw [findings_cons, events_cons, List.filterMap_append, ih]
    cases hf : f e.event <;> simp [hf]

theorem count_eq_countP (j : Journal) (p : Event → Bool) : j.count p = j.events.countP p := by
  induction j with
  | nil => rfl
  | cons e j ih =>
    unfold count at ih ⊢
    rw [List.countP_cons, events_cons, List.countP_append, ih, List.countP_singleton]

/-- The writes on a connection are traffic. -/
theorem writes_of_traffic (h : j.traffic = j'.events) (i : LinkId) : j.writes i = j'.writes i := by
  unfold writes
  rw [findings_eq_filterMap, findings_eq_filterMap, ← h]
  unfold traffic
  rw [List.filterMap_filter]
  refine congrArg (List.filterMap · _) (funext fun e => ?_)
  cases e <;> rfl

/-- A count of traffic. -/
theorem count_of_traffic (h : j.traffic = j'.events) {p : Event → Bool}
    (hp : ∀ e, p e = true → e.isTraffic = true) : j.count p = j'.count p := by
  rw [count_eq_countP, count_eq_countP, ← h]
  unfold traffic
  rw [List.countP_filter]
  refine List.countP_congr fun e _ => ?_
  rw [Bool.and_eq_true]
  exact ⟨fun he => ⟨he, hp e he⟩, And.left⟩

/-- Nothing but traffic has happened. -/
theorem count_eq_zero_of_traffic (h : j.traffic = j'.events) {p : Event → Bool}
    (hp : ∀ e, p e = true → e.isTraffic = false) : j'.count p = 0 := by
  rw [count_eq_countP, ← h]
  refine List.countP_eq_zero.mpr fun e he hpe => ?_
  have htraffic := (List.mem_filter.mp he).2
  rw [hp e hpe] at htraffic
  cases htraffic

end Journal

/-! ## Two worlds -/

/-- Both worlds have one connection, which has no deadline in the second one and is the same
otherwise. What became of the calls on it is the same, and that is all that happened in the second
one. -/
structure World.Mirrors (w v : World) : Prop where
  links : ∃ l, w.links = [some l] ∧ v.links = [some l.undated]
  opened : w.opened = v.opened
  traffic : w.journal.traffic = v.journal.events

namespace World.Mirrors

variable {w w' v : World}

/-- The number of the connection. -/
abbrev only : LinkId := 0

theorem link? (h : w.Mirrors v) :
    ∃ l, w.link? only = some l ∧ v.link? only = some l.undated := by
  obtain ⟨l, hw, hv⟩ := h.links
  refine ⟨l, ?_, ?_⟩
  · unfold World.link?
    rw [hw]
    rfl
  · unfold World.link?
    rw [hv]
    rfl

/-- A call does the same to the connection of both worlds. -/
theorem calls (h : w.Mirrors v) (l : Link) {e : Event} (he : e.isTraffic = true) :
    ((w.setLink only l).enter e).Mirrors ((v.setLink only l.undated).enter e) where
  links := by
    obtain ⟨l₀, hw, hv⟩ := h.links
    refine ⟨l, ?_, ?_⟩
    · show w.links.set only (some l) = _
      rw [hw]
      rfl
    · show v.links.set only (some l.undated) = _
      rw [hv]
      rfl
  opened := h.opened
  traffic := by
    show Journal.traffic (_ :: w.journal) = Journal.events (_ :: v.journal)
    rw [Journal.traffic_cons, Journal.events_cons, h.traffic, List.filter_cons_of_pos he]
    rfl

theorem enter (h : w.Mirrors v) {e : Event} (he : e.isTraffic = false) : (w.enter e).Mirrors v where
  links := h.links
  opened := h.opened
  traffic := by
    show Journal.traffic (_ :: w.journal) = _
    rw [Journal.traffic_cons, List.filter_cons_of_neg (by simp [he]), h.traffic]
    exact List.append_nil _

theorem note (h : w.Mirrors v) (n : Notice) : (w.note n).Mirrors v := h.enter rfl

theorem setDeadline (h : w.Mirrors v) (deadline : Option Instant) :
    (w.setDeadline only deadline).Mirrors v := by
  obtain ⟨l, hw, hv⟩ := h.links
  obtain ⟨l', hl, -⟩ := h.link?
  have hsame : l' = l := by
    unfold World.link? at hl
    rw [hw] at hl
    exact (Option.some.inj hl).symm
  subst hsame
  rw [setDeadline_of_link? hl]
  have hset : (w.setLink only { l' with deadline := deadline }).Mirrors v := by
    refine ⟨⟨{ l' with deadline := deadline }, ?_, hv⟩, h.opened, h.traffic⟩
    show w.links.set only _ = _
    rw [hw]
    rfl
  exact hset.enter rfl

theorem read (h : w.Mirrors v) {task : TaskId} {len : Nat} {r : Except Fault Bytes}
    (hr : w.read only task len = some (w', r))
    (hdue : w.deadline? only = none ∨ ∃ bytes, r = .ok bytes) :
    ∃ v', v.read only task len = some (v', r) ∧ w'.Mirrors v' := by
  obtain ⟨l, hl, hv⟩ := h.link?
  obtain ⟨l₀, l', hl₀, hread, rfl⟩ := read_eq_some hr
  cases hl.symm.trans hl₀
  rw [deadline?_of_link? hl] at hdue
  have hread' := Link.read_undated hread hdue v.now
  refine ⟨(v.setLink only l'.undated).enter (readEvent only task r), ?_,
    h.calls l' (by cases r <;> rfl)⟩
  rw [read_of_link? hv, ← h.opened, hread']
  rfl

theorem write (h : w.Mirrors v) {purpose : Purpose} {buf : Bytes} {r : Except Fault Bytes}
    (hr : w.write only purpose buf = some (w', r)) :
    ∃ v', v.write only purpose buf = some (v', r) ∧ w'.Mirrors v' := by
  obtain ⟨l, hl, hv⟩ := h.link?
  obtain ⟨l₀, l', hl₀, hwrite, rfl⟩ := write_eq_some hr
  cases hl.symm.trans hl₀
  refine ⟨(v.setLink only l'.undated).enter (writeEvent only purpose buf r), ?_,
    h.calls l' (by cases r <;> rfl)⟩
  rw [write_of_link? hv, ← h.opened, Link.write_undated, hwrite]
  rfl

theorem shut (h : w.Mirrors v) {half : Half} {r : ShutAnswer}
    (hr : w.shut only half = some (w', r)) :
    ∃ v', v.shut only half = some (v', r) ∧ w'.Mirrors v' := by
  obtain ⟨l, hl, hv⟩ := h.link?
  obtain ⟨l₀, l', hl₀, hshut, rfl⟩ := shut_eq_some hr
  cases hl.symm.trans hl₀
  refine ⟨(v.setLink only l'.undated).enter (.shut only half r), ?_, h.calls l' rfl⟩
  rw [shut_of_link? hv, ← h.opened, Link.shut_undated, hshut]
  rfl

theorem read_of_waits (h : w.Mirrors v) {task : TaskId} {len : Nat}
    (hr : w.read only task len = none) : v.read only task len = none := by
  obtain ⟨l, hl, hv⟩ := h.link?
  rw [read_of_link? hl, Option.map_eq_none_iff] at hr
  rw [read_of_link? hv, ← h.opened, Link.read_undated_of_waits hr]
  rfl

theorem write_of_waits (h : w.Mirrors v) {purpose : Purpose} {buf : Bytes}
    (hr : w.write only purpose buf = none) : v.write only purpose buf = none := by
  obtain ⟨l, hl, hv⟩ := h.link?
  rw [write_of_link? hl, Option.map_eq_none_iff] at hr
  rw [write_of_link? hv, ← h.opened, Link.write_undated, hr]
  rfl

theorem shut_of_waits (h : w.Mirrors v) {half : Half} (hr : w.shut only half = none) :
    v.shut only half = none := by
  obtain ⟨l, hl, hv⟩ := h.link?
  rw [shut_of_link? hl, Option.map_eq_none_iff] at hr
  rw [shut_of_link? hv, ← h.opened, Link.shut_undated, hr]
  rfl

/-- What happens by itself happens to both worlds. -/
theorem change (h : w.Mirrors v) (action : Session.Action) :
    (action.change w).Mirrors (action.change v) := by
  cases action with
  | openGate gate => exact ⟨h.links, congrArg (gate :: ·) h.opened, h.traffic⟩
  | elapse nanos => exact ⟨h.links, h.opened, h.traffic⟩
  | feed i more =>
    show (w.feed i more).Mirrors (v.feed i more)
    obtain ⟨l, hw, hv⟩ := h.links
    unfold World.feed World.link?
    rw [hw, hv]
    cases i with
    | zero =>
      refine ⟨⟨l.feed more, ?_, ?_⟩, h.opened, h.traffic⟩
      · show w.links.set 0 (some (l.feed more)) = _
        rw [hw]
        rfl
      · show v.links.set 0 (some (l.feed more).undated) = _
        rw [hv]
        rfl
    | succ i => exact ⟨⟨l, hw, hv⟩, h.opened, h.traffic⟩
  | _ => exact h

end World.Mirrors

end Redial
