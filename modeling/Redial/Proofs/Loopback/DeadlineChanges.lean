import Mathlib.Logic.Relation
import Redial.Loopback.PendingRead

/-!
# Reads that miss no change of the deadline

A read of a socket goes by a deadline that it has looked up, while other tasks set another one. To
set it is to store it and then to ring the bell, and the steps of the read may fall between the two,
as may anything else. Because the read listens to the bell before it looks the deadline up, it
either goes by the deadline that is stored, or it has heard the bell, or a task that has stored a
deadline has still to ring (`Sampled`). So a read is never suspended past the deadline that is
stored (`deadline_change_never_missed`).
-/

namespace Redial.Loopback

/-! ## What happens to a socket -/

namespace TimedSocket

/-- The first half of setting the deadline. -/
def store (s : TimedSocket) (deadline : Option Instant) : TimedSocket :=
  { s with deadline := deadline }

/-- The second half: all who wait are told. -/
def tell (s : TimedSocket) : TimedSocket := { s with changed := s.changed.ring }

theorem tell_store (s : TimedSocket) (deadline : Option Instant) :
    (s.store deadline).tell = s.setDeadline deadline := rfl

/-- The socket once the announcement that there is something to read has been taken back. -/
def hushed (s : TimedSocket) : TimedSocket :=
  { s with socket := { s.socket with announced := false } }

end TimedSocket

/-- Something that happens to a socket, or to its clock, while a read of it is under way. -/
inductive Incident where
  /-- The peer writes. -/
  | peerWrites (bytes : Bytes)
  /-- The peer shuts its write half. -/
  | peerShuts
  /-- The peer resets the connection. -/
  | peerResets
  /-- The peer reads. -/
  | peerReads (len : Nat)
  /-- Another task writes. -/
  | writes (buf : Bytes)
  /-- Another task shuts a half. -/
  | shuts (half : Half)
  /-- The system announces that there is something to read, rightly or not. -/
  | announces
  /-- Time passes. -/
  | elapses (nanos : Nat)

/-- The socket after an incident. -/
def Incident.change (s : TimedSocket) : Incident → TimedSocket
  | peerWrites bytes => { s with socket := s.socket.peerWrite bytes }
  | peerShuts => { s with socket := s.socket.peerShutdown }
  | peerResets => { s with socket := s.socket.peerReset }
  | peerReads len => { s with socket := (s.socket.peerRead len).1 }
  | writes buf => { s with socket := (s.socket.write buf).1 }
  | shuts half => { s with socket := s.socket.shut half }
  | announces => s.announce
  | elapses nanos => s.elapse nanos

@[simp] theorem Incident.deadline_change (i : Incident) (s : TimedSocket) :
    (i.change s).deadline = s.deadline := by
  cases i <;> rfl

@[simp] theorem Incident.changed_change (i : Incident) (s : TimedSocket) :
    (i.change s).changed = s.changed := by
  cases i <;> rfl

/-! ## What a step of a read does -/

/-- What one step of a read of at most `len` bytes does. -/
inductive ReadPoint.Steps (len : Nat) (s : TimedSocket) :
    ReadPoint → TimedSocket → Progress ReadPoint (Except Fault Bytes) → Prop where
  /-- It begins to listen to the bell. -/
  | listens : Steps len s .start s (.goesOn (.listening s.changed.listen))
  /-- It looks up the deadline. -/
  | looksUp {l} : Steps len s (.listening l) s (.goesOn (.atSocket l s.deadline))
  /-- It takes what there is to read. -/
  | takes {l d socket r} (ha : s.socket.announced = true)
      (ht : s.socket.tryRead len = some (socket, r)) :
      Steps len s (.atSocket l d) { s with socket := socket } (.done r)
  /-- It finds that the announcement was wrong. -/
  | misled {l d} (ha : s.socket.announced = true) (ht : s.socket.tryRead len = none) :
      Steps len s (.atSocket l d) s.hushed (.goesOn .start)
  /-- It finds nothing announced. -/
  | findsNothing {l d} (ha : s.socket.announced = false) :
      Steps len s (.atSocket l d) s (.goesOn (.atDeadline l d))
  /-- It gives up. -/
  | timesOut {l d} (hd : s.overdue d = true) :
      Steps len s (.atDeadline l d) s (.done (.error .deadlineExceeded))
  /-- It finds the deadline in the future. -/
  | inTime {l d} (hd : s.overdue d = false) :
      Steps len s (.atDeadline l d) s (.goesOn (.atBell l d))
  /-- It has heard the bell. -/
  | hears {l d} (hl : l.woken s.changed = true) : Steps len s (.atBell l d) s (.goesOn .start)
  /-- It has nothing left to look at. -/
  | suspends {l d} (hl : l.woken s.changed = false) :
      Steps len s (.atBell l d) s (.goesOn (.suspended l d))
  /-- It is woken by one of the three that it waits for. -/
  | wakes {l d}
      (hw : s.socket.announced = true ∨ s.overdue d = true ∨ l.woken s.changed = true) :
      Steps len s (.suspended l d) s (.goesOn (.atSocket l d))

namespace ReadPoint

variable {len : Nat} {s s' : TimedSocket} {p : ReadPoint}
  {q : Progress ReadPoint (Except Fault Bytes)} {l : Listener} {d : Option Instant}

theorem steps_of_step (h : p.step len s = some (s', q)) : Steps len s p s' q := by
  cases p with
  | start =>
    cases h
    exact .listens
  | listening l =>
    cases h
    exact .looksUp
  | atSocket l d =>
    unfold step at h
    dsimp only at h
    split at h
    · rename_i ha
      split at h
      · rename_i socket r ht
        cases h
        exact .takes ha ht
      · rename_i ht
        cases h
        exact .misled ha ht
    · rename_i ha
      cases h
      exact .findsNothing (Bool.not_eq_true _ ▸ ha)
  | atDeadline l d =>
    unfold step at h
    dsimp only at h
    split at h
    · rename_i hd
      cases h
      exact .timesOut hd
    · rename_i hd
      cases h
      exact .inTime (Bool.not_eq_true _ ▸ hd)
  | atBell l d =>
    unfold step at h
    cases h
    split
    · rename_i hl
      exact .hears hl
    · rename_i hl
      exact .suspends (Bool.not_eq_true _ ▸ hl)
  | suspended l d =>
    unfold step at h
    dsimp only at h
    split at h
    · rename_i hw
      rw [Bool.or_eq_true, Bool.or_eq_true, or_assoc] at hw
      cases h
      exact .wakes hw
    · cases h

theorem Steps.step (h : Steps len s p s' q) : p.step len s = some (s', q) := by
  cases h with
  | listens | looksUp => rfl
  | takes ha ht =>
    unfold ReadPoint.step
    dsimp only
    rw [if_pos ha, ht]
  | misled ha ht =>
    unfold ReadPoint.step
    dsimp only
    rw [if_pos ha, ht]
    rfl
  | findsNothing ha => exact if_neg (by rw [ha]; exact Bool.false_ne_true)
  | timesOut hd => exact if_pos hd
  | inTime hd => exact if_neg (by rw [hd]; exact Bool.false_ne_true)
  | hears hl => exact congrArg (fun c => some (s, Progress.goesOn c)) (if_pos hl)
  | suspends hl =>
    refine congrArg (fun c => some (s, Progress.goesOn c)) (if_neg ?_)
    rw [hl]
    exact Bool.false_ne_true
  | wakes hw =>
    refine if_pos ?_
    rw [Bool.or_eq_true, Bool.or_eq_true, or_assoc]
    exact hw

/-- Only a suspended read can be without a step: while nothing is announced, the deadline it goes by
is in the future, and the bell has not rung. -/
theorem step_eq_none_iff : p.step len s = none ↔ ∃ l d, p = .suspended l d ∧
    s.socket.announced = false ∧ s.overdue d = false ∧ l.woken s.changed = false := by
  constructor
  · intro h
    cases p with
    | suspended l d =>
      unfold step at h
      dsimp only at h
      split at h
      · cases h
      · rename_i hw
        rw [Bool.not_eq_true, Bool.or_eq_false_iff, Bool.or_eq_false_iff, and_assoc] at hw
        exact ⟨l, d, rfl, hw⟩
    | atSocket l d =>
      unfold step at h
      dsimp only at h
      split at h
      · split at h <;> cases h
      · cases h
    | atDeadline l d =>
      unfold step at h
      dsimp only at h
      split at h <;> cases h
    | _ => cases h
  · rintro ⟨l, d, rfl, ha, hd, hl⟩
    refine if_neg ?_
    rw [ha, hd, hl]
    exact Bool.false_ne_true

end ReadPoint

/-! ## Reads among other tasks -/

/-- A read that other tasks may come between. -/
structure PendingRead where
  /-- The socket. -/
  socket : TimedSocket
  /-- How many tasks have stored a deadline and have still to ring the bell. -/
  untold : Nat
  /-- Where the read is, or what it came to. -/
  progress : Progress ReadPoint (Except Fault Bytes)

namespace PendingRead

/-- What can happen next. -/
inductive Next (len : Nat) : PendingRead → PendingRead → Prop where
  /-- The read takes a step. -/
  | reads {s n p s' q} (h : p.step len s = some (s', q)) : Next len ⟨s, n, .goesOn p⟩ ⟨s', n, q⟩
  /-- A task begins to set the deadline. -/
  | stores {s n q} (d : Option Instant) : Next len ⟨s, n, q⟩ ⟨s.store d, n + 1, q⟩
  /-- A task has set the deadline. -/
  | tells {s n q} : Next len ⟨s, n + 1, q⟩ ⟨s.tell, n, q⟩
  /-- Something else happens to the socket. -/
  | happens {s n q} (i : Incident) : Next len ⟨s, n, q⟩ ⟨i.change s, n, q⟩

/-- One pending read leads to another. -/
abbrev Leads (len : Nat) : PendingRead → PendingRead → Prop := Relation.ReflTransGen (Next len)

/-- A read that is about to begin, on a socket whose deadline some tasks may be setting. -/
def begun (s : TimedSocket) (untold : Nat) : PendingRead := ⟨s, untold, .goesOn .start⟩

/-- What a read of at most `len` bytes can come to, on any socket and whatever happens. -/
def Reachable (len : Nat) (r : PendingRead) : Prop := ∃ s n, (begun s n).Leads len r

/-- The deadline is set by a task that nothing comes between. -/
theorem leads_setDeadline {len : Nat} {s : TimedSocket} {n : Nat}
    {q : Progress ReadPoint (Except Fault Bytes)} (d : Option Instant) :
    Leads len ⟨s, n, q⟩ ⟨s.setDeadline d, n, q⟩ := by
  rw [← TimedSocket.tell_store]
  exact .tail (.single (.stores d)) .tells

end PendingRead

/-! ## What a read knows of the deadline -/

/-- A listener and a deadline that were taken one after the other: the deadline is still the one
that is stored, or the bell has rung since, or a task has still to ring it. -/
structure Sampled (s : TimedSocket) (untold : Nat) (l : Listener) (d : Option Instant) : Prop where
  before : l.before ≤ s.changed.rings
  warned : d = s.deadline ∨ l.woken s.changed = true ∨ 0 < untold

/-- What is known at each place of a read. -/
def ReadPoint.Alert (s : TimedSocket) (untold : Nat) : ReadPoint → Prop
  | start => True
  | listening l => l.before ≤ s.changed.rings
  | atSocket l d => Sampled s untold l d
  | atDeadline l d => Sampled s untold l d
  | atBell l d => Sampled s untold l d
  | suspended l d => Sampled s untold l d

/-- What is known of a read, wherever it is. -/
def PendingRead.Alert (r : PendingRead) : Prop :=
  ∀ p, r.progress = .goesOn p → p.Alert r.socket r.untold

section Alert

variable {len untold n : Nat} {s s' : TimedSocket} {p p' : ReadPoint} {l : Listener}
  {d : Option Instant}

theorem Sampled.congr (h : Sampled s n l d) (hd : s'.deadline = s.deadline)
    (hc : s'.changed = s.changed) : Sampled s' n l d := by
  refine ⟨?_, ?_⟩
  · rw [hc]
    exact h.before
  · rw [hd, hc]
    exact h.warned

/-- What is known stays known if it does for all that was sampled. -/
theorem ReadPoint.Alert.imp (h : p.Alert s n)
    (hl : ∀ l : Listener, l.before ≤ s.changed.rings → l.before ≤ s'.changed.rings)
    (hsampled : ∀ l d, Sampled s n l d → Sampled s' untold l d) : p.Alert s' untold := by
  cases p with
  | start => trivial
  | listening l => exact hl l h
  | _ => exact hsampled _ _ h

theorem ReadPoint.Alert.congr (h : p.Alert s n) (hd : s'.deadline = s.deadline)
    (hc : s'.changed = s.changed) : p.Alert s' n := by
  refine h.imp (fun l hl => ?_) fun l d hs => hs.congr hd hc
  rw [hc]
  exact hl

/-- A step of the read keeps to what is known. -/
theorem ReadPoint.Steps.alert (h : Steps len s p s' (.goesOn p')) (ha : p.Alert s n) :
    p'.Alert s' n := by
  cases h with
  | listens => exact Nat.le_refl _
  | looksUp => exact ⟨ha, Or.inl rfl⟩
  | misled | hears => trivial
  | findsNothing | inTime | suspends | wakes => exact ha

/-- Whatever happens keeps to what is known. -/
theorem PendingRead.Next.alert {r r' : PendingRead} (h : r.Next len r') (ha : r.Alert) :
    r'.Alert := by
  cases h with
  | reads h =>
    intro p hp
    cases hp
    exact (ReadPoint.steps_of_step h).alert (ha _ rfl)
  | stores d =>
    intro p hp
    refine (ha p hp).imp (fun _ hl => hl) fun l _ hs => ?_
    exact ⟨hs.before, Or.inr (Or.inr (Nat.succ_pos _))⟩
  | tells =>
    -- Whoever listens by now hears the bell.
    intro p hp
    refine (ha p hp).imp (fun _ hl => Nat.le_succ_of_le hl) fun l _ hs => ?_
    exact ⟨Nat.le_succ_of_le hs.before, Or.inr (Or.inl (Listener.woken_ring hs.before))⟩
  | happens i =>
    intro p hp
    exact (ha p hp).congr (i.deadline_change _) (i.changed_change _)

theorem PendingRead.Reachable.alert {r : PendingRead} (h : r.Reachable len) : r.Alert := by
  obtain ⟨s, n, hl⟩ := h
  induction hl with
  | refl =>
    intro p hp
    cases hp
    trivial
  | tail _ hn ih => exact hn.alert ih

/-- What is known of a suspended read while no task is setting the deadline. -/
theorem PendingRead.Reachable.sampled {r : PendingRead} (h : r.Reachable len)
    (htold : r.untold = 0) (hp : r.progress = .goesOn (.suspended l d)) :
    Sampled r.socket 0 l d := by
  rw [← htold]
  exact h.alert _ hp

/-- If no task has still to ring, a deadline that was looked up is stored, or the bell has rung. -/
theorem Sampled.stored_or_woken (h : Sampled s 0 l d) :
    d = s.deadline ∨ l.woken s.changed = true := by
  rcases h.warned with hd | hl | hn
  · exact Or.inl hd
  · exact Or.inr hl
  · exact absurd hn (Nat.lt_irrefl 0)

end Alert

/-! ## Reads that are left to themselves -/

/-- Left to itself, the read comes to its end. -/
inductive ReadPoint.Ends (len : Nat) : TimedSocket → ReadPoint → Prop where
  | now {s p s' r} (h : Steps len s p s' (.done r)) : Ends len s p
  | later {s p s' p'} (h : Steps len s p s' (.goesOn p')) (hrest : Ends len s' p') : Ends len s p

section Ends

variable {len : Nat} {s : TimedSocket} {l : Listener} {d : Option Instant}

/-- A read that begins anew after the deadline has passed, with nothing announced, gives up. -/
theorem ReadPoint.ends_start_silent (hd : s.overdue s.deadline = true)
    (ha : s.socket.announced = false) : ReadPoint.start.Ends len s :=
  .later .listens (.later .looksUp (.later (.findsNothing ha) (.now (.timesOut hd))))

/-- At the socket the read takes what there is, or begins anew, or goes on to the deadline. -/
theorem ReadPoint.ends_atSocket (hd : s.overdue s.deadline = true)
    (hnext : s.socket.announced = false → (ReadPoint.atDeadline l d).Ends len s) :
    (ReadPoint.atSocket l d).Ends len s := by
  cases ha : s.socket.announced with
  | false => exact .later (.findsNothing ha) (hnext ha)
  | true =>
    cases ht : s.socket.tryRead len with
    | none => exact .later (.misled ha ht) (ReadPoint.ends_start_silent hd rfl)
    | some t => exact .now (.takes (r := t.2) ha ht)

theorem ReadPoint.ends_start (hd : s.overdue s.deadline = true) : ReadPoint.start.Ends len s := by
  refine .later .listens (.later .looksUp (ReadPoint.ends_atSocket hd fun _ => ?_))
  exact .now (.timesOut hd)

theorem ReadPoint.ends_atDeadline (hd : s.overdue s.deadline = true) (hs : Sampled s 0 l d) :
    (ReadPoint.atDeadline l d).Ends len s := by
  cases hover : s.overdue d with
  | true => exact .now (.timesOut hover)
  | false =>
    rcases hs.stored_or_woken with rfl | hl
    · cases hd.symm.trans hover
    · exact .later (.inTime hover) (.later (.hears hl) (ReadPoint.ends_start hd))

theorem ReadPoint.ends_suspended (hd : s.overdue s.deadline = true) (hs : Sampled s 0 l d) :
    (ReadPoint.suspended l d).Ends len s := by
  have hwakes : s.overdue d = true ∨ l.woken s.changed = true := by
    rcases hs.stored_or_woken with rfl | hl
    · exact Or.inl hd
    · exact Or.inr hl
  exact .later (.wakes (Or.inr hwakes))
    (ReadPoint.ends_atSocket hd fun _ => ReadPoint.ends_atDeadline hd hs)

/-- Once the deadline that is stored has passed, the read comes to its end. -/
theorem ReadPoint.Alert.ends {p : ReadPoint} (h : p.Alert s 0) (hd : s.overdue s.deadline = true) :
    p.Ends len s := by
  cases p with
  | start => exact ReadPoint.ends_start hd
  | listening l =>
    refine .later .looksUp (ReadPoint.ends_atSocket hd fun _ => ?_)
    exact .now (.timesOut hd)
  | atSocket l d => exact ReadPoint.ends_atSocket hd fun _ => ReadPoint.ends_atDeadline hd h
  | atDeadline l d => exact ReadPoint.ends_atDeadline hd h
  | atBell l d =>
    cases hl : l.woken s.changed with
    | true => exact .later (.hears hl) (ReadPoint.ends_start hd)
    | false => exact .later (.suspends hl) (ReadPoint.ends_suspended hd h)
  | suspended l d => exact ReadPoint.ends_suspended hd h

end Ends

/-- Deadlines may be set, also by several tasks at once, bytes may arrive, wrong announcements may
be made and time may pass between any two steps of a read, and between the two halves of setting a
deadline. Whenever the read is suspended, it waits for the deadline that is stored, or it has been
told of a change, or a task has not finished setting the deadline and will tell it. So if no task is
at it, the stored deadline has passed and the read can take no step, then it has ended; and while it
can, it comes to its end if it is left to itself. -/
theorem deadline_change_never_missed {len : Nat} {r : PendingRead} (h : r.Reachable len) :
    (∀ l d, r.progress = .goesOn (.suspended l d) →
      d = r.socket.deadline ∨ l.woken r.socket.changed = true ∨
        0 < r.untold ∧ l.woken r.socket.tell.changed = true) ∧
    (r.untold = 0 → r.socket.overdue r.socket.deadline = true →
      ((∀ p, r.progress = .goesOn p → p.step len r.socket = none) →
        ∃ result, r.progress = .done result) ∧
      ∀ p, r.progress = .goesOn p → p.Ends len r.socket) := by
  refine ⟨fun l d hp => ?_, fun htold hd => ?_⟩
  · have hs : Sampled r.socket r.untold l d := h.alert _ hp
    rcases hs.warned with hsame | hl | hn
    · exact Or.inl hsame
    · exact Or.inr (Or.inl hl)
    · exact Or.inr (Or.inr ⟨hn, Listener.woken_ring hs.before⟩)
  · refine ⟨fun hstuck => ?_, fun p hp => ?_⟩
    · cases hq : r.progress with
      | done result => exact ⟨result, rfl⟩
      | goesOn p =>
        obtain ⟨l, d, rfl, -, hwaits, hdeaf⟩ := ReadPoint.step_eq_none_iff.mp (hstuck p hq)
        rcases (h.sampled htold hq).stored_or_woken with rfl | hl
        · cases hd.symm.trans hwaits
        · cases hl.symm.trans hdeaf
    · have halert := h.alert p hp
      rw [htold] at halert
      exact halert.ends hd

/-- A read that waits without a deadline is told of the one that is set, and ends when it has
passed. -/
theorem deadline_set_during_suspension : ∃ r : PendingRead, r.Reachable 4 ∧ r.untold = 0 ∧
    r.socket.deadline = some (.ofNanos 5) ∧ r.socket.now = .ofNanos 5 ∧
    ∃ l, r.progress = .goesOn (.suspended l none) ∧ l.woken r.socket.changed = true ∧
      (ReadPoint.suspended l none).Ends 4 r.socket := by
  let waiting : PendingRead := ⟨.new, 0, .goesOn (.suspended (Bell.silent.listen) none)⟩
  have hwaits : (PendingRead.begun .new 0).Leads 4 waiting :=
    .tail (.tail (.tail (.tail (.single (.reads rfl)) (.reads rfl)) (.reads rfl)) (.reads rfl))
      (.reads rfl)
  have hset := hwaits.trans (PendingRead.leads_setDeadline (some (.ofNanos 5)))
  have h : PendingRead.Reachable 4 ⟨(Incident.elapses 5).change
      (TimedSocket.new.setDeadline (some (.ofNanos 5))), 0, waiting.progress⟩ :=
    ⟨_, _, hset.tail (.happens (.elapses 5))⟩
  obtain ⟨hwarned, hover⟩ := deadline_change_never_missed h
  refine ⟨_, h, rfl, rfl, rfl, _, rfl, ?_, (hover rfl rfl).2 _ rfl⟩
  rcases hwarned _ _ rfl with hsame | hl | hn
  · cases hsame
  · exact hl
  · exact absurd hn.1 (Nat.lt_irrefl 0)

end Redial.Loopback
