import Redial.Proofs.Loopback.DeadlineChanges

/-!
# Polls of a read

A poll takes the steps of a read up to where it has ended or is suspended. Between two polls other
tasks may set the deadline, and anything else may happen. A suspended read polls the deadline that
it went by before it polls the bell, so it is the deadline that was looked up last, and not the one
that is stored, that a poll looks at first. A poll that finds nothing to read times out if the
stored deadline has passed, but also if the one has that the read went by, although another one was
stored and the bell has rung since (`superseded_deadline_times_out_iff`).
-/

namespace Redial.Loopback

/-- A socket reports no fault that a deadline makes. -/
theorem Socket.tryRead_ne_deadlineExceeded {s s' : Socket} {len : Nat} {f : Fault}
    (h : s.tryRead len = some (s', .error f)) : f ≠ .deadlineExceeded := by
  unfold tryRead at h
  split at h
  · split at h
    · cases h
    · split at h
      · cases h
        decide
      · split at h <;> cases h
  · cases h

/-! ## What a poll comes to -/

/-- Whether a read is suspended. -/
def ReadPoint.isSuspended : ReadPoint → Bool
  | suspended .. => true
  | _ => false

/-- The steps of one poll. -/
inductive ReadPoint.Polls (len : Nat) :
    TimedSocket → ReadPoint → TimedSocket → Progress ReadPoint (Except Fault Bytes) → Prop where
  /-- The last step ends the read. -/
  | ends {s p s' r} (h : Steps len s p s' (.done r)) : Polls len s p s' (.done r)
  /-- The last step suspends the read. -/
  | suspends {s p s' l d} (h : Steps len s p s' (.goesOn (.suspended l d))) :
      Polls len s p s' (.goesOn (.suspended l d))
  /-- The poll goes on. -/
  | goesOn {s p s₁ p₁ s' q} (h : Steps len s p s₁ (.goesOn p₁)) (hp : p₁.isSuspended = false)
      (hrest : Polls len s₁ p₁ s' q) : Polls len s p s' q

/-- Where a poll gets to by looking up the deadline while nothing is announced. -/
def TimedSocket.lookUp (s : TimedSocket) : Progress ReadPoint (Except Fault Bytes) :=
  if s.overdue s.deadline then .done (.error .deadlineExceeded)
  else .goesOn (.suspended s.changed.listen s.deadline)

/-- What a poll comes to that goes by a listener and a deadline. -/
def TimedSocket.poll (len : Nat) (s : TimedSocket) (l : Listener) (d : Option Instant) :
    TimedSocket × Progress ReadPoint (Except Fault Bytes) :=
  if s.socket.announced then
    match s.socket.tryRead len with
    | some (socket, r) => ({ s with socket := socket }, .done r)
    | none => (s.hushed, s.hushed.lookUp)
  else if s.overdue d then (s, .done (.error .deadlineExceeded))
  else if l.woken s.changed then (s, s.lookUp)
  else (s, .goesOn (.suspended l d))

/-- Nothing is announced, or what is announced is wrong. -/
def TimedSocket.Idle (len : Nat) (s : TimedSocket) : Prop :=
  s.socket.announced = true → s.socket.tryRead len = none

section Polls

variable {len : Nat} {s s' s'' : TimedSocket} {p : ReadPoint}
  {q q' : Progress ReadPoint (Except Fault Bytes)} {l : Listener} {d : Option Instant}

theorem ReadPoint.Steps.unique (h : Steps len s p s' q) (h' : Steps len s p s'' q') :
    s'' = s' ∧ q' = q := by
  have hsame := h'.step.symm.trans h.step
  cases hsame
  exact ⟨rfl, rfl⟩

theorem ReadPoint.Polls.unique (h : Polls len s p s' q) (h' : Polls len s p s'' q') :
    s'' = s' ∧ q' = q := by
  induction h with
  | ends h =>
    cases h' with
    | ends h' | suspends h' => exact h.unique h'
    | goesOn h' => cases (h.unique h').2
  | suspends h =>
    cases h' with
    | ends h' | suspends h' => exact h.unique h'
    | goesOn h' hp =>
      cases (h.unique h').2
      cases hp
  | goesOn h hp _ ih =>
    cases h' with
    | ends h' => cases (h.unique h').2
    | suspends h' =>
      cases (h.unique h').2
      cases hp
    | goesOn h' _ hrest =>
      obtain ⟨rfl, hq⟩ := h.unique h'
      cases hq
      exact ih hrest

theorem ReadPoint.Polls.step_ne_none (h : Polls len s p s' q) : p.step len s ≠ none := by
  cases h with
  | ends h | suspends h | goesOn h =>
    rw [h.step]
    exact Option.some_ne_none _

/-- A poll that does not end the read suspends it. -/
theorem ReadPoint.Polls.suspended_of_goesOn (h : Polls len s p s' q) {p' : ReadPoint}
    (hq : q = .goesOn p') : ∃ l d, p' = .suspended l d := by
  induction h with
  | ends => cases hq
  | suspends =>
    cases hq
    exact ⟨_, _, rfl⟩
  | goesOn _ _ _ ih => exact ih hq

/-- A poll that begins anew with nothing announced looks at the deadline only. -/
theorem ReadPoint.polls_start_silent (ha : s.socket.announced = false) :
    start.Polls len s s s.lookUp := by
  refine .goesOn .listens rfl (.goesOn .looksUp rfl (.goesOn (.findsNothing ha) rfl ?_))
  unfold TimedSocket.lookUp
  split
  · rename_i hd
    exact .ends (.timesOut hd)
  · rename_i hd
    rw [Bool.not_eq_true] at hd
    exact .goesOn (.inTime hd) rfl (.suspends (.suspends (Bell.woken_listen _)))

theorem ReadPoint.polls_atSocket :
    (atSocket l d).Polls len s (s.poll len l d).1 (s.poll len l d).2 := by
  unfold TimedSocket.poll
  split
  · rename_i ha
    cases ht : s.socket.tryRead len with
    | none => exact .goesOn (.misled ha ht) rfl (polls_start_silent rfl)
    | some t => exact .ends (.takes (r := t.2) ha ht)
  · rename_i ha
    rw [Bool.not_eq_true] at ha
    refine .goesOn (.findsNothing ha) rfl ?_
    split
    · rename_i hd
      exact .ends (.timesOut hd)
    · rename_i hd
      rw [Bool.not_eq_true] at hd
      refine .goesOn (.inTime hd) rfl ?_
      split
      · rename_i hl
        exact .goesOn (.hears hl) rfl (polls_start_silent ha)
      · rename_i hl
        exact .suspends (.suspends (Bool.not_eq_true _ ▸ hl))

theorem ReadPoint.polls_start :
    start.Polls len s (s.poll len s.changed.listen s.deadline).1
      (s.poll len s.changed.listen s.deadline).2 :=
  .goesOn .listens rfl (.goesOn .looksUp rfl polls_atSocket)

theorem ReadPoint.polls_suspended (h : (suspended l d).step len s ≠ none) :
    (suspended l d).Polls len s (s.poll len l d).1 (s.poll len l d).2 := by
  obtain ⟨⟨s', q⟩, ht⟩ := Option.ne_none_iff_exists'.mp h
  cases steps_of_step ht with
  | wakes hw => exact .goesOn (.wakes hw) rfl polls_atSocket

/-- A poll that goes by a deadline times out by it, or by the one that is stored if it looks that
up. -/
theorem TimedSocket.poll_timesOut_iff :
    (s.poll len l d).2 = .done (.error .deadlineExceeded) ↔ s.Idle len ∧
      ((s.socket.announced = false ∧ s.overdue d = true) ∨
        ((s.socket.announced = true ∨ l.woken s.changed = true) ∧
          s.overdue s.deadline = true)) := by
  have hlookUp : ∀ s : TimedSocket, s.lookUp = .done (.error .deadlineExceeded) ↔
      s.overdue s.deadline = true := by
    intro s
    unfold lookUp
    cases s.overdue s.deadline with
    | true => exact iff_of_true rfl rfl
    | false => exact iff_of_false nofun Bool.false_ne_true
  unfold poll Idle
  cases ha : s.socket.announced with
  | true =>
    cases ht : s.socket.tryRead len with
    | none =>
      have hsilent : s.hushed.lookUp = .done (.error .deadlineExceeded) ↔
          s.overdue s.deadline = true := hlookUp s.hushed
      simpa [ht] using hsilent
    | some t =>
      obtain ⟨socket, r⟩ := t
      have hne : r ≠ .error .deadlineExceeded := by
        rintro rfl
        exact Socket.tryRead_ne_deadlineExceeded ht rfl
      simpa [ht] using hne
  | false =>
    cases hd : s.overdue d with
    | true => simp
    | false =>
      cases hl : l.woken s.changed with
      | true => simpa using hlookUp s
      | false => simp

end Polls

/-! ## Polls among other tasks -/

namespace PendingRead

/-- What can happen from one poll to the next. -/
inductive Round (len : Nat) : PendingRead → PendingRead → Prop where
  /-- The read is polled. -/
  | polls {s n p s' q} (h : p.Polls len s s' q) : Round len ⟨s, n, .goesOn p⟩ ⟨s', n, q⟩
  /-- Another task sets the deadline. -/
  | sets {s n q} (d : Option Instant) : Round len ⟨s, n, q⟩ ⟨s.setDeadline d, n, q⟩
  /-- Something else happens to the socket. -/
  | happens {s n q} (i : Incident) : Round len ⟨s, n, q⟩ ⟨i.change s, n, q⟩

/-- What a read of at most `len` bytes can come to if nothing comes between the steps of a poll. -/
def Polled (len : Nat) (r : PendingRead) : Prop :=
  ∃ s, Relation.ReflTransGen (Round len) (begun s 0) r

variable {len : Nat} {r r' : PendingRead}

theorem leads_polls {s s' : TimedSocket} {n : Nat} {p : ReadPoint}
    {q : Progress ReadPoint (Except Fault Bytes)} (h : p.Polls len s s' q) :
    Leads len ⟨s, n, .goesOn p⟩ ⟨s', n, q⟩ := by
  induction h with
  | ends h | suspends h => exact .single (.reads h.step)
  | goesOn h _ _ ih => exact .head (.reads h.step) ih

theorem Round.leads (h : r.Round len r') : r.Leads len r' := by
  cases h with
  | polls h => exact leads_polls h
  | sets d => exact leads_setDeadline d
  | happens i => exact .single (.happens i)

theorem Polled.reachable (h : r.Polled len) : r.Reachable len := by
  obtain ⟨s, hl⟩ := h
  refine ⟨s, 0, ?_⟩
  induction hl with
  | refl => exact .refl
  | tail _ hr ih => exact ih.trans hr.leads

/-- Between two polls no task is setting the deadline, and the read has not begun or is
suspended. -/
theorem Polled.rests (h : r.Polled len) : r.untold = 0 ∧
    ∀ p, r.progress = .goesOn p → p = .start ∨ ∃ l d, p = .suspended l d := by
  obtain ⟨s, hl⟩ := h
  induction hl with
  | refl =>
    refine ⟨rfl, fun p hp => ?_⟩
    cases hp
    exact Or.inl rfl
  | tail _ hr ih =>
    cases hr with
    | polls h =>
      refine ⟨ih.1, fun p hp => ?_⟩
      obtain ⟨l, d, rfl⟩ := h.suspended_of_goesOn hp
      exact Or.inr ⟨l, d, rfl⟩
    | sets d => exact ih
    | happens i => exact ih

/-- A read that was polled once, with nothing announced and the deadline in the future. -/
def waiting (s : TimedSocket) : PendingRead :=
  ⟨s, 0, .goesOn (.suspended s.changed.listen s.deadline)⟩

theorem Polled.waiting {s : TimedSocket} (ha : s.socket.announced = false)
    (hd : s.overdue s.deadline = false) : (PendingRead.waiting s).Polled len := by
  have hpoll : ReadPoint.start.Polls len s s s.lookUp := ReadPoint.polls_start_silent ha
  rw [TimedSocket.lookUp, hd] at hpoll
  exact ⟨s, .single (.polls hpoll)⟩

theorem Polled.next (h : r.Polled len) (hr : r.Round len r') : r'.Polled len :=
  h.imp fun _ hl => hl.tail hr

end PendingRead

/-! ## Superseded deadlines -/

/-- Nothing is announced, and a deadline has passed that is not the one that is stored, which has
not. -/
structure TimedSocket.Outdated (s : TimedSocket) (d : Option Instant) : Prop where
  silent : s.socket.announced = false
  passed : s.overdue d = true
  superseded : s.overdue s.deadline = false

/-- The read is suspended and goes by such a deadline. -/
def ReadPoint.Outdated (s : TimedSocket) : ReadPoint → Prop
  | suspended _ d => s.Outdated d
  | _ => False

section Superseded

variable {len : Nat} {s : TimedSocket} {l : Listener} {d : Option Instant}

theorem TimedSocket.Outdated.idle (h : s.Outdated d) : s.Idle len := by
  intro ha
  cases h.silent.symm.trans ha

theorem TimedSocket.not_outdated_stored : ¬s.Outdated s.deadline := by
  intro h
  cases h.passed.symm.trans h.superseded

/-- The read has been told that the deadline was superseded. -/
theorem Sampled.woken_of_outdated (hs : Sampled s 0 l d) (h : s.Outdated d) :
    d ≠ s.deadline ∧ l.woken s.changed = true := by
  have hne : d ≠ s.deadline := by
    rintro rfl
    exact TimedSocket.not_outdated_stored h
  exact ⟨hne, hs.stored_or_woken.resolve_left hne⟩

theorem Sampled.poll_timesOut_iff (hs : Sampled s 0 l d) :
    (s.poll len l d).2 = .done (.error .deadlineExceeded) ↔
      s.Idle len ∧ (s.overdue s.deadline = true ∨ s.Outdated d) := by
  rw [TimedSocket.poll_timesOut_iff]
  refine and_congr_right fun _ => ⟨?_, ?_⟩
  · rintro (⟨ha, hd⟩ | ⟨-, hstored⟩)
    · cases hstored : s.overdue s.deadline with
      | true => exact Or.inl rfl
      | false => exact Or.inr ⟨ha, hd, hstored⟩
    · exact Or.inl hstored
  · rintro (hstored | h)
    · cases ha : s.socket.announced with
      | true => exact Or.inr ⟨Or.inl rfl, hstored⟩
      | false =>
        rcases hs.stored_or_woken with rfl | hl
        · exact Or.inl ⟨rfl, hstored⟩
        · exact Or.inr ⟨Or.inr hl, hstored⟩
    · exact Or.inl ⟨h.silent, h.passed⟩

/-- A read that is polled goes by a deadline that it looked up after it began to listen. -/
theorem PendingRead.Polled.goesBy {r : PendingRead} {p : ReadPoint} (h : r.Polled len)
    (hp : r.progress = .goesOn p) : ∃ l d, Sampled r.socket 0 l d ∧
      (p.Outdated r.socket ↔ r.socket.Outdated d) ∧
      (p.step len r.socket ≠ none →
        p.Polls len r.socket (r.socket.poll len l d).1 (r.socket.poll len l d).2) := by
  obtain ⟨htold, hplace⟩ := h.rests
  rcases hplace p hp with rfl | ⟨l, d, rfl⟩
  · exact ⟨r.socket.changed.listen, r.socket.deadline, ⟨Nat.le_refl _, Or.inl rfl⟩,
      iff_of_false id TimedSocket.not_outdated_stored, fun _ => ReadPoint.polls_start⟩
  · exact ⟨l, d, h.reachable.sampled htold hp, Iff.rfl, ReadPoint.polls_suspended⟩

end Superseded

/-- Deadlines may be set, bytes may arrive, wrong announcements may be made and time may pass
between the polls of a read. A read that can take a step can be polled. A poll times out exactly if
there is nothing to read, and the stored deadline has passed or the read is suspended by an outdated
one. So it is the stored deadline that a read times out by, unless the read is suspended by an
outdated one: then it times out although the stored one has not passed, and although it has been
told that the other one was superseded. -/
theorem superseded_deadline_times_out_iff {len : Nat} {r : PendingRead} {p : ReadPoint}
    (h : r.Polled len) (hp : r.progress = .goesOn p) :
    (p.step len r.socket ≠ none → ∃ s' q, p.Polls len r.socket s' q) ∧
    (∀ s' q, p.Polls len r.socket s' q →
      (q = .done (.error .deadlineExceeded) ↔ r.socket.Idle len ∧
        (r.socket.overdue r.socket.deadline = true ∨ p.Outdated r.socket)) ∧
      ((q = .done (.error .deadlineExceeded) →
        r.socket.Idle len ∧ r.socket.overdue r.socket.deadline = true) ↔
          ¬p.Outdated r.socket)) ∧
    (∀ l d, p = .suspended l d → p.Outdated r.socket →
      d ≠ r.socket.deadline ∧ l.woken r.socket.changed = true) := by
  obtain ⟨l, d, hs, hout, hpolls⟩ := h.goesBy hp
  refine ⟨fun hstep => ⟨_, _, hpolls hstep⟩, fun s' q hq => ?_, ?_⟩
  · have htimes : q = .done (.error .deadlineExceeded) ↔ r.socket.Idle len ∧
        (r.socket.overdue r.socket.deadline = true ∨ p.Outdated r.socket) := by
      obtain ⟨-, rfl⟩ := (hpolls hq.step_ne_none).unique hq
      rw [hout]
      exact hs.poll_timesOut_iff
    refine ⟨htimes, fun honly hold => ?_, fun hnot hend => ?_⟩
    · have hold' := hout.mp hold
      have hstored := (honly (htimes.mpr ⟨hold'.idle, Or.inr hold⟩)).2
      cases hold'.superseded.symm.trans hstored
    · obtain ⟨hidle, hstored | hold⟩ := htimes.mp hend
      · exact ⟨hidle, hstored⟩
      · exact absurd hold hnot
  · rintro l d rfl hold
    exact (h.reachable.sampled h.rests.1 hp).woken_of_outdated hold

/-- A read that was suspended without a deadline times out by the one that was set meanwhile. -/
theorem deadline_set_meanwhile_times_out : ∃ (r : PendingRead) (p : ReadPoint),
    r.Polled 4 ∧ r.progress = .goesOn p ∧ r.socket.deadline = some (.ofNanos 5) ∧
    r.socket.now = .ofNanos 5 ∧ ¬p.Outdated r.socket ∧
    ∃ s', p.Polls 4 r.socket s' (.done (.error .deadlineExceeded)) := by
  have hwaits : (PendingRead.waiting .new).Polled 4 := .waiting rfl rfl
  have h := (hwaits.next (.sets (some (.ofNanos 5)))).next (.happens (.elapses 5))
  obtain ⟨hpolled, htimes, -⟩ := superseded_deadline_times_out_iff h rfl
  obtain ⟨s', q, hq⟩ := hpolled (Option.some_ne_none _)
  obtain rfl := (htimes s' q hq).1.mpr ⟨nofun, Or.inl rfl⟩
  exact ⟨_, _, h, rfl, rfl, rfl, fun hold => Bool.false_ne_true hold.passed, s', hq⟩

/-- A read is suspended with a deadline, which is then cleared. If the read is polled again only
after that deadline has passed, it times out, although no deadline is stored. -/
theorem cleared_deadline_times_out : ∃ (r : PendingRead) (p : ReadPoint),
    r.Polled 4 ∧ r.progress = .goesOn p ∧ r.socket.deadline = none ∧
    ∃ s', p.Polls 4 r.socket s' (.done (.error .deadlineExceeded)) := by
  let s : TimedSocket := TimedSocket.new.setDeadline (some (.ofNanos 5))
  have hwaits : (PendingRead.waiting s).Polled 4 := .waiting rfl rfl
  have h := (hwaits.next (.sets none)).next (.happens (.elapses 5))
  refine ⟨_, _, h, rfl, rfl, (Incident.elapses 5).change (s.setDeadline none), ?_⟩
  exact .goesOn (.wakes (Or.inr (Or.inl rfl))) rfl
    (.goesOn (.findsNothing rfl) rfl (.ends (.timesOut rfl)))

end Redial.Loopback
