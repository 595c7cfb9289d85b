import Redial.Proofs.Delivery.Inbound
import Redial.Proofs.Stream.Waiting

/-!
# Dropped reads

A read that is dropped takes with it what it has taken from the connection and not yet returned. It
has something only while it waits for the lock to settle the question with it, and it waits there as
long as a write or a request to shut a half holds the lock. With one read at a time, what reads
return is all that was taken just if no read is dropped there (`nothing_lost_iff`).
-/

namespace Redial

/-- What a task has taken from a connection. -/
def Journal.takenBy (j : Journal) (k : TaskId) (i : LinkId) : List (TaskId × Bytes) :=
  (j.deliveries i).filter (·.1 = k)

theorem fst_of_mem_taken {k : TaskId} {r : Except Fault Bytes} {e : TaskId × Bytes}
    (h : e ∈ taken k r) : e.1 = k := by
  unfold taken at h
  split at h
  · rw [List.mem_singleton.mp h]
  · cases h

namespace Stream

variable {k : TaskId}

theorem Call.fst_of_mem_held {c : Call} {e : TaskId × Bytes} (h : e ∈ c.held k) : e.1 = k := by
  unfold Call.held at h
  split at h
  · exact fst_of_mem_taken h
  · cases h

theorem fst_of_mem_passedOn {p : Progress Call Outcome} {e : TaskId × Bytes}
    (h : e ∈ passedOn k p) : e.1 = k := by
  cases p with
  | goesOn c => exact Call.fst_of_mem_held h
  | done o =>
    cases o with
    | read r => exact fst_of_mem_taken h
    | _ => cases h

/-- A read that holds something waits for the lock to settle the question with it. -/
theorem Call.held_ne_nil_iff {c : Call} : c.held k ≠ [] ↔
    ∃ link len bytes, c = .queued (.judge link len (.ok bytes)) ∧ bytes ≠ [] := by
  constructor
  · intro h
    unfold Call.held at h
    split at h
    · rename_i link len r
      cases r with
      | error f => exact absurd rfl h
      | ok bytes =>
        refine ⟨link, len, bytes, rfl, ?_⟩
        rintro rfl
        exact h rfl
    · exact absurd rfl h
  · rintro ⟨link, len, bytes, rfl, hb⟩
    cases bytes with
    | nil => exact absurd rfl hb
    | cons b bs => exact List.cons_ne_nil _ _

end Stream

namespace StreamSession

open Redial.Stream

variable {setup : Setup} {m m' : Moment}

/-- What an unfinished call has taken is what it holds, and it is from the connection in use. -/
structure Moment.Accounted (m : Moment) : Prop where
  known : ∀ i, ∀ e ∈ m.journal.deliveries i, e.1 < m.actions.length
  taken : ∀ k c, ⟨k, c⟩ ∈ m.machine.tasks → ∀ i,
    m.journal.takenBy k i = if i = m.state.memory.current then Call.held k c else []

theorem Moment.Accounted.act (h : m.Accounted) {action : Session.Action} {machine : StreamMachine}
    (ha : Acts m action machine) : Moment.Accounted ⟨m.actions ++ [action], machine⟩ := by
  obtain ⟨-, hdeliveries, -⟩ := ha.inbound
  have htaken : ∀ k i, machine.env.world.journal.takenBy k i = m.journal.takenBy k i := by
    intro k i
    unfold Journal.takenBy
    rw [hdeliveries]
  refine ⟨fun i e he => ?_, fun k c hk i => ?_⟩
  · have hlt := h.known i e (hdeliveries i ▸ he)
    exact Nat.lt_of_lt_of_le hlt (List.length_append ▸ Nat.le_add_right _ _)
  · show machine.env.world.journal.takenBy k i =
      if i = machine.env.memory.current then c.held k else []
    rw [htaken, ha.sameGuarded.current]
    rcases ha.mem_tasks hk with hk | ⟨request, -, rfl, rfl⟩
    · exact h.taken k c hk i
    · -- Nobody has had the number of the new call before.
      have hnone : m.journal.takenBy m.actions.length i = [] := by
        refine List.filter_eq_nil_iff.mpr fun e he => ?_
        have hne := Nat.ne_of_lt (h.known i e he)
        simpa using hne
      rw [hnone]
      exact (ite_self _).symm

theorem Moment.Accounted.step (h : m.Accounted) (hm : Reachable oneReader setup m) {k : TaskId}
    {c : Call} {s₁ : State} {l : Lock} {p : Progress Call Outcome}
    (hk : ⟨k, c⟩ ∈ m.machine.tasks) (he : Effect k m.state c s₁ p) :
    Moment.Accounted ⟨m.actions, m.machine.advance k (s₁.withLock l) p⟩ := by
  obtain ⟨new, hf⟩ := he.flows hm.sound (hm.phase hk) (hm.placed hk)
  have hmine : ∀ e ∈ new, e.1 = k := by
    intro e hnew
    refine fst_of_mem_passedOn (p := p) ?_
    rw [hf.passed]
    exact List.mem_append_right _ hnew
  have hlt : k < m.actions.length := hm.numbered.lt k (List.mem_map_of_mem hk)
  have htaken : ∀ j i, s₁.world.journal.takenBy j i = m.journal.takenBy j i ++
      if i = m.state.memory.current ∧ j = k then new else [] := by
    intro j i
    unfold Journal.takenBy
    rw [hf.deliveries, List.filter_append]
    by_cases hi : i = m.state.memory.current
    · by_cases hj : j = k
      · have hall : new.filter (·.1 = j) = new := by
          refine List.filter_eq_self.mpr fun e hnew => ?_
          simpa [hj] using hmine e hnew
        rw [if_pos hi, if_pos ⟨hi, hj⟩, hall]
      · have hnone : new.filter (·.1 = j) = [] := by
          refine List.filter_eq_nil_iff.mpr fun e hnew => ?_
          have hid := hmine e hnew
          simp [hid, Ne.symm hj]
        rw [if_pos hi, if_neg fun hand => hj hand.2, hnone]
    · rw [if_neg hi, if_neg fun hand => hi hand.1]
      rfl
  refine ⟨fun i e hmem => ?_, fun j d hj i => ?_⟩
  · unfold Moment.journal at hmem
    rw [Machine.env_advance] at hmem
    have hmem' : e ∈ s₁.world.journal.deliveries i := hmem
    rw [hf.deliveries, List.mem_append] at hmem'
    rcases hmem' with hold | hnew
    · exact h.known i e hold
    · split at hnew
      · rw [hmine e hnew]
        exact hlt
      · cases hnew
  · unfold Moment.journal Moment.state
    rw [Machine.env_advance]
    show s₁.world.journal.takenBy j i = if i = s₁.memory.current then d.held j else []
    rw [htaken]
    rcases Machine.mem_advance hj with ⟨c', rfl, hc'⟩ | ⟨hj, hjk⟩
    · cases hc'
      have hpassed : d.held k = c.held k ++ new := hf.passed
      rw [h.taken k c hk i]
      rcases hf.current with hcur | ⟨-, -, hnone, -⟩
      · rw [hcur, hpassed]
        by_cases hi : i = m.state.memory.current
        · rw [if_pos hi, if_pos ⟨hi, rfl⟩, if_pos hi]
        · rw [if_neg hi, if_neg fun hand => hi hand.1, if_neg hi]
          rfl
      · have hnothing : d.held k = [] := hnone
        obtain ⟨hheld, hnew⟩ := List.append_eq_nil_iff.mp (hpassed.symm.trans hnothing)
        rw [hheld, hnew, hnothing, ite_self, ite_self, ite_self]
        rfl
    · rw [if_neg fun hand => hjk hand.2, List.append_nil, h.taken j d hj i]
      rcases hf.current with hcur | ⟨hsecond, hfirst, hnone, -⟩
      · rw [hcur]
      · -- Another call than the reader holds nothing.
        have hread : c.isRead = true := by
          rw [← Bool.not_eq_false]
          intro hc
          obtain ⟨hcur, -, -⟩ := he.of_not_read hc
          rw [hcur, hfirst] at hsecond
          cases hsecond
        have hd : d.isRead = false := by
          rw [← Bool.not_eq_true]
          intro hd
          exact hjk (hm.single k c j d hk hj hread hd)
        rw [Call.held_of_not_read hd, ite_self, ite_self]

theorem Reachable.accounted (h : Reachable oneReader setup m) : m.Accounted := by
  refine Reachable.induction (P := Moment.Accounted) h ?_ ?_
  · intro s hs
    obtain ⟨now, script, timeout, -, -, -, hj⟩ := opening_eq_opened hs
    refine ⟨fun i e he => ?_, fun k c hk => absurd hk List.not_mem_nil⟩
    have hnone : (Moment.first s).journal.deliveries i = [] := by
      show s.world.journal.deliveries i = []
      rw [hj]
      rfl
    rw [hnone] at he
    cases he
  · intro m m' hm ha hn
    rcases hn.split with ⟨action, machine, -, hact, rfl⟩ | ⟨k, c, s, p, hk, hstep, rfl⟩
    · exact ha.act hact
    · obtain ⟨s₁, l, he, -, rfl⟩ := does_of_step hstep
      exact ha.step hm hk he

/-- At a quiet moment the only read waits for the lock while another call holds it that waits for
the connection in use. -/
theorem Moment.Quiet.heldUp (hq : m.Quiet) (h : Reachable oneReader setup m) {k : TaskId}
    {errand : Errand} (hk : ⟨k, .queued errand⟩ ∈ m.machine.tasks) (hr : errand.kind = .read) :
    m.HeldUp k := by
  refine ⟨⟨errand, hk, hr⟩, hq.stalled h hk fun j d hj hjk _ => ?_⟩
  rw [← Bool.not_eq_true]
  intro hread
  exact hjk (h.single k _ j d hk hj (congrArg Kind.isRead hr) hread)

/-- With one read at a time, an unfinished read has taken just what it holds. It holds something
only while it waits for the lock to settle the question with it, and at a quiet moment it waits
there only for a write or a request to shut a half, which holds the lock while it waits for the
connection in use. So nothing is lost just if no read is dropped while it holds something; and then
what reads have returned is all that was taken from the final connection. -/
theorem nothing_lost_iff {setup : Setup} {m : Moment} (h : Reachable oneReader setup m) :
    (∀ k c, ⟨k, c⟩ ∈ m.machine.tasks → ∀ i,
      m.journal.takenBy k i = if i = m.state.memory.current then Call.held k c else []) ∧
    (∀ k c, ⟨k, c⟩ ∈ m.machine.tasks → Call.held k c ≠ [] →
      m.state.isDecided = false ∧
      (∃ link len bytes, c = .queued (.judge link len (.ok bytes))) ∧ (m.Quiet → m.HeldUp k)) ∧
    (m.Lossless ↔ Reachable sparingReader setup m) ∧
    (Reachable sparingReader setup m → ∀ link, m.state.finalLink? = some link →
      m.returned = m.journal.deliveries link) := by
  refine ⟨h.accounted.taken, fun k c hk hheld => ?_, h.lossless_iff, fun hsparing link hlink => ?_⟩
  · obtain ⟨link, len, bytes, rfl, -⟩ := Call.held_ne_nil_iff.mp hheld
    exact ⟨(h.placed hk).2, ⟨link, len, bytes, rfl⟩, fun hq => hq.heldUp h hk rfl⟩
  · have hpassed := (h.lossless_iff.mpr hsparing).passed
    have hheld := h.held_of_decided (State.isDecided_iff.mpr ⟨link, hlink⟩)
    rw [hheld, List.append_nil, ← h.sound.final link hlink] at hpassed
    exact hpassed

theorem nothing_lost_after_dropped_retry : ∃ m m', Reachable oneReader resetSession m ∧
    m.state.memory.retried = true ∧ (∃ t ∈ m.machine.tasks, t.id = 1) ∧
    m.journal.takenBy 1 secondLink = [] ∧
    Reachable sparingReader resetSession m' ∧ m'.returned = [(3, [9])] ∧
    m'.journal.deliveries secondLink = [(3, [9])] := by
  have hm : ∃ m, resetSession.played [.call (.write [1, 2, 3]), .call (.read 4)] = some m ∧
      m.state.memory.retried = true ∧
      ∃ t ∈ m.machine.tasks, t.id = 1 ∧ t.call.held t.id = [] := by
    refine ⟨_, rfl, ?_, ?_⟩
    · decide +kernel
    · decide +kernel
  have hm' : ∃ m, resetSession.played [.call (.write [1, 2, 3]), .call (.read 4), .cancel 1,
      .call (.read 4), reply] = some m ∧ m.state.finalLink? = some secondLink ∧
      m.returned = [(3, [9])] := by
    refine ⟨_, rfl, ?_, ?_⟩
    · decide +kernel
    · decide +kernel
  obtain ⟨m, hplayed, hretried, ⟨_, c⟩, hk, rfl, hheld⟩ := hm
  obtain ⟨m', hplayed', hfinal, hreturned⟩ := hm'
  have h : Reachable oneReader resetSession m := reachable_of_played (by decide +kernel) hplayed
  have hsparing : Reachable sparingReader resetSession m' :=
    reachable_of_played (by decide +kernel) hplayed'
  have h' : Reachable oneReader resetSession m' :=
    hsparing.mono fun _ _ => oneReader_of_sparingReader
  obtain ⟨htaken, -, -, -⟩ := nothing_lost_iff h
  obtain ⟨-, -, -, hall⟩ := nothing_lost_iff h'
  have hnothing : m.journal.takenBy 1 secondLink = [] := by
    rw [htaken 1 c hk secondLink, show c.held 1 = [] from hheld, ite_self]
  exact ⟨m, m', h, hretried, ⟨⟨1, c⟩, hk, rfl⟩, hnothing, hsparing, hreturned,
    (hall hsparing _ hfinal).symm.trans hreturned⟩

/-- A session whose first connection sends a byte when one gate is opened and takes the first write
when another one is. -/
def heldReadSession : Setup :=
  .localhost 1
    [dialledAtOnce { LinkScript.silent with
      reads := [⟨some "read", .data [9]⟩]
      writes := [⟨some "write", .usual⟩] }]

/-- A read that is dropped while a write holds the lock loses what it has taken, although no retry
has been started: the next read returns what follows. -/
theorem byte_lost_with_dropped_read : ∃ m, Reachable oneReader heldReadSession m ∧
    m.state.memory.retried = false ∧ m.state.finalLink? = some firstLink ∧
    m.returned = [(5, [8])] ∧ m.journal.deliveries firstLink = [(0, [9]), (5, [8])] := by
  have hm : ∃ m, heldReadSession.played [.call (.read 4), .call (.write [1]), .openGate "read",
      .cancel 0, .openGate "write", .call (.read 4),
      .feed 0 { LinkScript.silent with reads := [⟨none, .data [8]⟩] }] = some m ∧
      m.state.memory.retried = false ∧ m.state.finalLink? = some firstLink ∧
      m.returned = [(5, [8])] ∧ m.journal.deliveries firstLink = [(0, [9]), (5, [8])] := by
    refine ⟨_, rfl, ?_, ?_, ?_, ?_⟩
    · decide +kernel
    · decide +kernel
    · decide +kernel
    · decide +kernel
  obtain ⟨m, hplayed, hstate⟩ := hm
  exact ⟨m, reachable_of_played (by decide +kernel) hplayed, hstate⟩

end StreamSession

end Redial
