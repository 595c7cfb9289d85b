import Redial.Proofs.Delivery.Outbound
import Redial.Proofs.Stream.Halves
import Redial.Proofs.Stream.Waiting

/-!
# Writes while the retry waits for the reply

A retry that has replayed the hello holds the lock until the reply has come, and only then the
question is settled. Until then every write waits, for the lock or for the question to be settled,
unless it is a copy that waits for its source. The wait is bounded by the read of the reply: however
that read ends, the question is settled on the second connection by the step that ends it. After
that no write waits for the question, nor for the lock unless a request to shut a half holds it
(`writes_wait_for_reply`).
-/

namespace Redial

namespace Stream

/-- Whether a retry waits for the reply. -/
def Call.isAnswering : Call → Bool
  | answering _ => true
  | _ => false

theorem Call.eq_answering {c : Call} (h : c.isAnswering = true) : ∃ len, c = .answering len := by
  cases c with
  | answering len => exact ⟨len, rfl⟩
  | _ => cases h

/-- Whether a write waits for other calls: for the lock, or for the question to be settled. -/
def Call.isHeldBack : Call → Bool
  | queued (.send ..) => true
  | awaiting .. => true
  | _ => false

/-- Whether a copy waits for its source. -/
def Call.isPulling : Call → Bool
  | pulling .. => true
  | _ => false

/-- Only the retry ends the read of its reply, and it settles the question on the second
connection then. -/
theorem Effect.answering {k : TaskId} {s s₁ : State} {len : Nat} {p : Progress Call Outcome}
    (h : Effect k s (.answering len) s₁ p) (hc : Call.Phase s (.answering len)) :
    s₁.finalLink? = some secondLink := by
  obtain ⟨hcur, hd⟩ := hc
  cases h with
  | passes h => cases h
  | @answers _ w r hr =>
    have hsettled : (s.withWorld w).settle.finalLink? = some (s.withWorld w).memory.current :=
      State.finalLink?_settle hd
    exact hsettled.trans (congrArg some hcur)

end Stream

namespace StreamSession

open Redial.Stream

variable {rule : Rule} {setup : Setup} {m m' : Moment}

/-- While a retry waits for the reply, it holds the lock and the question is open. -/
theorem Reachable.answering (h : Reachable rule setup m) {k : TaskId} {len : Nat}
    (hk : ⟨k, .answering len⟩ ∈ m.machine.tasks) :
    m.state.memory.lock.holder? = some k ∧ m.state.isDecided = false :=
  ⟨h.holder hk rfl, (h.phase hk).2⟩

/-- While the retry waits for the reply, every write waits. -/
theorem Moment.Quiet.heldBack (hq : m.Quiet) (h : Reachable rule setup m) {k j : TaskId}
    {len : Nat} {d : Call} (hk : ⟨k, .answering len⟩ ∈ m.machine.tasks)
    (hj : ⟨j, d⟩ ∈ m.machine.tasks) (hd : d.kind = .write) :
    d.isHeldBack = true ∨ d.isPulling = true := by
  obtain ⟨hholder, hopen⟩ := h.answering hk
  have hnone : m.state.finalLink? = none := State.isDecided_eq_false_iff.mp hopen
  have hblocked := hq.step_eq_none h hj
  have hphase := h.phase hj
  cases d with
  | queued errand =>
    cases errand with
    | send goal buf => exact Or.inl rfl
    | _ => cases hd
  | awaiting => exact Or.inl rfl
  | pulling => exact Or.inr rfl
  | sending goal buf =>
    have hjk : j = k := Option.some.inj ((h.holder hj rfl).symm.trans hholder)
    subst hjk
    cases Machine.call_unique h.numbered.nodup hk hj
  | sendingTo link goal buf =>
    rw [show m.state.finalLink? = some link from hphase] at hnone
    cases hnone
  | bare link call =>
    rw [show m.state.finalLink? = some link from hphase.1] at hnone
    cases hnone
  | start request => cases hblocked
  | looking => cases hblocked
  | _ => cases hd

/-- The read of the reply goes on until it settles the question or is dropped. -/
theorem Moment.Leads.answering (hl : m.Leads rule m') (h : Reachable rule setup m) {k : TaskId}
    {len : Nat} (hk : ⟨k, .answering len⟩ ∈ m.machine.tasks) :
    ⟨k, .answering len⟩ ∈ m'.machine.tasks ∨
      .cancel k ∈ m'.actions.drop m.actions.length ∨ m'.state.finalLink? = some secondLink := by
  have hstays := hl.stays (L := (· = .answering len))
    (Q := fun m => m.state.finalLink? = some secondLink) h hk rfl ?_ ?_
  · rcases hstays with ⟨d, hd, rfl⟩ | hrest
    · exact Or.inl hd
    · exact Or.inr hrest
  · rintro m₁ _ s₁ l p h₁ hk₁ rfl he
    refine Or.inr ?_
    rw [Moment.state_advance]
    exact he.answering (h₁.phase hk₁)
  · intro m₁ m₂ h₁ hfinal hn
    have hd : m₁.state.isDecided = true := State.isDecided_iff.mpr ⟨_, hfinal⟩
    exact (hn.sameGuarded h₁ hd).finalLink?.trans hfinal

/-- Once the question is settled, only a request to shut a half can keep a call waiting for the
lock. -/
theorem Moment.Quiet.shutting_holds (hq : m.Quiet) (h : Reachable rule setup m)
    (hd : m.state.isDecided = true) {j : TaskId} {errand : Errand}
    (hj : ⟨j, .queued errand⟩ ∈ m.machine.tasks) :
    ∃ i half, ⟨i, .shutting half⟩ ∈ m.machine.tasks ∧ m.state.memory.lock.holder? = some i ∧
      m.state.world.shut m.state.memory.current half = none := by
  obtain ⟨i, e, hi, hholder, -, hholds, hblocked⟩ := hq.holder h hj
  have hplace := (h.phase hi).not_provisional hd
  cases e with
  | shutting half => exact ⟨i, half, hi, hholder, Call.stalls_of_blocked rfl rfl hblocked⟩
  | redialling | replaying | reshutting | answering | sending => cases hplace
  | _ => cases hholds

/-- While a retry waits for the reply, the second connection has accepted all that callers have
written, and its halves are shut that were shut on the first one. The retry holds the lock and the
question is open, so at a quiet moment every write waits for one of them, copies that wait for their
source apart. That is how it stays until the retry is dropped or its read ends, and the step that
ends the read settles the question on the second connection. At a quiet moment after that, no write
waits for the question to be settled, and one that waits for the lock waits for a request to shut a
half, which holds the lock while it waits for the connection. -/
theorem writes_wait_for_reply {setup : Setup} {m : Moment} (h : Reachable anything setup m)
    {k : TaskId} {len : Nat} (hk : ⟨k, .answering len⟩ ∈ m.machine.tasks) :
    m.journal.bytesAccepted secondLink = m.journal.acknowledged ∧
    (∀ half, m.state.Recovered half) ∧
    m.state.memory.lock.holder? = some k ∧ m.state.isDecided = false ∧
    (m.Quiet → ∀ j d, ⟨j, d⟩ ∈ m.machine.tasks → Call.kind d = .write →
      d.isHeldBack = true ∨ d.isPulling = true) ∧
    ∀ m', m.Leads anything m' →
      (⟨k, .answering len⟩ ∈ m'.machine.tasks ∧ m'.state.memory.lock.holder? = some k ∧
          m'.state.isDecided = false ∨
        .cancel k ∈ m'.actions.drop m.actions.length ∨
        m'.state.finalLink? = some secondLink) ∧
      (m'.state.isDecided = true → m'.Quiet →
        (∀ j goal buf waiter, ⟨j, .awaiting goal buf waiter⟩ ∉ m'.machine.tasks) ∧
        ∀ j goal buf, ⟨j, .queued (.send goal buf)⟩ ∈ m'.machine.tasks →
          ∃ i half, ⟨i, .shutting half⟩ ∈ m'.machine.tasks ∧
            m'.state.memory.lock.holder? = some i ∧
            m'.state.world.shut m'.state.memory.current half = none) := by
  have hreplayed : m.replayed = true := List.any_eq_true.mpr ⟨_, hk, rfl⟩
  obtain ⟨hholder, hopen⟩ := h.answering hk
  refine ⟨(h.caught hreplayed).onSecond, fun half => h.recovered hk (by cases half <;> rfl),
    hholder, hopen, fun hq j d hj hd => hq.heldBack h hk hj hd, fun m' hl => ⟨?_, ?_⟩⟩
  · exact (hl.answering h hk).imp_left fun hstill => ⟨hstill, (h.leads hl).answering hstill⟩
  · intro hd hq
    exact ⟨hq.not_awaiting (h.leads hl) hd, fun j goal buf => hq.shutting_holds (h.leads hl) hd⟩

/-- A session whose first connection is reset by its first read and by its second write, and whose
second one is silent. -/
def failedWriteSession : Setup :=
  .localhost 1
    [dialledAtOnce { LinkScript.silent with
      reads := [⟨none, .fault (.ofKind .connectionReset)⟩]
      writes := [⟨none, .usual⟩, ⟨none, .fault (.ofKind .connectionReset)⟩] },
    dialledAtOnce .silent]

theorem writes_wait_for_reply_after_reset : ∃ m, Reachable anything failedWriteSession m ∧
    m.journal.bytesAccepted secondLink = m.journal.acknowledged ∧ m.Quiet ∧
    m.state.memory.lock.holder? = some 2 ∧ m.state.isDecided = false ∧
    (∃ t ∈ m.machine.tasks, t.id = 1 ∧ t.call.isHeldBack = true) ∧
    (m.next reply).Quiet ∧ (m.next reply).state.finalLink? = some secondLink ∧
    ∀ t ∈ (m.next reply).machine.tasks, t.call.isHeldBack = false := by
  have hm : ∃ m, failedWriteSession.played [.call (.write [1]), .call (.write [2]),
      .call (.read 4)] = some m ∧ m.Quiet ∧
      (∃ t ∈ m.machine.tasks, t.id = 2 ∧ t.call.isAnswering = true) ∧
      (∃ t ∈ m.machine.tasks, t.id = 1 ∧ t.call.kind = .write ∧ t.call.isPulling = false) ∧
      (m.next reply).Quiet ∧ (∀ t ∈ (m.next reply).machine.tasks, t.id ≠ 2) ∧
      (m.next reply).actions.drop m.actions.length = [reply] ∧
      (m.next reply).state.memory.lock.holder? = none := by
    refine ⟨_, rfl, ?_, ?_, ?_, ?_, ?_, ?_, ?_⟩
    · decide +kernel
    · decide +kernel
    · decide +kernel
    · decide +kernel
    · decide +kernel
    · decide +kernel
    · decide +kernel
  obtain ⟨m, hplayed, hq, ⟨⟨_, c⟩, hk, rfl, hc⟩, ⟨⟨_, d⟩, hj, rfl, hkind, hpulls⟩, hq', hdone,
    hactions, hfree⟩ := hm
  obtain ⟨len, rfl⟩ := Call.eq_answering hc
  have h : Reachable anything failedWriteSession m :=
    reachable_of_played (Setup.keeps_anything _ _) hplayed
  obtain ⟨haccepted, -, hholder, hopen, hwaits, hends⟩ := writes_wait_for_reply h hk
  have hheld : d.isHeldBack = true ∨ d.isPulling = true := hwaits hq 1 d hj hkind
  rw [hpulls] at hheld
  obtain ⟨hleft, hreleased⟩ := hends (m.next reply) (Moment.leads_next trivial)
  have hsettled := hleft.resolve_left fun hstill => hdone _ hstill.1 rfl
  rw [hactions] at hsettled
  have hfinal := hsettled.resolve_left (by decide)
  obtain ⟨hnone, hqueued⟩ := hreleased (State.isDecided_iff.mpr ⟨_, hfinal⟩) hq'
  refine ⟨m, h, haccepted, hq, hholder, hopen, ⟨⟨1, d⟩, hj, rfl, hheld.resolve_right (by decide)⟩,
    hq', hfinal, ?_⟩
  rintro ⟨j, e⟩ he
  rw [← Bool.not_eq_true]
  intro hback
  cases e with
  | awaiting goal buf waiter => exact hnone j goal buf waiter he
  | queued errand =>
    cases errand with
    | send goal buf =>
      obtain ⟨i, half, -, hholder', -⟩ := hqueued j goal buf he
      rw [hfree] at hholder'
      cases hholder'
    | _ => cases hback
  | _ => cases hback

/-- A retry that waits for the reply keeps writes waiting, one that failed on the first connection
and one that was begun during the retry: nothing happens until the reply comes. -/
theorem writes_starved_by_reply : ∃ m, Reachable anything failedWriteSession m ∧ m.Quiet ∧
    (∃ t ∈ m.machine.tasks, t.call.isAnswering = true) ∧
    m.journal.bytesAccepted secondLink = m.state.memory.hello.bytes ∧
    (∃ t ∈ m.machine.tasks, t.id = 1 ∧ t.call.isHeldBack = true) ∧
    ∃ t ∈ m.machine.tasks, t.id = 3 ∧ t.call.isHeldBack = true := by
  have hm : ∃ m, failedWriteSession.played [.call (.write [1]), .call (.write [2]),
      .call (.read 4), .call (.write [3])] = some m ∧ m.Quiet ∧
      (∃ t ∈ m.machine.tasks, t.call.isAnswering = true) ∧
      m.journal.bytesAccepted secondLink = m.state.memory.hello.bytes ∧
      (∃ t ∈ m.machine.tasks, t.id = 1 ∧ t.call.isHeldBack = true) ∧
      ∃ t ∈ m.machine.tasks, t.id = 3 ∧ t.call.isHeldBack = true := by
    refine ⟨_, rfl, ?_, ?_, ?_, ?_, ?_⟩
    · decide +kernel
    · decide +kernel
    · decide +kernel
    · decide +kernel
    · decide +kernel
  obtain ⟨m, hplayed, hstate⟩ := hm
  exact ⟨m, reachable_of_played (Setup.keeps_anything _ _) hplayed, hstate⟩

end StreamSession

end Redial
