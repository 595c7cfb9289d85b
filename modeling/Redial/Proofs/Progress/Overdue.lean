import Redial.Proofs.Stream.Waiting

/-!
# Overdue replies

When the deadline of the connection in use has passed, a read on it ends with a fault, and the fault
leads to the retry as soon as the read has the lock. A write, or a request to shut a half, holds the
lock while it waits for the connection in use, and a read that comes to the lock meanwhile waits
with it, however long the reply is overdue. Nothing else keeps it waiting
(`overdue_read_held_up_iff`).
-/

namespace Redial

theorem Link.read_of_overdue {l : Link} {now : Instant} (h : l.overdue now = true)
    (opened : List Gate) (len : Nat) : l.read now opened len ≠ none := by
  have hwait : l.waitForData now ≠ none := by
    unfold waitForData
    rw [if_pos h]
    exact Option.some_ne_none _
  -- Every branch comes to an end, or waits for data.
  unfold read
  repeat' split
  all_goals first
    | exact Option.some_ne_none _
    | exact hwait

namespace World

variable {w : World} {i : LinkId}

/-- Whether the read deadline of a connection has passed. -/
def isOverdue (w : World) (i : LinkId) : Bool := (w.link? i).any (·.overdue w.now)

theorem read_of_overdue (h : w.isOverdue i = true) (task : TaskId) (len : Nat) :
    w.read i task len ≠ none := by
  unfold isOverdue at h
  cases hl : w.link? i with
  | none =>
    rw [hl] at h
    cases h
  | some l =>
    rw [hl] at h
    obtain ⟨⟨l', r⟩, hr⟩ := Option.ne_none_iff_exists'.mp (Link.read_of_overdue h w.opened len)
    unfold read
    simp [hl, hr]

end World

namespace Stream

/-- Whether a read waits for the lock to bring a fault. -/
def Call.bringsFault : Call → Bool
  | queued (.judge _ _ (.error _)) => true
  | _ => false

variable {k : TaskId} {s s₁ : State} {c : Call} {p : Progress Call Outcome}

theorem Call.eq_queued_of_bringsFault (h : c.bringsFault = true) :
    ∃ errand, c = .queued errand ∧ errand.kind = .read := by
  cases c with
  | queued errand =>
    cases errand with
    | judge link len r => exact ⟨_, rfl, rfl⟩
    | _ => cases h
  | _ => cases h

theorem Effect.retried (h : Effect k s c s₁ p) (hs : s.Sound) (ht : s.memory.retried = true) :
    s₁.memory.retried = true := by
  cases h with
  | @asksShut half => cases half <;> exact ht
  | retries =>
    obtain ⟨l, hl⟩ := hs.current_isSome
    rw [beginRetry_eq hl]
  | _ => exact ht

/-- A read that brings a fault starts the retry, or it is done. -/
theorem Effect.of_bringsFault (h : Effect k s c s₁ p) (hs : s.Sound) (hc : c.bringsFault = true) :
    s₁.memory.retried = true ∨ ∃ o, p = .done o := by
  cases h with
  | passes h =>
    cases h with
    | bringLate => exact Or.inr ⟨_, rfl⟩
    | _ => cases hc
  | settlesOnFault => exact Or.inr ⟨_, rfl⟩
  | retries =>
    obtain ⟨l, hl⟩ := hs.current_isSome
    rw [beginRetry_eq hl]
    exact Or.inl rfl
  | _ => cases hc

end Stream

namespace StreamSession

open Redial.Stream

variable {rule : Rule} {setup : Setup} {m m' : Moment}

/-- The reply on the connection in use is overdue, and no retry has been attempted. -/
structure Moment.Overdue (m : Moment) : Prop where
  passed : m.state.world.isOverdue m.state.memory.current = true
  unretried : m.state.memory.retried = false
  unsettled : m.state.isDecided = false

/-- At a quiet moment a read that is unfinished although the reply is overdue waits for the lock. -/
theorem Moment.Overdue.isQueued (ho : m.Overdue) (hq : m.Quiet) (h : Reachable rule setup m)
    {k : TaskId} {c : Call} (hk : ⟨k, c⟩ ∈ m.machine.tasks) (hr : c.isRead = true) :
    ∃ errand, c = .queued errand ∧ errand.kind = .read := by
  have hphase := h.phase hk
  have hblocked := hq.step_eq_none h hk
  cases c with
  | queued errand => exact ⟨errand, rfl, Kind.eq_read_of_isRead hr⟩
  | start request => cases hblocked
  | reading link len =>
    -- The connection that it looked up is still in use, so the read meets the deadline.
    have hfirst := h.sound.current_eq_first ho.unretried
    have hlink : link = m.state.memory.current := by
      rcases hphase with hl | hl
      · exact hl.trans hfirst.symm
      · exact hl
    obtain ⟨⟨w, r⟩, hw⟩ := Option.ne_none_iff_exists'.mp
      (World.read_of_overdue ho.passed k len)
    rw [← hlink] at hw
    simp [Call.step, hw] at hblocked
  | redialling | replaying | reshutting | answering =>
    have ht := (hphase.of_holds h.sound rfl rfl).1
    rw [ho.unretried] at ht
    cases ht
  | bare link call =>
    have hd : m.state.isDecided = true := State.isDecided_iff.mpr ⟨link, hphase.1⟩
    rw [ho.unsettled] at hd
    cases hd
  | _ => cases hr

theorem Moment.Next.retried (hn : m.Next rule m') (h : Reachable rule setup m)
    (ht : m.state.memory.retried = true) : m'.state.memory.retried = true := by
  rcases hn.split with ⟨action, machine, -, ha, rfl⟩ | ⟨k, c, s, p, -, hstep, rfl⟩
  · exact ha.sameGuarded.retried.trans ht
  · obtain ⟨s₁, l, he, -, rfl⟩ := does_of_step hstep
    rw [Moment.state_advance]
    exact he.retried h.sound ht

/-- A retry that has been attempted stays so. -/
theorem Moment.Leads.retried (hl : m.Leads rule m') (h : Reachable rule setup m)
    (ht : m.state.memory.retried = true) : m'.state.memory.retried = true :=
  Moment.Leads.keeps (P := fun m => m.state.memory.retried = true) hl h ht
    fun _ _ h₁ ht₁ hn => hn.retried h₁ ht₁

/-- A read that brings a fault waits for the lock until it is dropped or done, or a retry is
attempted. -/
theorem Moment.Leads.brings (hl : m.Leads rule m') (h : Reachable rule setup m) {k : TaskId}
    {c : Call} (hk : ⟨k, c⟩ ∈ m.machine.tasks) (hc : c.bringsFault = true) :
    (∃ d, ⟨k, d⟩ ∈ m'.machine.tasks ∧ Call.bringsFault d = true) ∨
      .cancel k ∈ m'.actions.drop m.actions.length ∨
      (m'.state.memory.retried = true ∨ ∃ o, (k, o) ∈ m'.machine.finished) := by
  refine hl.stays (L := fun c => c.bringsFault = true)
    (Q := fun m => m.state.memory.retried = true ∨ ∃ o, (k, o) ∈ m.machine.finished) h hk hc ?_ ?_
  · intro m₁ d s₁ l p h₁ hd hbrings he
    refine Or.inr ?_
    rw [Moment.state_advance]
    rcases he.of_bringsFault h₁.sound hbrings with ht | ⟨o, rfl⟩
    · exact Or.inl ht
    · exact Or.inr ⟨o, List.mem_cons_self⟩
  · intro m₁ m₂ h₁ hQ hn
    exact hQ.imp (hn.retried h₁) fun ⟨o, ho⟩ => ⟨o, hn.finished.subset ho⟩

/-- When the reply is overdue and no retry has been attempted, at a quiet moment the unfinished
reads are those that a write or a request to shut a half holds up, while it waits for the connection
in use. A read that brings a fault, such as the deadline, is not held up by anything else: at a
quiet moment at which no such call waits, it has led to the retry, unless it has been done or
dropped. -/
theorem overdue_read_held_up_iff {setup : Setup} {m : Moment} (h : Reachable anything setup m) :
    (m.Quiet → m.Overdue → ∀ k,
      (∃ c, ⟨k, c⟩ ∈ m.machine.tasks ∧ Call.isRead c = true) ↔ m.HeldUp k) ∧
    ∀ k c, ⟨k, c⟩ ∈ m.machine.tasks → Call.bringsFault c = true →
      ∀ m', m.Leads anything m' → m'.Quiet →
        (∀ j d, ⟨j, d⟩ ∈ m'.machine.tasks → ¬Call.Stalls j m'.state d) →
        m'.state.memory.retried = true ∨ (∃ o, (k, o) ∈ m'.machine.finished) ∨
          .cancel k ∈ m'.actions.drop m.actions.length := by
  refine ⟨fun hq ho k => ⟨?_, ?_⟩, fun k c hk hc m' hl hq' hstalls => ?_⟩
  · rintro ⟨c, hk, hr⟩
    obtain ⟨errand, rfl, hkind⟩ := ho.isQueued hq h hk hr
    exact ⟨⟨errand, hk, hkind⟩, hq.stalled_of_unretried h ho.unretried hk⟩
  · rintro ⟨⟨errand, hk, hkind⟩, -⟩
    exact ⟨_, hk, congrArg Kind.isRead hkind⟩
  · rcases hl.brings h hk hc with ⟨d, hd, hbrings⟩ | hdropped | ht | hdone
    · cases ht : m'.state.memory.retried with
      | true => exact Or.inl rfl
      | false =>
        obtain ⟨errand, rfl, -⟩ := Call.eq_queued_of_bringsFault hbrings
        obtain ⟨j, e, hj, -, he⟩ := hq'.stalled_of_unretried (h.leads hl) ht hd
        exact absurd he (hstalls j e hj)
    · exact Or.inr (Or.inr hdropped)
    · exact Or.inl ht
    · exact Or.inr (Or.inl hdone)

/-- A session whose first connection answers a request to shut its write half only when a gate is
opened, and whose second one is silent. -/
def heldShutSession : Setup :=
  .localhost 1
    [dialledAtOnce { LinkScript.silent with writeShuts := [⟨some "shut", none⟩] },
      dialledAtOnce .silent]

theorem overdue_read_held_up_by_half_close : ∃ m m', Reachable anything heldShutSession m ∧
    m.Quiet ∧ m.Overdue ∧ m.HeldUp 0 ∧ m.Leads anything m' ∧ m'.state.memory.retried = true := by
  have hm : ∃ m, heldShutSession.played [.call (.read 4), .call (.write [1]),
      .call (.shut .write), .elapse 1200000000] = some m ∧ m.Quiet ∧
      m.state.world.isOverdue m.state.memory.current = true ∧ m.state.memory.retried = false ∧
      m.state.isDecided = false ∧
      (∃ t ∈ m.machine.tasks, t.id = 0 ∧ t.call.isRead = true ∧ t.call.bringsFault = true) ∧
      (m.next (.openGate "shut")).Quiet ∧
      (∀ t ∈ (m.next (.openGate "shut")).machine.tasks,
        ¬t.call.Stalls t.id (m.next (.openGate "shut")).state) ∧
      (∀ t ∈ (m.next (.openGate "shut")).machine.finished, t.1 ≠ 0) ∧
      (m.next (.openGate "shut")).actions.drop m.actions.length = [.openGate "shut"] := by
    refine ⟨_, rfl, ?_, ?_, ?_, ?_, ?_, ?_, ?_, ?_, ?_⟩
    · decide +kernel
    · decide +kernel
    · decide +kernel
    · decide +kernel
    · decide +kernel
    · decide +kernel
    · decide +kernel
    · decide +kernel
    · decide +kernel
  obtain ⟨m, hplayed, hq, hpassed, ht, hd, ⟨⟨_, c⟩, hk, rfl, hr, hc⟩, hq', hstalls, hunfinished,
    hactions⟩ := hm
  have h : Reachable anything heldShutSession m :=
    reachable_of_played (Setup.keeps_anything _ _) hplayed
  have hl : m.Leads anything (m.next (.openGate "shut")) := Moment.leads_next trivial
  have ho : m.Overdue := ⟨hpassed, ht, hd⟩
  obtain ⟨hiff, hgoesOn⟩ := overdue_read_held_up_iff h
  have hretried := hgoesOn 0 c hk hc _ hl hq' fun j e hj => hstalls ⟨j, e⟩ hj
  rw [hactions] at hretried
  refine ⟨m, _, h, hq, ho, (hiff hq ho 0).mp ⟨c, hk, hr⟩, hl, hretried.resolve_right ?_⟩
  rintro (⟨o, hdone⟩ | hdropped)
  · exact hunfinished _ hdone rfl
  · exact absurd hdropped (by decide)

/-- A session whose first connection holds up every write after the first one. -/
def heldWriteSession : Setup :=
  .localhost 1
    [dialledAtOnce { LinkScript.silent with
      writes := [⟨none, .usual⟩, ⟨some "write", .usual⟩] }]

/-- A write that waits for the connection in use keeps an overdue read from the retry: nothing
happens any more, although the deadline has passed and the read is unfinished. -/
theorem overdue_read_starved_by_write : ∃ m, Reachable anything heldWriteSession m ∧ m.Quiet ∧
    m.state.isDecided = false ∧ m.state.memory.retried = false ∧
    m.state.world.isOverdue m.state.memory.current = true ∧
    ∃ t ∈ m.machine.tasks, t.call.isRead = true := by
  have hm : ∃ m, heldWriteSession.played [.call (.read 4), .call (.write [1]),
      .call (.write [2]), .elapse 1200000000] = some m ∧ m.Quiet ∧ m.state.isDecided = false ∧
      m.state.memory.retried = false ∧
      m.state.world.isOverdue m.state.memory.current = true ∧
      ∃ t ∈ m.machine.tasks, t.call.isRead = true := by
    refine ⟨_, rfl, ?_, ?_, ?_, ?_, ?_⟩
    · decide +kernel
    · decide +kernel
    · decide +kernel
    · decide +kernel
    · decide +kernel
  obtain ⟨m, hplayed, hstate⟩ := hm
  exact ⟨m, reachable_of_played (Setup.keeps_anything _ _) hplayed, hstate⟩

end StreamSession

end Redial
