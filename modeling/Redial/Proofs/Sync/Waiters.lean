import Mathlib.Data.List.Induction
import Redial.Proofs.Task.Settling
import Redial.Session.LatchSession

/-!
# Waiting for a latch

A waiter listens to the bell of the latch before it looks, so it sleeps only while the latch is
unset, and the ring that comes with the value wakes all who sleep. A session therefore rests in one
of two ways (`Rests`): with the latch unset and all who wait asleep, or with the latch set and
nobody left waiting. What is reported about a step follows from the steps up to it (`run_eq`).
-/

namespace Redial

namespace LatchSession

/-! ## Who waits -/

/-- What a step makes of the tasks that wait. -/
def Action.waiters (index : Nat) (ks : List TaskId) : Action → List TaskId
  | .wait => ks ++ [index]
  | .cancel task => ks.filter (· != task)
  | _ => ks

/-- The tasks that some steps have started and not dropped, in ascending order. -/
def waiters (actions : List Action) : List TaskId :=
  actions.zipIdx.foldl (fun ks t => t.1.waiters t.2 ks) []

/-- Task `k` was started by one of the steps, and no later one has dropped it. -/
def Waits (actions : List Action) (k : TaskId) : Prop :=
  actions[k]? = some .wait ∧ ∀ j, k < j → actions[j]? ≠ some (.cancel k)

theorem waiters_concat (actions : List Action) (a : Action) :
    waiters (actions ++ [a]) = a.waiters actions.length (waiters actions) := by
  unfold waiters
  rw [List.zipIdx_append, List.foldl_append]
  simp

theorem Waits.lt {actions : List Action} {k : TaskId} (h : Waits actions k) :
    k < actions.length := (List.getElem?_eq_some_iff.mp h.1).1

theorem getElem?_beyond {actions : List Action} {j : Nat} (hj : actions.length < j) (a : Action) :
    (actions ++ [a])[j]? = none :=
  List.getElem?_eq_none (by
    rw [List.length_append]
    exact hj)

theorem waits_concat {actions : List Action} {a : Action} {k : TaskId} :
    Waits (actions ++ [a]) k ↔
      (k = actions.length ∧ a = .wait) ∨ (Waits actions k ∧ a ≠ .cancel k) := by
  constructor
  · rintro ⟨hwait, hkept⟩
    rcases Nat.lt_trichotomy k actions.length with hlt | rfl | hgt
    · right
      rw [List.getElem?_append_left hlt] at hwait
      refine ⟨⟨hwait, fun j hj hcancel => ?_⟩, ?_⟩
      · have hjlt := (List.getElem?_eq_some_iff.mp hcancel).1
        exact hkept j hj ((List.getElem?_append_left hjlt).trans hcancel)
      · rintro rfl
        exact hkept actions.length hlt List.getElem?_concat_length
    · left
      rw [List.getElem?_concat_length] at hwait
      exact ⟨rfl, Option.some.inj hwait⟩
    · rw [getElem?_beyond hgt] at hwait
      cases hwait
  · rintro (⟨rfl, rfl⟩ | ⟨hwaits, ha⟩)
    · refine ⟨List.getElem?_concat_length, fun j hj hcancel => ?_⟩
      rw [getElem?_beyond hj] at hcancel
      cases hcancel
    · refine ⟨(List.getElem?_append_left hwaits.lt).trans hwaits.1, fun j hj hcancel => ?_⟩
      rcases Nat.lt_trichotomy j actions.length with hlt | rfl | hgt
      · rw [List.getElem?_append_left hlt] at hcancel
        exact hwaits.2 j hj hcancel
      · rw [List.getElem?_concat_length] at hcancel
        exact ha (Option.some.inj hcancel)
      · rw [getElem?_beyond hgt] at hcancel
        cases hcancel

theorem mem_waiters_iff {actions : List Action} {k : TaskId} :
    k ∈ waiters actions ↔ Waits actions k := by
  induction actions using List.reverseRecOn with
  | nil =>
    refine ⟨fun h => absurd h List.not_mem_nil, fun h => ?_⟩
    cases h.1
  | append_singleton actions a ih =>
    rw [waiters_concat, waits_concat, ← ih]
    cases a with
    | wait => simp [Action.waiters, or_comm]
    | cancel task =>
      have hne : Action.cancel task ≠ .cancel k ↔ k ≠ task :=
        ⟨fun h heq => h (congrArg _ heq.symm), fun h heq => h (Action.cancel.inj heq).symm⟩
      simp [Action.waiters, hne]
    | close | isClosed => simp [Action.waiters]

theorem sorted_waiters (actions : List Action) : (waiters actions).Pairwise (· < ·) := by
  induction actions using List.reverseRecOn with
  | nil => exact .nil
  | append_singleton actions a ih =>
    rw [waiters_concat]
    cases a with
    | wait =>
      refine List.pairwise_append.mpr ⟨ih, List.pairwise_singleton _ _, fun k hk j hj => ?_⟩
      rw [List.mem_singleton.mp hj]
      exact (mem_waiters_iff.mp hk).lt
    | cancel task => exact ih.filter _
    | close | isClosed => exact ih

/-! ## What the tasks do -/

/-- A latch that has been set once. -/
def closedLatch : Latch Unit := Latch.unset.set ()

/-- A task that has found the latch unset. -/
def asleep (k : TaskId) : Task Waiter := ⟨k, .asleep Bell.silent.listen⟩

theorem map_id_asleep (ks : List TaskId) : (ks.map asleep).map (·.id) = ks := by
  rw [List.map_map]
  exact List.map_id ks

/-- Nobody moves while the latch is unset and everybody sleeps. -/
theorem blocked_of_asleep {ks : List TaskId} {t : Task Waiter} (h : t ∈ ks.map asleep) :
    waiting.step t.id .unset t.call = none := by
  obtain ⟨k, -, rfl⟩ := List.mem_map.mp h
  rfl

theorem quiet_of_asleep (ks : List TaskId) (finished : List (TaskId × Unit)) :
    (⟨.unset, ks.map asleep, finished⟩ : LatchMachine).quiet waiting = true :=
  Machine.quiet_of_blocked fun _ ht => blocked_of_asleep ht

/-- A task that begins to wait for an unset latch falls asleep. -/
theorem settle_of_arriving {ks : List TaskId} {n : TaskId} (hn : (ks ++ [n]).Nodup)
    (finished : List (TaskId × Unit)) :
    (⟨.unset, ks.map asleep ++ [⟨n, .arriving⟩], finished⟩ : LatchMachine).settle waiting =
      ⟨.unset, (ks ++ [n]).map asleep, finished⟩ := by
  generalize hm : (⟨.unset, ks.map asleep ++ [⟨n, .arriving⟩], finished⟩ : LatchMachine) = m
  have hids : m.pending = ks ++ [n] := by
    rw [← hm]
    unfold Machine.pending
    rw [List.map_append, map_id_asleep]
    rfl
  have hothers : ∀ t ∈ ks.map asleep, t.id ≠ n := by
    intro t ht
    obtain ⟨k, hk, rfl⟩ := List.mem_map.mp ht
    exact (List.nodup_append.mp hn).2.2 k hk n (List.mem_singleton_self n)
  have hblocked : ∀ k ∈ ks, m.step waiting k = none := by
    intro k hk
    refine Machine.step_eq_none_of_blocked fun c hc => ?_
    rw [← hm] at hc ⊢
    rcases List.mem_append.mp hc with hc | hc
    · exact blocked_of_asleep hc
    · cases List.mem_singleton.mp hc
      exact absurd rfl (hothers _ (List.mem_map_of_mem hk))
  have hstep : m.step waiting n = some ⟨.unset, (ks ++ [n]).map asleep, finished⟩ := by
    have hmem : ⟨n, .arriving⟩ ∈ m.tasks := by
      rw [← hm]
      exact List.mem_append_right _ (List.mem_singleton_self _)
    have henv : waiting.step n m.env .arriving =
        some (.unset, .goesOn (.asleep Bell.silent.listen)) := by
      rw [← hm]
      rfl
    rw [Machine.step_of_mem (hids ▸ hn) hmem henv, ← hm]
    refine congrArg (fun tasks => some (Machine.mk Latch.unset tasks finished)) ?_
    show Machine.moved n _ (ks.map asleep ++ [⟨n, .arriving⟩]) = _
    unfold Machine.moved
    rw [List.map_append, List.map_append]
    refine congrArg₂ (· ++ ·) (Machine.moved_of_others hothers) ?_
    exact congrArg (fun t => [t]) (if_pos rfl)
  have hpass : ∀ fuel, m.pass waiting (fuel + 1) = ⟨.unset, (ks ++ [n]).map asleep, finished⟩ := by
    -- The tasks before the last one are blocked, so the pass comes down to polling that one.
    intro fuel
    unfold Machine.pass
    rw [hids, List.foldl_append, Machine.foldl_poll_of_blocked hblocked]
    show Machine.poll waiting (fuel + 1) m n = _
    simp only [Machine.poll, hstep]
    exact Machine.poll_of_blocked (Machine.blocked_of_quiet (quiet_of_asleep _ _) n) fuel
  rw [Machine.settle_eq_pass _ (by rfl), hpass]
  rw [hpass]
  exact quiet_of_asleep _ _

/-- Once the latch is set, a task that is polled is released. -/
theorem poll_of_woken {k : TaskId} {c : Waiter} {tasks : List (Task Waiter)}
    {finished : List (TaskId × Unit)} (hn : (k :: tasks.map (·.id)).Nodup)
    (hc : c = .arriving ∨ c = .asleep Bell.silent.listen) (fuel : Nat) :
    Machine.poll waiting (fuel + 2) ⟨closedLatch, ⟨k, c⟩ :: tasks, finished⟩ k =
      ⟨closedLatch, tasks, (k, ()) :: finished⟩ := by
  have hothers : ∀ t ∈ tasks, t.id ≠ k := fun t ht heq =>
    (List.nodup_cons.mp hn).1 (heq ▸ List.mem_map_of_mem ht)
  have hstep : ∀ {c p}, waiting.step k closedLatch c = some (closedLatch, p) →
      Machine.step waiting ⟨closedLatch, ⟨k, c⟩ :: tasks, finished⟩ k =
        some (Machine.advance ⟨closedLatch, ⟨k, c⟩ :: tasks, finished⟩ k closedLatch p) := by
    intro c p hs
    exact Machine.step_of_mem (m := ⟨closedLatch, ⟨k, c⟩ :: tasks, finished⟩) hn
      List.mem_cons_self hs
  have hwoken : Machine.step waiting
      ⟨closedLatch, ⟨k, .asleep Bell.silent.listen⟩ :: tasks, finished⟩ k =
        some ⟨closedLatch, ⟨k, .arriving⟩ :: tasks, finished⟩ := by
    rw [hstep (p := .goesOn .arriving) rfl]
    refine congrArg (fun tasks => some (Machine.mk closedLatch tasks _)) ?_
    show (if k = k then _ else _) :: Machine.moved k _ tasks = _
    rw [if_pos rfl, Machine.moved_of_others hothers]
  have hreleased : Machine.step waiting ⟨closedLatch, ⟨k, .arriving⟩ :: tasks, finished⟩ k =
      some ⟨closedLatch, tasks, (k, ()) :: finished⟩ := by
    rw [hstep (p := .done ()) rfl]
    refine congrArg (fun tasks => some (Machine.mk closedLatch tasks _)) ?_
    show (_ :: tasks).filter _ = tasks
    rw [List.filter_cons_of_neg (by simp)]
    exact Machine.without_of_others hothers
  have hblocked : Machine.step waiting ⟨closedLatch, tasks, (k, ()) :: finished⟩ k = none :=
    Machine.step_eq_none_of_blocked fun c hc => absurd rfl (hothers _ hc)
  rcases hc with rfl | rfl
  · simp only [Machine.poll, hreleased]
    exact Machine.poll_of_blocked hblocked (fuel + 1)
  · simp only [Machine.poll, hwoken, hreleased]
    exact Machine.poll_of_blocked hblocked fuel

theorem foldl_poll_of_woken {tasks : List (Task Waiter)} (hn : (tasks.map (·.id)).Nodup)
    (hc : ∀ t ∈ tasks, t.call = .arriving ∨ t.call = .asleep Bell.silent.listen) (fuel : Nat)
    (finished : List (TaskId × Unit)) :
    (tasks.map (·.id)).foldl (Machine.poll waiting (fuel + 2)) ⟨closedLatch, tasks, finished⟩ =
      ⟨closedLatch, [], (tasks.map fun t => (t.id, ())).reverse ++ finished⟩ := by
  induction tasks generalizing finished with
  | nil => rfl
  | cons t tasks ih =>
    rw [List.map_cons, List.foldl_cons]
    rw [poll_of_woken hn (hc t List.mem_cons_self) fuel]
    rw [ih (List.nodup_cons.mp hn).2 fun u hu => hc u (List.mem_cons_of_mem t hu)]
    simp

/-- Once the latch is set, all tasks are released in ascending order. -/
theorem settle_of_woken {tasks : List (Task Waiter)} (hn : (tasks.map (·.id)).Nodup)
    (hc : ∀ t ∈ tasks, t.call = .arriving ∨ t.call = .asleep Bell.silent.listen)
    (finished : List (TaskId × Unit)) :
    (⟨closedLatch, tasks, finished⟩ : LatchMachine).settle waiting =
      ⟨closedLatch, [], (tasks.map fun t => (t.id, ())).reverse ++ finished⟩ := by
  cases tasks with
  | nil => exact Machine.settle_of_quiet rfl
  | cons t tasks =>
    have hpass := foldl_poll_of_woken hn hc (4 * tasks.length + 3) finished
    rw [Machine.settle_eq_pass (4 * tasks.length + 4)]
    · exact hpass
    · simp [waiting]
      omega
    · rw [show Machine.pass waiting _ _ = _ from hpass]
      rfl

/-! ## What a session tells -/

/-- A machine that rests after some steps. While none of them has closed the latch, all who wait are
asleep; afterwards nobody waits. -/
inductive Rests (actions : List Action) : LatchMachine → Prop where
  | unset {finished} (h : .close ∉ actions) :
      Rests actions ⟨.unset, (waiters actions).map asleep, finished⟩
  | set {finished} (h : .close ∈ actions) : Rests actions ⟨closedLatch, [], finished⟩

/-- What is reported about a step after some others. -/
def told (actions : List Action) (a : Action) : Entry where
  result := match a with
    | .close => some (decide (.close ∉ actions))
    | .isClosed => some (decide (.close ∈ actions))
    | _ => none
  released :=
    if .close ∈ actions then (if a = .wait then [actions.length] else [])
    else if a = .close then waiters actions else []
  pending := if .close ∈ actions ++ [a] then [] else waiters (actions ++ [a])
  closed := decide (.close ∈ actions ++ [a])

/-- What is reported about a step that released the tasks `ks`. -/
theorem entry_of_released (m : LatchMachine) (a : Action) (latch : Latch Unit)
    (tasks : List (Task Waiter)) (ks : List TaskId) :
    entry m ⟨latch, tasks, (ks.map fun k => (k, ())).reverse ++ m.finished⟩ a =
      ⟨answer m a, ks, tasks.map (·.id), latch.isSet⟩ := by
  have hafter : Machine.finishedAfter
      ⟨latch, tasks, (ks.map fun k => (k, ())).reverse ++ m.finished⟩ m.finished.length =
        ks.map fun k => (k, ()) := by
    simp [Machine.finishedAfter]
  unfold entry
  rw [hafter, List.map_map]
  exact congrArg (fun ks => Entry.mk _ ks _ _) (List.map_id ks)

variable {actions : List Action} {m : LatchMachine}

/-- Dropping a task that sleeps leaves the others asleep. -/
theorem cancel_of_asleep (ks : List TaskId) (finished : List (TaskId × Unit)) (k : TaskId) :
    Machine.cancel waiting ⟨.unset, ks.map asleep, finished⟩ k =
      ⟨.unset, (ks.filter (· != k)).map asleep, finished⟩ := by
  have hwithout : Machine.without k (ks.map asleep) = (ks.filter (· != k)).map asleep := by
    unfold Machine.without
    rw [List.filter_map]
    rfl
  have htasks := Machine.tasks_cancel waiting ⟨.unset, ks.map asleep, finished⟩ k
  have henv := Machine.env_cancel waiting ⟨.unset, ks.map asleep, finished⟩ k
  have hfinished := Machine.finished_cancel waiting ⟨.unset, ks.map asleep, finished⟩ k
  generalize Machine.cancel waiting ⟨.unset, ks.map asleep, finished⟩ k = m at *
  obtain ⟨latch, tasks, finished'⟩ := m
  have hlatch : latch = .unset := henv.elim id And.left
  subst hlatch hfinished
  exact congrArg (fun tasks => Machine.mk _ tasks _) (htasks.trans hwithout)

/-- While the latch is unset, the step that closes it releases all who wait, and any other step
leaves all who wait asleep. -/
theorem next_of_unset (actions : List Action) (finished : List (TaskId × Unit)) (a : Action) :
    let m : LatchMachine := ⟨.unset, (waiters actions).map asleep, finished⟩
    next m actions.length a =
      if a = .close then
        ⟨closedLatch, [], ((waiters actions).map fun k => (k, ())).reverse ++ finished⟩
      else ⟨.unset, (waiters (actions ++ [a])).map asleep, finished⟩ := by
  have hnodup (actions) : (waiters actions).Nodup := (sorted_waiters actions).imp Nat.ne_of_lt
  intro m
  rw [waiters_concat]
  cases a with
  | close =>
    refine (settle_of_woken ?_ (fun t ht => ?_) finished).trans ?_
    · rw [map_id_asleep]
      exact hnodup actions
    · obtain ⟨k, -, rfl⟩ := List.mem_map.mp ht
      exact Or.inr rfl
    · rw [List.map_map]
      rfl
  | isClosed => exact Machine.settle_of_quiet (quiet_of_asleep _ _)
  | wait =>
    have hn := hnodup (actions ++ [.wait])
    rw [waiters_concat] at hn
    exact settle_of_arriving hn finished
  | cancel k =>
    show Machine.settle waiting (Machine.cancel waiting _ k) = _
    rw [cancel_of_asleep]
    exact Machine.settle_of_quiet (quiet_of_asleep _ _)

/-- Once the latch is set, nobody waits, and who begins to wait is released at once. -/
theorem next_of_set (finished : List (TaskId × Unit)) (n : Nat) (a : Action) :
    next ⟨closedLatch, [], finished⟩ n a =
      ⟨closedLatch, [],
        ((if a = .wait then [n] else []).map fun k => (k, ())).reverse ++ finished⟩ := by
  cases a with
  | wait =>
    have hnodup : ([(⟨n, .arriving⟩ : Task Waiter)].map (·.id)).Nodup := List.nodup_singleton n
    refine settle_of_woken hnodup (fun t ht => ?_) finished
    rw [List.mem_singleton.mp ht]
    exact Or.inl rfl
  | close | isClosed | cancel _ => exact Machine.settle_of_quiet rfl

/-- The answer of a step tells whether one of those before it has closed the latch. -/
theorem answer_of_rests (h : Rests actions m) (a : Action) :
    answer m a = (told actions a).result := by
  cases h with
  | unset hopen =>
    cases a with
    | close | isClosed => simp [answer, told, hopen, Latch.unset, Latch.isSet]
    | wait | cancel _ => rfl
  | set hset =>
    cases a with
    | close | isClosed => simp [answer, told, hset, closedLatch]
    | wait | cancel _ => rfl

/-- A machine that rests does so again after another step, and the report is the one expected. -/
theorem Rests.next (h : Rests actions m) (a : Action) :
    Rests (actions ++ [a]) (next m actions.length a) ∧
      entry m (LatchSession.next m actions.length a) a = told actions a := by
  have hanswer := answer_of_rests h a
  cases h with
  | @unset finished hopen =>
    rw [next_of_unset actions finished a]
    by_cases ha : a = .close
    · rw [if_pos ha, entry_of_released, hanswer]
      have hset : .close ∈ actions ++ [a] :=
        List.mem_append_right _ (List.mem_singleton.mpr ha.symm)
      refine ⟨.set hset, ?_⟩
      simp [told, hopen, ha, closedLatch]
    · have hstill : .close ∉ actions ++ [a] := by
        rw [List.mem_append, List.mem_singleton]
        exact fun h => h.elim hopen fun h => ha h.symm
      have hentry := entry_of_released ⟨.unset, (waiters actions).map asleep, finished⟩ a .unset
        ((waiters (actions ++ [a])).map asleep) []
      rw [hanswer, map_id_asleep] at hentry
      rw [if_neg ha]
      refine ⟨.unset hstill, hentry.trans ?_⟩
      unfold told
      simp only [if_neg hopen, if_neg ha, if_neg hstill, decide_eq_false hstill]
      rfl
  | @set finished hset =>
    have hstill : .close ∈ actions ++ [a] := List.mem_append_left _ hset
    rw [next_of_set, entry_of_released, hanswer]
    refine ⟨.set hstill, ?_⟩
    unfold told
    simp only [if_pos hset, if_pos hstill, decide_eq_true hstill]
    rfl

theorem length_runFrom (m : LatchMachine) (n : Nat) (later : List Action) :
    (runFrom m n later).length = later.length := by
  induction later generalizing m n with
  | nil => rfl
  | cons a later ih => exact congrArg (· + 1) (ih _ _)

/-- The induction is over the steps to come; those already taken are in `actions`. -/
theorem runFrom_eq (h : Rests actions m) (later : List Action) (i : Nat) :
    (runFrom m actions.length later)[i]? =
      later[i]?.map (told (actions ++ later.take i)) := by
  induction later generalizing actions m i with
  | nil => rfl
  | cons a later ih =>
    obtain ⟨hrests, hentry⟩ := h.next a
    unfold runFrom
    cases i with
    | zero => simp [hentry]
    | succ i =>
      have hrest := ih hrests i
      rw [List.length_append, List.append_assoc] at hrest
      exact hrest

/-- The report of a step tells what the steps before it make of it. -/
theorem run_eq (actions : List Action) (i : Nat) :
    (run actions)[i]? = actions[i]?.map (told (actions.take i)) :=
  runFrom_eq (.unset List.not_mem_nil) actions i

/-! ## One winner and no lost wake-up -/

/-- What the report of step `i` has to tell. -/
structure Entry.Tells (actions : List Action) (i : Nat) (e : Entry) : Prop where
  /-- The latch is set once a step has closed it. -/
  closed_iff : e.closed = true ↔ .close ∈ actions.take (i + 1)
  /-- A step that closes the latch answers whether it is the first to do so. -/
  winner : actions[i]? = some .close → e.result = some (decide (.close ∉ actions.take i))
  /-- A step that looks sees what the steps before it have done. -/
  look : actions[i]? = some .isClosed → e.result = some (decide (.close ∈ actions.take i))
  /-- Nobody is released while the latch is unset. -/
  none_early : e.closed = false → e.released = []
  /-- The step that closes the latch releases all who wait. -/
  all_at_once : actions[i]? = some .close → .close ∉ actions.take i →
    ∀ k, k ∈ e.released ↔ Waits (actions.take i) k
  /-- Afterwards a step releases the task that it starts, and no other. -/
  none_late : .close ∈ actions.take i →
    e.released = if actions[i]? = some .wait then [i] else []
  /-- Tasks are released in ascending order, each once. -/
  ascending : e.released.Pairwise (· < ·)
  /-- A task that has been dropped is not released. -/
  dropped : ∀ j ≤ i, ∀ k < j, actions[j]? = some (.cancel k) → k ∉ e.released
  /-- While the latch is unset, all who wait are pending. -/
  pending_iff : e.closed = false → ∀ k, k ∈ e.pending ↔ Waits (actions.take (i + 1)) k
  /-- Nobody is pending while the latch is set. -/
  none_pending : e.closed = true → e.pending = []

namespace Entry.Tells

variable {i : Nat} {e : Entry} {k : TaskId}

/-- Only who has been started is released, and only once the latch is set. -/
theorem of_released (h : e.Tells actions i) (hk : k ∈ e.released) :
    k ≤ i ∧ .close ∈ actions.take (i + 1) := by
  have hset : .close ∈ actions.take (i + 1) := by
    refine h.closed_iff.mp (Bool.of_not_eq_false fun hopen => ?_)
    rw [h.none_early hopen] at hk
    cases hk
  refine ⟨?_, hset⟩
  by_cases hbefore : .close ∈ actions.take i
  · rw [h.none_late hbefore] at hk
    split at hk
    · exact Nat.le_of_eq (List.mem_singleton.mp hk)
    · cases hk
  · have hclose : actions[i]? = some .close := by
      rw [List.take_add_one, List.mem_append] at hset
      exact Option.mem_toList.mp (hset.resolve_left hbefore)
    have hwaits := (h.all_at_once hclose hbefore k).mp hk
    exact Nat.le_of_lt (Nat.lt_of_lt_of_le hwaits.lt (List.length_take_le i actions))

/-- Who is released in one step is not released in a later one. -/
theorem not_released_later {j : Nat} {e' : Entry} (h : e.Tells actions i) (h' : e'.Tells actions j)
    (hij : i < j) (hk : k ∈ e.released) : k ∉ e'.released := by
  intro hk'
  obtain ⟨hki, hset⟩ := h.of_released hk
  have hbefore : .close ∈ actions.take j :=
    List.take_subset_take_left actions hij hset
  rw [h'.none_late hbefore] at hk'
  split at hk'
  · cases List.mem_singleton.mp hk'
    exact Nat.not_lt_of_le hki hij
  · cases hk'

end Entry.Tells

/-- Those released are all who wait or, once the latch has been set, the task just started. -/
theorem mem_released_told_iff {a : Action} {k : TaskId} :
    k ∈ (told actions a).released ↔
      (.close ∈ actions ∧ a = .wait ∧ k = actions.length) ∨
        (.close ∉ actions ∧ a = .close ∧ Waits actions k) := by
  unfold told
  by_cases hset : .close ∈ actions
  · by_cases ha : a = .wait <;> simp [hset, ha]
  · by_cases ha : a = .close <;> simp [hset, ha, mem_waiters_iff]

/-- The report of a step tells what it has to. -/
theorem tells_told {i : Nat} {a : Action} (ha : actions[i]? = some a) :
    (told (actions.take i) a).Tells actions i := by
  have htake : actions.take (i + 1) = actions.take i ++ [a] := by
    rw [List.take_add_one, ha]
    rfl
  have hlen : (actions.take i).length = i :=
    List.length_take_of_le (Nat.le_of_lt (List.getElem?_eq_some_iff.mp ha).1)
  refine
    { closed_iff := ?_, winner := ?_, look := ?_, none_early := ?_, all_at_once := ?_,
      none_late := ?_, ascending := ?_, dropped := ?_, pending_iff := ?_, none_pending := ?_ }
  · rw [htake]
    exact decide_eq_true_iff
  · intro hclose
    cases ha.symm.trans hclose
    rfl
  · intro hlook
    cases ha.symm.trans hlook
    rfl
  · intro hopen
    have hnever := of_decide_eq_false hopen
    rw [List.mem_append, List.mem_singleton, not_or] at hnever
    exact (if_neg hnever.1).trans (if_neg fun h => hnever.2 h.symm)
  · intro hclose hfirst k
    cases ha.symm.trans hclose
    rw [mem_released_told_iff]
    simp [hfirst]
  · intro hbefore
    refine (if_pos hbefore).trans ?_
    rw [hlen, ha]
    simp
  · unfold told
    dsimp only
    split_ifs
    · exact List.pairwise_singleton _ _
    · exact .nil
    · exact sorted_waiters _
    · exact .nil
  · intro j hj k hk hcancel hmem
    rcases mem_released_told_iff.mp hmem with ⟨-, -, hki⟩ | ⟨-, hclose, hwaits⟩
    · exact Nat.not_lt_of_le hj (hki.trans hlen ▸ hk)
    · rcases Nat.lt_or_eq_of_le hj with hlt | rfl
      · exact hwaits.2 j hk ((List.getElem?_take_of_lt hlt).trans hcancel)
      · cases hclose
        cases ha.symm.trans hcancel
  · intro hopen k
    rw [htake]
    rw [show (told (actions.take i) a).pending = waiters (actions.take i ++ [a]) from
      if_neg (of_decide_eq_false hopen)]
    exact mem_waiters_iff
  · exact fun hset => if_pos (of_decide_eq_true hset)

/-- For any steps of a session, every report tells what it has to, and no task is released in two
steps. -/
theorem one_winner_no_lost_wakeup (actions : List Action) :
    (run actions).length = actions.length ∧
    (∀ (i : Nat) (e : Entry), (run actions)[i]? = some e → e.Tells actions i) ∧
    ∀ (i j : Nat) (e e' : Entry), (run actions)[i]? = some e → (run actions)[j]? = some e' →
      ∀ k ∈ e.released, k ∈ e'.released → i = j := by
  have htells : ∀ (i : Nat) (e : Entry), (run actions)[i]? = some e → e.Tells actions i := by
    intro i e he
    rw [run_eq, Option.map_eq_some_iff] at he
    obtain ⟨a, ha, rfl⟩ := he
    exact tells_told ha
  refine ⟨?_, htells, ?_⟩
  · exact length_runFrom _ _ actions
  · intro i j e e' he he' k hk hk'
    rcases Nat.lt_trichotomy i j with hlt | heq | hgt
    · exact absurd hk' ((htells i e he).not_released_later (htells j e' he') hlt hk)
    · exact heq
    · exact absurd hk ((htells j e' he').not_released_later (htells i e he) hgt hk')

/-- Three tasks wait and one of them is dropped. The step that closes the latch releases the other
two, and one that waits afterwards is released at once. -/
theorem waiters_released_beside_cancelled_one :
    let actions : List Action := [.wait, .wait, .wait, .cancel 1, .close, .wait, .close, .isClosed]
    let first : Entry := ⟨some true, [0, 2], [], true⟩
    let later : Entry := ⟨none, [5], [], true⟩
    (run actions).length = 8 ∧ first.Tells actions 4 ∧ later.Tells actions 5 ∧
      ∀ k ∈ first.released, k ∉ later.released := by
  intro actions first later
  have hfirst : (run actions)[4]? = some first := by decide
  have hlater : (run actions)[5]? = some later := by decide
  obtain ⟨hlen, htells, honce⟩ := one_winner_no_lost_wakeup actions
  refine ⟨hlen, htells 4 first hfirst, htells 5 later hlater, fun k hk hk' => ?_⟩
  exact absurd (honce 4 5 first later hfirst hlater k hk hk') (by decide)

end LatchSession

end Redial
