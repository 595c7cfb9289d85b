import Mathlib.Data.List.Nodup
import Mathlib.Logic.Relation
import Redial.Task.Machine

/-!
# Steps of a machine

What one step of a machine does to its tasks, and that the scheduler does nothing but take such
steps. Tasks are told apart by their numbers, which are never used twice.
-/

namespace Redial.Machine

variable {ε κ ω : Type} {b : Behaviour ε κ ω} {m m' : Machine ε κ ω}

/-- The machine after a step of task `k` that led to `env` and `p`. -/
def advance (m : Machine ε κ ω) (k : TaskId) (env : ε) : Progress κ ω → Machine ε κ ω
  | .goesOn call => ⟨env, moved k call m.tasks, m.finished⟩
  | .done outcome => ⟨env, without k m.tasks, (k, outcome) :: m.finished⟩

@[simp] theorem env_advance (m : Machine ε κ ω) (k : TaskId) (env : ε) (p : Progress κ ω) :
    (m.advance k env p).env = env := by
  cases p <;> rfl

/-- Every unfinished task has a number below `n` and no two have the same one. -/
structure Numbered (m : Machine ε κ ω) (n : Nat) : Prop where
  nodup : m.pending.Nodup
  lt : ∀ k ∈ m.pending, k < n

/-! ## Tasks and their numbers -/

theorem mem_of_call?_eq_some {k : TaskId} {c : κ} (h : m.call? k = some c) :
    ⟨k, c⟩ ∈ m.tasks := by
  unfold call? at h
  rw [Option.map_eq_some_iff] at h
  obtain ⟨t, ht, rfl⟩ := h
  have hid : t.id = k := by simpa using List.find?_some ht
  rw [← hid]
  exact List.mem_of_find?_eq_some ht

theorem call_unique (h : m.pending.Nodup) {k : TaskId} {c d : κ} (hc : ⟨k, c⟩ ∈ m.tasks)
    (hd : ⟨k, d⟩ ∈ m.tasks) : c = d := by
  have heq := List.inj_on_of_nodup_map h hc hd rfl
  exact congrArg Task.call heq

theorem call?_of_mem (h : m.pending.Nodup) {k : TaskId} {c : κ} (hc : ⟨k, c⟩ ∈ m.tasks) :
    m.call? k = some c := by
  cases hk : m.call? k with
  | some d => rw [call_unique h hc (mem_of_call?_eq_some hk)]
  | none =>
    unfold call? at hk
    rw [Option.map_eq_none_iff, List.find?_eq_none] at hk
    exact absurd (beq_self_eq_true k) (hk _ hc)

theorem mem_moved_iff {k : TaskId} {c : κ} {tasks : List (Task κ)} {t : Task κ} :
    t ∈ moved k c tasks ↔ (t = ⟨k, c⟩ ∧ ∃ u ∈ tasks, u.id = k) ∨ (t ∈ tasks ∧ t.id ≠ k) := by
  unfold moved
  rw [List.mem_map]
  constructor
  · rintro ⟨u, hu, rfl⟩
    by_cases hk : u.id = k
    · left
      exact ⟨by rw [if_pos hk], u, hu, hk⟩
    · right
      rw [if_neg hk]
      exact ⟨hu, hk⟩
  · rintro (⟨rfl, u, hu, hk⟩ | ⟨ht, hk⟩)
    · exact ⟨u, hu, by rw [if_pos hk]⟩
    · exact ⟨t, ht, by rw [if_neg hk]⟩

theorem mem_without_iff {k : TaskId} {tasks : List (Task κ)} {t : Task κ} :
    t ∈ without k tasks ↔ t ∈ tasks ∧ t.id ≠ k := by
  simp [without]

theorem map_id_moved (k : TaskId) (c : κ) (tasks : List (Task κ)) :
    (moved k c tasks).map (·.id) = tasks.map (·.id) := by
  unfold moved
  rw [List.map_map]
  refine List.map_congr_left fun t _ => ?_
  show (if t.id = k then (⟨k, c⟩ : Task κ) else t).id = t.id
  by_cases hk : t.id = k
  · rw [if_pos hk, hk]
  · rw [if_neg hk]

/-- After a step of task `k`, the unfinished tasks are the others, and `k` itself if its call
goes on. -/
theorem mem_advance {k : TaskId} {env : ε} {p : Progress κ ω} {t : Task κ}
    (h : t ∈ (m.advance k env p).tasks) :
    (∃ c, p = .goesOn c ∧ t = ⟨k, c⟩) ∨ (t ∈ m.tasks ∧ t.id ≠ k) := by
  cases p with
  | goesOn c =>
    rcases mem_moved_iff.mp h with ⟨rfl, -⟩ | hother
    · exact Or.inl ⟨c, rfl, rfl⟩
    · exact Or.inr hother
  | done o => exact Or.inr (mem_without_iff.mp h)

theorem mem_advance_self {k : TaskId} {env : ε} {c d : κ} (h : ⟨k, c⟩ ∈ m.tasks) :
    ⟨k, d⟩ ∈ (m.advance k env (Progress.goesOn d)).tasks :=
  mem_moved_iff.mpr (Or.inl ⟨rfl, _, h, rfl⟩)

theorem mem_advance_of_ne {k : TaskId} {t : Task κ} (ht : t ∈ m.tasks) (hk : t.id ≠ k) (env : ε)
    (p : Progress κ ω) : t ∈ (m.advance k env p).tasks := by
  cases p with
  | goesOn c => exact mem_moved_iff.mpr (Or.inr ⟨ht, hk⟩)
  | done o => exact mem_without_iff.mpr ⟨ht, hk⟩

theorem pending_advance_sublist (m : Machine ε κ ω) (k : TaskId) (env : ε) (p : Progress κ ω) :
    (m.advance k env p).pending.Sublist m.pending := by
  cases p with
  | goesOn c =>
    have hp : (m.advance k env (.goesOn c)).pending = m.pending := map_id_moved k c m.tasks
    exact hp ▸ List.Sublist.refl _
  | done o =>
    have hsub : (without k m.tasks).Sublist m.tasks := List.filter_sublist
    exact hsub.map _

theorem Numbered.advance {n : Nat} (h : m.Numbered n) (k : TaskId) (env : ε) (p : Progress κ ω) :
    (m.advance k env p).Numbered n := by
  have hsub := pending_advance_sublist m k env p
  exact ⟨h.nodup.sublist hsub, fun j hj => h.lt j (hsub.subset hj)⟩

theorem pending_spawn (m : Machine ε κ ω) (k : TaskId) (c : κ) :
    (m.spawn k c).pending = m.pending ++ [k] := List.map_append

theorem Numbered.spawn {n : Nat} (h : m.Numbered n) (c : κ) : (m.spawn n c).Numbered (n + 1) := by
  refine ⟨?_, fun k hk => ?_⟩
  · rw [pending_spawn, List.nodup_append]
    refine ⟨h.nodup, List.nodup_singleton n, fun j hj i hi => ?_⟩
    rw [List.mem_singleton.mp hi]
    exact Nat.ne_of_lt (h.lt j hj)
  · rw [pending_spawn, List.mem_append, List.mem_singleton] at hk
    rcases hk with hk | rfl
    · exact Nat.lt_succ_of_lt (h.lt k hk)
    · exact Nat.lt_succ_self k

theorem tasks_cancel (b : Behaviour ε κ ω) (m : Machine ε κ ω) (k : TaskId) :
    (m.cancel b k).tasks = without k m.tasks := by
  unfold cancel
  split
  · rename_i hk
    unfold call? at hk
    rw [Option.map_eq_none_iff, List.find?_eq_none] at hk
    refine (List.filter_eq_self.mpr fun t ht => ?_).symm
    have hid := hk t ht
    simpa using hid
  · rfl

theorem mem_cancel_iff {k : TaskId} {t : Task κ} :
    t ∈ (m.cancel b k).tasks ↔ t ∈ m.tasks ∧ t.id ≠ k := by
  rw [tasks_cancel]
  exact mem_without_iff

/-- A dropped task changes the environment as its behaviour says, and a finished one not at all. -/
theorem env_cancel (b : Behaviour ε κ ω) (m : Machine ε κ ω) (k : TaskId) :
    (m.cancel b k).env = m.env ∨
      (m.cancel b k).env = b.drop k m.env ∧ ∃ c, ⟨k, c⟩ ∈ m.tasks := by
  unfold cancel
  split
  · exact Or.inl rfl
  · rename_i c hc
    exact Or.inr ⟨rfl, c, mem_of_call?_eq_some hc⟩

@[simp] theorem finished_cancel (b : Behaviour ε κ ω) (m : Machine ε κ ω) (k : TaskId) :
    (m.cancel b k).finished = m.finished := by
  unfold cancel
  split <;> rfl

theorem Numbered.cancel {n : Nat} (h : m.Numbered n) (k : TaskId) :
    (m.cancel b k).Numbered n := by
  unfold Machine.cancel
  split
  · exact h
  · have hsub : (without k m.tasks).Sublist m.tasks := List.filter_sublist
    exact ⟨h.nodup.sublist (hsub.map _), fun j hj => h.lt j ((hsub.map _).subset hj)⟩

/-! ## Lists gathered from tasks -/

section Gathered

variable {β : Type} {f : Task κ → List β} {k : TaskId} {c : κ}

/-- What is gathered from all tasks is gathered from `k` if there is nothing at the others. -/
theorem flatMap_eq_of_others (hn : m.pending.Nodup) (hk : ⟨k, c⟩ ∈ m.tasks)
    (h : ∀ t ∈ m.tasks, t.id ≠ k → f t = []) : m.tasks.flatMap f = f ⟨k, c⟩ := by
  obtain ⟨l₁, l₂, hl⟩ := List.append_of_mem hk
  unfold pending at hn
  rw [hl, List.map_append, List.map_cons, List.nodup_append] at hn
  obtain ⟨-, hn₂, hdisj⟩ := hn
  have h₁ : l₁.flatMap f = [] := by
    refine List.flatMap_eq_nil_iff.mpr fun t ht => ?_
    have hid : t.id ≠ k := hdisj t.id (List.mem_map_of_mem ht) k List.mem_cons_self
    exact h t (hl ▸ List.mem_append_left _ ht) hid
  have h₂ : l₂.flatMap f = [] := by
    refine List.flatMap_eq_nil_iff.mpr fun t ht => ?_
    have hid : t.id ≠ k := fun hk =>
      (List.nodup_cons.mp hn₂).1 (List.mem_map.mpr ⟨t, ht, hk⟩)
    exact h t (hl ▸ List.mem_append_right _ (List.mem_cons_of_mem _ ht)) hid
  rw [hl, List.flatMap_append, List.flatMap_cons, h₁, h₂]
  simp

theorem flatMap_without {tasks : List (Task κ)} (h : ∀ t ∈ tasks, t.id = k → f t = []) :
    (without k tasks).flatMap f = tasks.flatMap f := by
  unfold without
  induction tasks with
  | nil => rfl
  | cons t ts ih =>
    have hts := ih fun u hu => h u (List.mem_cons_of_mem t hu)
    by_cases hk : t.id = k
    · rw [List.filter_cons_of_neg (by simp [hk]), hts, List.flatMap_cons,
        h t List.mem_cons_self hk]
      rfl
    · rw [List.filter_cons_of_pos (by simp [hk]), List.flatMap_cons, List.flatMap_cons, hts]

/-- A step of a task from which nothing is gathered before and after it. -/
theorem flatMap_advance {env : ε} {p : Progress κ ω} (h : ∀ t ∈ m.tasks, t.id = k → f t = [])
    (hp : ∀ c, p = .goesOn c → f ⟨k, c⟩ = []) :
    (m.advance k env p).tasks.flatMap f = m.tasks.flatMap f := by
  cases p with
  | done o => exact flatMap_without h
  | goesOn c =>
    show (moved k c m.tasks).flatMap f = _
    unfold moved
    rw [List.flatMap_map]
    refine List.flatMap_congr fun t ht => ?_
    by_cases hk : t.id = k
    · rw [if_pos hk, hp c rfl, h t ht hk]
    · rw [if_neg hk]

end Gathered

theorem Numbered.mono {n n' : Nat} (h : m.Numbered n) (hn : n ≤ n') : m.Numbered n' :=
  ⟨h.nodup, fun k hk => Nat.lt_of_lt_of_le (h.lt k hk) hn⟩

/-! ## Outcomes -/

theorem finishedAfter_self (m : Machine ε κ ω) : m.finishedAfter m.finished.length = [] := by
  unfold finishedAfter
  rw [Nat.sub_self]
  rfl

/-- A step of task `k` adds its outcome, if it is done, to those that came after the first `n`. -/
theorem mem_finishedAfter_advance {n : Nat} (hn : n ≤ m.finished.length) (k : TaskId) (env : ε)
    (p : Progress κ ω) (t : TaskId × ω) :
    t ∈ (m.advance k env p).finishedAfter n ↔
      t ∈ m.finishedAfter n ∨ ∃ o, p = .done o ∧ t = (k, o) := by
  cases p with
  | goesOn c => simp [advance, finishedAfter]
  | done o =>
    have hlen : m.finished.length + 1 - n = (m.finished.length - n) + 1 := by omega
    simp [advance, finishedAfter, hlen, or_comm]

/-- Outcomes are kept. -/
theorem finished_advance (m : Machine ε κ ω) (k : TaskId) (env : ε) (p : Progress κ ω) :
    m.finished <:+ (m.advance k env p).finished := by
  cases p with
  | goesOn c => exact List.suffix_refl _
  | done o => exact List.suffix_cons _ _

/-- A task that is done has been started and is unfinished no more, and a step keeps it so. -/
theorem finished_apart_advance {n : Nat} (hn : m.Numbered n)
    (hf : ∀ t ∈ m.finished, t.1 < n ∧ t.1 ∉ m.pending) {k : TaskId} {c : κ} (hk : ⟨k, c⟩ ∈ m.tasks)
    (env : ε) (p : Progress κ ω) :
    ∀ t ∈ (m.advance k env p).finished, t.1 < n ∧ t.1 ∉ (m.advance k env p).pending := by
  have hsub := (pending_advance_sublist m k env p).subset
  have hold : ∀ t ∈ m.finished, t.1 < n ∧ t.1 ∉ (m.advance k env p).pending := fun t ht =>
    ⟨(hf t ht).1, fun hmem => (hf t ht).2 (hsub hmem)⟩
  cases p with
  | goesOn d => exact hold
  | done o =>
    intro t ht
    rcases List.mem_cons.mp ht with rfl | ht
    · refine ⟨hn.lt k (List.mem_map_of_mem hk), fun hmem => ?_⟩
      obtain ⟨u, hu, hid⟩ := List.mem_map.mp hmem
      exact (mem_without_iff.mp hu).2 hid
    · exact hold t ht

theorem mem_of_mem_finishedAfter {n : Nat} {t : TaskId × ω} (h : t ∈ m.finishedAfter n) :
    t ∈ m.finished := by
  unfold finishedAfter at h
  exact List.mem_of_mem_take (List.mem_reverse.mp h)

/-! ## Steps -/

theorem step_eq_some {k : TaskId} (h : m.step b k = some m') :
    ∃ c env p, ⟨k, c⟩ ∈ m.tasks ∧ b.step k m.env c = some (env, p) ∧ m' = m.advance k env p := by
  unfold step at h
  split at h
  · cases h
  · rename_i c hc
    have hmem := mem_of_call?_eq_some hc
    split at h
    · cases h
    · rename_i env call hs
      exact ⟨c, env, _, hmem, hs, (Option.some.inj h).symm⟩
    · rename_i env outcome hs
      exact ⟨c, env, _, hmem, hs, (Option.some.inj h).symm⟩

/-- When every task is blocked, no call has a step. -/
theorem step_eq_none_of_quiet (hq : m.quiet b = true) (h : m.pending.Nodup) {k : TaskId} {c : κ}
    (hc : ⟨k, c⟩ ∈ m.tasks) : b.step k m.env c = none := by
  have hk : m.step b k = none := by simpa using List.all_eq_true.mp hq _ hc
  unfold step at hk
  rw [call?_of_mem h hc] at hk
  dsimp only at hk
  split at hk
  · assumption
  · cases hk
  · cases hk

/-- Some task makes a step. -/
def Steps (b : Behaviour ε κ ω) (m m' : Machine ε κ ω) : Prop := ∃ k, m.step b k = some m'

/-- A run of steps, in any order of the tasks. -/
abbrev Runs (b : Behaviour ε κ ω) : Machine ε κ ω → Machine ε κ ω → Prop :=
  Relation.ReflTransGen (Steps b)

theorem runs_poll (b : Behaviour ε κ ω) (k : TaskId) (fuel : Nat) (m : Machine ε κ ω) :
    Runs b m (poll b fuel m k) := by
  induction fuel generalizing m with
  | zero => exact .refl
  | succ fuel ih =>
    unfold poll
    split
    · exact .refl
    · rename_i m' hm
      exact .head ⟨k, hm⟩ (ih m')

theorem runs_foldl_poll (b : Behaviour ε κ ω) (fuel : Nat) (ks : List TaskId)
    (m : Machine ε κ ω) : Runs b m (ks.foldl (poll b fuel) m) := by
  induction ks generalizing m with
  | nil => exact .refl
  | cons k ks ih => exact (runs_poll b k fuel m).trans (ih _)

theorem runs_passes (b : Behaviour ε κ ω) (fuel n : Nat) (m : Machine ε κ ω) :
    Runs b m (m.passes b fuel n) := by
  induction n generalizing m with
  | zero => exact .refl
  | succ n ih =>
    unfold passes
    split
    · exact .refl
    · exact (runs_foldl_poll b fuel m.pending m).trans (ih _)

theorem runs_settle (b : Behaviour ε κ ω) (m : Machine ε κ ω) : Runs b m (m.settle b) :=
  runs_passes b _ _ m

end Redial.Machine
