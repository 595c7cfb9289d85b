import Redial.Proofs.Task.Steps

/-!
# Settling

A *rank* bounds the number of steps that a machine can still take: every step lowers it. With at
least that much fuel the scheduler does not stop short: in the end every task is blocked
(`Ranked.quiet_settle`), and more fuel would change nothing (`Ranked.poll_of_step`). Two machines
stay related if they do so whenever the same task of both is polled (`passes_related`). Where one
pass leaves every task blocked, the scheduler ends with it (`settle_eq_pass`).

Where there is one task at most, there is one way to run, so any run that ends with every task
blocked ends where the scheduler does (`Ranked.settle_eq`).
-/

namespace Redial

/-- The weight of what is left of a call. -/
def Progress.load {κ ω : Type} (weight : κ → Nat) : Progress κ ω → Nat
  | goesOn call => weight call
  | done _ => 0

namespace Machine

variable {ε κ ω : Type} {b : Behaviour ε κ ω} {m m' m'' : Machine ε κ ω} {k : TaskId}

/-! ## The weight of what is left -/

/-- The weight of what is left of all calls. -/
def load (weight : κ → Nat) (tasks : List (Task κ)) : Nat :=
  tasks.foldr (fun t n => weight t.call + n) 0

theorem load_cons (weight : κ → Nat) (t : Task κ) (l : List (Task κ)) :
    load weight (t :: l) = weight t.call + load weight l := rfl

theorem load_append (weight : κ → Nat) (l l' : List (Task κ)) :
    load weight (l ++ l') = load weight l + load weight l' := by
  induction l with
  | nil => exact (Nat.zero_add _).symm
  | cons t l ih => rw [List.cons_append, load_cons, load_cons, ih, Nat.add_assoc]

theorem foldr_weights (weight : κ → Nat) (n : Nat) (tasks : List (Task κ)) :
    (tasks.map (·.call)).foldr (fun call n => weight call + n) n = load weight tasks + n := by
  induction tasks with
  | nil => exact (Nat.zero_add n).symm
  | cons t ts ih => rw [List.map_cons, List.foldr_cons, ih, load_cons, Nat.add_assoc]

theorem moved_of_others {c : κ} {tasks : List (Task κ)} (h : ∀ t ∈ tasks, t.id ≠ k) :
    moved k c tasks = tasks := by
  unfold moved
  refine (List.map_congr_left fun t ht => ?_).trans (List.map_id tasks)
  rw [if_neg (h t ht)]
  rfl

theorem without_of_others {tasks : List (Task κ)} (h : ∀ t ∈ tasks, t.id ≠ k) :
    without k tasks = tasks :=
  List.filter_eq_self.mpr fun t ht => bne_iff_ne.mpr (h t ht)

/-- A task stands apart from the others. -/
theorem tasks_split (hn : m.pending.Nodup) {c : κ} (hk : ⟨k, c⟩ ∈ m.tasks) :
    ∃ l₁ l₂, m.tasks = l₁ ++ ⟨k, c⟩ :: l₂ ∧ (∀ t ∈ l₁, t.id ≠ k) ∧ ∀ t ∈ l₂, t.id ≠ k := by
  obtain ⟨l₁, l₂, hl⟩ := List.append_of_mem hk
  unfold pending at hn
  rw [hl, List.map_append, List.map_cons, List.nodup_append] at hn
  obtain ⟨-, hn₂, hdisj⟩ := hn
  refine ⟨l₁, l₂, hl, fun t ht => ?_, fun t ht heq => ?_⟩
  · exact hdisj t.id (List.mem_map_of_mem ht) k List.mem_cons_self
  · exact (List.nodup_cons.mp hn₂).1 (List.mem_map.mpr ⟨t, ht, heq⟩)

/-- An unfinished task takes the step that its call can take. -/
theorem step_of_mem (hn : m.pending.Nodup) {c : κ} (hk : ⟨k, c⟩ ∈ m.tasks) {env : ε}
    {p : Progress κ ω} (hs : b.step k m.env c = some (env, p)) :
    m.step b k = some (m.advance k env p) := by
  unfold step
  rw [call?_of_mem hn hk]
  dsimp only
  rw [hs]
  cases p <;> rfl

/-- An unfinished task whose call can take no step is blocked. -/
theorem step_of_blocked {c : κ} (hc : m.call? k = some c) (hs : b.step k m.env c = none) :
    m.step b k = none := by
  unfold step
  rw [hc]
  dsimp only
  rw [hs]

theorem moved_moved (k : TaskId) (c c' : κ) (tasks : List (Task κ)) :
    moved k c' (moved k c tasks) = moved k c' tasks := by
  unfold moved
  rw [List.map_map]
  refine List.map_congr_left fun t _ => ?_
  show (if (if t.id = k then (⟨k, c⟩ : Task κ) else t).id = k then (⟨k, c'⟩ : Task κ)
    else if t.id = k then ⟨k, c⟩ else t) = _
  by_cases hk : t.id = k
  · rw [if_pos hk, if_pos rfl, if_pos hk]
  · rw [if_neg hk, if_neg hk]

theorem without_moved (k : TaskId) (c : κ) (tasks : List (Task κ)) :
    without k (moved k c tasks) = without k tasks := by
  unfold without moved
  induction tasks with
  | nil => rfl
  | cons t ts ih =>
    rw [List.map_cons]
    by_cases hk : t.id = k
    · rw [if_pos hk, List.filter_cons_of_neg (by simp), List.filter_cons_of_neg (by simp [hk]), ih]
    · rw [if_neg hk, List.filter_cons_of_pos (by simp [hk]),
        List.filter_cons_of_pos (by simp [hk]), ih]

/-- Of two steps of the same task, only the second one matters to the others. -/
theorem advance_advance (m : Machine ε κ ω) (k : TaskId) (env env' : ε) (c : κ)
    (p : Progress κ ω) : (m.advance k env (.goesOn c)).advance k env' p = m.advance k env' p := by
  cases p with
  | goesOn c' => exact congrArg (Machine.mk env' · m.finished) (moved_moved k c c' m.tasks)
  | done o => exact congrArg (Machine.mk env' · _) (without_moved k c m.tasks)

/-- A task takes steps, and no other task does. -/
abbrev Goes (b : Behaviour ε κ ω) (k : TaskId) : Machine ε κ ω → Machine ε κ ω → Prop :=
  Relation.ReflTransGen fun m m' => m.step b k = some m'

theorem Goes.runs (h : Goes b k m m') : Runs b m m' :=
  Relation.ReflTransGen.mono (fun _ _ hs => ⟨k, hs⟩) _ _ h

/-- A step of a task after which its call would go on with `c`. -/
theorem step_advance (hn : m.pending.Nodup) {c₀ : κ} (hk : ⟨k, c₀⟩ ∈ m.tasks) {env env' : ε}
    {c : κ} {p : Progress κ ω} (hs : b.step k env c = some (env', p)) :
    (m.advance k env (.goesOn c)).step b k = some (m.advance k env' p) := by
  have hstep := step_of_mem (hn.sublist (pending_advance_sublist m k env (.goesOn c)))
    (mem_advance_self hk) hs
  rw [hstep, advance_advance]

/-- A step of a task takes the weight of its call away and puts that of what is left in its place.
-/
theorem load_advance (weight : κ → Nat) (hn : m.pending.Nodup) {c : κ} (hk : ⟨k, c⟩ ∈ m.tasks)
    (env : ε) (p : Progress κ ω) :
    load weight (m.advance k env p).tasks + weight c = load weight m.tasks + p.load weight := by
  obtain ⟨l₁, l₂, hl, h₁, h₂⟩ := tasks_split hn hk
  have hweight : load weight m.tasks = load weight l₁ + (weight c + load weight l₂) := by
    rw [hl, load_append, load_cons]
  rw [hweight]
  cases p with
  | goesOn c' =>
    have hmoved : (m.advance k env (Progress.goesOn c')).tasks = l₁ ++ ⟨k, c'⟩ :: l₂ := by
      show moved k c' m.tasks = _
      rw [hl]
      unfold moved
      rw [List.map_append, List.map_cons, if_pos rfl]
      exact congrArg₂ (· ++ ⟨k, c'⟩ :: ·) (moved_of_others h₁) (moved_of_others h₂)
    rw [hmoved, load_append, load_cons]
    show _ = _ + weight c'
    dsimp only
    omega
  | done o =>
    have hwithout : (m.advance k env (Progress.done o)).tasks = l₁ ++ l₂ := by
      show without k m.tasks = _
      rw [hl]
      unfold without
      rw [List.filter_append, List.filter_cons_of_neg (by simp)]
      exact congrArg₂ (· ++ ·) (without_of_others h₁) (without_of_others h₂)
    rw [hwithout, load_append]
    show _ = _ + 0
    omega

theorem load_le {weight weight' : κ → Nat} (h : ∀ c, weight c ≤ weight' c)
    (tasks : List (Task κ)) : load weight tasks ≤ load weight' tasks := by
  induction tasks with
  | nil => exact Nat.le_refl _
  | cons t ts ih =>
    rw [load_cons, load_cons]
    exact Nat.add_le_add (h t.call) ih

/-- Where weights get smaller, the weight of the others does. -/
theorem load_le_of_mem {weight weight' : κ → Nat} (h : ∀ c, weight c ≤ weight' c)
    {tasks : List (Task κ)} {t : Task κ} (ht : t ∈ tasks) :
    load weight tasks + weight' t.call ≤ load weight' tasks + weight t.call := by
  obtain ⟨l₁, l₂, rfl⟩ := List.append_of_mem ht
  have h₁ := load_le h l₁
  have h₂ := load_le h l₂
  rw [load_append, load_cons, load_append, load_cons]
  omega

/-! ## Blocked tasks -/

theorem poll_of_blocked (hk : m.step b k = none) (fuel : Nat) : poll b fuel m k = m := by
  cases fuel with
  | zero => rfl
  | succ fuel => simp [poll, hk]

theorem blocked_of_quiet (hq : m.quiet b = true) (k : TaskId) : m.step b k = none := by
  cases hk : m.step b k with
  | none => rfl
  | some m' =>
    obtain ⟨c, env, p, hc, -, -⟩ := step_eq_some hk
    have hnone := List.all_eq_true.mp hq _ hc
    rw [hk] at hnone
    cases hnone

theorem step_eq_none_of_blocked (h : ∀ c, ⟨k, c⟩ ∈ m.tasks → b.step k m.env c = none) :
    m.step b k = none := by
  cases hk : m.step b k with
  | none => rfl
  | some m' =>
    obtain ⟨c, env, p, hc, hs, -⟩ := step_eq_some hk
    rw [h c hc] at hs
    cases hs

theorem quiet_of_blocked (h : ∀ t ∈ m.tasks, b.step t.id m.env t.call = none) :
    m.quiet b = true := by
  by_contra hloud
  refine hloud (List.all_eq_true.mpr fun t _ => ?_)
  rw [step_eq_none_of_blocked fun c hc => h ⟨t.id, c⟩ hc]
  rfl

theorem foldl_poll_of_blocked {ks : List TaskId} (h : ∀ k ∈ ks, m.step b k = none) (fuel : Nat) :
    ks.foldl (poll b fuel) m = m := by
  induction ks with
  | nil => rfl
  | cons k ks ih =>
    rw [List.foldl_cons, poll_of_blocked (h k List.mem_cons_self)]
    exact ih fun j hj => h j (List.mem_cons_of_mem k hj)

theorem settle_of_quiet (h : m.quiet b = true) : m.settle b = m := by
  unfold settle
  dsimp only
  generalize b.effort m.env (m.tasks.map (·.call)) = fuel
  cases fuel with
  | zero => rfl
  | succ fuel => exact if_pos h

/-- The scheduler stops after one pass if all tasks are blocked then. -/
theorem settle_eq_pass (fuel : Nat) (hf : b.effort m.env (m.tasks.map (·.call)) = fuel + 1)
    (hq : (m.pass b (fuel + 1)).quiet b = true) : m.settle b = m.pass b (fuel + 1) := by
  by_cases h : m.quiet b = true
  · rw [settle_of_quiet h]
    refine (foldl_poll_of_blocked (fun k _ => ?_) _).symm
    exact blocked_of_quiet h k
  · unfold settle
    dsimp only
    rw [hf]
    show (if m.quiet b = true then m else passes b (fuel + 1) fuel (m.pass b (fuel + 1))) = _
    rw [if_neg h]
    cases fuel with
    | zero => rfl
    | succ fuel => exact if_pos hq

/-! ## Ranks -/

/-- Every step from a machine with property `P` leads to another one and lowers its rank. -/
structure Ranked (b : Behaviour ε κ ω) (P : Machine ε κ ω → Prop) (rank : Machine ε κ ω → Nat) :
    Prop where
  stays : ∀ {m m' k}, P m → m.step b k = some m' → P m'
  lowers : ∀ {m m' k}, P m → m.step b k = some m' → rank m' < rank m

namespace Ranked

variable {P : Machine ε κ ω → Prop} {rank : Machine ε κ ω → Nat} {fuel fuel' : Nat}

theorem runs (h : Ranked b P rank) (hm : P m) (hr : Runs b m m') : P m' ∧ rank m' ≤ rank m := by
  induction hr with
  | refl => exact ⟨hm, Nat.le_refl _⟩
  | tail _ hs ih =>
    obtain ⟨k, hk⟩ := hs
    exact ⟨h.stays ih.1 hk, Nat.le_trans (Nat.le_of_lt (h.lowers ih.1 hk)) ih.2⟩

theorem step_eq_none (h : Ranked b P rank) (hm : P m) (hz : rank m = 0) (k : TaskId) :
    m.step b k = none := by
  cases hk : m.step b k with
  | none => rfl
  | some m' =>
    have hlt := h.lowers hm hk
    rw [hz] at hlt
    exact absurd hlt (Nat.not_lt_zero _)

theorem poll_congr (h : Ranked b P rank) (hm : P m) (hf : rank m ≤ fuel) (hf' : rank m ≤ fuel')
    (k : TaskId) : poll b fuel m k = poll b fuel' m k := by
  induction fuel generalizing m fuel' with
  | zero =>
    have hk := h.step_eq_none hm (Nat.le_zero.mp hf) k
    rw [poll_of_blocked hk, poll_of_blocked hk]
  | succ fuel ih =>
    cases hk : m.step b k with
    | none => rw [poll_of_blocked hk, poll_of_blocked hk]
    | some m' =>
      have hlt := h.lowers hm hk
      cases fuel' with
      | zero => omega
      | succ fuel' =>
        simp only [poll, hk]
        exact ih (h.stays hm hk) (by omega) (by omega)

/-- With enough fuel, a task may be polled before or after its next step. -/
theorem poll_of_step (h : Ranked b P rank) (hm : P m) (hf : rank m ≤ fuel)
    (hk : m.step b k = some m') : poll b fuel m k = poll b fuel m' k := by
  have hlt := h.lowers hm hk
  cases fuel with
  | zero => omega
  | succ fuel =>
    have hstep : poll b (fuel + 1) m k = poll b fuel m' k := by simp [poll, hk]
    rw [hstep]
    exact h.poll_congr (h.stays hm hk) (by omega) (by omega) k

/-- With enough fuel, a task may be polled before or after some of its steps. -/
theorem poll_of_goes (h : Ranked b P rank) (hm : P m) (hf : rank m ≤ fuel) (hg : Goes b k m m') :
    poll b fuel m k = poll b fuel m' k := by
  induction hg with
  | refl => rfl
  | tail hg hs ih =>
    obtain ⟨hm', hle⟩ := h.runs hm (Goes.runs hg)
    exact ih.trans (h.poll_of_step hm' (Nat.le_trans hle hf) hs)

theorem foldl_poll (h : Ranked b P rank) (hm : P m) (hf : 0 < fuel) (ks : List TaskId) :
    (ks.foldl (poll b fuel) m = m ∧ ∀ k ∈ ks, m.step b k = none) ∨
      rank (ks.foldl (poll b fuel) m) < rank m := by
  induction ks generalizing m with
  | nil => exact Or.inl ⟨rfl, fun _ hk => absurd hk List.not_mem_nil⟩
  | cons k ks ih =>
    rw [List.foldl_cons]
    cases hk : m.step b k with
    | none =>
      rw [poll_of_blocked hk]
      rcases ih hm with ⟨hfold, hnone⟩ | hlt
      · refine Or.inl ⟨hfold, fun j hj => ?_⟩
        rcases List.mem_cons.mp hj with rfl | hj
        · exact hk
        · exact hnone j hj
      · exact Or.inr hlt
    | some m' =>
      obtain ⟨fuel, rfl⟩ := Nat.exists_eq_succ_of_ne_zero (Nat.ne_of_gt hf)
      have hstep : poll b (fuel + 1) m k = poll b fuel m' k := by simp [poll, hk]
      have hm' := h.stays hm hk
      have hpolled := h.runs hm' (runs_poll b k fuel m')
      have hfold := (h.runs hpolled.1 (runs_foldl_poll b (fuel + 1) ks _)).2
      rw [hstep]
      exact Or.inr (Nat.lt_of_le_of_lt (Nat.le_trans hfold hpolled.2) (h.lowers hm hk))

theorem quiet_passes (h : Ranked b P rank) (hm : P m) {n : Nat} (hn : rank m ≤ n)
    (hf : n ≤ fuel) : (m.passes b fuel n).quiet b = true := by
  induction n generalizing m with
  | zero =>
    refine List.all_eq_true.mpr fun t _ => ?_
    show (m.step b t.id).isNone = true
    rw [h.step_eq_none hm (Nat.le_zero.mp hn)]
    rfl
  | succ n ih =>
    unfold passes
    split
    · assumption
    · rename_i hloud
      have hpass := h.runs hm (runs_foldl_poll b fuel m.pending m)
      refine ih hpass.1 ?_ (by omega)
      rcases h.foldl_poll hm (Nat.lt_of_lt_of_le n.succ_pos hf) m.pending with ⟨-, hnone⟩ | hlt
      · -- A task that could take a step would have been polled.
        refine absurd (List.all_eq_true.mpr fun t ht => ?_) hloud
        rw [hnone t.id (List.mem_map_of_mem ht)]
        rfl
      · exact Nat.le_of_lt_succ (Nat.lt_of_lt_of_le hlt hn)

/-- With enough fuel, the scheduler lets all tasks run until they are blocked or done. -/
theorem quiet_settle (h : Ranked b P rank) (hm : P m)
    (hf : rank m ≤ b.effort m.env (m.tasks.map (·.call))) : (m.settle b).quiet b = true :=
  h.quiet_passes hm hf (Nat.le_refl _)

end Ranked

/-! ## Two machines -/

/-- What is kept by polling the same task of two machines is kept by the scheduler. -/
theorem passes_related {ε' κ' ω' : Type} {b' : Behaviour ε' κ' ω'} {fuel : Nat}
    {R : Machine ε κ ω → Machine ε' κ' ω' → Prop}
    (pending : ∀ m m', R m m' → m.pending = m'.pending)
    (quiet : ∀ m m', R m m' → m.quiet b = m'.quiet b')
    (polled : ∀ m m' k, R m m' → R (poll b fuel m k) (poll b' fuel m' k))
    (n : Nat) {m : Machine ε κ ω} {m' : Machine ε' κ' ω'} (h : R m m') :
    R (m.passes b fuel n) (m'.passes b' fuel n) := by
  have hfoldl : ∀ (ks : List TaskId) (m : Machine ε κ ω) (m' : Machine ε' κ' ω'), R m m' →
      R (ks.foldl (poll b fuel) m) (ks.foldl (poll b' fuel) m') := by
    intro ks
    induction ks with
    | nil => exact fun _ _ h => h
    | cons k ks ih => exact fun m m' h => ih _ _ (polled m m' k h)
  induction n generalizing m m' with
  | zero => exact h
  | succ n ih =>
    unfold passes
    rw [quiet m m' h]
    split
    · exact h
    · refine ih ?_
      unfold pass
      rw [pending m m' h]
      exact hfoldl _ _ _ h

/-! ## A single task -/

/-- A machine with a single task, which has come to `p`. -/
def single (k : TaskId) (finished : List (TaskId × ω)) (env : ε) : Progress κ ω → Machine ε κ ω
  | .goesOn call => ⟨env, [⟨k, call⟩], finished⟩
  | .done outcome => ⟨env, [], (k, outcome) :: finished⟩

theorem advance_single (k : TaskId) (finished : List (TaskId × ω)) (env env' : ε) (c : κ)
    (p : Progress κ ω) :
    (single k finished env (.goesOn c)).advance k env' p = single k finished env' p := by
  cases p <;> simp [single, advance, moved, without]

theorem step_single {env env' : ε} {c : κ} {p : Progress κ ω} (hs : b.step k env c = some (env', p))
    (finished : List (TaskId × ω)) :
    (single k finished env (.goesOn c)).step b k = some (single k finished env' p) := by
  have hstep := step_of_mem (m := single k finished env (.goesOn c)) (List.nodup_singleton k)
    (List.mem_singleton_self _) hs
  rw [hstep, advance_single]

/-- The steps of a single task are those of its call. -/
theorem step_single_eq_some {finished : List (TaskId × ω)} {env : ε} {p : Progress κ ω} {j : TaskId}
    (h : (single k finished env p).step b j = some m') :
    ∃ c env' p', p = .goesOn c ∧ b.step k env c = some (env', p') ∧
      m' = single k finished env' p' := by
  obtain ⟨c, env', p', hc, hs, rfl⟩ := step_eq_some h
  cases p with
  | done o => exact absurd hc List.not_mem_nil
  | goesOn c₀ =>
    have hsame := List.mem_singleton.mp hc
    cases hsame
    exact ⟨c, env', p', rfl, hs, advance_single _ finished env env' c p'⟩

theorem quiet_single {env : ε} {c : κ} (hs : b.step k env c = none)
    (finished : List (TaskId × ω)) : (single k finished env (.goesOn c)).quiet b = true := by
  refine quiet_of_blocked fun t ht => ?_
  rw [List.mem_singleton.mp ht]
  exact hs

theorem length_tasks_step (h : m.step b k = some m') : m'.tasks.length ≤ m.tasks.length := by
  obtain ⟨c, env, p, -, -, rfl⟩ := step_eq_some h
  cases p with
  | goesOn c' => exact Nat.le_of_eq (List.length_map _)
  | done o => exact List.length_filter_le _ _

/-- A single task takes the only step that there is. -/
theorem step_unique (hone : m.tasks.length ≤ 1) {j : TaskId} (h : m.step b k = some m')
    (h' : m.step b j = some m'') : m' = m'' := by
  obtain ⟨c, env, p, hc, -, -⟩ := step_eq_some h
  obtain ⟨d, env', p', hd, -, -⟩ := step_eq_some h'
  have hkj : k = j := by
    have hlen : m.tasks.length = 1 := Nat.le_antisymm hone (List.length_pos_of_mem hc)
    obtain ⟨t, ht⟩ := List.length_eq_one_iff.mp hlen
    rw [ht] at hc hd
    have hsame := (List.mem_singleton.mp hc).trans (List.mem_singleton.mp hd).symm
    exact congrArg Task.id hsame
  subst hkj
  exact Option.some.inj (h.symm.trans h')

/-- The runs of a single task end in the same way if they end with the task blocked or done. -/
theorem runs_unique (hone : m.tasks.length ≤ 1) (h : Runs b m m') (h' : Runs b m m'')
    (hq : m'.quiet b = true) (hq' : m''.quiet b = true) : m' = m'' := by
  induction h using Relation.ReflTransGen.head_induction_on with
  | refl =>
    rcases Relation.ReflTransGen.cases_head h' with heq | ⟨m₁, ⟨j, hj⟩, -⟩
    · exact heq
    · rw [blocked_of_quiet hq j] at hj
      cases hj
  | @head m m₁ hs hr ih =>
    obtain ⟨k, hk⟩ := hs
    rcases Relation.ReflTransGen.cases_head h' with rfl | ⟨m₂, ⟨j, hj⟩, hr'⟩
    · rw [blocked_of_quiet hq' k] at hk
      cases hk
    · cases step_unique hone hk hj
      exact ih (Nat.le_trans (length_tasks_step hk) hone) hr'

/-- A single task that runs until it is blocked or done ends where the scheduler does. -/
theorem Ranked.settle_eq {P : Machine ε κ ω → Prop} {rank : Machine ε κ ω → Nat}
    (h : Ranked b P rank) (hm : P m) (hf : rank m ≤ b.effort m.env (m.tasks.map (·.call)))
    (hone : m.tasks.length ≤ 1) (hr : Runs b m m') (hq : m'.quiet b = true) :
    m.settle b = m' :=
  runs_unique hone (runs_settle b m) hr (h.quiet_settle hm hf) hq

end Machine

end Redial
