import Redial.Proofs.Task.Steps
import Redial.Session.StreamSession

/-!
# Runs of a session on a stream

A run alternates between steps of the session and steps of single tasks, in any order: a task that
is not blocked may move at any time, and the session may go on before all tasks are blocked. What
the scheduler does is one such run (`Moment.leads_next`), so whatever holds at every reachable
moment holds in every state that the scheduler passes through.

A *rule* says which steps of the session are allowed at a moment.
-/

namespace Redial.StreamSession

open Session

/-- A moment of a session: the steps that have been taken, and the machine that they led to. A call
is known by the number of the step that started it. -/
structure Moment where
  /-- The steps taken so far. -/
  actions : List Action
  /-- The stream with its calls. -/
  machine : StreamMachine

/-- Which steps of a session may be taken at a moment. -/
abbrev Rule := Moment → Action → Prop

/-- Every step may be taken. -/
def anything : Rule := fun _ _ => True

namespace Moment

/-- The state of the stream. -/
abbrev state (m : Moment) : Stream.State := m.machine.env

/-- What has happened. -/
abbrev journal (m : Moment) : Journal := m.machine.env.world.journal

/-- The moment at which a stream has been opened. -/
def first (s : Stream.State) : Moment := ⟨[], .idle s⟩

/-- The moment after a step of the session, before any task has moved. -/
def act (m : Moment) (action : Action) : Moment :=
  ⟨m.actions ++ [action], StreamSession.act m.machine m.actions.length action⟩

/-- The moment after a step of the session, when all tasks have run until they are blocked. -/
def next (m : Moment) (action : Action) : Moment :=
  ⟨m.actions ++ [action], StreamSession.next m.machine m.actions.length action⟩

/-- What can follow a moment. -/
inductive Next (rule : Rule) : Moment → Moment → Prop where
  /-- The session takes a step. -/
  | act {m : Moment} (action : Action) (allowed : rule m action) : Next rule m (m.act action)
  /-- A task takes a step. -/
  | step {m : Moment} {machine : StreamMachine} {k : TaskId}
      (h : m.machine.step Stream.behaviour k = some machine) : Next rule m ⟨m.actions, machine⟩

/-- One moment comes after another in a run, or is the same. -/
abbrev Leads (rule : Rule) : Moment → Moment → Prop := Relation.ReflTransGen (Next rule)

end Moment

/-- The moments of the sessions that keep to a rule. -/
def Reachable (rule : Rule) (setup : Setup) (m : Moment) : Prop :=
  ∃ s, setup.opening = .opened s ∧ (Moment.first s).Leads rule m

/-! ## The scheduler -/

namespace Moment

variable {rule : Rule} {m m' : Moment}

@[simp] theorem state_advance (actions : List Action) (machine : StreamMachine) (k : TaskId)
    (s : Stream.State) (p : Progress Stream.Call Outcome) :
    Moment.state ⟨actions, machine.advance k s p⟩ = s := Machine.env_advance _ _ _ _

theorem leads_of_runs {actions : List Action} {a b : StreamMachine}
    (h : a.Runs Stream.behaviour b) : Leads rule ⟨actions, a⟩ ⟨actions, b⟩ := by
  induction h with
  | refl => exact .refl
  | tail _ hs ih =>
    obtain ⟨k, hk⟩ := hs
    exact ih.tail (.step hk)

/-- A step of a session with the scheduler is a run. -/
theorem leads_next {action : Action} (h : rule m action) : Leads rule m (m.next action) :=
  .head (.act action h) (leads_of_runs (Machine.runs_settle _ _))

/-- The moment after a list of steps, with the scheduler. -/
def play (m : Moment) : List Action → Moment
  | [] => m
  | action :: actions => play (m.next action) actions

/-- Whether a list of steps keeps to a rule, with the scheduler. -/
def Keeps (rule : Rule) (m : Moment) : List Action → Prop
  | [] => True
  | action :: actions => rule m action ∧ Keeps rule (m.next action) actions

theorem leads_play {actions : List Action} (h : m.Keeps rule actions) :
    Leads rule m (m.play actions) := by
  induction actions generalizing m with
  | nil => exact .refl
  | cons action actions ih => exact (leads_next h.1).trans (ih h.2)

theorem keeps_anything (m : Moment) (actions : List Action) : m.Keeps anything actions := by
  induction actions generalizing m with
  | nil => trivial
  | cons action actions ih => exact ⟨trivial, ih _⟩

theorem Leads.mono {rule' : Rule} (hr : ∀ m a, rule m a → rule' m a) (h : m.Leads rule m') :
    m.Leads rule' m' := by
  induction h with
  | refl => exact .refl
  | tail _ hs ih =>
    refine ih.tail ?_
    cases hs with
    | act action allowed => exact .act action (hr _ _ allowed)
    | step h => exact .step h

end Moment

theorem reachable_play {rule : Rule} {setup : Setup} {s : Stream.State} {actions : List Action}
    (hs : setup.opening = .opened s) (h : (Moment.first s).Keeps rule actions) :
    Reachable rule setup ((Moment.first s).play actions) :=
  ⟨s, hs, Moment.leads_play h⟩

/-- The moment after a list of steps, with the scheduler, if the stream could be opened. -/
def Setup.played (setup : Setup) (actions : List Action) : Option Moment :=
  match setup.opening with
  | .opened s => some ((Moment.first s).play actions)
  | .failed .. => none

/-- Whether a list of steps of a session keeps to a rule, with the scheduler. -/
def Setup.Keeps (rule : Rule) (setup : Setup) (actions : List Action) : Prop :=
  match setup.opening with
  | .opened s => (Moment.first s).Keeps rule actions
  | .failed .. => True

instance Moment.decidableKeeps {rule : Rule} [∀ m a, Decidable (rule m a)] :
    ∀ (actions : List Action) (m : Moment), Decidable (m.Keeps rule actions)
  | [], _ => .isTrue trivial
  | action :: actions, m =>
    have : Decidable ((m.next action).Keeps rule actions) := decidableKeeps actions _
    inferInstanceAs (Decidable (rule m action ∧ (m.next action).Keeps rule actions))

instance {rule : Rule} [∀ m a, Decidable (rule m a)] (setup : Setup) (actions : List Action) :
    Decidable (setup.Keeps rule actions) :=
  match h : setup.opening with
  | .opened s => decidable_of_iff ((Moment.first s).Keeps rule actions) (by
      unfold Setup.Keeps
      rw [h])
  | .failed .. => .isTrue (by
      unfold Setup.Keeps
      rw [h]
      trivial)

theorem reachable_of_played {rule : Rule} {setup : Setup} {actions : List Action} {m : Moment}
    (hk : setup.Keeps rule actions) (h : setup.played actions = some m) :
    Reachable rule setup m := by
  unfold Setup.played at h
  unfold Setup.Keeps at hk
  split at h
  · rename_i s hs
    rw [hs] at hk
    cases h
    exact reachable_play hs hk
  · cases h

theorem Setup.keeps_anything (setup : Setup) (actions : List Action) :
    setup.Keeps anything actions := by
  unfold Setup.Keeps
  split
  · exact Moment.keeps_anything _ _
  · trivial

/-- A session with the local host, in which a hello is cut at `offset`. -/
def Setup.localhost (offset : Nat) (dials : List (Gated DialScript)) : Setup where
  destination := .v4 #v[127, 0, 0, 1] 443
  config := .default
  strategy := .scripted ⟨offset, [], []⟩
  clock := .ofNanos 0
  dials := dials

/-- A dial that ends at once with a connection. -/
def dialledAtOnce (script : LinkScript) : Gated DialScript :=
  ⟨none, 0, .ok script⟩

/-- A session whose first connection is reset by its first read. -/
def resetSession : Setup :=
  .localhost 1
    [dialledAtOnce { LinkScript.silent with
      reads := [⟨none, .fault (.ofKind .connectionReset)⟩] }, dialledAtOnce .silent]

/-- The reply of the second connection. -/
def reply : Action :=
  .feed 1 { LinkScript.silent with reads := [⟨none, .data [9]⟩] }

/-! ## Induction over runs -/

namespace Reachable

variable {rule : Rule} {setup : Setup} {m m' : Moment}

theorem leads (h : Reachable rule setup m) (hl : m.Leads rule m') : Reachable rule setup m' := by
  obtain ⟨s, hs, hm⟩ := h
  exact ⟨s, hs, hm.trans hl⟩

theorem mono {rule' : Rule} (hr : ∀ m a, rule m a → rule' m a) (h : Reachable rule setup m) :
    Reachable rule' setup m := by
  obtain ⟨s, hs, hm⟩ := h
  exact ⟨s, hs, hm.mono hr⟩

/-- What holds when a stream has been opened and is kept by whatever can follow a reachable moment
holds at every reachable moment. -/
theorem induction {P : Moment → Prop} (h : Reachable rule setup m)
    (first : ∀ s, setup.opening = .opened s → P (.first s))
    (next : ∀ m m', Reachable rule setup m → P m → m.Next rule m' → P m') : P m := by
  obtain ⟨s, hs, hm⟩ := h
  induction hm with
  | refl => exact first s hs
  | tail hl hn ih => exact next _ _ ⟨s, hs, hl⟩ ih hn

end Reachable

/-- What is kept by whatever can follow a reachable moment stays. -/
theorem Moment.Leads.keeps {rule : Rule} {setup : Setup} {m m' : Moment} {P : Moment → Prop}
    (h : m.Leads rule m') (hm : Reachable rule setup m) (hP : P m)
    (next : ∀ m m', Reachable rule setup m → P m → m.Next rule m' → P m') : P m' := by
  induction h with
  | refl => exact hP
  | tail hl hn ih => exact next _ _ (hm.leads hl) ih hn

/-! ## What can follow a moment -/

/-- What a step of the session does to the machine. -/
inductive Acts (m : Moment) : Action → StreamMachine → Prop where
  /-- A call is started. -/
  | starts (request : Request) :
      Acts m (.call request) (m.machine.spawn m.actions.length (.start request))
  /-- A call is dropped. -/
  | drops (k : TaskId) : Acts m (.cancel k) (m.machine.cancel Stream.behaviour k)
  /-- Something happens in the world. -/
  | happens (action : Action) :
      Acts m action { m.machine with env := m.state.withWorld (action.change m.state.world) }

theorem acts_act (m : Moment) (action : Action) : Acts m action (m.act action).machine := by
  cases action with
  | call request => exact .starts request
  | cancel k => exact .drops k
  | _ => exact .happens _

/-- After a step of the session the unfinished calls are old ones, or the one that was started. -/
theorem Acts.mem_tasks {m : Moment} {action : Action} {machine : StreamMachine}
    (h : Acts m action machine) {k : TaskId} {c : Stream.Call} (ht : ⟨k, c⟩ ∈ machine.tasks) :
    ⟨k, c⟩ ∈ m.machine.tasks ∨
      ∃ request, action = .call request ∧ k = m.actions.length ∧ c = .start request := by
  cases h with
  | starts request =>
    rcases List.mem_append.mp ht with ht | ht
    · exact Or.inl ht
    · cases List.mem_singleton.mp ht
      exact Or.inr ⟨request, rfl, rfl, rfl⟩
  | drops k => exact Or.inl (Machine.mem_cancel_iff.mp ht).1
  | happens => exact Or.inl ht

/-- A step of the session leaves a call where it is, unless it drops it. -/
theorem Acts.keeps {m : Moment} {action : Action} {machine : StreamMachine}
    (h : Acts m action machine) {k : TaskId} {c : Stream.Call} (ht : ⟨k, c⟩ ∈ m.machine.tasks) :
    ⟨k, c⟩ ∈ machine.tasks ∨ action = .cancel k := by
  cases h with
  | starts request => exact Or.inl (List.mem_append_left _ ht)
  | happens => exact Or.inl ht
  | drops j =>
    by_cases hjk : k = j
    · exact Or.inr (hjk ▸ rfl)
    · exact Or.inl (Machine.mem_cancel_iff.mpr ⟨ht, hjk⟩)

theorem Acts.finished {m : Moment} {action : Action} {machine : StreamMachine}
    (h : Acts m action machine) : machine.finished = m.machine.finished := by
  cases h with
  | starts request => rfl
  | drops k => exact Machine.finished_cancel _ _ _
  | happens => rfl

/-- A step of the session changes the lock, or lets something happen in the world. -/
theorem Acts.env {m : Moment} {action : Action} {machine : StreamMachine}
    (h : Acts m action machine) :
    (∃ l, machine.env = m.state.withLock l) ∨
      machine.env = m.state.withWorld (action.change m.state.world) := by
  cases h with
  | starts request => exact Or.inl ⟨m.state.memory.lock, rfl⟩
  | drops k =>
    rcases Machine.env_cancel Stream.behaviour m.machine k with he | ⟨he, -⟩
    · exact Or.inl ⟨m.state.memory.lock, he⟩
    · exact Or.inl ⟨_, he⟩
  | happens => exact Or.inr rfl

/-- The call of task `k` takes a step. -/
structure Moment.Moves (k : TaskId) (m m' : Moment) : Prop where
  step : m.machine.step Stream.behaviour k = some m'.machine
  actions : m'.actions = m.actions

theorem Moment.Moves.next {rule : Rule} {k : TaskId} {m m' : Moment} (h : m.Moves k m') :
    m.Next rule m' := by
  obtain ⟨actions, machine⟩ := m'
  obtain ⟨hs, rfl⟩ := h
  exact .step hs

theorem Moment.Moves.call {k : TaskId} {m m' : Moment} (h : m.Moves k m') :
    ∃ c s p, ⟨k, c⟩ ∈ m.machine.tasks ∧ Stream.Call.step k m.state c = some (s, p) ∧
      m' = ⟨m.actions, m.machine.advance k s p⟩ := by
  obtain ⟨actions, machine⟩ := m'
  obtain ⟨hs, rfl⟩ := h
  obtain ⟨c, s, p, hc, hstep, rfl⟩ := Machine.step_eq_some hs
  exact ⟨c, s, p, hc, hstep, rfl⟩

/-- The moment after a step of the call of a task, if it can take one. -/
def Moment.move? (k : TaskId) (m : Moment) : Option Moment :=
  (m.machine.step Stream.behaviour k).map fun machine => ⟨m.actions, machine⟩

theorem Moment.moves_of_move? {k : TaskId} {m m' : Moment} (h : m.move? k = some m') :
    m.Moves k m' := by
  obtain ⟨machine, hs, rfl⟩ := Option.map_eq_some_iff.mp h
  exact ⟨hs, rfl⟩

/-- A moment follows another by a step of the session, or by a step of the call of a task. -/
theorem Moment.Next.split {rule : Rule} {m m' : Moment} (h : m.Next rule m') :
    (∃ action machine, rule m action ∧ Acts m action machine ∧
      m' = ⟨m.actions ++ [action], machine⟩) ∨
    (∃ k c s p, ⟨k, c⟩ ∈ m.machine.tasks ∧ Stream.Call.step k m.state c = some (s, p) ∧
      m' = ⟨m.actions, m.machine.advance k s p⟩) := by
  cases h with
  | act action allowed => exact Or.inl ⟨action, _, allowed, acts_act m action, rfl⟩
  | step h =>
    obtain ⟨c, s, p, hc, hs, rfl⟩ := Machine.step_eq_some h
    exact Or.inr ⟨_, c, s, p, hc, hs, rfl⟩

/-! ## Steps that have been taken -/

theorem Moment.Next.actions {rule : Rule} {m m' : Moment} (hn : m.Next rule m') :
    m.actions <+: m'.actions := by
  cases hn with
  | act action allowed => exact List.prefix_append _ _
  | step hs => exact List.prefix_refl _

/-- The steps of the session that have been taken are kept. -/
theorem Moment.Leads.actions {rule : Rule} {m m' : Moment} (hl : m.Leads rule m') :
    m.actions <+: m'.actions := by
  induction hl with
  | refl => exact List.prefix_refl _
  | tail _ hn ih => exact ih.trans hn.actions

theorem Moment.Leads.mem_dropped {rule : Rule} {m m' : Moment} (hl : m.Leads rule m') {n : Nat}
    {action : Action} (h : action ∈ m.actions.drop n) : action ∈ m'.actions.drop n := by
  obtain ⟨later, hlater⟩ := hl.actions
  rw [← hlater, List.drop_append]
  exact List.mem_append_left _ h

theorem Moment.Leads.mem_taken {rule : Rule} {m m₁ m' : Moment} (hl : m.Leads rule m₁)
    {action : Action} (ha : m'.actions = m₁.actions ++ [action]) :
    action ∈ m'.actions.drop m.actions.length := by
  rw [ha, List.drop_append_of_le_length hl.actions.length_le]
  exact List.mem_append_right _ (List.mem_singleton_self _)

/-- A call stays where it is until it is dropped or takes a step. -/
theorem Moment.Next.keeps {rule : Rule} {m m' : Moment} (hn : m.Next rule m') {k : TaskId}
    {c : Stream.Call} (hk : ⟨k, c⟩ ∈ m.machine.tasks) :
    ⟨k, c⟩ ∈ m'.machine.tasks ∨ m'.actions = m.actions ++ [.cancel k] ∨ m.Moves k m' := by
  cases hn with
  | act action allowed =>
    rcases (acts_act m action).keeps hk with hk' | rfl
    · exact Or.inl hk'
    · exact Or.inr (Or.inl rfl)
  | @step machine j hs =>
    by_cases hkj : k = j
    · exact Or.inr (Or.inr ⟨hkj ▸ hs, rfl⟩)
    · obtain ⟨c', s, p, -, -, rfl⟩ := Machine.step_eq_some hs
      exact Or.inl (Machine.mem_advance_of_ne hk hkj _ _)

/-! ## Outcomes -/

theorem Moment.Next.finished {rule : Rule} {m m' : Moment} (hn : m.Next rule m') :
    m.machine.finished <:+ m'.machine.finished := by
  rcases hn.split with ⟨action, machine, -, ha, rfl⟩ | ⟨k, c, s, p, -, -, rfl⟩
  · have hsame : machine.finished = m.machine.finished := ha.finished
    exact hsame ▸ List.suffix_refl _
  · exact Machine.finished_advance _ _ _ _

/-- The outcomes of finished tasks are kept. -/
theorem Moment.Leads.finished {rule : Rule} {m m' : Moment} (hl : m.Leads rule m') :
    m.machine.finished <:+ m'.machine.finished := by
  induction hl with
  | refl => exact List.suffix_refl _
  | tail _ hn ih => exact ih.trans hn.finished

/-! ## Numbers of tasks -/

/-- Each unfinished task is known by the number of a step that has been taken. -/
theorem Reachable.numbered {rule : Rule} {setup : Setup} {m : Moment}
    (h : Reachable rule setup m) : m.machine.Numbered m.actions.length := by
  refine h.induction (P := fun m => m.machine.Numbered m.actions.length)
    (fun s _ => ⟨List.nodup_nil, fun k hk => ?_⟩) fun m m' _ hm hn => ?_
  · exact absurd hk List.not_mem_nil
  · rcases hn.split with ⟨action, machine, -, ha, rfl⟩ | ⟨k, c, s, p, -, -, rfl⟩
    · rw [List.length_append]
      cases ha with
      | starts request => exact hm.spawn _
      | drops k => exact (hm.cancel k).mono (Nat.le_succ _)
      | happens => exact Machine.Numbered.mono ⟨hm.nodup, hm.lt⟩ (Nat.le_succ _)
    · exact hm.advance k s p

/-- Each finished task was started by a step that has been taken. -/
theorem Reachable.finished_lt {rule : Rule} {setup : Setup} {m : Moment}
    (h : Reachable rule setup m) {t : TaskId × Outcome} (ht : t ∈ m.machine.finished) :
    t.1 < m.actions.length := by
  refine Reachable.induction (P := fun m => ∀ t ∈ m.machine.finished, t.1 < m.actions.length)
    h ?_ ?_ t ht
  · intro s _ t ht
    exact absurd ht List.not_mem_nil
  · intro m m' hm ih hn t ht
    rcases hn.split with ⟨action, machine, -, ha, rfl⟩ | ⟨k, c, s, p, hk, -, rfl⟩
    · rw [ha.finished] at ht
      have hlt : t.1 < m.actions.length := ih t ht
      exact Nat.lt_of_lt_of_le hlt (List.length_append ▸ Nat.le_add_right _ _)
    · have hlt : k < m.actions.length := hm.numbered.lt k (List.mem_map_of_mem hk)
      cases p with
      | goesOn c' => exact ih t ht
      | done o =>
        rcases List.mem_cons.mp ht with rfl | ht
        · exact hlt
        · exact ih t ht

/-- An unfinished task has no outcome yet. -/
theorem Reachable.unfinished {rule : Rule} {setup : Setup} {m : Moment}
    (h : Reachable rule setup m) {k : TaskId} {c : Stream.Call} (hk : ⟨k, c⟩ ∈ m.machine.tasks)
    (o : Outcome) : (k, o) ∉ m.machine.finished := by
  refine Reachable.induction
    (P := fun m => ∀ k c, ⟨k, c⟩ ∈ m.machine.tasks → ∀ o, (k, o) ∉ m.machine.finished)
    h ?_ ?_ k c hk o
  · intro s _ k c hk
    exact absurd hk List.not_mem_nil
  · intro m m' hm ih hn j d hj o ho
    rcases hn.split with ⟨action, machine, -, ha, rfl⟩ | ⟨k, c, s, p, hk, -, rfl⟩
    · rw [ha.finished] at ho
      rcases ha.mem_tasks hj with hj | ⟨request, -, rfl, -⟩
      · exact ih j d hj o ho
      · exact absurd (hm.finished_lt ho) (Nat.lt_irrefl _)
    · cases p with
      | goesOn c' =>
        rcases Machine.mem_advance hj with ⟨c'', -, hc'⟩ | ⟨hj, -⟩
        · cases hc'
          exact ih _ c hk o ho
        · exact ih j d hj o ho
      | done o' =>
        obtain ⟨hj, hjk⟩ := Machine.mem_without_iff.mp hj
        rcases List.mem_cons.mp ho with heq | ho
        · exact hjk (congrArg Prod.fst heq)
        · exact ih j d hj o ho

/-- An unfinished task has not been dropped since it was started. -/
theorem Reachable.undropped {rule : Rule} {setup : Setup} {m : Moment}
    (h : Reachable rule setup m) {k : TaskId} {c : Stream.Call} (hk : ⟨k, c⟩ ∈ m.machine.tasks) :
    Action.cancel k ∉ m.actions.drop k := by
  refine Reachable.induction
    (P := fun m => ∀ k c, ⟨k, c⟩ ∈ m.machine.tasks → Action.cancel k ∉ m.actions.drop k)
    h ?_ ?_ k c hk
  · intro s _ k c hk
    exact absurd hk List.not_mem_nil
  · intro m m' hm ih hn j d hj
    cases hn with
    | act action allowed =>
      rcases (acts_act m action).mem_tasks hj with hold | ⟨request, rfl, rfl, -⟩
      · have hlt : j < m.actions.length := hm.numbered.lt j (List.mem_map_of_mem hold)
        show Action.cancel j ∉ (m.actions ++ [action]).drop j
        rw [List.drop_append_of_le_length (Nat.le_of_lt hlt), List.mem_append]
        rintro (hdropped | hnow)
        · exact ih j d hold hdropped
        · cases List.mem_singleton.mp hnow
          exact (Machine.mem_cancel_iff.mp hj).2 rfl
      · have hdrop : (m.actions ++ [Action.call request]).drop m.actions.length = [.call request] :=
          List.drop_left
        show Action.cancel m.actions.length ∉ (m.actions ++ [Action.call request]).drop _
        rw [hdrop]
        simp
    | step hs =>
      obtain ⟨c, s, p, hc, -, rfl⟩ := Machine.step_eq_some hs
      rcases Machine.mem_advance hj with ⟨c', -, hc'⟩ | ⟨hj, -⟩
      · cases hc'
        exact ih _ c hc
      · exact ih j d hj

theorem Reachable.undropped_since {rule : Rule} {setup : Setup} {m m' : Moment}
    (h : Reachable rule setup m) (hl : m.Leads rule m') {k : TaskId} {c d : Stream.Call}
    (hk : ⟨k, c⟩ ∈ m.machine.tasks) (hk' : ⟨k, d⟩ ∈ m'.machine.tasks) :
    Action.cancel k ∉ m'.actions.drop m.actions.length := by
  have hlt : k < m.actions.length := h.numbered.lt k (List.mem_map_of_mem hk)
  have hsub := List.drop_sublist_drop_left m'.actions (Nat.le_of_lt hlt)
  exact fun hdropped => (h.leads hl).undropped hk' (hsub.subset hdropped)

end Redial.StreamSession
