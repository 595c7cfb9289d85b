/-!
# Tasks and their scheduler

Calls that may block run as tasks over an environment that they share. A *behaviour* says what one
step of a call does; a call without a step is blocked. A *machine* holds the environment, the
unfinished tasks in ascending order, and what the finished ones came to.

The scheduler polls every unfinished task in ascending order, and a polled task runs until it is
blocked or done. It repeats this until all tasks are blocked. Behaviours bound the number of steps
that their tasks can take, and the scheduler takes the bound as its fuel.
-/

namespace Redial

/-- The number of a task. -/
abbrev TaskId := Nat

/-- What a step of a call comes to. -/
inductive Progress (κ ω : Type) where
  /-- The call goes on from here. -/
  | goesOn (call : κ)
  /-- The call is done. -/
  | done (outcome : ω)
  deriving DecidableEq

/-- What calls of type `κ` do to an environment of type `ε` until they are done with an outcome of
type `ω`. -/
structure Behaviour (ε κ ω : Type) where
  /-- One step of the call of a task, or nothing if the call is blocked. -/
  step : TaskId → ε → κ → Option (ε × Progress κ ω)
  /-- What dropping a task changes: it gives up what it holds. -/
  drop : TaskId → ε → ε
  /-- A bound for the number of steps until all of the given calls are blocked or done. -/
  effort : ε → List κ → Nat

/-- An unfinished task. -/
structure Task (κ : Type) where
  /-- Its number. -/
  id : TaskId
  /-- Where its call is. -/
  call : κ
  deriving DecidableEq

/-- An environment with the tasks that run over it. -/
structure Machine (ε κ ω : Type) where
  /-- What the tasks share. -/
  env : ε
  /-- The unfinished tasks, in ascending order. -/
  tasks : List (Task κ)
  /-- The outcomes of the finished ones, the latest first. -/
  finished : List (TaskId × ω)
  deriving DecidableEq

namespace Machine

variable {ε κ ω : Type}

/-- A machine without tasks. -/
def idle (env : ε) : Machine ε κ ω := ⟨env, [], []⟩

/-- The call of an unfinished task. -/
def call? (m : Machine ε κ ω) (k : TaskId) : Option κ :=
  (m.tasks.find? (·.id == k)).map (·.call)

/-- The numbers of the unfinished tasks. -/
def pending (m : Machine ε κ ω) : List TaskId := m.tasks.map (·.id)

/-- Starts a task. Its number is larger than those before it. -/
def spawn (m : Machine ε κ ω) (k : TaskId) (call : κ) : Machine ε κ ω :=
  { m with tasks := m.tasks ++ [⟨k, call⟩] }

/-- The tasks without number `k`. -/
def without (k : TaskId) (tasks : List (Task κ)) : List (Task κ) := tasks.filter (·.id != k)

/-- The tasks with the call of number `k` moved on. -/
def moved (k : TaskId) (call : κ) (tasks : List (Task κ)) : List (Task κ) :=
  tasks.map fun t => if t.id = k then ⟨k, call⟩ else t

/-- Drops a task where it is blocked; a finished task stays as it is. -/
def cancel (b : Behaviour ε κ ω) (m : Machine ε κ ω) (k : TaskId) : Machine ε κ ω :=
  match m.call? k with
  | none => m
  | some _ => { m with env := b.drop k m.env, tasks := without k m.tasks }

/-- One step of a task, if it is unfinished and not blocked. -/
def step (b : Behaviour ε κ ω) (m : Machine ε κ ω) (k : TaskId) : Option (Machine ε κ ω) :=
  match m.call? k with
  | none => none
  | some call =>
    match b.step k m.env call with
    | none => none
    | some (env, .goesOn call) => some { m with env := env, tasks := moved k call m.tasks }
    | some (env, .done outcome) =>
      some ⟨env, without k m.tasks, (k, outcome) :: m.finished⟩

/-- Whether every unfinished task is blocked. -/
def quiet (b : Behaviour ε κ ω) (m : Machine ε κ ω) : Bool :=
  m.tasks.all fun t => (m.step b t.id).isNone

/-- Lets a task run until it is blocked or done. -/
def poll (b : Behaviour ε κ ω) : Nat → Machine ε κ ω → TaskId → Machine ε κ ω
  | 0, m, _ => m
  | fuel + 1, m, k =>
    match m.step b k with
    | none => m
    | some m => poll b fuel m k

/-- Polls every unfinished task once, in ascending order. -/
def pass (b : Behaviour ε κ ω) (fuel : Nat) (m : Machine ε κ ω) : Machine ε κ ω :=
  m.pending.foldl (poll b fuel) m

/-- Repeats passes until all tasks are blocked. -/
def passes (b : Behaviour ε κ ω) (fuel : Nat) : Nat → Machine ε κ ω → Machine ε κ ω
  | 0, m => m
  | n + 1, m => if m.quiet b then m else passes b fuel n (m.pass b fuel)

/-- Lets all tasks run until they are blocked or done. -/
def settle (b : Behaviour ε κ ω) (m : Machine ε κ ω) : Machine ε κ ω :=
  let fuel := b.effort m.env (m.tasks.map (·.call))
  m.passes b fuel fuel

/-- The outcomes that came after the first `n`, in order. -/
def finishedAfter (m : Machine ε κ ω) (n : Nat) : List (TaskId × ω) :=
  (m.finished.take (m.finished.length - n)).reverse

end Machine

end Redial
