import Redial.Task.Machine

/-!
# Locks

A lock that is handed on in the order in which tasks have asked for it. A released lock belongs at
once to the task that has waited longest, so nobody can take it in between.
-/

namespace Redial

/-- A lock. -/
inductive Lock where
  /-- Nobody holds it. -/
  | free
  /-- A task holds it, and others wait in the order of the queue. -/
  | held (holder : TaskId) (queue : List TaskId)
  deriving DecidableEq

namespace Lock

/-- The task that holds the lock. -/
def holder? : Lock → Option TaskId
  | free => none
  | held holder _ => some holder

/-- The tasks that wait for the lock, the first in front. -/
def queue : Lock → List TaskId
  | free => []
  | held _ queue => queue

/-- A task asks for the lock: it holds it if it is free, and waits at the end of the queue if
not. -/
def ask (k : TaskId) : Lock → Lock
  | free => held k []
  | held holder queue => held holder (queue ++ [k])

/-- The holder gives the lock to the task that has waited longest. -/
def release : Lock → Lock
  | free => free
  | held _ [] => free
  | held _ (k :: queue) => held k queue

/-- A task gives up the lock, or its place in the queue. -/
def forget (k : TaskId) : Lock → Lock
  | free => free
  | held holder queue =>
    if holder = k then release (held holder queue) else held holder (queue.filter (· != k))

@[simp] theorem holder?_ask_free (k : TaskId) : (ask k free).holder? = some k := rfl

theorem holder?_release (l : Lock) : l.release.holder? = l.queue.head? := by
  cases l with
  | free => rfl
  | held holder queue =>
    cases queue with
    | nil => rfl
    | cons k queue => rfl

end Lock

end Redial
