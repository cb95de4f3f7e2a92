import SocketMaster.Library.Run
import Mathlib.Logic.Function.Basic

/-!
# The class `ThreadPool`

The workers share a queue and a flag under one mutex. A section that holds the mutex is one step,
and so is a notification, which is sent with the mutex released. `wait` gives up the mutex and
falls asleep in one step; a worker that has been woken has to take the mutex again like any
other. What no thread decides alone is left to the event: who comes next, and who is woken.
-/
namespace SocketMaster

open Library

/-- Where a worker stands: about to lock the mutex for its next turn, at work on a task, waiting
on the condition variable, or behind its loop. -/
inductive Worker (Task : Type) where
  | ready
  | running (task : Task)
  | asleep
  | gone

/-- The worker has a turn ahead without anyone waking it. -/
def Worker.Awake {Task : Type} : Worker Task → Prop
  | .ready => True
  | .running _ => True
  | _ => False

/-- The pool of `threadCount` workers. `notices` is the number of `AddTask` calls that still have
their `notify_one` ahead, and `closing` says that of the destructor and its `notify_all`. The
tasks that were ever added and those that were taken, with the worker, are kept beside it. -/
structure ThreadPool (threadCount : Nat) (Task : Type) where
  tasks : List Task
  isClosed : Bool
  workers : Fin threadCount → Worker Task
  notices : Nat
  closing : Bool
  added : List Task
  taken : List (Fin threadCount × Task)

namespace ThreadPool

variable {threadCount : Nat} {Task : Type}

/-- The constructor has started its threads. -/
def start : ThreadPool threadCount Task where
  tasks := []
  isClosed := false
  workers := fun _ => .ready
  notices := 0
  closing := false
  added := []
  taken := []

/-- What the threads do. `notifyOne` names the worker that it wakes, if there is one; `wake` is a
worker that wakes by itself. -/
inductive Event (threadCount : Nat) (Task : Type) where
  | turn (w : Fin threadCount)
  | finish (w : Fin threadCount)
  | wake (w : Fin threadCount)
  | addTask (task : Task)
  | notifyOne (w : Option (Fin threadCount))
  | close
  | notifyAll

variable (s : ThreadPool threadCount Task)

def setWorker (w : Fin threadCount) (state : Worker Task) : ThreadPool threadCount Task :=
  { s with workers := Function.update s.workers w state }

/-- One turn of the worker's loop, from the lock to where the mutex is released. -/
def turn (w : Fin threadCount) : ThreadPool threadCount Task :=
  match s.tasks with
  | task :: tasks =>
    { s.setWorker w (.running task) with tasks, taken := s.taken ++ [(w, task)] }
  | [] => if s.isClosed then s.setWorker w .gone else s.setWorker w .asleep

/-- `notify_one` wakes a worker that waits, or nobody. -/
def notifyOne (w : Option (Fin threadCount)) : ThreadPool threadCount Task :=
  match w with
  | some w => { s.setWorker w .ready with notices := s.notices - 1 }
  | none => { s with notices := s.notices - 1 }

/-- `notify_all` wakes every worker that waits. -/
def notifyAll : ThreadPool threadCount Task :=
  { s with
    workers := fun w => match s.workers w with
      | .asleep => .ready
      | state => state
    closing := false }

def next : Event threadCount Task → ThreadPool threadCount Task
  | .turn w => s.turn w
  | .finish w => s.setWorker w .ready
  | .wake w => s.setWorker w .ready
  | .addTask task =>
    { s with tasks := s.tasks ++ [task], notices := s.notices + 1, added := s.added ++ [task] }
  | .notifyOne w => s.notifyOne w
  | .close => { s with isClosed := true, closing := true }
  | .notifyAll => s.notifyAll

/-- What can happen. No task is added once the destructor has begun, and it begins when every
`AddTask` has returned. -/
def Enabled : Event threadCount Task → Prop
  | .turn w => s.workers w = .ready
  | .finish w => ∃ task, s.workers w = .running task
  | .wake w => s.workers w = .asleep
  | .addTask _ => s.isClosed = false
  | .notifyOne (some w) => 0 < s.notices ∧ s.workers w = .asleep
  | .notifyOne none => 0 < s.notices ∧ ∀ w, s.workers w ≠ .asleep
  | .close => s.isClosed = false ∧ s.notices = 0
  | .notifyAll => s.closing = true

end ThreadPool

end SocketMaster
