import SocketMaster.Pool.Basic

/-!
# No wake-up is lost

A worker falls asleep under the mutex and only with the queue empty, so a task that comes later
has its notification still to be sent, and whom that wakes has a turn ahead. A notification that
finds nobody asleep finds everybody awake, for nobody has left while tasks can still be added.
`Sound` puts these together: as long as there is a task, somebody is awake or about to be woken.
-/
namespace SocketMaster.ThreadPool

open Library

variable {threadCount : Nat} {Task : Type} {s t : ThreadPool threadCount Task}

/-- A notification is still to be sent. -/
def Outstanding (s : ThreadPool threadCount Task) : Prop := 0 < s.notices ∨ s.closing = true

/-- What the mutex protects, in every state between two sections. -/
structure Sound (s : ThreadPool threadCount Task) : Prop where
  order : s.taken.map Prod.snd ++ s.tasks = s.added
  quiet : s.isClosed = true → s.notices = 0
  gone : ∀ w, s.workers w = .gone → s.isClosed = true ∧ s.tasks = []
  awake : s.tasks ≠ [] → s.Outstanding ∨ ∃ w, (s.workers w).Awake

@[simp] theorem workers_setWorker (w : Fin threadCount) (state : Worker Task) :
    (s.setWorker w state).workers w = state := Function.update_self ..

theorem workers_setWorker_of_ne {w w' : Fin threadCount} (state : Worker Task) (h : w' ≠ w) :
    (s.setWorker w state).workers w' = s.workers w' := Function.update_of_ne h ..

theorem gone_of_setWorker {w w' : Fin threadCount} {state : Worker Task}
    (h : (s.setWorker w state).workers w' = .gone) (hstate : state ≠ .gone) :
    s.workers w' = .gone := by
  by_cases hw : w' = w
  · subst hw
    rw [workers_setWorker] at h
    exact absurd h hstate
  · rwa [workers_setWorker_of_ne state hw] at h

theorem sound_start : Sound (start : ThreadPool threadCount Task) := by
  refine ⟨rfl, fun _ => rfl, ?_, fun h => absurd rfl h⟩
  intro w h
  cases h

/-- A worker comes or goes, to another place than behind its loop, and what else there is stays. -/
theorem Sound.setWorker (h : Sound s) {w : Fin threadCount} {state : Worker Task}
    (hstate : state.Awake) : Sound (s.setWorker w state) := by
  refine ⟨h.order, h.quiet, ?_, fun _ => .inr ⟨w, by rwa [workers_setWorker]⟩⟩
  intro w' hw'
  refine h.gone w' (gone_of_setWorker hw' ?_)
  rintro rfl
  exact hstate

theorem Sound.turn (h : Sound s) (w : Fin threadCount) : Sound (s.turn w) := by
  unfold ThreadPool.turn
  split
  · -- a task is taken; nobody can have left before
    rename_i task tasks htasks
    refine ⟨?_, h.quiet, ?_, fun _ => .inr ⟨w, ?_⟩⟩
    · have horder := h.order
      rw [htasks] at horder
      simpa [ThreadPool.setWorker] using horder
    · intro w' hw'
      have hempty := (h.gone w' (gone_of_setWorker hw' nofun)).2
      rw [htasks] at hempty
      cases hempty
    · rw [workers_setWorker]
      trivial
  · rename_i htasks
    split
    · -- the worker leaves
      rename_i hclosed
      refine ⟨h.order, h.quiet, fun _ _ => ⟨hclosed, htasks⟩, fun hne => absurd htasks hne⟩
    · -- the worker falls asleep, with the queue empty
      refine ⟨h.order, h.quiet, ?_, fun hne => absurd htasks hne⟩
      intro w' hw'
      exact h.gone w' (gone_of_setWorker hw' nofun)

/-- While a notification is outstanding from `AddTask`, the pool is open and nobody has left. -/
theorem Sound.not_gone (h : Sound s) (hnotices : 0 < s.notices) (w : Fin threadCount) :
    s.workers w ≠ .gone := by
  intro hw
  have hquiet := h.quiet (h.gone w hw).1
  omega

theorem Sound.notifyOne (h : Sound s) (hcount : 0 < threadCount) {w : Option (Fin threadCount)}
    (enabled : s.Enabled (.notifyOne w)) : Sound (s.notifyOne w) := by
  cases w with
  | some w =>
    have hwoken : Sound (s.setWorker w .ready) := h.setWorker trivial
    obtain ⟨order, -, gone, -⟩ := hwoken
    obtain ⟨hpos, -⟩ := enabled
    refine ⟨order, fun hclosed => ?_, gone, fun _ => .inr ⟨w, ?_⟩⟩
    · have hquiet := h.quiet hclosed
      omega
    · rw [ThreadPool.notifyOne, workers_setWorker]
      trivial
  | none =>
    obtain ⟨hpos, hawake⟩ := enabled
    refine ⟨h.order, fun hclosed => ?_, h.gone, fun _ => .inr ⟨⟨0, hcount⟩, ?_⟩⟩
    · have hquiet := h.quiet hclosed
      omega
    · -- nobody is asleep and nobody has left
      show (s.workers ⟨0, hcount⟩).Awake
      have hasleep := hawake ⟨0, hcount⟩
      have hgone := h.not_gone hpos ⟨0, hcount⟩
      cases hw : s.workers ⟨0, hcount⟩ with
      | ready | running => trivial
      | asleep => exact absurd hw hasleep
      | gone => exact absurd hw hgone

theorem Sound.notifyAll (h : Sound s) (hcount : 0 < threadCount) : Sound s.notifyAll := by
  refine ⟨h.order, h.quiet, ?_, fun hne => .inr ⟨⟨0, hcount⟩, ?_⟩⟩
  · intro w hw
    refine h.gone w ?_
    rw [ThreadPool.notifyAll] at hw
    dsimp only at hw
    split at hw
    · cases hw
    · exact hw
  · rw [ThreadPool.notifyAll]
    dsimp only
    cases hw : s.workers ⟨0, hcount⟩ with
    | ready | running | asleep => trivial
    | gone => exact absurd (h.gone _ hw).2 hne

/-- One step of any thread. -/
theorem Sound.next (h : Sound s) (hcount : 0 < threadCount) {e : Event threadCount Task}
    (enabled : s.Enabled e) : Sound (s.next e) := by
  cases e with
  | turn w => exact h.turn w
  | finish w => exact h.setWorker trivial
  | wake w => exact h.setWorker trivial
  | addTask task =>
    have hopen : s.isClosed = false := enabled
    refine ⟨?_, fun hclosed => ?_, fun w hw => ?_, fun _ => .inl (.inl ?_)⟩
    · rw [ThreadPool.next, ← h.order, List.append_assoc]
    · exact absurd (hopen.symm.trans hclosed) Bool.false_ne_true
    · exact absurd (hopen.symm.trans (h.gone w hw).1) Bool.false_ne_true
    · exact Nat.succ_pos s.notices
  | notifyOne w => exact h.notifyOne hcount enabled
  | close =>
    obtain ⟨hopen, hnone⟩ := enabled
    refine ⟨h.order, fun _ => hnone, fun w hw => ?_, fun _ => .inl (.inr rfl)⟩
    exact absurd (hopen.symm.trans (h.gone w hw).1) Bool.false_ne_true
  | notifyAll => exact h.notifyAll hcount

theorem sound_of_run (hcount : 0 < threadCount) {events : List (Event threadCount Task)}
    (run : Run (Steps next Enabled) start events s) : Sound s := by
  have keep : ∀ (s : ThreadPool threadCount Task) (e : Event threadCount Task) (t : _),
      Sound s → Steps next Enabled s e t → Sound t := by
    rintro s e t h ⟨enabled, rfl⟩
    exact h.next hcount enabled
  exact run.invariant keep sound_start

/-- For any number of workers and any interleaving: the tasks are taken in the order in which
they were added, each of them once; a worker has left only with the queue empty; and with a task
in the queue, not all workers are asleep unless a notification is outstanding. -/
theorem served_of_run (hcount : 0 < threadCount) (events : List (Event threadCount Task))
    (s : ThreadPool threadCount Task) (run : Run (Steps next Enabled) start events s) :
    s.taken.map Prod.snd ++ s.tasks = s.added ∧
      (∀ w, s.workers w = .gone → s.tasks = []) ∧
      ¬ (s.tasks ≠ [] ∧ (∀ w, s.workers w = .asleep) ∧ ¬ s.Outstanding) := by
  have h := sound_of_run hcount run
  refine ⟨h.order, fun w hw => (h.gone w hw).2, ?_⟩
  rintro ⟨hne, hasleep, hnone⟩
  obtain ⟨w, hw⟩ := (h.awake hne).resolve_left hnone
  rw [hasleep w] at hw
  exact hw

/-- A worker sleeps, another takes the task before the one that was woken, and the destructor
finds one more in the queue. -/
def overtaken : List (Event 2 Nat) :=
  [.turn 0, .addTask 7, .notifyOne (some 0), .turn 1, .turn 0, .addTask 8, .notifyOne (some 0),
    .close, .notifyAll, .turn 0, .finish 1, .turn 1]

theorem served_of_run_overtaken :
    let s := overtaken.foldl next start
    s.taken.map Prod.snd ++ s.tasks = s.added ∧
      (∀ w, s.workers w = .gone → s.tasks = []) ∧
      ¬ (s.tasks ≠ [] ∧ (∀ w, s.workers w = .asleep) ∧ ¬ s.Outstanding) := by
  refine served_of_run (by decide) overtaken _ ?_
  refine .cons ⟨rfl, rfl⟩ (.cons ⟨rfl, rfl⟩ (.cons ⟨⟨by decide, rfl⟩, rfl⟩ ?_))
  refine .cons ⟨rfl, rfl⟩ (.cons ⟨rfl, rfl⟩ (.cons ⟨rfl, rfl⟩ ?_))
  refine .cons ⟨⟨by decide, rfl⟩, rfl⟩ (.cons ⟨⟨rfl, rfl⟩, rfl⟩ (.cons ⟨rfl, rfl⟩ ?_))
  exact .cons ⟨rfl, rfl⟩ (.cons ⟨⟨7, rfl⟩, rfl⟩ (.cons ⟨rfl, rfl⟩ (.nil _)))

end SocketMaster.ThreadPool
