import SocketMaster.Pool.Wakeups
import Mathlib.Algebra.BigOperators.Group.Finset.Piecewise
import Mathlib.Algebra.BigOperators.Ring.Finset
import Mathlib.Algebra.Order.BigOperators.Group.Finset

/-!
# The pool comes to rest

Left to themselves, the threads make a bounded number of steps: what they have ahead of them is
used up by every turn, every task that ends and every notification. Where they have come to rest,
every task has been taken and has ended, and if the destructor was called, every thread is gone.
-/
namespace SocketMaster

open Library

/-- How many steps the worker has ahead of it if no task is left. -/
def Worker.ahead {Task : Type} : Worker Task → Nat
  | .ready => 1
  | .running _ => 2
  | .asleep => 0
  | .gone => 0

namespace ThreadPool

variable {threadCount : Nat} {Task : Type} {s t : ThreadPool threadCount Task}

/-- The steps of the threads and the notifications they were promised, as opposed to tasks that
are added, the destructor, and workers that wake without being notified. -/
def Event.Own : Event threadCount Task → Prop
  | .turn _ => True
  | .finish _ => True
  | .notifyOne _ => True
  | .notifyAll => True
  | _ => False

/-- One of these steps. -/
def Moves : ThreadPool threadCount Task → Event threadCount Task → ThreadPool threadCount Task →
    Prop :=
  Steps next fun s e => e.Own ∧ s.Enabled e

/-- The steps that the workers have ahead of them. -/
def ahead (s : ThreadPool threadCount Task) : Nat := ∑ w, (s.workers w).ahead

/-- A task takes two steps more than the turn that finds it, and a notification may wake a worker
for one more turn, or all of them. -/
def credit (threadCount tasks notices : Nat) (closing : Bool) (ahead : Nat) : Nat :=
  2 * tasks + ahead + 2 * notices + if closing = true then threadCount + 1 else 0

/-- What is ahead of the threads. -/
def rank (s : ThreadPool threadCount Task) : Nat :=
  credit threadCount s.tasks.length s.notices s.closing s.ahead

theorem ahead_setWorker {w : Fin threadCount} {old : Worker Task} (hw : s.workers w = old)
    (state : Worker Task) : (s.setWorker w state).ahead + old.ahead = s.ahead + state.ahead := by
  have hupdate : (fun w' => ((s.setWorker w state).workers w').ahead) =
      Function.update (fun w' => (s.workers w').ahead) w state.ahead :=
    Function.comp_update Worker.ahead s.workers w state
  rw [ahead, hupdate, ahead, Finset.sum_update_of_mem (Finset.mem_univ w),
    ← Finset.add_sum_erase _ _ (Finset.mem_univ w), Finset.sdiff_singleton_eq_erase, hw]
  omega

theorem rank_turn (w : Fin threadCount) (enabled : s.workers w = .ready) :
    rank (s.turn w) < rank s := by
  rw [ThreadPool.turn]
  split
  · -- the task is worth two steps, and the worker has one more ahead of it
    rename_i task tasks htasks
    have hsum : (s.setWorker w (.running task)).ahead + 1 = s.ahead + 2 :=
      ahead_setWorker enabled (.running task)
    change credit threadCount tasks.length s.notices s.closing
      (s.setWorker w (.running task)).ahead < rank s
    rw [rank, htasks, List.length_cons, credit, credit]
    omega
  · split
    · have hsum : (s.setWorker w .gone).ahead + 1 = s.ahead := ahead_setWorker enabled .gone
      change credit threadCount s.tasks.length s.notices s.closing (s.setWorker w .gone).ahead <
        rank s
      rw [rank, credit, credit]
      omega
    · have hsum : (s.setWorker w .asleep).ahead + 1 = s.ahead := ahead_setWorker enabled .asleep
      change credit threadCount s.tasks.length s.notices s.closing (s.setWorker w .asleep).ahead <
        rank s
      rw [rank, credit, credit]
      omega

theorem rank_notifyAll (enabled : s.closing = true) : rank s.notifyAll < rank s := by
  have hsum : s.notifyAll.ahead ≤ s.ahead + threadCount := by
    have hone : ∀ w ∈ Finset.univ, (s.notifyAll.workers w).ahead ≤ (s.workers w).ahead + 1 := by
      intro w _
      rw [notifyAll]
      cases hw : s.workers w <;> simp [hw, Worker.ahead]
    refine (Finset.sum_le_sum hone).trans_eq ?_
    rw [Finset.sum_add_distrib, Finset.sum_const, Finset.card_univ, Fintype.card_fin, ahead]
    simp
  change credit threadCount s.tasks.length s.notices false s.notifyAll.ahead < rank s
  rw [rank, enabled, credit, credit, if_neg Bool.false_ne_true, if_pos rfl]
  omega

theorem rank_move {e : Event threadCount Task} (move : Moves s e t) : rank t < rank s := by
  obtain ⟨⟨own, enabled⟩, rfl⟩ := move
  cases e with
  | turn w => exact rank_turn w enabled
  | finish w =>
    obtain ⟨task, hw⟩ := enabled
    have hsum : (s.setWorker w .ready).ahead + 2 = s.ahead + 1 := ahead_setWorker hw .ready
    change credit threadCount s.tasks.length s.notices s.closing (s.setWorker w .ready).ahead <
      rank s
    rw [rank, credit, credit]
    omega
  | notifyOne w =>
    cases w with
    | some w =>
      obtain ⟨hpos, hw⟩ := enabled
      have hsum : (s.setWorker w .ready).ahead = s.ahead + 1 := ahead_setWorker hw .ready
      change credit threadCount s.tasks.length (s.notices - 1) s.closing
        (s.setWorker w .ready).ahead < rank s
      rw [rank, credit, credit]
      omega
    | none =>
      obtain ⟨hpos, -⟩ := enabled
      change credit threadCount s.tasks.length (s.notices - 1) s.closing s.ahead < rank s
      rw [rank, credit, credit]
      omega
  | notifyAll => exact rank_notifyAll enabled
  | wake | addTask | close => exact absurd own id

/-! ## Where the threads have come to rest -/

/-- Once the destructor has notified everybody, nobody falls asleep again. -/
structure Closed (s : ThreadPool threadCount Task) : Prop where
  closing : s.closing = true → s.isClosed = true
  awake : s.isClosed = true → s.closing = false → ∀ w, s.workers w ≠ .asleep

theorem Closed.setWorker (h : Closed s) (w : Fin threadCount) (state : Worker Task)
    (hstate : state ≠ .asleep) : Closed (s.setWorker w state) := by
  refine ⟨h.closing, fun hclosed hclosing w' => ?_⟩
  by_cases hw : w' = w
  · rw [hw, workers_setWorker]
    exact hstate
  · rw [workers_setWorker_of_ne state hw]
    exact h.awake hclosed hclosing w'

theorem Closed.next (h : Closed s) {e : Event threadCount Task} (enabled : s.Enabled e) :
    Closed (s.next e) := by
  cases e with
  | turn w =>
    rw [ThreadPool.next, ThreadPool.turn]
    split
    · rename_i task tasks _
      exact ⟨h.closing, (h.setWorker w (.running task) (by simp)).awake⟩
    · split
      · exact h.setWorker w .gone (by simp)
      · rename_i hopen
        exact ⟨h.closing, fun hclosed => absurd hclosed hopen⟩
  | finish w => exact h.setWorker w .ready (by simp)
  | wake w => exact h.setWorker w .ready (by simp)
  | addTask task =>
    have hopen : s.isClosed = false := enabled
    exact ⟨h.closing, fun hclosed => absurd (hopen.symm.trans hclosed) Bool.false_ne_true⟩
  | notifyOne w =>
    cases w with
    | some w => exact ⟨h.closing, (h.setWorker w .ready (by simp)).awake⟩
    | none => exact ⟨h.closing, h.awake⟩
  | close => exact ⟨fun _ => rfl, fun _ hclosing => absurd hclosing (Bool.noConfusion)⟩
  | notifyAll =>
    refine ⟨fun hclosing => absurd hclosing Bool.false_ne_true, fun _ _ w hw => ?_⟩
    rw [ThreadPool.next, ThreadPool.notifyAll] at hw
    dsimp only at hw
    split at hw
    · cases hw
    · rename_i hne
      exact hne hw

theorem closed_of_run {events : List (Event threadCount Task)}
    (run : Run (Steps next Enabled) start events s) : Closed s := by
  have keep : ∀ (s : ThreadPool threadCount Task) (e : Event threadCount Task) (t : _),
      Closed s → Steps next Enabled s e t → Closed t := by
    rintro s e t h ⟨enabled, rfl⟩
    exact h.next enabled
  refine run.invariant keep ⟨fun hclosing => ?_, fun hclosed => ?_⟩
  · cases hclosing
  · cases hclosed

/-- No thread has a step to make. -/
def Resting (s : ThreadPool threadCount Task) : Prop := ∀ e t, ¬ Moves s e t

theorem not_enabled_of_resting (h : s.Resting) {e : Event threadCount Task} (own : e.Own) :
    ¬ s.Enabled e := fun enabled => h e _ ⟨⟨own, enabled⟩, rfl⟩

/-- Whoever rests is asleep or gone. -/
theorem asleep_or_gone (h : s.Resting) (w : Fin threadCount) :
    s.workers w = .asleep ∨ s.workers w = .gone := by
  cases hw : s.workers w with
  | ready => exact absurd hw (not_enabled_of_resting h (e := .turn w) trivial)
  | running task => exact absurd ⟨task, hw⟩ (not_enabled_of_resting h (e := .finish w) trivial)
  | asleep => exact .inl rfl
  | gone => exact .inr rfl

theorem not_outstanding_of_resting (h : s.Resting) : ¬ s.Outstanding := by
  rintro (hpos | hclosing)
  · by_cases hasleep : ∃ w, s.workers w = .asleep
    · obtain ⟨w, hw⟩ := hasleep
      exact not_enabled_of_resting h (e := .notifyOne (some w)) trivial ⟨hpos, hw⟩
    · push Not at hasleep
      exact not_enabled_of_resting h (e := .notifyOne none) trivial ⟨hpos, hasleep⟩
  · exact not_enabled_of_resting h (e := .notifyAll) trivial hclosing

/-- What is left to be done where the threads rest: nothing. -/
structure Drained (s : ThreadPool threadCount Task) : Prop where
  tasks : s.tasks = []
  taken : s.taken.map Prod.snd = s.added
  ended : ∀ w task, s.workers w ≠ .running task
  gone : s.isClosed = true → ∀ w, s.workers w = .gone

theorem drained_of_resting (sound : Sound s) (closed : Closed s) (h : s.Resting) : s.Drained := by
  have hout := not_outstanding_of_resting h
  have hnone : s.tasks = [] := by
    by_contra hne
    obtain ⟨w, hw⟩ := (sound.awake hne).resolve_left hout
    obtain hrest | hrest := asleep_or_gone h w <;> rw [hrest] at hw <;> exact hw
  refine ⟨hnone, ?_, fun w task hw => ?_, fun hclosed w => ?_⟩
  · have horder := sound.order
    rwa [hnone, List.append_nil] at horder
  · obtain hrest | hrest := asleep_or_gone h w <;> rw [hrest] at hw <;> cases hw
  · have hclosing : s.closing = false := by
      by_contra hne
      exact hout (.inr (eq_true_of_ne_false hne))
    exact (asleep_or_gone h w).resolve_left (closed.awake hclosed hclosing w)

/-- From every state of every run, the threads make at most `rank` steps before they rest, they can
come to rest, and wherever they do the pool is drained. -/
theorem drained_of_run (hcount : 0 < threadCount) (events : List (Event threadCount Task))
    (s : ThreadPool threadCount Task) (run : Run (Steps next Enabled) start events s) :
    (∃ moves t, Run Moves s moves t ∧ t.Resting) ∧
      ∀ moves t, Run Moves s moves t → moves.length + rank t ≤ rank s ∧
        (t.Resting → t.Drained) := by
  refine ⟨Run.exists_stuck (fun _ _ _ move => rank_move move) s, fun moves t hmoves => ?_⟩
  refine ⟨hmoves.length_add_le fun _ _ _ move => rank_move move, fun hresting => ?_⟩
  have hall : ∀ (s : ThreadPool threadCount Task) (e : Event threadCount Task) (t : _),
      Sound s ∧ Closed s → Moves s e t → Sound t ∧ Closed t := by
    rintro s e t ⟨hsound, hclosed⟩ ⟨⟨-, enabled⟩, rfl⟩
    exact ⟨hsound.next hcount enabled, hclosed.next enabled⟩
  obtain ⟨hsound, hclosed⟩ :=
    hmoves.invariant hall ⟨sound_of_run hcount run, closed_of_run run⟩
  exact drained_of_resting hsound hclosed hresting

/-- Two workers, a task that nobody has taken, and the destructor behind its flag. -/
def pending : List (Event 2 Nat) :=
  [.turn (Fin.last 1), .addTask 7, .notifyOne (some (Fin.last 1)), .close]

theorem drained_of_run_pending :
    (∃ moves t, Run Moves (pending.foldl next start) moves t ∧ t.Resting) ∧
      ∀ moves t, Run Moves (pending.foldl next start) moves t →
        moves.length + rank t ≤ rank (pending.foldl next start) ∧ (t.Resting → t.Drained) := by
  refine drained_of_run (by decide) pending _ ?_
  refine .cons ⟨rfl, rfl⟩ (.cons ⟨rfl, rfl⟩ ?_)
  exact .cons ⟨⟨by decide, rfl⟩, rfl⟩ (.cons ⟨⟨rfl, rfl⟩, rfl⟩ (.nil _))

end ThreadPool

end SocketMaster
