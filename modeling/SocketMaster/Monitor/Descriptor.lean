import SocketMaster.Library.Run
import SocketMaster.Monitor.Basic
import Mathlib.Data.List.Infix

/-!
# The inotify descriptor over a whole run

As long as the day stays the same, the object has either no descriptor or the one that it opened
last. On a new day `release_resource` closes the descriptor and leaves its number in the member,
where `init` takes it for an open one: it is watched in vain, and closed once more.
-/
namespace SocketMaster

open Library

namespace InotifyCall

theorem Proper.of_suffix {older calls : List InotifyCall} (h : Proper calls)
    (hsuffix : older <:+ calls) : Proper older := by
  induction calls with
  | nil =>
    rw [List.suffix_nil.mp hsuffix]
    exact h
  | cons call calls ih =>
    obtain rfl | hrest := List.suffix_cons_iff.mp hsuffix
    · exact h
    · cases call with
      | init fd => exact ih h hrest
      | close fd => exact ih h.2 hrest

end InotifyCall

namespace MonitorVedio

open InotifyCall (held Proper)

/-- The member says that there is no descriptor, or it is one that the object has open. -/
def Owned (v : MonitorVedio) : Prop := v.inotifyFd = -1 ∨ v.inotifyFd ∈ held v.calls

/-- The directory of the day is watched, on a descriptor that is open. -/
def Watching (v : MonitorVedio) : Prop :=
  v.inotifyFd ∈ held v.calls ∧ ⟨v.inotifyFd, v.watchFd, v.vedioDir⟩ ∈ v.watches

/-- No descriptor. -/
structure Idle (v : MonitorVedio) : Prop where
  fd : v.inotifyFd = -1
  held : held v.calls = []
  proper : Proper v.calls

/-- One descriptor, with a watch. -/
structure Open (v : MonitorVedio) : Prop where
  fd : 0 ≤ v.inotifyFd
  wd : 0 ≤ v.watchFd
  held : held v.calls = [v.inotifyFd]
  proper : Proper v.calls

variable {v : MonitorVedio}

theorem Idle.owned (h : v.Idle) : v.Owned := .inl h.fd

theorem Open.owned (h : v.Open) : v.Owned := .inr (h.held ▸ List.mem_singleton_self _)

/-- The destructor leaves nothing open. -/
theorem Idle.releaseResource (h : v.Idle) :
    Proper v.releaseResource.calls ∧ InotifyCall.held v.releaseResource.calls = [] := by
  have hcalls : v.releaseResource.calls = v.calls := by
    have hfd := h.fd
    unfold MonitorVedio.releaseResource
    grind
  exact hcalls ▸ ⟨h.proper, h.held⟩

theorem Open.releaseResource_calls (h : v.Open) :
    v.releaseResource.calls = .close v.inotifyFd :: v.calls := by
  have hfd := h.fd
  unfold MonitorVedio.releaseResource closeInotify
  grind

theorem Open.releaseResource (h : v.Open) :
    Proper v.releaseResource.calls ∧ InotifyCall.held v.releaseResource.calls = [] := by
  rw [h.releaseResource_calls]
  simp [InotifyCall.Proper, InotifyCall.held, h.held, h.proper]

/-- `init` without a descriptor ends with one that is watched, or again without. -/
theorem Idle.init (h : v.Idle) (o : InotifyOutcome) : (v.init o).Idle ∨ (v.init o).Open := by
  unfold MonitorVedio.init
  rw [if_pos h.fd]
  cases o.inotifyInit with
  | none => exact .inl h
  | some fd =>
    have hheld : InotifyCall.held (.init (fd : Int) :: v.calls) = [(fd : Int)] := by
      rw [InotifyCall.held, h.held]
    dsimp only [addWatch]
    rw [hheld, if_pos (List.mem_singleton_self _)]
    cases o.addWatch with
    | some wd => exact .inr ⟨Int.natCast_nonneg fd, Int.natCast_nonneg wd, hheld, h.proper⟩
    | none =>
      refine .inl ⟨rfl, ?_, ?_⟩
      · simp [closeInotify, InotifyCall.held, h.held]
      · exact ⟨hheld ▸ List.mem_singleton_self _, h.proper⟩

theorem Idle.enter (h : v.Idle) (o : InotifyOutcome) (read : Option (List InotifyEvent)) :
    ((v.enter o read).1.Idle ∨ (v.enter o read).1.Open) ∧
      ((v.enter o read).2 ≠ [] → (v.enter o read).1.Open) := by
  have hneg : v.inotifyFd < 0 ∨ v.watchFd < 0 := .inl (by rw [h.fd]; decide)
  have hinit := h.init o
  simp only [MonitorVedio.enter, if_pos hneg]
  obtain hidle | hopen := hinit
  · have hneg' : (v.init o).inotifyFd < 0 ∨ (v.init o).watchFd < 0 :=
      .inl (by rw [hidle.fd]; decide)
    rw [if_pos hneg']
    exact ⟨.inl hidle, fun hne => absurd rfl hne⟩
  · have hpos : ¬ ((v.init o).inotifyFd < 0 ∨ (v.init o).watchFd < 0) := by
      have hfd := hopen.fd
      have hwd := hopen.wd
      omega
    rw [if_neg hpos]
    exact ⟨.inr hopen, fun _ => hopen⟩

theorem Open.enter (h : v.Open) (o : InotifyOutcome) (read : Option (List InotifyEvent)) :
    (v.enter o read).1.Open := by
  have hpos : ¬ (v.inotifyFd < 0 ∨ v.watchFd < 0) := by
    have hfd := h.fd
    have hwd := h.wd
    omega
  simpa only [MonitorVedio.enter, if_neg hpos] using h

/-- What a turn on the same day leaves alone. -/
structure SameDescriptor (v t : MonitorVedio) : Prop where
  fd : t.inotifyFd = v.inotifyFd
  wd : t.watchFd = v.watchFd
  calls : t.calls = v.calls
  day : t.currentDay = v.currentDay

theorem Idle.congr {t : MonitorVedio} (h : v.Idle) (hsame : SameDescriptor v t) : t.Idle :=
  ⟨hsame.fd ▸ h.fd, hsame.calls ▸ h.held, hsame.calls ▸ h.proper⟩

theorem Open.congr {t : MonitorVedio} (h : v.Open) (hsame : SameDescriptor v t) : t.Open := by
  obtain ⟨hfd, hwd, hcalls, -⟩ := hsame
  exact ⟨hfd ▸ h.fd, hwd ▸ h.wd, by rw [hcalls, hfd, h.held], hcalls ▸ h.proper⟩

theorem sameDescriptor_moveFile (v : MonitorVedio) (fileName : List UInt8) (i : MoveInput) :
    SameDescriptor v (v.moveFile fileName i) := by
  unfold moveFile
  cases v.logFile with
  | none => split_ifs <;> exact ⟨rfl, rfl, rfl, rfl⟩
  | some file => dsimp only; split_ifs <;> exact ⟨rfl, rfl, rfl, rfl⟩

/-- The move of a file is handled on a new day. -/
def DayChanges (v : MonitorVedio) (i : MoveInput) : Prop :=
  getCurrentDateString i.day.today ≠ v.currentDay

theorem sameDescriptor_turn {e : InotifyEvent} {i : MoveInput}
    (h : e.movedTo = true → ¬ v.DayChanges i) : SameDescriptor v (v.turn e i) := by
  cases hmove : e.movedTo with
  | false =>
    simp only [turn, hmove, Bool.false_eq_true, if_false]
    exact ⟨rfl, rfl, rfl, rfl⟩
  | true =>
    obtain ⟨hfd, hwd, hcalls, hday⟩ := sameDescriptor_moveFile v e.name i
    have hsame : ¬ getCurrentDateString i.day.today ≠ (v.moveFile e.name i).currentDay :=
      hday ▸ h hmove
    simp only [turn, hmove, if_true, movToAction, ifNextDay, if_neg hsame]
    exact ⟨hfd, hwd, hcalls, hday⟩

theorem currentDay_init (v : MonitorVedio) (o : InotifyOutcome) :
    (v.init o).currentDay = v.currentDay := by
  unfold MonitorVedio.init addWatch closeInotify
  grind

theorem currentDay_enter (v : MonitorVedio) (o : InotifyOutcome) (read : Option (List InotifyEvent)) :
    (v.enter o read).1.currentDay = v.currentDay := by
  have hinit := currentDay_init v o
  unfold MonitorVedio.enter
  grind

/-- On a new day the number of the closed descriptor is used as if it were open: either it stays
in the member, or it is closed a second time. -/
theorem Open.turn_of_dayChanges (h : v.Open) {e : InotifyEvent} (hmove : e.movedTo = true)
    {i : MoveInput} (hday : v.DayChanges i) :
    ¬ (v.turn e i).Owned ∨ ¬ Proper (v.turn e i).calls := by
  have hsame := sameDescriptor_moveFile v e.name i
  have hopen := h.congr hsame
  have hcalls := hopen.releaseResource_calls
  obtain ⟨-, hheld⟩ := hopen.releaseResource
  have hnext : getCurrentDateString i.day.today ≠ (v.moveFile e.name i).currentDay :=
    hsame.day ▸ hday
  generalize hu : v.moveFile e.name i = u at hopen hcalls hheld hnext
  have hfd : u.releaseResource.inotifyFd = u.inotifyFd := by
    unfold MonitorVedio.releaseResource closeInotify
    grind
  have hpos : u.inotifyFd ≠ -1 := by
    have hpos := hopen.fd
    omega
  have hstray : u.inotifyFd ∉ InotifyCall.held u.releaseResource.calls := by
    rw [hheld]
    exact List.not_mem_nil
  have hturn : v.turn e i = ((u.releaseResource.dateInit i.day.date).addWatch
      i.day.outcome).createAction := by
    simp only [turn, hmove, if_true, movToAction, hu, ifNextDay, if_pos hnext, MonitorVedio.init,
      dateInit, openLogFileInAppendMode, hfd, if_neg hpos]
  rw [hturn]
  cases hanswer : i.day.outcome.stray with
  | some wd =>
    left
    simp only [Owned, createAction, addWatch, dateInit, openLogFileInAppendMode, hfd,
      if_neg hstray, hanswer]
    exact not_or.mpr ⟨hpos, hstray⟩
  | none =>
    right
    simp only [createAction, addWatch, closeInotify, dateInit, openLogFileInAppendMode, hfd,
      if_neg hstray, hanswer]
    exact fun hproper => hstray hproper.1

/-! ## The calls are kept -/

theorem calls_addWatch (v : MonitorVedio) (o : InotifyOutcome) : v.calls <:+ (v.addWatch o).calls := by
  unfold addWatch
  split
  · exact List.suffix_rfl
  · exact List.suffix_cons _ _

theorem calls_init (v : MonitorVedio) (o : InotifyOutcome) : v.calls <:+ (v.init o).calls := by
  unfold MonitorVedio.init
  split
  · split
    · exact (List.suffix_cons _ _).trans
        (calls_addWatch { v with inotifyFd := _, calls := .init _ :: v.calls } o)
    · exact List.suffix_rfl
  · exact calls_addWatch v o

theorem calls_releaseResource (v : MonitorVedio) : v.calls <:+ v.releaseResource.calls := by
  unfold MonitorVedio.releaseResource closeInotify
  dsimp only
  split_ifs
  · exact List.suffix_cons _ _
  · exact List.suffix_rfl
  · exact List.suffix_cons _ _
  · exact List.suffix_rfl

theorem calls_turn (v : MonitorVedio) (e : InotifyEvent) (i : MoveInput) :
    v.calls <:+ (v.turn e i).calls := by
  have hmoved : v.calls = (v.moveFile e.name i).calls :=
    (sameDescriptor_moveFile v e.name i).calls.symm
  unfold turn
  cases e.movedTo with
  | false => exact List.suffix_rfl
  | true =>
    simp only [if_true, createAction, movToAction, ifNextDay, hmoved]
    split
    · exact (calls_releaseResource _).trans
        (calls_init ((v.moveFile e.name i).releaseResource.dateInit i.day.date) i.day.outcome)
    · exact List.suffix_rfl

theorem calls_enter (v : MonitorVedio) (o : InotifyOutcome) (read : Option (List InotifyEvent)) :
    v.calls <:+ (v.enter o read).1.calls := by
  have hinit := calls_init v o
  unfold MonitorVedio.enter
  dsimp only
  split_ifs
  · exact hinit
  · exact hinit
  · exact List.suffix_rfl

end MonitorVedio

namespace Monitoring

open InotifyCall (held Proper)

variable {s t : Monitoring}

theorem calls_next (s : Monitoring) (a : Act) : s.vedio.calls <:+ (s.next a).vedio.calls := by
  cases a with
  | recvWarning t => exact List.suffix_rfl
  | monitor o read => exact s.vedio.calls_enter o read
  | turn e i => exact s.vedio.calls_turn e i

theorem calls_after (s : Monitoring) (acts : List Act) :
    s.vedio.calls <:+ (s.after acts).vedio.calls := by
  induction acts generalizing s with
  | nil => exact List.suffix_rfl
  | cons a acts ih => exact (calls_next s a).trans (ih (s.next a))

/-- What is asked of a run and of the destructor behind it: the descriptor is never one that is
not open, no other is closed, none is left, and a new day is watched if the system lets it. -/
structure OwnsDescriptor (s : Monitoring) (acts : List Act) : Prop where
  owned : ∀ front, front <+: acts → (s.after front).vedio.Owned
  proper : Proper (s.after acts).vedio.releaseResource.calls
  closed : held (s.after acts).vedio.releaseResource.calls = []
  watching : ∀ front e i, front ++ [.turn e i] <+: acts → e.movedTo = true →
    (s.after front).vedio.DayChanges i → i.day.outcome.inotifyInit ≠ none →
      i.day.outcome.addWatch ≠ none → (s.after (front ++ [.turn e i])).vedio.Watching

theorem OwnsDescriptor.tail {a : Act} {acts : List Act} (h : OwnsDescriptor s (a :: acts)) :
    OwnsDescriptor (s.next a) acts where
  owned front hfront := h.owned (a :: front) (List.cons_prefix_cons.mpr ⟨rfl, hfront⟩)
  proper := h.proper
  closed := h.closed
  watching front e i hfront :=
    h.watching (a :: front) e i (List.cons_prefix_cons.mpr ⟨rfl, hfront⟩)

theorem pending_ne_nil {e : InotifyEvent} {i : MoveInput} (enabled : s.Enabled (.turn e i)) :
    s.pending ≠ [] := by
  intro hnil
  rw [Enabled, hnil] at enabled
  cases enabled

/-- As long as no move is handled on another day. -/
structure Steady (day : List UInt8) (s : Monitoring) : Prop where
  day : s.vedio.currentDay = day
  descriptor : s.vedio.Idle ∨ s.vedio.Open
  pending : s.pending ≠ [] → s.vedio.Open

variable {day : List UInt8}

theorem Steady.owned (h : Steady day s) : s.vedio.Owned := h.descriptor.elim (·.owned) (·.owned)

theorem Steady.start (path logFilePath : List UInt8) (d : DateInput) (o : InotifyOutcome) :
    Steady (MonitorVedio.getCurrentDateString d.now) (start path logFilePath d o) := by
  have hidle : ((({ orginPath := path, logFilePath } : MonitorVedio).dateInit d)).Idle :=
    ⟨rfl, rfl, trivial⟩
  exact ⟨MonitorVedio.currentDay_init _ o, hidle.init o, fun hne => absurd rfl hne⟩

theorem Steady.next (h : Steady day s) {a : Act} (enabled : s.Enabled a)
    (same : ∀ e i, a = .turn e i → e.movedTo = true → ¬ s.vedio.DayChanges i) :
    Steady day (s.next a) := by
  cases a with
  | recvWarning t =>
    have hsame : MonitorVedio.SameDescriptor s.vedio (s.vedio.recvWarning t) := ⟨rfl, rfl, rfl, rfl⟩
    exact ⟨h.day, h.descriptor.imp (·.congr hsame) (·.congr hsame),
      fun hne => (h.pending hne).congr hsame⟩
  | monitor o read =>
    refine ⟨(s.vedio.currentDay_enter o read).trans h.day, ?_, ?_⟩
    · obtain hidle | hopen := h.descriptor
      · exact (hidle.enter o read).1
      · exact .inr (hopen.enter o read)
    · obtain hidle | hopen := h.descriptor
      · exact (hidle.enter o read).2
      · exact fun _ => hopen.enter o read
  | turn e i =>
    have hsame := MonitorVedio.sameDescriptor_turn (same e i rfl)
    exact ⟨hsame.day.trans h.day, h.descriptor.imp (·.congr hsame) (·.congr hsame),
      fun _ => (h.pending (pending_ne_nil enabled)).congr hsame⟩

/-- A move that is handled on another day is fatal. -/
theorem Steady.not_ownsDescriptor (h : Steady day s) {e : InotifyEvent} {i : MoveInput}
    {acts : List Act} (enabled : s.Enabled (.turn e i)) (hmove : e.movedTo = true)
    (hday : s.vedio.DayChanges i) : ¬ OwnsDescriptor s (.turn e i :: acts) := by
  intro howns
  have hopen := h.pending (pending_ne_nil enabled)
  obtain hstray | htwice := hopen.turn_of_dayChanges hmove hday
  · exact hstray (howns.owned [.turn e i] (List.cons_prefix_cons.mpr ⟨rfl, List.nil_prefix⟩))
  · exact htwice (howns.proper.of_suffix
      ((calls_after (s.next (.turn e i)) acts).trans (MonitorVedio.calls_releaseResource _)))

theorem Steady.owns_iff (h : Steady day s) {acts : List Act}
    (run : Run (Steps Monitoring.next Enabled) s acts t) :
    OwnsDescriptor s acts ↔ ∀ e i, .turn e i ∈ acts → e.movedTo = true →
      MonitorVedio.getCurrentDateString i.day.today = day := by
  induction run with
  | nil s =>
    have hrelease := h.descriptor.elim (·.releaseResource) (·.releaseResource)
    refine iff_of_true ⟨?_, hrelease.1, hrelease.2, ?_⟩ fun e i hmem => absurd hmem List.not_mem_nil
    · intro front hfront
      rw [List.prefix_nil.mp hfront]
      exact h.owned
    · intro front e i hfront
      simp at hfront
  | @cons s u t a acts step run ih =>
    obtain ⟨enabled, rfl⟩ := step
    by_cases hsame : ∀ e i, a = .turn e i → e.movedTo = true → ¬ s.vedio.DayChanges i
    · have ih := ih (h.next enabled hsame)
      constructor
      · intro howns e i hmem hmove
        obtain rfl | hmem := List.mem_cons.mp hmem
        · exact (not_not.mp (hsame e i rfl hmove)).trans h.day
        · exact ih.mp howns.tail e i hmem hmove
      · intro hdays
        have howns := ih.mpr fun e i hmem => hdays e i (List.mem_cons_of_mem _ hmem)
        refine ⟨?_, howns.proper, howns.closed, ?_⟩
        · intro front hfront
          obtain rfl | ⟨front, rfl, hrest⟩ := List.prefix_cons_iff.mp hfront
          · exact h.owned
          · exact howns.owned front hrest
        · intro front e i hfront
          cases front with
          | nil =>
            intro hmove hday
            exact absurd hday (hsame e i (List.cons_prefix_cons.mp hfront).1.symm hmove)
          | cons b front =>
            obtain ⟨rfl, hrest⟩ := List.cons_prefix_cons.mp hfront
            exact howns.watching front e i hrest
    · push Not at hsame
      obtain ⟨e, i, rfl, hmove, hday⟩ := hsame
      refine iff_of_false (h.not_ownsDescriptor enabled hmove hday) fun hdays => ?_
      exact hday ((hdays e i List.mem_cons_self hmove).trans h.day.symm)

/-- The object owns its descriptor over a whole run exactly if no move is handled on a later day
than that of the constructor. -/
theorem ownsDescriptor_iff (path logFilePath : List UInt8) (d : DateInput) (o : InotifyOutcome)
    {acts : List Act} (run : Run (Steps next Enabled) (start path logFilePath d o) acts t) :
    OwnsDescriptor (start path logFilePath d o) acts ↔
      ∀ e i, .turn e i ∈ acts → e.movedTo = true →
        MonitorVedio.getCurrentDateString i.day.today =
          MonitorVedio.getCurrentDateString d.now :=
  (Steady.start path logFilePath d o).owns_iff run

/-- The file is moved in at some time. -/
theorem run_moveOfA (i : MoveInput) :
    Run (Steps Monitoring.next Enabled) (start [47, 118] [47, 108] newYear fine)
      [.monitor fine (some [moveOfA]), .turn moveOfA i]
      ((start [47, 118] [47, 108] newYear fine).after
        [.monitor fine (some [moveOfA]), .turn moveOfA i]) :=
  .cons ⟨rfl, rfl⟩ (.cons ⟨rfl, rfl⟩ (.nil _))

/-- A file is moved in on the day of the constructor. -/
theorem ownsDescriptor_newYear :
    OwnsDescriptor (start [47, 118] [47, 108] newYear fine)
      [.monitor fine (some [moveOfA]), .turn moveOfA newYearMove] := by
  refine (ownsDescriptor_iff _ _ newYear fine (run_moveOfA newYearMove)).mpr fun e i hmem _ => ?_
  obtain hturn | hturn := List.mem_pair.mp hmem
  · cases hturn
  · cases hturn
    rfl

/-- The same move is handled on the next day. -/
def nextDayMove : MoveInput :=
  { newYearMove with day := ⟨⟨126, 0, 2⟩, ⟨⟨126, 0, 2⟩, ⟨126, 0, 2⟩, true⟩, fine⟩ }

theorem not_ownsDescriptor_nextDay :
    ¬ OwnsDescriptor (start [47, 118] [47, 108] newYear fine)
      [.monitor fine (some [moveOfA]), .turn moveOfA nextDayMove] := by
  intro h
  have hsteady := Steady.start [47, 118] [47, 108] newYear fine
  have hday := (hsteady.owns_iff (run_moveOfA nextDayMove)).mp h moveOfA nextDayMove
    (List.mem_pair.mpr (.inr rfl)) (by decide)
  exact absurd hday (by decide)

end Monitoring

end SocketMaster
