import SocketMaster.Library.Folds
import SocketMaster.Monitor.Basic

/-!
# Warnings and the videos that are kept

A warning sets the flag of the video that is being recorded. When a video has been moved in,
`mov_to_action` looks at the flag of the last one, and only then `create_action` makes the flag
of the current video that of the last. So each move is judged by the warnings that came before
the move in front of it.
-/
namespace SocketMaster

open Library

namespace MonitorVedio

variable (s : MonitorVedio)

/-- Nothing but the log changes hands when the day does: the flags stay, and so do the files. -/
structure SameVideos (s t : MonitorVedio) : Prop where
  curVedio : t.curVedio = s.curVedio
  lastVedio : t.lastVedio = s.lastVedio
  acts : t.acts = s.acts

theorem sameVideos_addWatch (o : InotifyOutcome) : SameVideos s (s.addWatch o) := by
  unfold addWatch
  split <;> exact ⟨rfl, rfl, rfl⟩

theorem sameVideos_init (o : InotifyOutcome) : SameVideos s (s.init o) := by
  unfold init
  split
  · split
    · obtain ⟨hcur, hlast, hacts⟩ := sameVideos_addWatch
        { s with inotifyFd := _, calls := .init _ :: s.calls } o
      exact ⟨hcur, hlast, hacts⟩
    · exact ⟨rfl, rfl, rfl⟩
  · exact sameVideos_addWatch s o

theorem sameVideos_releaseResource : SameVideos s s.releaseResource := by
  unfold releaseResource closeInotify
  constructor <;> grind

theorem sameVideos_ifNextDay (i : DayInput) : SameVideos s (s.ifNextDay i) := by
  unfold ifNextDay
  split
  · obtain ⟨hcur, hlast, hacts⟩ := sameVideos_init (s.releaseResource.dateInit i.date) i.outcome
    obtain ⟨hcur', hlast', hacts'⟩ := sameVideos_releaseResource s
    exact ⟨hcur.trans hcur', hlast.trans hlast', hacts.trans hacts'⟩
  · exact ⟨rfl, rfl, rfl⟩

theorem sameVideos_enter (o : InotifyOutcome) (read : Option (List InotifyEvent)) :
    SameVideos s (s.enter o read).1 := by
  have hinit := sameVideos_init s o
  unfold enter
  dsimp only
  split_ifs
  · exact hinit
  · exact hinit
  · exact ⟨rfl, rfl, rfl⟩

theorem sameVideos_new (path logFilePath : List UInt8) (i : DateInput) (o : InotifyOutcome) :
    SameVideos { orginPath := path, logFilePath } (new path logFilePath i o) := by
  obtain ⟨hcur, hlast, hacts⟩ := sameVideos_init
    (({ orginPath := path, logFilePath } : MonitorVedio).dateInit i) o
  exact ⟨hcur, hlast, hacts⟩

/-- What `mov_to_action` does with the file. -/
def fileActs (fileName : List UInt8) (i : MoveInput) : List FileAct :=
  if s.lastVedio.unwarning then
    if i.found then [.remove (s.vedioDir ++ fileName)] else []
  else
    match s.logFile with
    | some file => if i.written then [.log file fileName] else []
    | none => []

theorem moveFile_spec (fileName : List UInt8) (i : MoveInput) :
    (s.moveFile fileName i).curVedio = s.curVedio ∧
      (s.moveFile fileName i).lastVedio = s.lastVedio ∧
      (s.moveFile fileName i).acts = s.fileActs fileName i ++ s.acts := by
  unfold moveFile fileActs
  cases s.logFile with
  | none => split_ifs <;> exact ⟨rfl, rfl, rfl⟩
  | some file => dsimp only; split_ifs <;> exact ⟨rfl, rfl, rfl⟩

/-- The turn of a move: the file is judged by the last flag, which then becomes the current. -/
theorem turn_of_movedTo {e : InotifyEvent} (h : e.movedTo = true) (i : MoveInput) :
    (s.turn e i).curVedio.unwarning = true ∧
      (s.turn e i).lastVedio.unwarning = s.curVedio.unwarning ∧
      (s.turn e i).acts = s.fileActs e.name i ++ s.acts := by
  obtain ⟨hcur, hlast, hacts⟩ := sameVideos_ifNextDay (s.moveFile e.name i) i.day
  obtain ⟨hcur', hlast', hacts'⟩ := moveFile_spec s e.name i
  have hturn : s.turn e i = ((s.moveFile e.name i).ifNextDay i.day).createAction := by
    simp only [turn, h, if_true, movToAction]
  rw [hturn]
  refine ⟨rfl, ?_, hacts.trans hacts'⟩
  show ((s.moveFile e.name i).ifNextDay i.day).curVedio.unwarning = _
  rw [hcur, hcur']

theorem turn_of_not_movedTo {e : InotifyEvent} (h : e.movedTo = false) (i : MoveInput) :
    s.turn e i = s := by
  simp [turn, h]

end MonitorVedio

namespace Monitoring

def Act.IsWarning : Act → Prop
  | .recvWarning _ => True
  | _ => False

def Act.IsMove : Act → Prop
  | .turn e _ => e.movedTo = true
  | _ => False

/-- A warning has come since the last move, or since the start. -/
def Warned (acts : List Act) : Prop := LastSets Act.IsWarning Act.IsMove acts

/-- There was a move, and a warning between the one in front of it, or the start, and it. -/
def WarnedBefore (acts : List Act) : Prop :=
  ∃ front move back, acts = front ++ move :: back ∧ move.IsMove ∧ (∀ b ∈ back, ¬ b.IsMove) ∧
    Warned front

/-- What is done to files on the way from one state to a later one. -/
def added (s t : Monitoring) : List FileAct :=
  t.vedio.acts.take (t.vedio.acts.length - s.vedio.acts.length)

/-- The turn removes nothing, and it writes the name to the log. -/
def Spares (s : Monitoring) (e : InotifyEvent) (i : MoveInput) : Prop :=
  (∀ path, .remove path ∉ added s (s.next (.turn e i))) ∧
    ∃ file, .log file e.name ∈ added s (s.next (.turn e i))

/-- A video that is moved in with a warning since the move before it is kept, and logged. -/
def NeverDeleted (s : Monitoring) (acts : List Act) : Prop :=
  ∀ front e i, front ++ [.turn e i] <+: acts → e.movedTo = true → Warned front →
    Spares (s.after front) e i

/-- The log is open, it has not failed, and it takes the line. -/
def CanLog (s : Monitoring) (i : MoveInput) : Prop := s.vedio.logFile ≠ none ∧ i.written = true

section

variable (path logFilePath : List UInt8) (d : DateInput) (o : InotifyOutcome)

/-- The flag of the current video tells of the warnings since the last move. -/
theorem curVedio_iff (acts : List Act) :
    ((start path logFilePath d o).after acts).vedio.curVedio.unwarning = false ↔ Warned acts := by
  have hstart : (start path logFilePath d o).vedio.curVedio.unwarning = true :=
    congrArg VedioRecord.unwarning (MonitorVedio.sameVideos_new path logFilePath d o).curVedio
  have hset : ∀ s a, Act.IsWarning a → (next s a).vedio.curVedio.unwarning = false := by
    intro s a ha
    cases a with
    | recvWarning t => rfl
    | monitor o read => exact ha.elim
    | turn e i => exact ha.elim
  have hclear : ∀ s a, Act.IsMove a → ¬ (next s a).vedio.curVedio.unwarning = false := by
    intro s a ha
    cases a with
    | recvWarning t => exact ha.elim
    | monitor o read => exact ha.elim
    | turn e i =>
      obtain ⟨hcur, -, -⟩ := s.vedio.turn_of_movedTo ha i
      simp [next, hcur]
  have hkeep : ∀ s a, ¬ Act.IsWarning a → ¬ Act.IsMove a →
      ((next s a).vedio.curVedio.unwarning = false ↔ s.vedio.curVedio.unwarning = false) := by
    intro s a hwarn hmove
    cases a with
    | recvWarning t => exact absurd trivial hwarn
    | monitor o read =>
      have hcur := (s.vedio.sameVideos_enter o read).curVedio
      simp only [next, hcur]
    | turn e i => simp only [next, s.vedio.turn_of_not_movedTo (Bool.not_eq_true _ ▸ hmove) i]
  have hfold := foldl_iff_lastSets (P := fun s : Monitoring => s.vedio.curVedio.unwarning = false)
    hset hclear hkeep acts (start path logFilePath d o)
  rw [hstart] at hfold
  simpa [after, Warned] using hfold

/-- The flag of the last video tells of the warnings in front of the last move. -/
theorem lastVedio_iff (acts : List Act) :
    ((start path logFilePath d o).after acts).vedio.lastVedio.unwarning = false ↔
      WarnedBefore acts := by
  have hstart : (start path logFilePath d o).vedio.lastVedio.unwarning = true :=
    congrArg VedioRecord.unwarning (MonitorVedio.sameVideos_new path logFilePath d o).lastVedio
  have hcur : ∀ front : List Act,
      (front.foldl next (start path logFilePath d o)).vedio.curVedio.unwarning = false ↔
        Warned front := curVedio_iff path logFilePath d o
  have hcopy : ∀ s a, Act.IsMove a →
      ((next s a).vedio.lastVedio.unwarning = false ↔ s.vedio.curVedio.unwarning = false) := by
    intro s a ha
    cases a with
    | recvWarning t => exact ha.elim
    | monitor o read => exact ha.elim
    | turn e i =>
      obtain ⟨-, hlast, -⟩ := s.vedio.turn_of_movedTo ha i
      simp only [next, hlast]
  have hkeep : ∀ s a, ¬ Act.IsMove a →
      ((next s a).vedio.lastVedio.unwarning = false ↔ s.vedio.lastVedio.unwarning = false) := by
    intro s a hmove
    cases a with
    | recvWarning t => rfl
    | monitor o read =>
      have hlast := (s.vedio.sameVideos_enter o read).lastVedio
      simp only [next, hlast]
    | turn e i => simp only [next, s.vedio.turn_of_not_movedTo (Bool.not_eq_true _ ▸ hmove) i]
  have hfold := foldl_iff_copied (P := fun s : Monitoring => s.vedio.curVedio.unwarning = false)
    (Q := fun s => s.vedio.lastVedio.unwarning = false) hcopy hkeep acts
    (start path logFilePath d o)
  rw [hstart] at hfold
  simp only [hcur, Bool.true_eq_false, false_and, or_false] at hfold
  exact hfold

end

/-- A moved file is spared by the flag of the last video, if the log can take its name. -/
theorem spares_iff (s : Monitoring) {e : InotifyEvent} (h : e.movedTo = true) (i : MoveInput) :
    Spares s e i ↔ s.vedio.lastVedio.unwarning = false ∧ CanLog s i := by
  obtain ⟨-, -, hacts⟩ := s.vedio.turn_of_movedTo h i
  have hadded : added s (s.next (.turn e i)) = s.vedio.fileActs e.name i := by
    show (s.vedio.turn e i).acts.take _ = _
    simp [next, hacts]
  simp only [Spares, CanLog, hadded, MonitorVedio.fileActs]
  cases s.vedio.lastVedio.unwarning <;> cases s.vedio.logFile <;> cases i.found <;>
    cases i.written <;> simp

/-- A video with a warning is kept at exactly those moves for which the recording in front of it
had a warning, too, and the log can be written. -/
theorem neverDeleted_iff (path logFilePath : List UInt8) (d : DateInput) (o : InotifyOutcome)
    (acts : List Act) :
    NeverDeleted (start path logFilePath d o) acts ↔
      ∀ front e i, front ++ [.turn e i] <+: acts → e.movedTo = true → Warned front →
        WarnedBefore front ∧ CanLog ((start path logFilePath d o).after front) i := by
  have hturn : ∀ front e i, e.movedTo = true →
      (Spares ((start path logFilePath d o).after front) e i ↔
        WarnedBefore front ∧ CanLog ((start path logFilePath d o).after front) i) := by
    intro front e i hmove
    rw [spares_iff _ hmove, lastVedio_iff]
  constructor
  · intro h front e i hfront hmove hwarned
    exact (hturn front e i hmove).mp (h front e i hfront hmove hwarned)
  · intro h front e i hfront hmove hwarned
    exact (hturn front e i hmove).mpr (h front e i hfront hmove hwarned)

/-- A warning during the first recording, whose file is moved in and is removed. -/
theorem not_neverDeleted_first :
    ¬ NeverDeleted (start [47, 118] [47, 108] newYear fine)
      [.recvWarning 0, .monitor fine (some [moveOfA]), .turn moveOfA newYearMove] := by
  intro h
  have hmove : moveOfA.movedTo = true := by decide
  have hwarned : Warned [.recvWarning 0, .monitor fine (some [moveOfA])] := by
    refine ⟨[], .recvWarning 0, [.monitor fine (some [moveOfA])], rfl, trivial, ?_⟩
    intro b hb
    rw [List.mem_singleton.mp hb]
    exact id
  have hspares := h _ moveOfA newYearMove List.prefix_rfl hmove hwarned
  exact absurd ((spares_iff _ hmove newYearMove).mp hspares).1 (by decide)

end Monitoring

end SocketMaster
