import SocketMaster.Monitor.Warnings

/-!
# What becomes of every video

While files can be removed and the log can be written, each move ends in one act on a file, and
the acts come in the order of the moves. They are what a shift register says: a warning counts for
the video that comes after the one during which it was received, and nothing counts for the first.
The directory and the log are those of the day that was seen last, which is looked up behind each
move: the first video of a new day is still filed under the old one.
-/
namespace SocketMaster.Monitoring

open Library

/-- A video that is moved in, with whether a warning counts for it, and the day it is filed
under. -/
structure Video where
  name : List UInt8
  warned : Bool
  day : DateInput

/-- The day that a move leaves behind. -/
def dayAfter (day : DateInput) (i : DayInput) : DateInput :=
  if MonitorVedio.getCurrentDateString i.today ≠ MonitorVedio.getCurrentDateString day.now then
    i.date
  else day

/-- The videos that are moved in, each with whether a warning came since the one before it; `warned`
says that of the first. -/
def recordings (day : DateInput) (warned : Bool) : List Act → List Video
  | [] => []
  | .recvWarning _ :: acts => recordings day true acts
  | .monitor _ _ :: acts => recordings day warned acts
  | .turn e i :: acts =>
    if e.movedTo then ⟨e.name, warned, day⟩ :: recordings (dayAfter day i.day) false acts
    else recordings day warned acts

/-- Each video with what is said of the one before it; `flag` is what is said before the first. -/
def shifted (flag : Bool) : List Video → List Video
  | [] => []
  | v :: videos => { v with warned := flag } :: shifted v.warned videos

/-- A video that a warning counts for is written to the log, and another is removed. -/
def Video.fileAct (path logFilePath : List UInt8) (v : Video) : FileAct :=
  if v.warned then
    .log (logFilePath ++ 47 :: MonitorVedio.logFileName v.day.logNow) v.name
  else .remove (path ++ 47 :: MonitorVedio.getCurrentDateString v.day.now ++ [47] ++ v.name)

/-- The file that is moved is there, the log takes the line, and that of a new day opens. -/
def Act.Works : Act → Prop
  | .turn _ i => i.found = true ∧ i.written = true ∧ i.day.date.opened = true
  | _ => True

variable {path logFilePath : List UInt8} {day : DateInput}

/-- The members that belong to a day, and a log that can be written. -/
structure Dated (path logFilePath : List UInt8) (day : DateInput) (v : MonitorVedio) : Prop where
  orgin : v.orginPath = path
  logs : v.logFilePath = logFilePath
  dir : v.vedioDir = path ++ 47 :: MonitorVedio.getCurrentDateString day.now ++ [47]
  today : v.currentDay = MonitorVedio.getCurrentDateString day.now
  log : v.logFile = some (logFilePath ++ 47 :: MonitorVedio.logFileName day.logNow)

namespace Dated

variable {v : MonitorVedio}

theorem dateInit {i : DateInput} (horgin : v.orginPath = path)
    (hlogs : v.logFilePath = logFilePath) (hopened : i.opened = true) :
    Dated path logFilePath i (v.dateInit i) := by
  subst horgin hlogs
  exact ⟨rfl, rfl, rfl, rfl, if_pos hopened⟩

theorem addWatch (h : Dated path logFilePath day v) (o : InotifyOutcome) :
    Dated path logFilePath day (v.addWatch o) := by
  unfold MonitorVedio.addWatch
  split <;> exact ⟨h.orgin, h.logs, h.dir, h.today, h.log⟩

theorem init (h : Dated path logFilePath day v) (o : InotifyOutcome) :
    Dated path logFilePath day (v.init o) := by
  unfold MonitorVedio.init
  split
  · cases o.inotifyInit with
    | none => exact h
    | some fd =>
      have hopened : Dated path logFilePath day
          { v with inotifyFd := fd, calls := .init fd :: v.calls } :=
        ⟨h.orgin, h.logs, h.dir, h.today, h.log⟩
      exact hopened.addWatch o
  · exact h.addWatch o

theorem enter (h : Dated path logFilePath day v) (o : InotifyOutcome)
    (read : Option (List InotifyEvent)) : Dated path logFilePath day (v.enter o read).1 := by
  have hinit := h.init o
  unfold MonitorVedio.enter
  dsimp only
  split_ifs
  · exact hinit
  · exact hinit
  · exact h

/-- A new day has its own directory and opens its own log. -/
theorem ifNextDay (h : Dated path logFilePath day v) {i : DayInput}
    (hopened : i.date.opened = true) :
    Dated path logFilePath (dayAfter day i) (v.ifNextDay i) := by
  unfold MonitorVedio.ifNextDay dayAfter
  rw [h.today]
  split_ifs
  · have hreleased : v.releaseResource.orginPath = v.orginPath ∧
        v.releaseResource.logFilePath = v.logFilePath := by
      unfold MonitorVedio.releaseResource MonitorVedio.closeInotify
      constructor <;> grind
    obtain ⟨horgin, hlogs⟩ := hreleased
    exact (dateInit (horgin.trans h.orgin) (hlogs.trans h.logs) hopened).init i.outcome
  · exact h

/-- The file that is moved is dealt with under the day as it was. -/
theorem moveFile (h : Dated path logFilePath day v) {i : MoveInput} (name : List UInt8)
    (hwritten : i.written = true) : Dated path logFilePath day (v.moveFile name i) := by
  unfold MonitorVedio.moveFile
  split
  · split <;> exact ⟨h.orgin, h.logs, h.dir, h.today, h.log⟩
  · split
    · exact ⟨h.orgin, h.logs, h.dir, h.today, h.log⟩
    · exact h

end Dated

/-- The day, and the flags of the object. -/
structure Keeps (path logFilePath : List UInt8) (day : DateInput) (flag warned : Bool)
    (s : Monitoring) : Prop where
  dated : Dated path logFilePath day s.vedio
  cur : s.vedio.curVedio.unwarning = !warned
  last : s.vedio.lastVedio.unwarning = !flag

variable {s : Monitoring} {flag warned : Bool}

/-- The turn of a move: what is said of the video is carried out. -/
theorem Keeps.turn (h : Keeps path logFilePath day flag warned s) {e : InotifyEvent}
    (hmove : e.movedTo = true) {i : MoveInput} (works : Act.Works (.turn e i)) :
    Keeps path logFilePath (dayAfter day i.day) warned false (s.next (.turn e i)) ∧
      (s.next (.turn e i)).vedio.acts =
        Video.fileAct path logFilePath ⟨e.name, flag, day⟩ :: s.vedio.acts := by
  obtain ⟨hfound, hwritten, hopened⟩ := works
  obtain ⟨hcur, hlast, hacts⟩ := s.vedio.turn_of_movedTo hmove i
  have hturn : s.vedio.turn e i =
      ((s.vedio.moveFile e.name i).ifNextDay i.day).createAction := by
    simp only [MonitorVedio.turn, hmove, if_true, MonitorVedio.movToAction]
  have hdated : Dated path logFilePath (dayAfter day i.day) (s.vedio.turn e i) := by
    have hday := (h.dated.moveFile e.name hwritten).ifNextDay hopened
    rw [hturn]
    exact ⟨hday.orgin, hday.logs, hday.dir, hday.today, hday.log⟩
  refine ⟨⟨hdated, hcur, hlast.trans h.cur⟩, ?_⟩
  have hfile : s.vedio.fileActs e.name i = [Video.fileAct path logFilePath ⟨e.name, flag, day⟩] := by
    rw [MonitorVedio.fileActs, h.last, h.dated.log, h.dated.dir, Video.fileAct]
    cases flag with
    | true => simp [hwritten]
    | false => simp [hfound]
  exact hacts.trans (by rw [hfile, List.singleton_append])

/-- Any number of acts. -/
theorem Keeps.after (h : Keeps path logFilePath day flag warned s) {acts : List Act}
    (works : ∀ a ∈ acts, a.Works) :
    (s.after acts).vedio.acts =
      ((shifted flag (recordings day warned acts)).map (Video.fileAct path logFilePath)).reverse ++
        s.vedio.acts := by
  induction acts generalizing s day flag warned with
  | nil => rfl
  | cons a acts ih =>
    have hrest : ∀ b ∈ acts, b.Works := fun b hb => works b (List.mem_cons_of_mem a hb)
    have hafter : s.after (a :: acts) = (s.next a).after acts := rfl
    rw [hafter]
    cases a with
    | recvWarning t =>
      have hkeeps : Keeps path logFilePath day flag true (s.next (.recvWarning t)) :=
        ⟨⟨h.dated.orgin, h.dated.logs, h.dated.dir, h.dated.today, h.dated.log⟩, rfl, h.last⟩
      exact ih hkeeps hrest
    | monitor o read =>
      obtain ⟨hcur, hlast, hacts⟩ := s.vedio.sameVideos_enter o read
      have hkeeps : Keeps path logFilePath day flag warned (s.next (.monitor o read)) :=
        ⟨h.dated.enter o read, (congrArg VedioRecord.unwarning hcur).trans h.cur,
          (congrArg VedioRecord.unwarning hlast).trans h.last⟩
      have hsame : (s.next (.monitor o read)).vedio.acts = s.vedio.acts := hacts
      rw [ih hkeeps hrest, hsame]
      rfl
    | turn e i =>
      rw [recordings]
      split_ifs with hmove
      · obtain ⟨hkeeps, hacts⟩ := h.turn hmove (works _ List.mem_cons_self)
        rw [ih hkeeps hrest, hacts, shifted, List.map_cons, List.reverse_cons, List.append_assoc,
          List.singleton_append]
      · have hsame : s.next (.turn e i) = ⟨s.vedio, s.pending.tail⟩ := by
          rw [Monitoring.next, s.vedio.turn_of_not_movedTo (Bool.not_eq_true _ ▸ hmove) i]
        rw [hsame]
        exact ih ⟨h.dated, h.cur, h.last⟩ hrest

/-- Over a whole run in which files and logs work, what is done to files is what the register says
of the videos: one act for each, in their order, in the directory or the log of its day. -/
theorem carried_of_acts (path logFilePath : List UInt8) (d : DateInput) (o : InotifyOutcome)
    (acts : List Act) (opened : d.opened = true) (works : ∀ a ∈ acts, a.Works) :
    ((start path logFilePath d o).after acts).vedio.acts.reverse =
      (shifted false (recordings d false acts)).map (Video.fileAct path logFilePath) := by
  obtain ⟨hcur, hlast, hacts⟩ := MonitorVedio.sameVideos_new path logFilePath d o
  have hdated : Dated path logFilePath d (start path logFilePath d o).vedio :=
    (Dated.dateInit (v := { orginPath := path, logFilePath }) rfl rfl opened).init o
  have hkeeps : Keeps path logFilePath d false false (start path logFilePath d o) :=
    ⟨hdated, congrArg VedioRecord.unwarning hcur, congrArg VedioRecord.unwarning hlast⟩
  have hnone : (start path logFilePath d o).vedio.acts = [] := hacts
  rw [hkeeps.after works, hnone, List.append_nil, List.reverse_reverse]

def secondDay : MoveInput where
  found := true
  written := true
  day := ⟨⟨126, 0, 2⟩, { now := ⟨126, 0, 2⟩, logNow := ⟨126, 0, 2⟩, opened := true }, fine⟩

/-- A warning comes during the first of three recordings: the second is kept, and the third is
moved in when the day has changed. -/
def warnedFirst : List Act :=
  [.recvWarning 0, .monitor fine (some [moveOfA, ⟨inMovedTo, [98]⟩, ⟨inMovedTo, [99]⟩]),
    .turn moveOfA newYearMove, .turn ⟨inMovedTo, [98]⟩ secondDay, .turn ⟨inMovedTo, [99]⟩ secondDay]

theorem carried_of_acts_warnedFirst :
    ((start [47, 118] [47, 108] newYear fine).after warnedFirst).vedio.acts.reverse =
      (shifted false (recordings newYear false warnedFirst)).map
        (Video.fileAct [47, 118] [47, 108]) := by
  refine carried_of_acts [47, 118] [47, 108] newYear fine warnedFirst rfl fun a ha => ?_
  simp only [warnedFirst, List.mem_cons, List.not_mem_nil, or_false] at ha
  obtain rfl | rfl | rfl | rfl | rfl := ha
  · trivial
  · trivial
  · exact ⟨rfl, rfl, rfl⟩
  · exact ⟨rfl, rfl, rfl⟩
  · exact ⟨rfl, rfl, rfl⟩

end SocketMaster.Monitoring
