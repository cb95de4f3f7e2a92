import SocketMaster.Record.Basic

/-!
# The class `MonitorVedio`

The directory of the day is watched with `inotify`. A video that is moved into it stays if a
warning came while it was recorded, and is removed otherwise. The first such move on a new day
makes the object go over to the directory of that day. What the system answers is an input of
the model; beside the members stand the descriptors it was asked for, the watches and what was
done to files.
-/
namespace SocketMaster

open Library

/-- `IN_MOVED_TO`. -/
def inMovedTo : UInt32 := 0x80

structure VedioRecord where
  fileT : Int := -1
  unwarning : Bool := true

/-- An `inotify_event`: the mask, and the name up to its NUL. -/
structure InotifyEvent where
  mask : UInt32
  name : List UInt8

def InotifyEvent.movedTo (e : InotifyEvent) : Bool := e.mask &&& inMovedTo != 0

/-- The calls after which an inotify descriptor is open, or is not. -/
inductive InotifyCall where
  | init (fd : Int)
  | close (fd : Int)

/-- The descriptors opened and not closed by these calls, the latest of which stands first. -/
def InotifyCall.held : List InotifyCall → List Int
  | [] => []
  | .init fd :: calls => fd :: held calls
  | .close fd :: calls => (held calls).erase fd

/-- No `close` but that of a descriptor that was open. -/
def InotifyCall.Proper : List InotifyCall → Prop
  | [] => True
  | .init _ :: calls => Proper calls
  | .close fd :: calls => fd ∈ held calls ∧ Proper calls

structure Watch where
  fd : Int
  wd : Int
  dir : List UInt8
  deriving DecidableEq

/-- What is done to files: a path passed to `remove`, and a line written to a log. -/
inductive FileAct where
  | remove (path : List UInt8)
  | log (file line : List UInt8)
  deriving DecidableEq

/-- What `inotify_init` and `inotify_add_watch` answer. `stray` is the answer of the latter on a
descriptor that is not the object's: whoever has been given the number meanwhile decides it. -/
structure InotifyOutcome where
  inotifyInit : Option Nat
  addWatch : Option Nat
  stray : Option Nat := none

/-- What `date_init` is told: the time, that for the name of the log, and if the log opens. -/
structure DateInput where
  now : Tm
  logNow : Tm
  opened : Bool

/-- What `if_next_day` is told. -/
structure DayInput where
  today : Tm
  date : DateInput
  outcome : InotifyOutcome

/-- What `mov_to_action` is told: if `access` finds the file, and if the log takes a line. -/
structure MoveInput where
  found : Bool
  written : Bool
  day : DayInput

/-- The members, and then what the object has asked of the system so far, the latest first.
`logFile` is the file behind the stream, if that is open and has not failed. -/
structure MonitorVedio where
  orginPath : List UInt8
  logFilePath : List UInt8
  vedioDir : List UInt8 := []
  currentDay : List UInt8 := []
  inotifyFd : Int := -1
  watchFd : Int := -1
  curVedio : VedioRecord := {}
  lastVedio : VedioRecord := {}
  logFile : Option (List UInt8) := none
  calls : List InotifyCall := []
  watches : List Watch := []
  acts : List FileAct := []

namespace MonitorVedio

/-- `%Y-%m-%d`. -/
def getCurrentDateString (now : Tm) : List UInt8 :=
  decimal (now.tmYear + 1900) ++ 45 :: padded 2 (now.tmMon + 1) ++ 45 :: padded 2 now.tmMday

/-- The name of the log of a day, which ends in `.txt`. -/
def logFileName (now : Tm) : List UInt8 := getCurrentDateString now ++ [46, 116, 120, 116]

section

variable (s : MonitorVedio)

def openLogFileInAppendMode (i : DateInput) : MonitorVedio :=
  { s with logFile :=
      if i.opened then some (s.logFilePath ++ 47 :: logFileName i.logNow) else none }

def dateInit (i : DateInput) : MonitorVedio :=
  let day := getCurrentDateString i.now
  { s with currentDay := day, vedioDir := s.orginPath ++ 47 :: day ++ [47] }
    |>.openLogFileInAppendMode i

/-- `close` on the descriptor, which takes its watches along. -/
def closeInotify : MonitorVedio :=
  { s with
    calls := .close s.inotifyFd :: s.calls
    watches := s.watches.filter (·.fd ≠ s.inotifyFd) }

/-- Neither descriptor is set back. -/
def releaseResource : MonitorVedio :=
  let s :=
    if 0 ≤ s.watchFd then
      { s with watches := s.watches.filter fun w => ¬ (w.fd = s.inotifyFd ∧ w.wd = s.watchFd) }
    else s
  let s := if 0 ≤ s.inotifyFd then s.closeInotify else s
  { s with logFile := none }

/-- `inotify_add_watch` in `init`, and what follows it. -/
def addWatch (o : InotifyOutcome) : MonitorVedio :=
  match if s.inotifyFd ∈ InotifyCall.held s.calls then o.addWatch else o.stray with
  | some wd =>
    { s with watchFd := wd, watches := ⟨s.inotifyFd, wd, s.vedioDir⟩ :: s.watches }
  | none => { s.closeInotify with watchFd := -1, inotifyFd := -1 }

def init (o : InotifyOutcome) : MonitorVedio :=
  if s.inotifyFd = -1 then
    match o.inotifyInit with
    | some fd => { s with inotifyFd := fd, calls := .init fd :: s.calls }.addWatch o
    | none => s
  else s.addWatch o

def ifNextDay (i : DayInput) : MonitorVedio :=
  if getCurrentDateString i.today ≠ s.currentDay then
    ((s.releaseResource).dateInit i.date).init i.outcome
  else s

def recvWarning (t : Int) : MonitorVedio :=
  { s with curVedio := { s.curVedio with unwarning := false, fileT := t } }

def createAction : MonitorVedio :=
  { s with
    lastVedio := { s.lastVedio with unwarning := s.curVedio.unwarning }
    curVedio := { s.curVedio with unwarning := true } }

/-- What `mov_to_action` does with the file, before it asks for the day. -/
def moveFile (fileName : List UInt8) (i : MoveInput) : MonitorVedio :=
  if s.lastVedio.unwarning then
    if i.found then { s with acts := .remove (s.vedioDir ++ fileName) :: s.acts } else s
  else
    match s.logFile with
    | some file =>
      if i.written then { s with acts := .log file fileName :: s.acts }
      else { s with logFile := none }
    | none => s

def movToAction (fileName : List UInt8) (i : MoveInput) : MonitorVedio :=
  (s.moveFile fileName i).ifNextDay i.day

/-- One turn of the loop of `monitor`. The mask is tested for the same bit twice. -/
def turn (e : InotifyEvent) (i : MoveInput) : MonitorVedio :=
  let s := if e.movedTo then s.movToAction e.name i else s
  if e.movedTo then s.createAction else s

/-- `monitor` up to its loop, and the events that the loop has before it; `read` fails or reads
some. -/
def enter (o : InotifyOutcome) (read : Option (List InotifyEvent)) : MonitorVedio × List InotifyEvent :=
  let s := if s.inotifyFd < 0 ∨ s.watchFd < 0 then s.init o else s
  if s.inotifyFd < 0 ∨ s.watchFd < 0 then (s, [])
  else (s, read.getD [])

end

/-- The constructor. -/
def new (path logFilePath : List UInt8) (i : DateInput) (o : InotifyOutcome) : MonitorVedio :=
  (({ orginPath := path, logFilePath } : MonitorVedio).dateInit i).init o

end MonitorVedio

/-- The object between two calls or two turns of the loop of `monitor`; `pending` are the events
of the loop that have not had their turn. -/
structure Monitoring where
  vedio : MonitorVedio
  pending : List InotifyEvent

namespace Monitoring

/-- What is done with the object. A warning can come between two turns, from another thread. -/
inductive Act where
  | recvWarning (t : Int)
  | monitor (o : InotifyOutcome) (read : Option (List InotifyEvent))
  | turn (e : InotifyEvent) (i : MoveInput)

def start (path logFilePath : List UInt8) (i : DateInput) (o : InotifyOutcome) : Monitoring :=
  ⟨.new path logFilePath i o, []⟩

def next (s : Monitoring) : Act → Monitoring
  | .recvWarning t => { s with vedio := s.vedio.recvWarning t }
  | .monitor o read => ⟨(s.vedio.enter o read).1, (s.vedio.enter o read).2⟩
  | .turn e i => ⟨s.vedio.turn e i, s.pending.tail⟩

/-- `monitor` is called when it has returned, and its turns go through the events in order. -/
def Enabled (s : Monitoring) : Act → Prop
  | .recvWarning _ => True
  | .monitor _ _ => s.pending = []
  | .turn e _ => s.pending.head? = some e

/-- The object after these acts. -/
def after (s : Monitoring) (acts : List Act) : Monitoring := acts.foldl next s

/-! ## A day on which all goes well -/

/-- Both calls succeed. -/
def fine : InotifyOutcome := { inotifyInit := some 3, addWatch := some 1 }

/-- The first of January 2026. -/
def newYear : DateInput := { now := ⟨126, 0, 1⟩, logNow := ⟨126, 0, 1⟩, opened := true }

def newYearMove : MoveInput :=
  { found := true, written := true, day := ⟨⟨126, 0, 1⟩, newYear, fine⟩ }

/-- The file `a` is moved in. -/
def moveOfA : InotifyEvent := ⟨inMovedTo, [97]⟩

end Monitoring

end SocketMaster
