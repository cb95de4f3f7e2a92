import SocketMaster.Library.CString
import SocketMaster.Library.Memory
import SocketMaster.Library.Numerals

/-!
# The class `StorageRecord`

The record file names a directory and two of its days, a line each, and tells by the second of
them whether old videos are to be deleted. The reader stores a line in an array of 512 chars and
counts chars and lines in variables of eight bits. What the file system answers is an input of
the model; what is asked of it is the names that are passed to `remove`, in their order.
-/
namespace SocketMaster

open Library

/-- `MP4_RECORD`. -/
def recordHead : List UInt8 := [77, 80, 52, 95, 82, 69, 67, 79, 82, 68]

/-- `recordconfig.txt`. -/
def recordConfigFileName : List UInt8 :=
  [114, 101, 99, 111, 114, 100, 99, 111, 110, 102, 105, 103, 46, 116, 120, 116]

def fileNameMaxLen : Nat := 20

inductive LineState where
  | init
  | workUpdateAndDel
  | workDel
  | fail
  | ok
  deriving DecidableEq

/-- What `localtime` tells: the years since 1900, the months since January, and the day. -/
structure Tm where
  tmYear : Nat
  tmMon : Nat
  tmMday : Nat

/-- The fields that reading the record file sets or uses. -/
structure StorageRecord where
  path : List UInt8
  lineState : LineState
  historyName : List UInt8
  lastName : List UInt8
  realName : List UInt8

/-- An entry of a directory. -/
structure Dirent where
  dName : List UInt8
  isDir : Bool

/-- What the file system answers, given the names that were passed to `remove` before: the entries
of a directory that can be opened, the bytes of a file that can be opened, and whether a file is
removed. -/
structure FileSystem where
  readdir : List (List UInt8) → List UInt8 → Option (List Dirent)
  fopen : List (List UInt8) → List UInt8 → Option (List UInt8)
  remove : List (List UInt8) → List UInt8 → Bool

/-- An open file: its bytes, the position in them, and whether its mode lets it be written. -/
structure Stream where
  content : List UInt8
  pos : Nat
  canWrite : Bool

def Stream.fwrite (f : Stream) (bytes : List UInt8) : Stream :=
  if f.canWrite then
    { f with
      content := f.content.take f.pos ++ bytes ++ f.content.drop (f.pos + bytes.length)
      pos := f.pos + bytes.length }
  else f

namespace StorageRecord

/-- The constructor. -/
def new (path : List UInt8) : StorageRecord := ⟨path, .init, [], [], []⟩

/-- The date as `%04d-%02d-%02d`. It is stored in the argument, not in the field of that name. -/
def getFileByLocalTime (tm : Tm) : List UInt8 :=
  padded 4 (tm.tmYear + 1900) ++ 45 :: padded 2 (tm.tmMon + 1) ++ 45 :: padded 2 tm.tmMday

def parseLines (r : StorageRecord) (now : Tm) (lines : List UInt8) (lineNum : UInt8) :
    StorageRecord :=
  if lineNum = 1 then
    -- `strncmp` with the head's own length
    if lines.take recordHead.length ≠ recordHead then { r with lineState := .fail } else r
  else if lineNum = 2 then { r with path := lines }
  else if lineNum = 3 then { r with historyName := lines }
  else if lineNum = 4 then
    let realtime := getFileByLocalTime now
    { r with
      lastName := lines
      lineState :=
        if lines < realtime then .workUpdateAndDel
        else if lines = realtime then .workDel
        else .fail }
  else r

/-- The variables of the loop of `initRecordFile`. -/
structure Reader where
  record : StorageRecord
  lines : Nat → UInt8
  i : UInt8
  lineNum : UInt8

/-- One turn of the loop with the char that `fgetc` has returned. -/
def Reader.turn (now : Tm) (s : Reader) (c : UInt8) : Reader :=
  let lines := blit s.lines s.i.toNat [c]
  if c = 10 then
    let lineNum := s.lineNum + 1
    let lines := blit lines s.i.toNat [0]
    { record := s.record.parseLines now (cString (slice lines 0 512)) lineNum
      lines, i := 0, lineNum }
  else { s with lines, i := s.i + 1 }

/-- The loop over a whole file. The end of the file shows in `feof` only after `fgetc` has run
into it, and what `fgetc` returned there goes through one more turn as 255. -/
def readLoop (now : Tm) (s : Reader) (content : List UInt8) : Reader :=
  (content ++ [255]).foldl (Reader.turn now) s

/-- The names of the entries that are not directories. -/
def listFiles (fs : FileSystem) (removed : List (List UInt8)) (path : List UInt8) :
    Option (List (List UInt8)) :=
  (fs.readdir removed path).map fun entries =>
    (entries.filter fun d => d.dName ≠ [46] ∧ d.dName ≠ [46, 46] ∧ !d.isDir).map Dirent.dName

/-- The calls of `fgets` on a file: a line, or as much of it as the array has room for. -/
def fgetsAll (size : Nat) : List UInt8 → List UInt8 → List (List UInt8)
  | line, [] => if line = [] then [] else [line]
  | line, c :: content =>
    let line := line ++ [c]
    if c = 10 ∨ line.length + 1 = size then line :: fgetsAll size [] content
    else fgetsAll size line content

def getIndex (which : List UInt8) (allFiles : List (List UInt8)) : Int :=
  match allFiles.findIdx? (· < which) with
  | some i => i - 1
  | none => -1

/-- The names passed to `remove`, given the bytes of the file `ref` if it can be opened. What the
function returns behind its loop is not defined, and nobody looks at it. -/
def findAndDeleteFiles (ref : Option (List UInt8)) (allFiles : List (List UInt8)) :
    List (List UInt8) :=
  match ref with
  | none => []
  | some content =>
    let save (needSave : List Bool) (line : List UInt8) :=
      let index := getIndex (cString line) allFiles
      if 0 ≤ index then needSave.set index.toNat true else needSave
    let needSave := (fgetsAll fileNameMaxLen [] content).foldl save
      (List.replicate allFiles.length false)
    ((allFiles.zip needSave).filter fun p => !p.2).map Prod.fst

/-- The overload of `linesWorkDel` for one directory. -/
def linesWorkDelAt (fs : FileSystem) (removed : List (List UInt8)) (path ref : List UInt8) :
    List (List UInt8) :=
  match listFiles fs removed path with
  | some allFiles => findAndDeleteFiles (fs.fopen removed ref) allFiles
  | none => []

def linesWorkDel (r : StorageRecord) (fs : FileSystem) : List (List UInt8) :=
  let removed := linesWorkDelAt fs [] (r.path ++ r.historyName) r.lastName
  if r.historyName ≠ r.lastName then
    removed ++ linesWorkDelAt fs removed (r.path ++ r.lastName) r.lastName
  else removed

def linesWorkUpdate (r : StorageRecord) (configFile : Stream) : Stream :=
  [recordHead, r.path, r.lastName, r.realName].foldl
    (fun f line => (f.fwrite (cString line)).fwrite [10]) configFile

/-- The names passed to `remove` and the record file left behind. -/
def parse (r : StorageRecord) (fs : FileSystem) (configFile : Stream) :
    List (List UInt8) × Stream :=
  match r.lineState with
  | .fail | .ok | .init => ([], configFile)
  | .workUpdateAndDel => (r.linesWorkDel fs, r.linesWorkUpdate configFile)
  | .workDel => (r.linesWorkDel fs, configFile)

/-- What a call of `initRecordFile` leaves: the fields, the names passed to `remove`, and the bytes
of the file that was opened. -/
structure Outcome where
  record : StorageRecord
  removed : List (List UInt8)
  content : List UInt8

/-- `junk` is what the array on the stack happens to hold, and `config` the bytes of the record
file, if there is one; if not, the process exits. -/
def initRecordFile (r : StorageRecord) (fs : FileSystem) (now : Tm) (junk : Nat → UInt8)
    (config : Option (List UInt8)) : Option Outcome := do
  let content ← config
  let record := (readLoop now ⟨r, junk, 0, 0⟩ content).record
  -- the file is open with mode "r", and its position is at the end
  let (removed, configFile) := record.parse fs ⟨content, content.length, false⟩
  some ⟨record, removed, configFile.content⟩

/-- The record file that the next run finds, unless its name was among those removed. -/
def Outcome.config (o : Outcome) (fs : FileSystem) : Option (List UInt8) :=
  if o.removed.zipIdx.any fun p =>
      p.1 = recordConfigFileName ∧ fs.remove (o.removed.take p.2) p.1 then none
  else some o.content

end StorageRecord

end SocketMaster
