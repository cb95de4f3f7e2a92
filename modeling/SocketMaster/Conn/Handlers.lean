import SocketMaster.Library.CString
import SocketMaster.Library.Numerals
import SocketMaster.Conn.Basic
import Mathlib.Data.Rat.Floor

/-!
# The request handlers of `AppConn`

`frameProcess` and the five ways it answers a request, and `warn`. What the handlers ask of
the operating system is an input (`Env`). A handler ends in a `Fault` where the program
indexes a missing parameter, reads from a null stream or leaves an exception uncaught; no
code up to `Start` catches one. A failed `assert` ends it, too.

Log messages and console output are left out.
-/
namespace SocketMaster

open Library

inductive Fault where
  | paraIndex | invalidArgument | outOfRange | nullStream | lengthError | assertion
  deriving DecidableEq, Repr

/-- The `statvfs` members that `getStorageMB` uses. -/
structure StatVfs where
  frsize : Nat
  blocks : Nat
  bavail : Nat

/-- The operating system during one event. -/
structure Env where
  /-- The memory in and around the local array `arr`. -/
  arr : Int → UInt8
  /-- The value of a conversion to `int` that the language leaves undefined. -/
  wild : Int
  /-- What the channel script prints; `none` if `popen` fails. -/
  popen : Option (List UInt8)
  /-- The clock read back after it was set; `none` if setting it fails. -/
  clock : Int → Option Int
  /-- The two `statvfs` calls; `none` for a failure. -/
  statFree : Option StatVfs
  statUsed : Option StatVfs
  /-- The result of the `k`-th `system` call. -/
  system : Nat → Int

/-- What a handler leaves behind: the connection, the channel buffer, the call of `make`, the
bytes that `writeBuff_` accepted, and the commands run. -/
structure Handled where
  conn : AppConn
  channel : List UInt8
  made : Option (Stores UInt8 × Int) := none
  accepted : List UInt8 := []
  commands : List String := []

/-- `"0"` and `"1"`. -/
def zeroText : List UInt8 := [0x30]
def oneText : List UInt8 := [0x31]

/-- The bytes that a call of `make` hands on: `len` of them from the array. -/
def wire (r : Stores UInt8 × Int) : List UInt8 := cells r.1.mem 0 r.2.toNat

/-- Queue what `make` built. -/
def AppConn.reply (c : AppConn) (channel : List UInt8) (r : Stores UInt8 × Int)
    (commands : List String) : Handled where
  conn := c.sendCmd r.1.mem r.2
  channel := channel
  made := some r
  accepted := (wire r).take (c.writeBuff.append (wire r)).1
  commands := commands

/-- `frame.paras_[i]`, which the program does not check. -/
def Frame.para (f : Frame) (i : Nat) : Except Fault (List UInt8) :=
  match f.paras[i]? with
  | some p => .ok p
  | none => .error .paraIndex

def faultOf : ParseError → Fault
  | .invalidArgument => .invalidArgument
  | .outOfRange => .outOfRange

/-- An exception that nothing catches. -/
def uncaught {α : Type} : Except ParseError α → Except Fault α
  | .ok a => .ok a
  | .error e => .error (faultOf e)

/-- One `fgets` into the 32 bytes of `channle_buffer`: what it reads and what is left. -/
def fgets (out : List UInt8) : List UInt8 × List UInt8 :=
  let line := (out.take 31).takeWhile (· ≠ newline)
  let n := if line.length < (out.take 31).length then line.length + 1 else line.length
  (out.take n, out.drop n)

/-- `fgets` until it finds nothing; the last line read stays in the buffer. -/
def fgetsLoop (buf out : List UInt8) : Nat → List UInt8
  | 0 => buf
  | n + 1 => if out = [] then buf else fgetsLoop (fgets out).1 (fgets out).2 n

/-- What the channel script leaves in `channle_buffer`, a C string. -/
def readChannel (channel out : List UInt8) : List UInt8 :=
  (cString (fgetsLoop channel out out.length)).takeWhile (· ≠ newline)

/-- `version`, from the channel buffer: a text that begins with `a` reads as `99`. -/
def channelVersion (buf : List UInt8) : List UInt8 := if buf.head? = some 97 then [57, 57] else buf

namespace AppConn

def cmdAskInfo (cs : CharSign) (env : Env) (channel : List UInt8) (c : AppConn) (f : Frame) :
    Except Fault Handled := do
  let which ← f.para 0
  let value ← uncaught (stod which)
  let infoType := value.toInt?.getD env.wild
  if infoType = 3 ∨ infoType = 0 ∨ infoType = 1 ∨ infoType = 2 then
    return c.reply channel
      (Frame.make cs env.arr nanoId appId typeAck Cmd.askInfo [which, zeroText]) []
  else if infoType = 4 then
    match env.popen with
    | none => throw .nullStream
    | some out =>
      let channel := readChannel channel out
      return c.reply channel
        (Frame.make cs env.arr nanoId appId typeAck Cmd.askInfo [which, channelVersion channel])
        ["/home/hhu/socket-master-new/1"]
  else
    return c.reply channel (Frame.make cs env.arr nanoId appId typeAck Cmd.askInfo [which]) []

/-- `setTime` returns the clock it reads back, or -1. -/
def setTime (env : Env) (recvTime : Int) : Int :=
  match env.clock recvTime with
  | some t => int32 t
  | none => -1

def cmdSetTime (cs : CharSign) (env : Env) (channel : List UInt8) (c : AppConn) (f : Frame) :
    Except Fault Handled := do
  let para ← f.para 0
  let t ← uncaught (stoi para)
  let cur := setTime env t
  return c.reply channel
    (Frame.make cs env.arr nanoId appId typeAck Cmd.askTime [toString10 cur]) []

/-- The status that one `system` call is given. -/
def commandStatus (result : Int) : List UInt8 := if result = -1 then oneText else zeroText

/-- The actions of `SET_INFO`: the status replied and the commands run. Where two commands
run, the status is the second one's. -/
def setInfoAction (system : Nat → Int) (t : Int) : List UInt8 × List String :=
  if t = 0 then (zeroText, [])
  else if t = 1 then (commandStatus (system 0), ["/home/hhu/start/run.sh"])
  else if t = 2 then
    (commandStatus (system 1), ["/home/hhu/start/save.sh", "/home/hhu/start/kill.sh"])
  else if t = 3 then
    (commandStatus (system 1), ["/home/hhu/start/save-no-color.sh", "/home/hhu/start/kill.sh"])
  else if t = 4 then (commandStatus (system 0), ["command"])
  else (oneText, [])

def cmdSetInfo (cs : CharSign) (env : Env) (channel : List UInt8) (c : AppConn) (f : Frame) :
    Except Fault Handled := do
  let a ← f.para 0
  let t ← uncaught (stoi a)
  let (b, commands) := setInfoAction env.system t
  return c.reply channel
    (Frame.make cs env.arr nanoId appId typeAck Cmd.setInfo [a, b]) commands

inductive SpaceType where
  | free | used

/-- `getStorageMB`, whose products and differences are 64 bits wide. -/
def getStorageMB (stat : Option StatVfs) (type : SpaceType) : Nat :=
  match stat with
  | none => 0
  | some buf =>
    let w := 18446744073709551616
    let available := buf.frsize * buf.bavail % w
    let total := match type with
      | .used => (buf.blocks * buf.frsize % w + (w - available)) % w
      | .free => available
    total / 1024 / 1024 % 4294967296

/-- `Toget_capacity`; the `float` arithmetic is read as exact. A quotient by zero and a sum or a
value outside `int` are undefined. -/
def togetCapacity (env : Env) : Int :=
  let fy := int32 (getStorageMB env.statFree .free)
  let ut := int32 (getStorageMB env.statUsed .used)
  if fy + ut = 0 ∨ fy + ut < -2147483648 ∨ 2147483648 ≤ fy + ut then env.wild
  else
    let q : Rat := (ut : Rat) / ((fy + ut : Int) : Rat) * 100
    let saa := if 0 ≤ q then ⌊q + 1 / 2⌋ else -⌊-q + 1 / 2⌋
    if -2147483648 ≤ saa ∧ saa < 2147483648 then saa else env.wild

/-- How `cmd_state` cuts a number to size: at most three characters, or a zero in front. -/
def cutText (sa : List UInt8) : List UInt8 := if 3 ≤ sa.length then sa.take 3 else 0x30 :: sa

/-- The third parameter of a `STATE` reply. -/
def capacityText (env : Env) : List UInt8 := cutText (toString10 (togetCapacity env))

def cmdState (cs : CharSign) (env : Env) (channel : List UInt8) (c : AppConn) : Handled :=
  c.reply channel
    (Frame.make cs env.arr nanoId appId typeAck Cmd.askState
      [zeroText, [0x30, 0x39, 0x38], capacityText env]) []

/-- `frameProcess`. The array of the plain acknowledgement is cleared first. -/
def frameProcess (cs : CharSign) (env : Env) (channel : List UInt8) (c : AppConn) (f : Frame) :
    Except Fault Handled :=
  if f.type = typeAck then .ok { conn := c, channel }
  else if f.cmd = Cmd.test ∨ f.cmd = Cmd.init ∨ f.cmd = Cmd.start ∨ f.cmd = Cmd.stop ∨
      f.cmd = Cmd.askTime then
    .ok (c.reply channel
      (f.ack cs (fun i => if 0 ≤ i ∧ i < 256 then 0 else env.arr i) [zeroText]) [])
  else if f.cmd = Cmd.askState then .ok (c.cmdState cs env channel)
  else if f.cmd = Cmd.askInfo then c.cmdAskInfo cs env channel f
  else if f.cmd = Cmd.setTime then c.cmdSetTime cs env channel f
  else if f.cmd = Cmd.setInfo then c.cmdSetInfo cs env channel f
  else .ok { conn := c, channel }

/-- The words of a string, as `>>` reads them. -/
def tokensFrom (cur : List UInt8) : List UInt8 → List (List UInt8)
  | [] => if cur = [] then [] else [cur]
  | c :: xs =>
    if isSpace c then if cur = [] then tokensFrom [] xs else cur :: tokensFrom [] xs
    else tokensFrom (cur ++ [c]) xs

/-- The parameters of a warning. The default values that the code gathers for a string that
is too long or has the wrong number of words never reach the parameters. -/
def warnParas (infos : List UInt8) : List (List UInt8) :=
  let tokens := tokensFrom [] infos
  if 256 < infos.length then []
  else if tokens.length % 8 ≠ 0 then []
  else decimal (tokens.length / 8) :: tokens

/-- `warn(info)`. -/
def warn (cs : CharSign) (arr : Int → UInt8) (channel : List UInt8) (c : AppConn)
    (info : List UInt8) : Handled :=
  c.reply channel
    (Frame.make cs arr nanoId appId typeHost Cmd.warn (warnParas (cString info))) []

end AppConn

end SocketMaster
