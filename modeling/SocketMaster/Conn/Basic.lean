import SocketMaster.Ring.Holds
import SocketMaster.Frame.Basic

/-!
# The class `AppConn`: its buffers and the system calls on them

One connection: a descriptor, a flag, and the two rings of 256 cells. The results of the
`read` and `write` system calls are inputs of the model, one stream for each call of
`read_` and `write_`; a stream that the loop leaves early is simply not used to its end.
-/
namespace SocketMaster

open Library

/-- Conversion of an integer to `int`. -/
def int32 (x : Int) : Int :=
  if 2147483648 ≤ x % 4294967296 then x % 4294967296 - 4294967296 else x % 4294967296

/-- Conversion of an integer to `uint32_t`. -/
def u32 (x : Int) : Nat := (x % 4294967296).toNat

theorem int32_of_lt {n : Nat} (h : n < 2147483648) : int32 n = n := by
  simp only [int32]
  split_ifs <;> omega

theorem u32_of_lt {n : Nat} (h : n < 4294967296) : u32 n = n := by
  simp only [u32]
  omega

def eagain : Nat := 11

/-- What one `read` into the local array can return. -/
structure Chunk where
  bytes : List UInt8
  ne_nil : bytes ≠ []
  length_le : bytes.length ≤ 256

/-- The results of the `read` calls: end of file, a failure with its `errno`, or data. A call
that does not fail leaves `errno` alone. -/
inductive ReadCalls where
  | eof
  | fail (errno : Nat)
  | data (chunk : Chunk) (next : ReadCalls)

/-- The results of the `write` calls: nothing taken, a failure with its `errno`, or room for
`n` bytes. -/
inductive WriteCalls where
  | zero
  | fail (errno : Nat)
  | sent (n : Nat) (next : WriteCalls)

/-- A connection. Its rings have the default size. -/
structure AppConn where
  fd : Int
  isClose : Bool
  readBuff : CBuffer
  writeBuff : CBuffer
  readBuff_size : readBuff.mSize = 256
  writeBuff_size : writeBuff.mSize = 256

/-- What `read_` leaves: the sum returned, `*saveErrno`, `errno` and the connection. -/
structure ReadResult where
  ret : Int
  saveErrno : Nat
  errno : Nat
  conn : AppConn

/-- What `write_` leaves: the value returned, `*saveErrno`, `errno`, the connection, and the
bytes that the socket took. -/
structure WriteResult where
  ret : Int
  saveErrno : Nat
  errno : Nat
  conn : AppConn
  sent : List UInt8

namespace AppConn

/-- The constructor; the rings' arrays hold junk. -/
def new (junkR junkW : Nat → UInt8) : AppConn where
  fd := -1
  isClose := true
  readBuff := .new 256 (by decide) (by decide) junkR
  writeBuff := .new 256 (by decide) (by decide) junkW
  readBuff_size := rfl
  writeBuff_size := rfl

/-- `init` takes over the descriptor and nothing else. -/
def init (c : AppConn) (fd : Int) : AppConn := { c with fd, isClose := false }

/-- `Close` marks the connection; the flag returned says whether the descriptor was closed. -/
def close (c : AppConn) : Bool × AppConn :=
  if c.isClose = false then (true, { c with isClose := true }) else (false, c)

def appendRead (c : AppConn) (src : List UInt8) : AppConn where
  fd := c.fd
  isClose := c.isClose
  readBuff := (c.readBuff.append src).2
  writeBuff := c.writeBuff
  readBuff_size := by simp [c.readBuff_size]
  writeBuff_size := c.writeBuff_size

def popRead (c : AppConn) (len : Int) : AppConn where
  fd := c.fd
  isClose := c.isClose
  readBuff := (c.readBuff.pop (u32 len)).2
  writeBuff := c.writeBuff
  readBuff_size := by simp [c.readBuff_size]
  writeBuff_size := c.writeBuff_size

def appendWrite (c : AppConn) (src : List UInt8) : AppConn where
  fd := c.fd
  isClose := c.isClose
  readBuff := c.readBuff
  writeBuff := (c.writeBuff.append src).2
  readBuff_size := c.readBuff_size
  writeBuff_size := by simp [c.writeBuff_size]

def popWrite (c : AppConn) (len : Int) : AppConn where
  fd := c.fd
  isClose := c.isClose
  readBuff := c.readBuff
  writeBuff := (c.writeBuff.pop (u32 len)).2
  readBuff_size := c.readBuff_size
  writeBuff_size := by simp [c.writeBuff_size]

def toWriteBytes (c : AppConn) : Int := int32 c.writeBuff.length

/-- `SendCmd(arr, len)`. -/
def sendCmd (c : AppConn) (arr : Int → UInt8) (len : Int) : AppConn :=
  c.appendWrite (cells arr 0 len.toNat)

/-- The loop of `read_`. -/
def readLoop (c : AppConn) (errno : Nat) (sum : Int) : ReadCalls → ReadResult
  | .eof => ⟨sum, errno, errno, c⟩
  | .fail e => ⟨sum, e, e, c⟩
  | .data chunk next =>
    let c := c.appendRead chunk.bytes
    let sum := sum + chunk.bytes.length
    if errno = eagain then ⟨sum, errno, errno, c⟩ else readLoop c errno sum next

/-- `read_`, with the `errno` that the previous failing call left. -/
def read_ (c : AppConn) (errno : Nat) (calls : ReadCalls) : ReadResult := c.readLoop errno 0 calls

/-- How much one turn of `write_` sends: at most what fits its local array. -/
def frameLen (sum : Int) : Int := if sum < 256 then sum else 256

/-- The loop of `write_`: `arrays` is the local array, which each turn fills from the front of
the ring, and `sum` the code's own count of the bytes still to be sent. -/
def writeLoop (isET : Bool) (c : AppConn) (arrays : Nat → UInt8) (sum : Int)
    (errno saveErrno : Nat) (sent : List UInt8) : WriteCalls → WriteResult
  | .zero => ⟨sum, errno, errno, c.popWrite (frameLen sum), sent⟩
  | .fail e => ⟨sum, e, e, c.popWrite (frameLen sum), sent⟩
  | .sent n next =>
    let arrays := blit arrays 0 (c.writeBuff.peek (u32 (frameLen sum)))
    let c := c.popWrite (frameLen sum)
    let len := min n (u32 (frameLen sum))
    if len = 0 then ⟨sum, errno, errno, c, sent⟩
    else
      let sum := sum - len
      let sent := sent ++ slice arrays 0 len
      if isET = true ∨ 0 < sum then writeLoop isET c arrays sum errno saveErrno sent next
      else ⟨sum, saveErrno, errno, c, sent⟩

/-- `write_`; `arrays` is what the local array happens to hold on entry. -/
def write_ (isET : Bool) (c : AppConn) (arrays : Nat → UInt8) (errno saveErrno : Nat)
    (calls : WriteCalls) : WriteResult :=
  let sum := int32 c.writeBuff.length
  if sum ≤ 0 then ⟨0, saveErrno, errno, c, []⟩
  else c.writeLoop isET arrays sum errno saveErrno [] calls

end AppConn

end SocketMaster
