import SocketMaster.Library.Reads
import SocketMaster.Library.Stores
import Mathlib.Algebra.Ring.Nat
import Mathlib.Algebra.Ring.Int.Defs
import Mathlib.Algebra.Order.Group.Int

/-!
# The class `Frame`

A frame on the wire is the head `'S'`, four length digits, the host, destination, type and
command bytes, parameters that each end in a space, three check digits and a newline.
`init` decodes one from memory it does not own; `make` encodes one into the caller's array.

`init` is a computation that logs what it reads and `make` one that logs what it stores.
Both work on plain memory: an index past the received bytes or past the array is read or
stored all the same, and shows up in the log.
-/
namespace SocketMaster

open Library

/-- Whether the compiler's `char` is signed. -/
inductive CharSign where
  | signed | unsigned
  deriving DecidableEq, Repr

/-- The `int` that a `char` is promoted to. -/
def CharSign.val : CharSign → UInt8 → Int
  | .unsigned, c => c.toNat
  | .signed, c => if c.toNat < 128 then c.toNat else c.toNat - 256

/-- Conversion of an `int` to `char`, which keeps the low eight bits. -/
def toChar (x : Int) : UInt8 := UInt8.ofNat (x % 256).toNat

def space : UInt8 := 0x20
def newline : UInt8 := 0x0a
def frameHead : UInt8 := 0x53

namespace Cmd

def test : UInt8 := 0x30
def init : UInt8 := 0x31
def start : UInt8 := 0x32
def stop : UInt8 := 0x33
def askTime : UInt8 := 0x34
def askState : UInt8 := 0x35
def askInfo : UInt8 := 0x36
def setTime : UInt8 := 0x37
def warn : UInt8 := 0x38
def setInfo : UInt8 := 0x39

end Cmd

def appId : UInt8 := 0x31
def nanoId : UInt8 := 0x33
def typeHost : UInt8 := 0x30
def typeAck : UInt8 := 0x31

inductive FrameState where
  | init | ok | wait | ack | headError | lengthError | checkError | unknow
  deriving DecidableEq, Repr

/-- The members of a `Frame`. A member that has not been set yet holds an arbitrary value
in the program and is never read before it is set; here it starts at zero. -/
structure Frame where
  head : UInt8 := 0
  length : Int := 0
  host : UInt8 := 0
  client : UInt8 := 0
  type : UInt8 := 0
  cmd : UInt8 := 0
  paras : List (List UInt8) := []
  check : Int := 0
  state : FrameState := .init
  deriving DecidableEq, Repr

/-- Add `n` chars from address `i` on to `sum`. -/
def sumLoop (cs : CharSign) (sum i : Int) : Nat → Reads UInt8 Int
  | 0 => pure sum
  | n + 1 => do
    let c ← Reads.read i
    sumLoop cs (sum + cs.val c) (i + 1) n

/-- The parameter loop of `Frame::init`; the counter is `paraLen`. -/
def paraLoop (startPtr endPtr : Int) (paras : List (List UInt8)) :
    Nat → Reads UInt8 (List (List UInt8))
  | 0 => do
    let _ ← Reads.read endPtr
    pure paras
  | n + 1 => do
    let e ← Reads.read endPtr
    if e = newline then pure paras
    else do
      let s ← Reads.read startPtr
      if s = space then paraLoop (startPtr + 1) (startPtr + 1) paras n
      else do
        let e ← Reads.read endPtr
        if e ≠ space then paraLoop startPtr (endPtr + 1) paras n
        else if startPtr < endPtr then do
          let para ← Reads.readBlock startPtr (endPtr - startPtr).toNat
          paraLoop (endPtr + 1) (endPtr + 1) (paras ++ [para]) n
        else paraLoop startPtr endPtr paras n

/-- The value of a decimal digit character, with no check that it is one. -/
def CharSign.digit (cs : CharSign) (c : UInt8) : Int := cs.val c - 48

namespace Frame

/-- The part of `Frame::init` that decodes the body and compares the check digits, once the
length has passed both tests. -/
def initBody (cs : CharSign) (ptr : Int) (head : UInt8) (length : Int) : Reads UInt8 Frame := do
  let host ← Reads.read (ptr + 5)
  let client ← Reads.read (ptr + 6)
  let type ← Reads.read (ptr + 7)
  let cmd ← Reads.read (ptr + 8)
  let last := length + 5
  let sum ← sumLoop cs 0 (ptr + 5) (last - 5).toNat
  let check := sum.tmod 1000
  let paras ← paraLoop (ptr + 9) (ptr + 9) [] (length - 4).toNat
  let s0 ← Reads.read (ptr + last)
  let s1 ← Reads.read (ptr + last + 1)
  let s2 ← Reads.read (ptr + last + 2)
  let sc := cs.digit s0 * 100 + cs.digit s1 * 10 + cs.digit s2
  pure { head, length, host, client, type, cmd, paras, check,
         state := if sc ≠ check then .checkError else .ok }

/-- `Frame::init(ptr, len)` on the frame `f`. -/
def init (cs : CharSign) (f : Frame) (ptr len : Int) : Reads UInt8 Frame :=
  if len ≤ 0 then pure f
  else do
    -- the dump of the buffer on the console
    let _ ← Reads.readBlock ptr len.toNat
    let head ← Reads.read ptr
    if head ≠ frameHead then pure { f with head, state := .headError }
    else do
      let l0 ← Reads.read (ptr + 1)
      let l1 ← Reads.read (ptr + 2)
      let l2 ← Reads.read (ptr + 3)
      let l3 ← Reads.read (ptr + 4)
      let length := cs.digit l0 * 1000 + cs.digit l1 * 100 + cs.digit l2 * 10 + cs.digit l3
      if 256 < length then pure { f with head, length, state := .lengthError }
      else if len < length then pure { f with head, length, state := .wait }
      else initBody cs ptr head length

def size (f : Frame) : Int := f.length + 5 + 4

end Frame

/-- Store each parameter and a space. `pdst` and `num` are advanced separately. -/
def putParas (d : Stores UInt8) (pdst num : Int) : List (List UInt8) → Stores UInt8 × Int × Int
  | [] => (d, pdst, num)
  | para :: paras =>
    putParas ((d.puts pdst para).put (pdst + para.length) space) (pdst + para.length + 1)
      (num + para.length + 1) paras

/-- Store `k` decimal digit characters of `v` from address `i` downwards. -/
def putDigits (d : Stores UInt8) (i v : Int) : Nat → Stores UInt8
  | 0 => d
  | k + 1 => putDigits (d.put i (toChar (v.tmod 10 + 48))) (i - 1) (v.tdiv 10) k

/-- The last `k` decimal digit characters of `v`, most significant first. -/
def digitChars (v : Int) : Nat → List UInt8
  | 0 => []
  | k + 1 => digitChars (v.tdiv 10) k ++ [toChar (v.tmod 10 + 48)]

namespace Frame

/-- `Frame::make`: the destination as it is left, and the size returned. -/
def make (cs : CharSign) (dst : Int → UInt8) (host client type cmd : UInt8)
    (paras : List (List UInt8)) : Stores UInt8 × Int :=
  let d := (Stores.fresh dst).put 0 frameHead
  let d := (((d.put 5 host).put 6 client).put 7 type).put 8 cmd
  let (d, pdst, num) := putParas d 9 9 paras
  let sum := ((sumLoop cs 0 5 (num - 5).toNat).val d.mem).tmod 1000
  -- the check digits are stored twice, first from the last one backwards
  let d := (putDigits d (pdst + 2) sum 3).puts pdst (digitChars sum 3)
  let d := d.put (pdst + 3) newline
  (putDigits d 4 num 4, num + 4)

/-- `Frame::ack`: the reply goes back where the request came from. -/
def ack (cs : CharSign) (f : Frame) (dst : Int → UInt8) (paras : List (List UInt8)) :
    Stores UInt8 × Int :=
  make cs dst f.client f.host typeAck f.cmd paras

end Frame

end SocketMaster
