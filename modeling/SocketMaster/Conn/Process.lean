import SocketMaster.Conn.Handlers

/-!
# `AppConn::process`

Finding a frame in the received bytes and answering it. The local array of `process` is the
memory that `peek` has filled from its start; behind the bytes stored there, and around the
array, lies `tail`, whatever earlier calls left on the stack.
-/
namespace SocketMaster

open Library

/-- What `process` leaves when it returns. -/
structure Processed where
  ret : Bool
  conn : AppConn
  channel : List UInt8
  accepted : List UInt8 := []
  commands : List String := []

/-- The indices of the local array that `process` reads, the frame it dispatches, and how it
ends. -/
structure Outcome where
  reads : List Int
  dispatched : Option Frame
  result : Except Fault Processed

namespace AppConn

/-- The loop of `getFrameFromBuffer`, one turn for each byte that is left. -/
def scanLoop (cs : CharSign) (frame : Frame) (bytes : Int) (discard : Nat) :
    Nat → Reads UInt8 (Frame × Nat)
  | 0 => pure (frame, discard)
  | len + 1 =>
    if frame.state = .ok ∨ frame.state = .wait then pure (frame, discard)
    else do
      let frame ← Frame.init cs frame (bytes + 1) len
      scanLoop cs frame (bytes + 1) (discard + 1) len

/-- `getFrameFromBuffer`: the frame found and the number of bytes passed over. -/
def getFrameFromBuffer (cs : CharSign) (frame : Frame) (bytes len : Int) :
    Reads UInt8 (Frame × Nat) := do
  let frame ← Frame.init cs frame bytes len
  scanLoop cs frame bytes 0 len.toNat

/-- What `process` does with what `getFrameFromBuffer` has found: `reads` are the indices read
so far, `bytes` the local array. -/
def dispatch (cs : CharSign) (env : Env) (channel : List UInt8) (c : AppConn)
    (bytes : Int → UInt8) (reads : List Int) (frame : Frame) (discard : Nat) : Outcome :=
  if frame.state ≠ .ok then
    ⟨reads, none, .ok { ret := false, conn := c.popRead discard, channel }⟩
  else
    let c := if 0 < discard then c.popRead discard else c
    let len := frame.size
    match c.frameProcess cs env channel frame with
    | .error e => ⟨reads, some frame, .error e⟩
    | .ok h =>
      -- a negative length is a huge one for `std::string`
      if len < 0 then ⟨reads, some frame, .error .lengthError⟩
      else
        ⟨reads ++ (Reads.readBlock 0 len.toNat).log bytes, some frame,
          .ok { ret := true, conn := h.conn.popRead len, channel := h.channel
                accepted := h.accepted, commands := h.commands }⟩

def process (cs : CharSign) (env : Env) (tail : Int → UInt8) (channel : List UInt8)
    (c : AppConn) : Outcome :=
  let len := int32 c.readBuff.length
  let len := if len < 256 then len else 256
  if len ≤ 0 then ⟨[], none, .ok { ret := false, conn := c, channel }⟩
  else
    let bytes := overlay (c.readBuff.peek (u32 len)) tail
    let scan := getFrameFromBuffer cs {} 0 len
    c.dispatch cs env channel bytes (scan.log bytes) (scan.val bytes).1 (scan.val bytes).2

end AppConn

end SocketMaster
