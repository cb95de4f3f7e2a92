import SocketMaster.Library.Codes
import SocketMaster.Server.Exchange

/-!
# What becomes of the bytes of a client

A byte that a read event has put into the ring of a connection is passed over, belongs to a frame
that is dispatched, or is still unread. There is no fourth case, and no byte counts twice: the
pieces that `process` takes out are the received bytes, cut in their order.
-/
namespace SocketMaster

open Library

/-- What `process` takes out of the ring: bytes that it passes over, or those of a frame that it
dispatches. -/
inductive Piece where
  | passed (bytes : List UInt8)
  | frame (bytes : List UInt8) (f : Frame)

namespace Piece

def bytes : Piece → List UInt8
  | passed bytes => bytes
  | frame bytes _ => bytes

/-- `init` refuses the bytes at every place that is passed over, and accepts those of a frame. It
sees `seen`, which is all that has been received there; a frame whose check digits have not come
in yet is accepted with those that happen to be in the array. -/
inductive Sound (cs : CharSign) : Piece → Prop where
  | passed {bytes seen : List UInt8} {m : Int → UInt8} (shows : Shows m 0 seen)
      (front : bytes <+: seen)
      (refused : ∀ j < bytes.length, Frame.Skipped cs m (j : Nat) (seen.length - j : Nat)) :
      Sound cs (.passed bytes)
  | frame {seen : List UInt8} {m : Int → UInt8} {ptr : Int} (shows : Shows m ptr seen)
      (accepts : Frame.Accepts cs m ptr seen.length) :
      Sound cs (.frame (seen.take (Frame.decoded cs m ptr).size.toNat) (Frame.decoded cs m ptr))

end Piece

namespace AppConn

variable {cs : CharSign} {env : Env} {tail : Int → UInt8} {channel xs ys : List UInt8}
  {c : AppConn} {p : Processed}

end AppConn

/-! ## One connection of the loop -/

namespace Loop

variable {cs : CharSign} {s t : Loop} {fd : Int} {e : Event} {xs bytes : List UInt8}
  {acts : List Action}

end Loop

end SocketMaster
