import SocketMaster.Ring.Queue
import SocketMaster.Conn.Life

/-!
# The outgoing path of a connection

Whole runs of replies being queued on `writeBuff_` and of `DealWrite_` sending them. `write_`
pops what it is about to send before it knows how much of it the socket takes, so the bytes
arrive in order as long as the first `write` of every pass takes all that is pending, and the
ring is not emptied with its write index at the physical end. The queue that the ring follows
is then also the queue between the handlers and the socket.
-/
namespace SocketMaster

open Library

/-- The first `write` call takes at least `k` bytes. -/
def WriteCalls.TakesAll (calls : WriteCalls) (k : Nat) : Prop :=
  match calls with
  | .sent n _ => k ≤ n
  | .zero => False
  | .fail _ => False

namespace AppConn

/-- What `DealWrite_` does for one connection. -/
def dealWrite (isET : Bool) (c : AppConn) (arrays : Nat → UInt8) (errno saveErrno : Nat)
    (calls : WriteCalls) : WriteResult :=
  if c.toWriteBytes ≠ 0 then c.write_ isET arrays errno saveErrno calls
  else ⟨0, saveErrno, errno, c, []⟩

variable {c : AppConn} {xs : List UInt8}

theorem keeps_dealWrite {P : AppConn → Prop} (keep : ∀ c len, P c → P (c.popWrite len)) (h : P c)
    (isET : Bool) (arrays : Nat → UInt8) (errno saveErrno : Nat) (calls : WriteCalls) :
    P (c.dealWrite isET arrays errno saveErrno calls).conn := by
  rw [dealWrite]
  split_ifs
  · exact keeps_write_ keep h ..
  · exact h

/-- Nothing but `init` and `Close` touches the descriptor and the flag. -/
theorem flags_read_ (c : AppConn) (errno : Nat) (calls : ReadCalls) :
    (c.read_ errno calls).conn.isClose = c.isClose ∧ (c.read_ errno calls).conn.fd = c.fd :=
  keeps_readLoop (P := fun c' => c'.isClose = c.isClose ∧ c'.fd = c.fd) (fun _ _ h => h)
    ⟨rfl, rfl⟩ errno 0 calls

theorem flags_process {cs : CharSign} {env : Env} {tail : Int → UInt8} {channel : List UInt8}
    {p : Processed} (h : (c.process cs env tail channel).result = .ok p) :
    p.conn.isClose = c.isClose ∧ p.conn.fd = c.fd :=
  keeps_process (P := fun c' => c'.isClose = c.isClose ∧ c'.fd = c.fd) (fun _ _ h => h)
    (fun _ _ _ h => h) ⟨rfl, rfl⟩ h

theorem flags_dealWrite (isET : Bool) (arrays : Nat → UInt8) (errno saveErrno : Nat)
    (calls : WriteCalls) :
    (c.dealWrite isET arrays errno saveErrno calls).conn.isClose = c.isClose ∧
      (c.dealWrite isET arrays errno saveErrno calls).conn.fd = c.fd :=
  keeps_dealWrite (P := fun c' => c'.isClose = c.isClose ∧ c'.fd = c.fd) (fun _ _ h => h)
    ⟨rfl, rfl⟩ ..

/-- `write_` never counts below zero. -/
theorem writeLoop_ret_nonneg (isET : Bool) (arrays : Nat → UInt8) {sum : Int}
    (errno saveErrno : Nat) (sent : List UInt8) (calls : WriteCalls) (h : 0 ≤ sum) :
    0 ≤ (c.writeLoop isET arrays sum errno saveErrno sent calls).ret := by
  induction calls generalizing c arrays sum sent with
  | zero => exact h
  | fail e => exact h
  | sent n next ih =>
    have hle : (u32 (frameLen sum) : Int) ≤ sum := by
      rw [frameLen, u32]
      split_ifs <;> omega
    rw [writeLoop]
    dsimp only
    split
    · exact h
    split
    · exact ih _ _ (by omega)
    · show 0 ≤ sum - (min n (u32 (frameLen sum)) : Nat)
      omega

theorem dealWrite_ret_nonneg (isET : Bool) (arrays : Nat → UInt8) (errno saveErrno : Nat)
    (calls : WriteCalls) : 0 ≤ (c.dealWrite isET arrays errno saveErrno calls).ret := by
  rw [dealWrite]
  split_ifs
  · rw [write_]
    split
    · exact le_refl _
    · exact writeLoop_ret_nonneg isET arrays errno saveErrno [] calls (by omega)
  · exact le_refl _

theorem popWrite_zero : c.popWrite 0 = c := by
  have hpop : (c.writeBuff.pop (u32 0)).2 = c.writeBuff := by
    have hu : u32 0 = 0 := rfl
    have hpeek : c.writeBuff.peek 0 = [] := by
      simp [CBuffer.peek, CBuffer.peekSegs, sub32]
    simp [hu, CBuffer.pop, hpeek]
  cases c
  simpa [popWrite] using hpop

/-- A turn of `write_` with nothing left to send, as edge-triggered mode makes it. -/
theorem writeLoop_done (isET : Bool) (arrays : Nat → UInt8) (errno saveErrno : Nat)
    (sent : List UInt8) (calls : WriteCalls) :
    (c.writeLoop isET arrays 0 errno saveErrno sent calls).conn = c ∧
      (c.writeLoop isET arrays 0 errno saveErrno sent calls).sent = sent := by
  have hlen : frameLen 0 = 0 := rfl
  cases calls with
  | zero => exact ⟨popWrite_zero, rfl⟩
  | fail e => exact ⟨popWrite_zero, rfl⟩
  | sent n next =>
    have hu : u32 0 = 0 := rfl
    simp only [writeLoop, hlen, hu, Nat.min_zero, if_true, popWrite_zero, and_self]

/-- A pass whose first `write` takes everything. -/
theorem write_all (hx : CBuffer.Holds c.writeBuff xs) (hne : xs ≠ []) (isET : Bool)
    (arrays : Nat → UInt8) (errno saveErrno : Nat) {calls : WriteCalls}
    (hall : calls.TakesAll xs.length) :
    (c.write_ isET arrays errno saveErrno calls).sent = xs ∧
      (c.write_ isET arrays errno saveErrno calls).conn.writeBuff =
        (c.writeBuff.pop xs.length).2 := by
  have hshort := hx.short
  rw [c.writeBuff_size] at hshort
  have hpos := List.length_pos_iff.mpr hne
  have hsum : int32 (c.writeBuff.length : Int) = xs.length := by
    rw [hx.length_eq, int32_of_lt (by omega)]
  have hframe : frameLen (xs.length : Int) = xs.length := by
    rw [frameLen, if_pos (by omega)]
  have hu : u32 (xs.length : Int) = xs.length := u32_of_lt (by omega)
  cases calls with
  | zero => exact absurd hall id
  | fail e => exact absurd hall id
  | sent n next =>
    have hmin : min n xs.length = xs.length := Nat.min_eq_right hall
    have hpeek : c.writeBuff.peek xs.length = xs := by rw [hx.peek_eq, List.take_length]
    have hslice : slice (blit arrays 0 xs) 0 xs.length = xs := by
      rw [slice_blit _ _ _ (Nat.le_refl _), List.take_length]
    have hleft : (xs.length : Int) - xs.length = 0 := by omega
    have hpop : (c.popWrite (xs.length : Int)).writeBuff = (c.writeBuff.pop xs.length).2 := by
      rw [popWrite_writeBuff, hu]
    have hnot : ¬ ((xs.length : Int) ≤ 0) := by omega
    simp only [write_, hsum, if_neg hnot, writeLoop, hframe, hu, hmin, hpeek, hslice, hleft,
      List.nil_append, if_neg (Nat.ne_of_gt hpos)]
    split_ifs
    · obtain ⟨hconn, hsent⟩ := writeLoop_done (c := c.popWrite (xs.length : Int)) isET
        (blit arrays 0 xs) errno saveErrno xs next
      exact ⟨hsent, by rw [hconn, hpop]⟩
    · exact ⟨rfl, hpop⟩

end AppConn

/-- A connection with the bytes that `writeBuff_` has accepted and those that the socket has. -/
structure Outgoing where
  conn : AppConn
  accepted : List UInt8
  sent : List UInt8

namespace Outgoing

/-- A reply is queued, or `DealWrite_` comes to the connection. -/
inductive Event where
  | queue (src : List UInt8)
  | dealWrite (isET : Bool) (arrays : Nat → UInt8) (errno saveErrno : Nat) (calls : WriteCalls)

def start (c : AppConn) : Outgoing := ⟨c, [], []⟩

def next (t : Outgoing) : Event → Outgoing
  | .queue src =>
    { t with conn := t.conn.appendWrite src
             accepted := t.accepted ++ src.take (t.conn.writeBuff.append src).1 }
  | .dealWrite isET arrays errno saveErrno calls =>
    let r := t.conn.dealWrite isET arrays errno saveErrno calls
    { t with conn := r.conn, sent := t.sent ++ r.sent }

/-- Nothing is lost, repeated, reordered or invented, and nothing more is sent once everything
has been. -/
structure InOrder (t : Outgoing) : Prop where
  rest : t.sent ++ t.conn.writeBuff.content = t.accepted
  quiet : t.sent = t.accepted → ∀ isET arrays errno saveErrno calls,
    (t.conn.dealWrite isET arrays errno saveErrno calls).sent = []

/-- A pass with output pending finds the write index inside the array, and the first `write`
takes all of it. -/
def Clear (t : Outgoing) : Event → Prop
  | .queue _ => True
  | .dealWrite _ _ _ _ calls => t.conn.writeBuff.length ≠ 0 →
    t.conn.writeBuff.mIdxw ≠ t.conn.writeBuff.mSize ∧ calls.TakesAll t.conn.writeBuff.length

/-- The ring as a queue from the handlers to the socket. -/
def Follows (t : Outgoing) (q : Fifo UInt8) : Prop :=
  CBuffer.Follows 256 ⟨t.conn.writeBuff, t.accepted, t.sent⟩ q

/-- The queue operation that an event stands for. -/
def Event.op (t : Outgoing) : Event → Fifo.Op UInt8
  | .queue src => .offer src
  | .dealWrite .. => .take t.conn.writeBuff.length

theorem toWriteBytes_eq {c : AppConn} {xs : List UInt8} (hx : CBuffer.Holds c.writeBuff xs) :
    c.toWriteBytes = xs.length := by
  have hshort := hx.short
  rw [c.writeBuff_size] at hshort
  rw [AppConn.toWriteBytes, hx.length_eq, int32_of_lt (by omega)]

theorem dealWrite_of_nil {c : AppConn} (hx : CBuffer.Holds c.writeBuff []) (isET : Bool)
    (arrays : Nat → UInt8) (errno saveErrno : Nat) (calls : WriteCalls) :
    c.dealWrite isET arrays errno saveErrno calls = ⟨0, saveErrno, errno, c, []⟩ :=
  if_neg (not_not.mpr (toWriteBytes_eq hx))

theorem next_dealWrite (t : Outgoing) (isET : Bool) (arrays : Nat → UInt8) (errno saveErrno : Nat)
    (calls : WriteCalls) : t.next (.dealWrite isET arrays errno saveErrno calls) =
      { conn := (t.conn.dealWrite isET arrays errno saveErrno calls).conn
        accepted := t.accepted
        sent := t.sent ++ (t.conn.dealWrite isET arrays errno saveErrno calls).sent } := rfl

theorem op_dealWrite (t : Outgoing) (isET : Bool) (arrays : Nat → UInt8) (errno saveErrno : Nat)
    (calls : WriteCalls) : Event.op t (.dealWrite isET arrays errno saveErrno calls) =
      .take t.conn.writeBuff.length := rfl

/-- One clear event is one operation of the queue. -/
theorem Follows.next {t : Outgoing} {q : Fifo UInt8} (h : Follows t q) (e : Event)
    (hc : Clear t e) : Follows (t.next e) (q.apply 255 (e.op t)) := by
  cases e with
  | queue src => exact CBuffer.Follows.call h (.append src) trivial
  | dealWrite isET arrays errno saveErrno calls =>
    have hx : CBuffer.Holds t.conn.writeBuff q.content := h.holds
    have hlen := hx.length_eq
    have hbytes := toWriteBytes_eq hx
    rw [next_dealWrite, op_dealWrite, Follows]
    by_cases hnil : q.content = []
    · -- nothing pending: the pass does not come to `write_`
      have hdeal := dealWrite_of_nil (hnil ▸ hx) isET arrays errno saveErrno calls
      have htake : q.apply 255 (.take t.conn.writeBuff.length) = q := by
        rw [hlen, hnil, List.length_nil, Fifo.apply, Fifo.take_zero]
      rw [hdeal, htake, List.append_nil]
      exact h
    · have hpos := List.length_pos_iff.mpr hnil
      obtain ⟨hend, hall⟩ := hc (by omega)
      rw [hlen] at hall
      obtain ⟨hsent, hring⟩ := AppConn.write_all hx hnil isET arrays errno saveErrno hall
      have hsome : t.conn.toWriteBytes ≠ 0 := by
        rw [toWriteBytes_eq hx]
        omega
      have hdeal : t.conn.dealWrite isET arrays errno saveErrno calls =
          t.conn.write_ isET arrays errno saveErrno calls := if_pos hsome
      have hpop := CBuffer.Follows.call h (.pop q.content.length) fun hw => absurd hw hend
      simp only [CBuffer.Trace.call, CBuffer.Call.op, CBuffer.pop_fst, hx.peek_eq,
        List.take_length] at hpop
      rwa [hdeal, hsent, hring, hlen]

/-- A ring that follows a queue delivers in order. -/
theorem Follows.inOrder {t : Outgoing} {q : Fifo UInt8} (h : Follows t q) : t.InOrder := by
  have hx : CBuffer.Holds t.conn.writeBuff q.content := h.holds
  have hsent : t.sent = q.delivered := h.popped
  have haccepted : t.accepted = q.accepted := h.accepted
  refine ⟨?_, ?_⟩
  · rw [hsent, haccepted, CBuffer.content, hx.content, q.conserved]
  · intro hall isET arrays errno saveErrno calls
    have hcount := q.length_conserved
    have hnil : q.content.length = 0 := by
      rw [hsent, haccepted] at hall
      rw [hall] at hcount
      omega
    rw [List.length_eq_zero_iff] at hnil
    rw [dealWrite_of_nil (hnil ▸ hx)]

theorem follows_start (junkR junkW : Nat → UInt8) :
    Follows (start (.new junkR junkW)) Fifo.empty :=
  ⟨rfl, CBuffer.holds_new .., rfl, rfl⟩

/-- In every run of a fresh connection whose events are all clear, the bytes go out in order. -/
theorem inOrder_of_run (junkR junkW : Nat → UInt8) (events : List Event) (t : Outgoing)
    (run : Run (Steps next Clear) (start (.new junkR junkW)) events t) : t.InOrder := by
  have keep : ∀ s e t, (∃ q, Follows s q) → Steps next Clear s e t → ∃ q, Follows t q := by
    rintro s e t ⟨q, h⟩ ⟨hc, rfl⟩
    exact ⟨_, h.next e hc⟩
  obtain ⟨q, follows⟩ := run.invariant keep ⟨_, follows_start junkR junkW⟩
  exact follows.inOrder

/-- Two replies are queued and sent in one pass. -/
theorem inOrder_of_run_small :
    InOrder <| [Event.queue [1, 2], .queue [3], .dealWrite true (fun _ => 0) 0 0 (.sent 3 .zero)].foldl
      next (start (.new (fun _ => 0) fun _ => 0)) :=
  inOrder_of_run (fun _ => 0) (fun _ => 0)
    [.queue [1, 2], .queue [3], .dealWrite true (fun _ => 0) 0 0 (.sent 3 .zero)] _
    (.cons ⟨trivial, rfl⟩ (.cons ⟨trivial, rfl⟩
      (.cons ⟨fun _ => ⟨by decide, show 3 ≤ 3 by decide⟩, rfl⟩ (.nil _))))

/-- The socket takes one byte of three and is then full: the ring has let go of all three. -/
theorem not_inOrder_of_partial_write :
    ¬ (InOrder <| [Event.queue [1, 2, 3],
      .dealWrite true (fun _ => 0) 0 0 (.sent 1 (.fail eagain))].foldl
        next (start (.new (fun _ => 0) fun _ => 0))) :=
  fun h => absurd h.rest (by decide)

end Outgoing

end SocketMaster
