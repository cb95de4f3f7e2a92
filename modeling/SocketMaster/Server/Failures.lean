import SocketMaster.Server.Isolation

/-!
# What becomes of a connection whose `write` fails

`write_` returns the number of bytes that it still counts as unsent, whatever made it stop, and
`DealWrite_` takes a negative number for a failure. There is none: the error branch is dead, and
a connection is closed only when the kernel reports a hang-up or a `read_` fails.
-/
namespace SocketMaster

open Library

/-- The `errno` of the failing call among those that `write_` makes, with `sum` bytes to be sent;
`none` if the last call sends nothing without failing. -/
def WriteCalls.failure (sum : Int) : WriteCalls → Option Nat
  | .zero => none
  | .fail e => some e
  | .sent n next =>
    let len := min n (u32 (AppConn.frameLen sum))
    if len = 0 then none else failure (sum - len) next

namespace AppConn

variable {c : AppConn}

theorem dealWrite_of_pos (h : 0 < c.toWriteBytes) (arrays : Nat → UInt8) (errno saveErrno : Nat)
    (calls : WriteCalls) : c.dealWrite true arrays errno saveErrno calls =
      c.writeLoop true arrays c.toWriteBytes errno saveErrno [] calls := by
  have hsum : ¬ int32 (c.writeBuff.length : Int) ≤ 0 := not_le.mpr h
  rw [dealWrite, if_pos h.ne', write_]
  exact if_neg hsum

end AppConn

namespace SocketServer

variable {cs : CharSign} {s t : SocketServer} {w : Int → WriteInput} {fd : Int} {log : Log}

/-- The connection is open, has output pending, and a `write` call made for it in the pass fails
with another `errno` than that of a full socket. -/
def WriteFails (s : SocketServer) (w : Int → WriteInput) (fd : Int) : Prop :=
  fd ∈ s.fdSet ∧ 0 < (s.conn fd).toWriteBytes ∧
    ∃ e, (w fd).calls.failure (s.conn fd).toWriteBytes = some e ∧ e ≠ eagain

/-- The `write` calls that are made for a connection with output pending. -/
def attempt (s : SocketServer) (w : Int → WriteInput) (fd : Int) (saveErrno : Nat) : WriteResult :=
  (s.conn fd).writeLoop true (w fd).arrays (s.conn fd).toWriteBytes (w fd).errno saveErrno []
    (w fd).calls

/-- The pass has made them. -/
def Attempted (s : SocketServer) (w : Int → WriteInput) (fd : Int) (t : SocketServer)
    (log : Log) : Prop :=
  ∃ saveErrno, t.conn fd = (s.attempt w fd saveErrno).conn ∧
    actionsOf fd log = [.sent (s.attempt w fd saveErrno).sent]

/-- A pass closes the connections whose `write` fails and no others, and comes to all those
with output pending. -/
structure FailuresClosed (s : SocketServer) (w : Int → WriteInput) (t : SocketServer)
    (log : Log) : Prop where
  closed : ∀ fd, s.WriteFails w fd →
    fd ∉ t.fdSet ∧ t.epoll fd = none ∧ (t.conn fd).isClose = true
  kept : ∀ fd, ¬ s.WriteFails w fd → (fd ∈ t.fdSet ↔ fd ∈ s.fdSet) ∧
    t.epoll fd = s.epoll fd ∧ (t.conn fd).isClose = (s.conn fd).isClose
  attempted : ∀ fd ∈ s.fdSet, 0 < (s.conn fd).toWriteBytes → ¬ s.WriteFails w fd →
    s.Attempted w fd t log

/-- No pass ends in a fault: it never comes to `CloseConn_`. -/
theorem writeLoop_total (w : Int → WriteInput) (s : SocketServer) (writeErrno : Nat)
    (fds : List Int) : ∃ t log, s.writeLoop w writeErrno fds = .ok (t, log) := by
  induction fds generalizing s writeErrno with
  | nil => exact ⟨s, [], rfl⟩
  | cons fd fds ih =>
    obtain ⟨t, log, hrest⟩ := ih (s.setConn fd ((s.conn fd).dealWrite true (w fd).arrays
      (w fd).errno writeErrno (w fd).calls).conn) ((s.conn fd).dealWrite true (w fd).arrays
      (w fd).errno writeErrno (w fd).calls).saveErrno
    rw [writeLoop_cons]
    dsimp only
    rw [hrest]
    exact ⟨_, _, rfl⟩

/-- What a pass does to each connection, whatever `write` returns. -/
theorem kept_dealWrite (hnodup : s.fdSet.Nodup) (h : s.dealWrite w = .ok (t, log)) (fd : Int) :
    (fd ∈ t.fdSet ↔ fd ∈ s.fdSet) ∧ t.epoll fd = s.epoll fd ∧
      (t.conn fd).isClose = (s.conn fd).isClose := by
  obtain ⟨hepoll, hset, hout, hin⟩ := writeLoop_cases fd h
  refine ⟨by rw [hset], congrFun hepoll fd, ?_⟩
  by_cases hfd : fd ∈ s.fdSet
  · obtain ⟨saveErrno, hconn, -⟩ := hin hnodup hfd
    rw [hconn]
    exact (AppConn.flags_dealWrite ..).1
  · rw [(hout hfd).1]

theorem attempted_dealWrite (hnodup : s.fdSet.Nodup) (h : s.dealWrite w = .ok (t, log))
    (hfd : fd ∈ s.fdSet) (hpos : 0 < (s.conn fd).toWriteBytes) : s.Attempted w fd t log := by
  obtain ⟨-, -, -, hin⟩ := writeLoop_cases fd h
  obtain ⟨saveErrno, hconn, hlog⟩ := hin hnodup hfd
  rw [AppConn.dealWrite_of_pos hpos] at hconn hlog
  rw [if_pos hpos.ne'] at hlog
  exact ⟨saveErrno, hconn, hlog⟩

theorem failuresClosed_dealWrite_iff (hnodup : s.fdSet.Nodup) (h : s.dealWrite w = .ok (t, log)) :
    FailuresClosed s w t log ↔ ∀ fd, ¬ s.WriteFails w fd := by
  constructor
  · intro hclosed fd hfails
    exact (hclosed.closed fd hfails).1 ((kept_dealWrite hnodup h fd).1.mpr hfails.1)
  · intro hnone
    exact ⟨fun fd hfails => absurd hfails (hnone fd), fun fd _ => kept_dealWrite hnodup h fd,
      fun fd hfd hpos _ => attempted_dealWrite hnodup h hfd hpos⟩

/-- For every set of open connections and all that `write` can return for them: the pass comes to
its end, and closes the connections whose `write` fails just if there are none. -/
theorem failuresClosed_iff (hnodup : s.fdSet.Nodup) (w : Int → WriteInput) :
    (∃ t log, s.dealWrite w = .ok (t, log) ∧ FailuresClosed s w t log) ↔
      ∀ fd, ¬ s.WriteFails w fd := by
  constructor
  · rintro ⟨t, log, h, hclosed⟩
    exact (failuresClosed_dealWrite_iff hnodup h).mp hclosed
  · intro hnone
    obtain ⟨t, log, h⟩ := writeLoop_total w s 0 s.fdSet
    exact ⟨t, log, h, (failuresClosed_dealWrite_iff hnodup h).mpr hnone⟩

theorem survives_whole : (((start zeros).addClient 5).next .signed
    (.readable 5 whole)).toOption.isSome = true := by decide +kernel

/-- The server with a reply pending for its one client. -/
def answered : SocketServer := ((start zeros).addClient 5).after (.readable 5 whole) survives_whole

theorem run_answered :
    Run (Step .signed) (start zeros) [.accept 5, .readable 5 whole] answered :=
  .cons (step_accept _ _ _ (by decide) (by decide))
    (.cons (step_after (by decide) survives_whole) (.nil _))

/-- `ECONNRESET`. -/
def econnreset : Nat := 104

/-- The socket takes all of the reply, or the client has reset the connection. -/
def takesAll (_ : Int) : WriteInput := ⟨fun _ => 0, 0, .sent 15 .zero⟩
def resets (_ : Int) : WriteInput := ⟨fun _ => 0, 0, .fail econnreset⟩

theorem failuresClosed_takesAll : ∃ t log, answered.dealWrite takesAll = .ok (t, log) ∧
    FailuresClosed answered takesAll t log := by
  refine (failuresClosed_iff (by decide +kernel) takesAll).mpr fun fd hfails => ?_
  obtain ⟨hfd, -, e, hfailure, -⟩ := hfails
  obtain rfl : fd = 5 := by
    have hset : answered.fdSet = [5] := by decide +kernel
    rwa [hset, List.mem_singleton] at hfd
  revert hfailure
  have hnone : (takesAll 5).calls.failure (answered.conn 5).toWriteBytes = none := by
    decide +kernel
  rw [hnone]
  nofun

/-- The reply cannot be written because the client has reset the connection, which stays open. -/
theorem not_failuresClosed_resets :
    Run (Step .signed) (start zeros) [.accept 5, .readable 5 whole] answered ∧
      ¬ ∃ t log, answered.dealWrite resets = .ok (t, log) ∧
        FailuresClosed answered resets t log := by
  refine ⟨run_answered, ?_⟩
  rintro ⟨t, log, h, hclosed⟩
  have hnone := (failuresClosed_dealWrite_iff (by decide +kernel) h).mp hclosed
  exact hnone 5 ⟨by decide +kernel, by decide +kernel, econnreset, rfl, by decide⟩

end SocketServer

end SocketMaster
