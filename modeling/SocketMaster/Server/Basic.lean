import SocketMaster.Conn.Outgoing
import Mathlib.Data.List.Sort

/-!
# The classes `appManager` and `SocketServer`

The connections of the server, its epoll set, and what `Start` does on each event. The kernel
decides what happens: which descriptor `accept` returns, which one has an event, and what the
system calls made for it return. A closed connection keeps its object in `users_`, under the
number of its descriptor, and the next connection with that number gets it back.
-/
namespace SocketMaster

open Library

/-- The number of connections that the manager means to allow. -/
def maxFd : Int := 5

/-- The connections. `users fd` is `users_[fd]`, whose object is made when it is first asked
for; `known fd` says whether it has been. -/
structure AppManager where
  users : Int → AppConn
  known : Int → Bool
  userCount : Int

namespace AppManager

/-- `users_[fd]` after a call has left `c` there. -/
def set (m : AppManager) (fd : Int) (c : AppConn) : AppManager :=
  { m with users := Function.update m.users fd c, known := Function.update m.known fd true }

/-- `init` looks at `userCount` and leaves it alone. -/
def init (m : AppManager) (fd : Int) : Int × AppManager :=
  if maxFd ≤ m.userCount then (-1, m) else (0, m.set fd ((m.users fd).init fd))

def close (m : AppManager) (fd : Int) : Except Fault AppManager :=
  if m.known fd = false then .error .assertion
  else .ok { m.set fd (m.users fd).close.2 with userCount := m.userCount - 1 }

end AppManager

/-- What the kernel does in a `DealRead_`, and what surrounds it. -/
structure ReadInput where
  errno : Nat
  calls : ReadCalls
  env : Env
  tail : Int → UInt8

/-- What the kernel does in the part of a `DealWrite_` that is about one connection. -/
structure WriteInput where
  arrays : Nat → UInt8
  errno : Nat
  calls : WriteCalls

/-- What the server does for a connection. -/
inductive Action where
  | dispatched (f : Frame)
  | queued (bytes : List UInt8)
  | sent (bytes : List UInt8)
  deriving DecidableEq

/-- The actions with the descriptors they are for. -/
abbrev Log := List (Int × Action)

/-- The server. `epoll fd` is `some armed` for a descriptor in the epoll set; an event disarms
it until `ModFd`. The channel buffer is global. -/
structure SocketServer where
  manager : AppManager
  fdSet : List Int
  epoll : Int → Option Bool
  channel : List UInt8

namespace SocketServer

variable (cs : CharSign) (s : SocketServer) (fd : Int)

/-- The constructor; `junk` is what the arrays of each connection's rings happen to hold. -/
def start (junk : Int → (Nat → UInt8) × (Nat → UInt8)) : SocketServer where
  manager := ⟨fun fd => .new (junk fd).1 (junk fd).2, fun _ => false, 0⟩
  fdSet := []
  epoll := fun _ => none
  channel := []

def conn : AppConn := s.manager.users fd

/-- `fdSet_.insert(fd)`; the set is kept in order. -/
def insertFd (fds : List Int) (fd : Int) : List Int :=
  if fd ∈ fds then fds else fds.orderedInsert (· ≤ ·) fd

def setConn (c : AppConn) : SocketServer := { s with manager := s.manager.set fd c }

def setEpoll (state : Option Bool) : SocketServer :=
  { s with epoll := Function.update s.epoll fd state }

/-- What `epoll_wait` does to the descriptors that it reports: `EPOLLONESHOT` disarms them. -/
def disarm (fds : List Int) : SocketServer :=
  { s with epoll := fun fd => if fd ∈ fds then (s.epoll fd).map fun _ => false else s.epoll fd }

/-- `CloseConn_`. -/
def closeConn : Except Fault SocketServer :=
  match s.manager.close fd with
  | .error e => .error e
  | .ok manager => .ok { s.setEpoll fd none with manager, fdSet := s.fdSet.erase fd }

/-- `AddClient_`; a client that is refused is told so and its descriptor closed. -/
def addClient : SocketServer :=
  if (s.manager.init fd).1 = -1 then { s with manager := (s.manager.init fd).2 }
  else
    { s.setEpoll fd (some true) with
      manager := (s.manager.init fd).2
      fdSet := insertFd s.fdSet fd }

/-- `DealRead_`. -/
def dealRead (i : ReadInput) : Except Fault (SocketServer × Log) :=
  let r := (s.conn fd).read_ i.errno i.calls
  if r.ret ≤ 0 ∧ r.saveErrno ≠ eagain then
    match (s.setConn fd r.conn).closeConn fd with
    | .error e => .error e
    | .ok s => .ok (s, [])
  else
    let o := r.conn.process cs i.env i.tail s.channel
    match o.result with
    | .error e => .error e
    | .ok p =>
      .ok ({ (s.setConn fd p.conn).setEpoll fd (some true) with channel := p.channel },
        o.dispatched.toList.map (fun f => (fd, .dispatched f)) ++ [(fd, .queued p.accepted)])

/-- The loop of `DealWrite_` over the descriptors `fds`. Every trigger mode that the server
knows is edge-triggered for connections. `writeErrno` is shared by all of them. -/
def writeLoop (w : Int → WriteInput) (s : SocketServer) (writeErrno : Nat) :
    List Int → Except Fault (SocketServer × Log)
  | [] => .ok (s, [])
  | fd :: fds =>
    let r := (s.conn fd).dealWrite true (w fd).arrays (w fd).errno writeErrno (w fd).calls
    let sent := if (s.conn fd).toWriteBytes ≠ 0 then [(fd, Action.sent r.sent)] else []
    let s := s.setConn fd r.conn
    match (if r.ret < 0 ∧ r.saveErrno ≠ eagain then s.closeConn fd else .ok s) with
    | .error e => .error e
    | .ok s =>
      match writeLoop w s r.saveErrno fds with
      | .error e => .error e
      | .ok (s, log) => .ok (s, sent ++ log)

def dealWrite (w : Int → WriteInput) : Except Fault (SocketServer × Log) :=
  s.writeLoop w 0 s.fdSet

/-- What `Start` reacts to: a client that `accept` returns, a hang-up, input, and the end of a
batch of events. -/
inductive Event where
  | accept (fd : Int)
  | hangup (fd : Int)
  | readable (fd : Int) (i : ReadInput)
  | batchEnd (w : Int → WriteInput)

def next : Event → Except Fault (SocketServer × Log)
  | .accept fd => .ok (s.addClient fd, [])
  | .hangup fd =>
    match (s.setEpoll fd (some false)).closeConn fd with
    | .error e => .error e
    | .ok s => .ok (s, [])
  | .readable fd i => (s.setEpoll fd (some false)).dealRead cs fd i
  | .batchEnd w => s.dealWrite w

/-- What the kernel can do: `accept` returns a descriptor that is not open, and only an armed
one has an event. -/
def Enabled : Event → Prop
  | .accept fd => 0 < fd ∧ (s.conn fd).isClose = true
  | .hangup fd => s.epoll fd = some true
  | .readable fd _ => s.epoll fd = some true
  | .batchEnd _ => True

instance : (e : Event) → Decidable (s.Enabled e)
  | .accept fd => inferInstanceAs (Decidable (0 < fd ∧ (s.conn fd).isClose = true))
  | .hangup fd => inferInstanceAs (Decidable (s.epoll fd = some true))
  | .readable fd _ => inferInstanceAs (Decidable (s.epoll fd = some true))
  | .batchEnd _ => inferInstanceAs (Decidable True)

/-- One event, if the server survives it. -/
def Step (cs : CharSign) (s : SocketServer) (e : Event) (t : SocketServer) : Prop :=
  s.Enabled e ∧ ∃ log, s.next cs e = .ok (t, log)

theorem epoll_disarm (fds : List Int) : (s.disarm fds).epoll fd =
    if fd ∈ fds then (s.epoll fd).map fun _ => false else s.epoll fd := rfl

section Returns

variable {cs s fd} {t : SocketServer} {log : Log}

theorem close_ok {m m' : AppManager} (h : m.close fd = .ok m') :
    m' = { m.set fd (m.users fd).close.2 with userCount := m.userCount - 1 } := by
  rw [AppManager.close] at h
  split_ifs at h
  cases h
  rfl

/-- What a `CloseConn_` that returns has done. -/
theorem closeConn_ok (h : s.closeConn fd = .ok t) :
    ∃ manager, s.manager.close fd = .ok manager ∧
      t = { s.setEpoll fd none with manager, fdSet := s.fdSet.erase fd } := by
  rw [closeConn] at h
  split at h
  · cases h
  · rename_i manager hclose
    cases h
    exact ⟨manager, hclose, rfl⟩

/-- How a `DealRead_` that returns has ended. -/
theorem dealRead_ok {i : ReadInput} (h : s.dealRead cs fd i = .ok (t, log)) :
    (((s.conn fd).read_ i.errno i.calls).ret ≤ 0 ∧
        ((s.conn fd).read_ i.errno i.calls).saveErrno ≠ eagain) ∧
        (s.setConn fd ((s.conn fd).read_ i.errno i.calls).conn).closeConn fd = .ok t ∧ log = [] ∨
      ¬ (((s.conn fd).read_ i.errno i.calls).ret ≤ 0 ∧
        ((s.conn fd).read_ i.errno i.calls).saveErrno ≠ eagain) ∧
        ∃ p, (((s.conn fd).read_ i.errno i.calls).conn.process cs i.env i.tail s.channel).result =
            .ok p ∧
          t = { (s.setConn fd p.conn).setEpoll fd (some true) with channel := p.channel } ∧
          log = ((((s.conn fd).read_ i.errno i.calls).conn.process cs i.env i.tail
            s.channel).dispatched.toList.map Action.dispatched ++ [Action.queued p.accepted]).map
              (Prod.mk fd) := by
  rw [dealRead] at h
  dsimp only at h
  split at h
  · rename_i hcloses
    split at h
    · cases h
    · rename_i s' hclose
      cases h
      exact .inl ⟨hcloses, hclose, rfl⟩
  · rename_i hstays
    split at h
    · cases h
    · rename_i p hp
      cases h
      exact .inr ⟨hstays, p, hp, rfl, by simp⟩

/-- The error branch of the pass is dead: each connection is written, and the pass goes on. -/
theorem writeLoop_cons (w : Int → WriteInput) (s : SocketServer) (writeErrno : Nat) (fd : Int)
    (fds : List Int) : s.writeLoop w writeErrno (fd :: fds) =
      let r := (s.conn fd).dealWrite true (w fd).arrays (w fd).errno writeErrno (w fd).calls
      match (s.setConn fd r.conn).writeLoop w r.saveErrno fds with
      | .error e => .error e
      | .ok (t, log) =>
        let sent := if (s.conn fd).toWriteBytes ≠ 0 then [(fd, Action.sent r.sent)] else []
        .ok (t, sent ++ log) := by
  have hret := AppConn.dealWrite_ret_nonneg (c := s.conn fd) true (w fd).arrays (w fd).errno
    writeErrno (w fd).calls
  rw [writeLoop]
  dsimp only
  rw [if_neg fun hfail => absurd hfail.1 (not_lt.mpr hret)]

/-- How a pass that returns has gone on behind its first connection. -/
theorem writeLoop_cons_ok {w : Int → WriteInput} {writeErrno : Nat} {fds : List Int}
    (h : s.writeLoop w writeErrno (fd :: fds) = .ok (t, log)) :
    let r := (s.conn fd).dealWrite true (w fd).arrays (w fd).errno writeErrno (w fd).calls
    ∃ log', (s.setConn fd r.conn).writeLoop w r.saveErrno fds = .ok (t, log') ∧
      log = (if (s.conn fd).toWriteBytes ≠ 0 then [(fd, Action.sent r.sent)] else []) ++ log' := by
  rw [writeLoop_cons] at h
  dsimp only at h ⊢
  split at h
  · cases h
  · rename_i t' log' hrest
    cases h
    exact ⟨log', hrest, rfl⟩

theorem hangup_ok (h : s.next cs (.hangup fd) = .ok (t, log)) :
    (s.setEpoll fd (some false)).closeConn fd = .ok t ∧ log = [] := by
  rw [next] at h
  split at h
  · cases h
  · rename_i s' hclose
    cases h
    exact ⟨hclose, rfl⟩

end Returns

theorem step_accept (hpos : 0 < fd) (hclosed : (s.conn fd).isClose = true) :
    Step cs s (.accept fd) (s.addClient fd) := ⟨⟨hpos, hclosed⟩, [], rfl⟩

/-- The memory of fresh rings, all zeros. -/
def zeros (_ : Int) : (Nat → UInt8) × (Nat → UInt8) := (fun _ => 0, fun _ => 0)

end SocketServer

end SocketMaster
