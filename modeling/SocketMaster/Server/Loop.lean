import SocketMaster.Server.Failures

/-!
# The event loop and its descriptors

`Start` as it handles whole batches: `Wait` reports registered descriptors, each of them at most
once, and disarms them, and the loop comes to them in order; a client can be accepted at any point
of a batch, and `DealWrite_` ends it. Beside the server stands the list of the `accept` and `close`
calls made, which says what the kernel holds for open. `fdSet_`, `users_` and the epoll set are
kept by three classes, the objects in `users_` outlive their connections, and descriptor numbers
come again; `Agreed` says of one descriptor that all of them think the same of it.
-/
namespace SocketMaster

open Library

/-- The system calls after which a descriptor is open, or is not. -/
inductive FdCall where
  | accept (fd : Int)
  | close (fd : Int)

/-- The descriptor is open after these calls, the latest of which stands first. -/
def FdCall.isOpen (fd : Int) : List FdCall → Bool
  | [] => false
  | .accept a :: calls => a == fd || isOpen fd calls
  | .close a :: calls => a != fd && isOpen fd calls

/-- How often the descriptor has been closed since it was last accepted. -/
def FdCall.closesSince (fd : Int) : List FdCall → Nat
  | [] => 0
  | .accept a :: calls => if a = fd then 0 else closesSince fd calls
  | .close a :: calls => if a = fd then closesSince fd calls + 1 else closesSince fd calls

/-- The `close` calls of `AppConn::Close`. -/
def AppConn.closeCalls (c : AppConn) : List Int := if c.close.1 = true then [c.fd] else []

namespace SocketServer

/-- The `close` calls of the loop of `DealWrite_`. -/
def writeCloses (w : Int → WriteInput) (s : SocketServer) (writeErrno : Nat) : List Int → List Int
  | [] => []
  | fd :: fds =>
    let r := (s.conn fd).dealWrite true (w fd).arrays (w fd).errno writeErrno (w fd).calls
    let s := s.setConn fd r.conn
    if r.ret < 0 ∧ r.saveErrno ≠ eagain then
      r.conn.closeCalls ++
        match s.closeConn fd with
        | .error _ => []
        | .ok s => writeCloses w s r.saveErrno fds
    else writeCloses w s r.saveErrno fds

/-- The descriptors that an event makes the server close, in order. `SendError_` closes that of a
client that is refused. -/
def closes (s : SocketServer) : Event → List Int
  | .accept fd => if (s.manager.init fd).1 = -1 then [fd] else []
  | .hangup fd => (s.conn fd).closeCalls
  | .readable fd i =>
    let r := (s.conn fd).read_ i.errno i.calls
    if r.ret ≤ 0 ∧ r.saveErrno ≠ eagain then r.conn.closeCalls else []
  | .batchEnd w => s.writeCloses w 0 s.fdSet

end SocketServer

/-- The server between two event handlings: what of the batch has not been handled yet, whether
there is a batch at all, and the calls made so far. -/
structure Loop where
  server : SocketServer
  pending : List Int
  inBatch : Bool
  calls : List FdCall

namespace Loop

/-- What happens in `Start`. An event that is none of the others is logged and nothing else. -/
inductive Event where
  | wait (reported : List Int)
  | accept (fd : Int)
  | hangup (fd : Int)
  | readable (fd : Int) (i : ReadInput)
  | other (fd : Int)
  | batchEnd (w : Int → WriteInput)

def start (junk : Int → (Nat → UInt8) × (Nat → UInt8)) : Loop := ⟨.start junk, [], false, []⟩

section

variable (cs : CharSign) (s : Loop)

/-- Handle an event of the server; `accepted` is the call that it begins with. -/
def serve (e : SocketServer.Event) (accepted : List FdCall) : Except Fault Loop :=
  match s.server.next cs e with
  | .error f => .error f
  | .ok (server, _) =>
    .ok { s with server, calls := (s.server.closes e).reverse.map .close ++ accepted ++ s.calls }

def next : Event → Except Fault Loop
  | .wait reported =>
    .ok { s with server := s.server.disarm reported, pending := reported, inBatch := true }
  | .accept fd => s.serve cs (.accept fd) [.accept fd]
  | .hangup fd => { s with pending := s.pending.tail }.serve cs (.hangup fd) []
  | .readable fd i => { s with pending := s.pending.tail }.serve cs (.readable fd i) []
  | .other _ => .ok { s with pending := s.pending.tail }
  | .batchEnd w => { s with inBatch := false }.serve cs (.batchEnd w) []

/-- What the kernel can do: `Wait` reports registered descriptors, none of them twice, and
`accept` returns one that is not open. -/
def Enabled : Event → Prop
  | .wait reported =>
    s.inBatch = false ∧ reported.Nodup ∧ ∀ fd ∈ reported, s.server.epoll fd ≠ none
  | .accept fd => s.inBatch = true ∧ 0 < fd ∧ FdCall.isOpen fd s.calls = false
  | .hangup fd => s.inBatch = true ∧ s.pending.head? = some fd
  | .readable fd _ => s.inBatch = true ∧ s.pending.head? = some fd
  | .other fd => s.inBatch = true ∧ s.pending.head? = some fd
  | .batchEnd _ => s.inBatch = true ∧ s.pending = []

/-- One event whose handlers do not throw. -/
def Step (cs : CharSign) (s : Loop) (e : Event) (t : Loop) : Prop :=
  s.Enabled e ∧ s.next cs e = .ok t

end

/-- What the books should say: `fdSet_` has the descriptors of the open connections and those
that are registered, and no descriptor is closed twice for one `accept`. -/
structure Consistent (s : Loop) : Prop where
  opened : ∀ fd, fd ∈ s.server.fdSet ↔
    s.server.manager.known fd = true ∧ (s.server.conn fd).isClose = false
  registered : ∀ fd, fd ∈ s.server.fdSet ↔ s.server.epoll fd ≠ none
  once : ∀ fd, FdCall.closesSince fd s.calls ≤ 1

/-! ## One descriptor -/

/-- Everything that is recorded about the descriptor agrees on whether it is open. -/
structure Agreed (s : Loop) (fd : Int) : Prop where
  isClose : (s.server.conn fd).isClose = false ↔ fd ∈ s.server.fdSet
  epoll : s.server.epoll fd ≠ none ↔ fd ∈ s.server.fdSet
  isOpen : FdCall.isOpen fd s.calls = true ↔ fd ∈ s.server.fdSet
  own : fd ∈ s.server.fdSet → s.server.manager.known fd = true ∧ (s.server.conn fd).fd = fd
  once : FdCall.closesSince fd s.calls ≤ 1
  fresh : FdCall.isOpen fd s.calls = true → FdCall.closesSince fd s.calls = 0

/-- An event leaves everything that is recorded about the descriptor as it is. -/
structure Kept (s t : Loop) (fd : Int) : Prop where
  isClose : (t.server.conn fd).isClose = (s.server.conn fd).isClose
  own : (t.server.conn fd).fd = (s.server.conn fd).fd
  known : s.server.manager.known fd = true → t.server.manager.known fd = true
  epoll : t.server.epoll fd ≠ none ↔ s.server.epoll fd ≠ none
  mem : fd ∈ t.server.fdSet ↔ fd ∈ s.server.fdSet
  isOpen : FdCall.isOpen fd t.calls = FdCall.isOpen fd s.calls
  closes : FdCall.closesSince fd t.calls = FdCall.closesSince fd s.calls

variable {cs : CharSign} {s t : Loop} {fd fd' : Int}

theorem Agreed.kept (h : s.Agreed fd) (k : Kept s t fd) : t.Agreed fd where
  isClose := by rw [k.isClose, k.mem, h.isClose]
  epoll := by rw [k.epoll, k.mem, h.epoll]
  isOpen := by rw [k.isOpen, k.mem, h.isOpen]
  own := by
    intro hmem
    obtain ⟨hknown, hown⟩ := h.own (k.mem.mp hmem)
    exact ⟨k.known hknown, k.own.trans hown⟩
  once := by rw [k.closes]; exact h.once
  fresh := by rw [k.isOpen, k.closes]; exact h.fresh

/-- The descriptor of an open connection is closed, everywhere at once. -/
theorem Agreed.closed (h : s.Agreed fd) (hmem : fd ∈ s.server.fdSet)
    (conn : (t.server.conn fd).isClose = true) (epoll : t.server.epoll fd = none)
    (mem : fd ∉ t.server.fdSet) (calls : t.calls = .close fd :: s.calls) : t.Agreed fd := by
  have hfresh := h.fresh (h.isOpen.mpr hmem)
  refine ⟨by simp [conn, mem], by simp [epoll, mem], ?_, fun h => absurd h mem, ?_, ?_⟩
  · simp [calls, FdCall.isOpen, mem]
  · simp [calls, FdCall.closesSince, hfresh]
  · simp [calls, FdCall.isOpen]

theorem Agreed.accepted (conn : t.server.conn fd = (s.server.conn fd).init fd)
    (known : t.server.manager.known fd = true) (epoll : t.server.epoll fd = some true)
    (mem : fd ∈ t.server.fdSet) (calls : t.calls = .accept fd :: s.calls) : t.Agreed fd := by
  refine ⟨by simp [conn, mem, AppConn.init], by simp [epoll, mem], ?_, fun _ => ?_, ?_, ?_⟩
  · simp [calls, FdCall.isOpen, mem]
  · simp [known, conn, AppConn.init]
  · simp [calls, FdCall.closesSince]
  · simp [calls, FdCall.closesSince]

/-- A client that is refused: its descriptor is closed at once, and nothing is recorded. -/
theorem Agreed.refused (h : s.Agreed fd) (hnot : FdCall.isOpen fd s.calls = false)
    (server : t.server = s.server) (calls : t.calls = .close fd :: .accept fd :: s.calls) :
    t.Agreed fd := by
  have hmem : fd ∉ s.server.fdSet := by
    rw [← h.isOpen, hnot]
    exact Bool.false_ne_true
  refine ⟨by rw [server, h.isClose], by rw [server, h.epoll], ?_, by rw [server]; exact h.own,
    ?_, ?_⟩
  · simp [calls, server, FdCall.isOpen, hmem]
  · simp [calls, FdCall.closesSince]
  · simp [calls, FdCall.isOpen]

/-- Calls for another descriptor. -/
theorem isOpen_other (calls : List FdCall) (h : fd' ≠ fd) :
    FdCall.isOpen fd (.close fd' :: calls) = FdCall.isOpen fd calls ∧
      FdCall.isOpen fd (.accept fd' :: calls) = FdCall.isOpen fd calls := by
  simp [FdCall.isOpen, h]

theorem closesSince_other (calls : List FdCall) (h : fd' ≠ fd) :
    FdCall.closesSince fd (.close fd' :: calls) = FdCall.closesSince fd calls ∧
      FdCall.closesSince fd (.accept fd' :: calls) = FdCall.closesSince fd calls := by
  simp [FdCall.closesSince, h]

end Loop

/-! ## What is known of a descriptor stays known -/

namespace SocketServer

variable {cs : CharSign} {s t : SocketServer} {fd fd' : Int} {log : Log}

theorem known_set (m : AppManager) (c : AppConn) (h : m.known fd = true) :
    (m.set fd' c).known fd = true := by
  by_cases hfd : fd = fd'
  · rw [hfd]
    exact Function.update_self ..
  · exact (Function.update_of_ne hfd ..).trans h

theorem known_closeConn (h : s.closeConn fd' = .ok t) (hknown : s.manager.known fd = true) :
    t.manager.known fd = true := by
  obtain ⟨manager, hclose, rfl⟩ := closeConn_ok h
  rw [close_ok hclose]
  exact known_set s.manager (s.conn fd').close.2 hknown

theorem known_writeLoop {w : Int → WriteInput} {writeErrno : Nat} {fds : List Int}
    (h : s.writeLoop w writeErrno fds = .ok (t, log)) (hknown : s.manager.known fd = true) :
    t.manager.known fd = true := by
  induction fds generalizing s writeErrno log with
  | nil =>
    cases h
    exact hknown
  | cons fd' fds ih =>
    obtain ⟨log', hrest, -⟩ := writeLoop_cons_ok h
    exact ih hrest (known_set s.manager _ hknown)

theorem known_next {e : Event} (h : s.next cs e = .ok (t, log))
    (hknown : s.manager.known fd = true) : t.manager.known fd = true := by
  cases e with
  | accept fd' =>
    cases h
    have hinit : (s.manager.init fd').2.known fd = true := by
      rw [AppManager.init]
      split_ifs
      · exact hknown
      · exact known_set s.manager _ hknown
    rw [addClient]
    split_ifs <;> exact hinit
  | hangup fd' => exact known_closeConn (hangup_ok h).1 hknown
  | readable fd' i =>
    obtain ⟨-, hclose, -⟩ | ⟨-, p, -, rfl, -⟩ := dealRead_ok h
    · exact known_closeConn hclose (known_set s.manager _ hknown)
    · exact known_set s.manager _ hknown
  | batchEnd w => exact known_writeLoop h hknown

/-- The pass closes nothing. -/
theorem writeCloses_eq_nil (w : Int → WriteInput) (s : SocketServer) (writeErrno : Nat)
    (fds : List Int) : s.writeCloses w writeErrno fds = [] := by
  induction fds generalizing s writeErrno with
  | nil => rfl
  | cons fd fds ih =>
    have hret := AppConn.dealWrite_ret_nonneg (c := s.conn fd) true (w fd).arrays (w fd).errno
      writeErrno (w fd).calls
    simp only [writeCloses, if_neg fun hfail : _ ∧ _ => absurd hfail.1 (not_lt.mpr hret), ih]

end SocketServer

namespace AppConn

variable {c : AppConn}

theorem closeCalls_of_open (h : c.isClose = false) : c.closeCalls = [c.fd] := by
  simp [closeCalls, close, h]

@[simp] theorem isClose_close (c : AppConn) : c.close.2.isClose = true := by
  rw [close]
  split_ifs with h
  · rfl
  · simpa using h

end AppConn

/-! ## One event -/

namespace Loop

variable {cs : CharSign} {s t : Loop} {fd fd' : Int}

theorem serve_ok {e : SocketServer.Event} {accepted : List FdCall}
    (h : s.serve cs e accepted = .ok t) : (∃ log, s.server.next cs e = .ok (t.server, log)) ∧
      t.pending = s.pending ∧
      t.calls = (s.server.closes e).reverse.map .close ++ accepted ++ s.calls := by
  rw [serve] at h
  split at h
  · cases h
  · rename_i server log hnext
    cases h
    exact ⟨⟨log, hnext⟩, rfl, rfl⟩

/-- An event that the effect on this descriptor does not come from. -/
theorem kept_elsewhere {e : SocketServer.Event} {log : Log}
    (h : s.server.next cs e = .ok (t.server, log)) (conn : t.server.conn fd = s.server.conn fd)
    (epoll : t.server.epoll fd = s.server.epoll fd)
    (mem : fd ∈ t.server.fdSet ↔ fd ∈ s.server.fdSet)
    (isOpen : FdCall.isOpen fd t.calls = FdCall.isOpen fd s.calls)
    (closes : FdCall.closesSince fd t.calls = FdCall.closesSince fd s.calls) : Kept s t fd :=
  ⟨by rw [conn], by rw [conn], SocketServer.known_next h, by rw [epoll], mem, isOpen, closes⟩

theorem agreed_accept (h : ∀ fd, s.Agreed fd) (hnodup : s.server.fdSet.Nodup)
    (hnot : FdCall.isOpen fd' s.calls = false)
    (hserve : s.serve cs (.accept fd') [.accept fd'] = .ok t) (fd : Int) : t.Agreed fd := by
  obtain ⟨⟨log, hnext⟩, -, hcalls⟩ := serve_ok hserve
  have hserver : t.server = s.server.addClient fd' :=
    (congrArg Prod.fst (Except.ok.inj hnext)).symm
  by_cases hfd : fd' = fd
  · subst hfd
    by_cases hfull : maxFd ≤ s.server.manager.userCount
    · have hinit : s.server.manager.init fd' = (-1, s.server.manager) := if_pos hfull
      refine (h fd').refused hnot ?_ ?_
      · rw [hserver, SocketServer.addClient, hinit]
        rfl
      · rw [hcalls, SocketServer.closes, hinit]
        rfl
    · have hinit : s.server.manager.init fd' =
          (0, s.server.manager.set fd' ((s.server.conn fd').init fd')) := if_neg hfull
      rw [SocketServer.addClient, hinit] at hserver
      rw [SocketServer.closes, hinit] at hcalls
      refine Agreed.accepted (s := s) ?_ ?_ ?_ ?_ hcalls
      · rw [hserver]
        exact Function.update_self ..
      · rw [hserver]
        exact Function.update_self ..
      · rw [hserver]
        exact Function.update_self ..
      · rw [hserver]
        exact SocketServer.mem_insertFd.mpr (.inl rfl)
  · have heffect := SocketServer.effect_next hnodup fd hnext
    generalize actionsOf fd log = acts at heffect
    have hnew : t.calls = .accept fd' :: s.calls ∨
        t.calls = .close fd' :: .accept fd' :: s.calls := by
      rw [hcalls, SocketServer.closes]
      split_ifs
      · exact .inr rfl
      · exact .inl rfl
    cases heffect with
    | elsewhere _ conn epoll mem =>
      refine (h fd).kept (kept_elsewhere hnext conn epoll mem ?_ ?_)
      · obtain hnew | hnew := hnew <;> simp [hnew, isOpen_other _ hfd]
      · obtain hnew | hnew := hnew <;> simp [hnew, closesSince_other _ hfd]
    | accepted => exact absurd rfl hfd

/-- The descriptor of a hang-up or of a read that fails is closed. -/
theorem agreed_hangup (h : ∀ fd, s.Agreed fd) (hnodup : s.server.fdSet.Nodup)
    (hmem : fd' ∈ s.server.fdSet) (hserve : s.serve cs (.hangup fd') [] = .ok t) (fd : Int) :
    t.Agreed fd := by
  obtain ⟨⟨log, hnext⟩, -, hcalls⟩ := serve_ok hserve
  have hown := ((h fd').own hmem).2
  rw [SocketServer.closes, AppConn.closeCalls_of_open ((h fd').isClose.mpr hmem), hown] at hcalls
  have hnew : t.calls = .close fd' :: s.calls := hcalls
  have heffect := SocketServer.effect_next hnodup fd hnext
  generalize actionsOf fd log = acts at heffect
  cases heffect with
  | elsewhere given conn epoll mem =>
    by_cases hfd : fd' = fd
    · rw [SocketServer.givenTo, if_pos hfd] at given
      cases given
    · refine (h fd).kept (kept_elsewhere hnext conn epoll mem ?_ ?_)
      · rw [hnew, (isOpen_other _ hfd).1]
      · rw [hnew, (closesSince_other _ hfd).1]
  | hungup conn epoll mem =>
    exact (h _).closed hmem (by rw [conn, AppConn.isClose_close]) epoll mem hnew

theorem agreed_readable (h : ∀ fd, s.Agreed fd) (hnodup : s.server.fdSet.Nodup)
    (hmem : fd' ∈ s.server.fdSet) {i : ReadInput}
    (hserve : s.serve cs (.readable fd' i) [] = .ok t) (fd : Int) : t.Agreed fd := by
  obtain ⟨⟨log, hnext⟩, -, hcalls⟩ := serve_ok hserve
  obtain ⟨hflag, hfield⟩ := (s.server.conn fd').flags_read_ i.errno i.calls
  have hopen := (h fd').isClose.mpr hmem
  have hown := ((h fd').own hmem).2
  have hnew : (((s.server.conn fd').read_ i.errno i.calls).ret ≤ 0 ∧
      ((s.server.conn fd').read_ i.errno i.calls).saveErrno ≠ eagain →
        t.calls = .close fd' :: s.calls) ∧
      (¬ (((s.server.conn fd').read_ i.errno i.calls).ret ≤ 0 ∧
        ((s.server.conn fd').read_ i.errno i.calls).saveErrno ≠ eagain) → t.calls = s.calls) := by
    rw [hcalls, SocketServer.closes, AppConn.closeCalls_of_open (hflag.trans hopen), hfield, hown]
    constructor
    · intro hcloses
      rw [if_pos hcloses]
      rfl
    · intro hstays
      rw [if_neg hstays]
      rfl
  by_cases hfd : fd' = fd
  · subst hfd
    obtain ⟨hcloses, hclose, -⟩ | ⟨hstays, p, hp, hserver, -⟩ := SocketServer.dealRead_ok hnext
    · obtain ⟨conn, epoll, mem, -⟩ := SocketServer.closeConn_cases
        (s := (s.server.setEpoll fd' (some false)).setConn fd' _) hnodup hclose
      rw [SocketServer.conn_setConn] at conn
      exact (h fd').closed hmem (by rw [conn, AppConn.isClose_close]) epoll mem (hnew.1 hcloses)
    · obtain ⟨hflag', hfield'⟩ := AppConn.flags_process hp
      have conn : t.server.conn fd' = p.conn := by
        rw [hserver]
        exact SocketServer.conn_setConn _
      have epoll : t.server.epoll fd' = some true := by
        rw [hserver]
        exact Function.update_self ..
      refine (h fd').kept ⟨?_, ?_, SocketServer.known_next hnext, ?_,
        by rw [hserver]; exact Iff.rfl, by rw [hnew.2 hstays], by rw [hnew.2 hstays]⟩
      · rw [conn]
        exact hflag'.trans hflag
      · rw [conn]
        exact hfield'.trans hfield
      · exact iff_of_true (by simp [epoll]) ((h fd').epoll.mpr hmem)
  · have heffect := SocketServer.effect_next hnodup fd hnext
    generalize actionsOf fd log = acts at heffect
    have hsame : FdCall.isOpen fd t.calls = FdCall.isOpen fd s.calls ∧
        FdCall.closesSince fd t.calls = FdCall.closesSince fd s.calls := by
      by_cases hcloses : ((s.server.conn fd').read_ i.errno i.calls).ret ≤ 0 ∧
          ((s.server.conn fd').read_ i.errno i.calls).saveErrno ≠ eagain
      · rw [hnew.1 hcloses, (isOpen_other _ hfd).1, (closesSince_other _ hfd).1]
        exact ⟨rfl, rfl⟩
      · rw [hnew.2 hcloses]
        exact ⟨rfl, rfl⟩
    cases heffect with
    | elsewhere _ conn epoll mem =>
      exact (h fd).kept (kept_elsewhere hnext conn epoll mem hsame.1 hsame.2)
    | broken | read => exact absurd rfl hfd

theorem agreed_batchEnd (h : ∀ fd, s.Agreed fd) (hnodup : s.server.fdSet.Nodup)
    {w : Int → WriteInput} (hserve : s.serve cs (.batchEnd w) [] = .ok t) (fd : Int) :
    t.Agreed fd := by
  obtain ⟨⟨log, hnext⟩, -, hcalls⟩ := serve_ok hserve
  have hsame : t.calls = s.calls := by
    rw [hcalls, SocketServer.closes, SocketServer.writeCloses_eq_nil]
    rfl
  obtain ⟨hepoll, hset, hout, hin⟩ := SocketServer.writeLoop_cases fd hnext
  have hconn : (t.server.conn fd).isClose = (s.server.conn fd).isClose ∧
      (t.server.conn fd).fd = (s.server.conn fd).fd := by
    by_cases hfd : fd ∈ s.server.fdSet
    · obtain ⟨saveErrno, hconn, -⟩ := hin hnodup hfd
      rw [hconn]
      exact AppConn.flags_dealWrite ..
    · rw [(hout hfd).1]
      exact ⟨rfl, rfl⟩
  exact (h fd).kept ⟨hconn.1, hconn.2, SocketServer.known_next hnext, by rw [hepoll], by rw [hset],
    by rw [hsame], by rw [hsame]⟩

end Loop

/-! ## The assertion -/

theorem ok_ne_error {ε α : Type} {a : α} {e : ε} : (.ok a : Except ε α) ≠ .error e := by
  intro h
  cases h

theorem error_ne_error {ε α : Type} {e e' : ε} (h : e ≠ e') :
    (.error e : Except ε α) ≠ .error e' := fun heq => h (Except.error.inj heq)

theorem bind_ne_error {α β : Type} {x : Except Fault α} {g : α → Except Fault β} {e : Fault}
    (hx : x ≠ .error e) (hg : ∀ a, g a ≠ .error e) : x >>= g ≠ .error e := by
  cases x with
  | error e' =>
    intro h
    exact hx (congrArg Except.error (Except.error.inj h))
  | ok a => exact hg a

theorem para_ne_assertion (f : Frame) (i : Nat) : f.para i ≠ .error .assertion := by
  rw [Frame.para]
  split
  · exact ok_ne_error
  · exact error_ne_error (by decide)

theorem uncaught_ne_assertion {α : Type} (x : Except ParseError α) :
    uncaught x ≠ .error .assertion := by
  cases x with
  | error e =>
    cases e with
    | invalidArgument => exact error_ne_error (by decide)
    | outOfRange => exact error_ne_error (by decide)
  | ok a => exact ok_ne_error

namespace AppConn

variable (cs : CharSign) (env : Env) (tail : Int → UInt8) (channel : List UInt8) (c : AppConn)

/-- No handler fails an assertion. -/
theorem frameProcess_ne_assertion (f : Frame) :
    c.frameProcess cs env channel f ≠ .error .assertion := by
  rw [frameProcess]
  split_ifs
  · exact ok_ne_error
  · exact ok_ne_error
  · exact ok_ne_error
  · refine bind_ne_error (para_ne_assertion f 0) fun which => ?_
    refine bind_ne_error (uncaught_ne_assertion _) fun value => ?_
    dsimp only
    split_ifs
    · exact ok_ne_error
    · split
      · exact error_ne_error (by decide)
      · exact ok_ne_error
    · exact ok_ne_error
  · refine bind_ne_error (para_ne_assertion f 0) fun para => ?_
    exact bind_ne_error (uncaught_ne_assertion _) fun t => ok_ne_error
  · refine bind_ne_error (para_ne_assertion f 0) fun a => ?_
    exact bind_ne_error (uncaught_ne_assertion _) fun t => ok_ne_error
  · exact ok_ne_error

theorem process_ne_assertion : (c.process cs env tail channel).result ≠ .error .assertion := by
  have hdispatch : ∀ bytes reads frame discard,
      (c.dispatch cs env channel bytes reads frame discard).result ≠ .error .assertion := by
    intro bytes reads frame discard
    by_cases hok : frame.state = .ok
    · cases hf : (c.popRead discard).frameProcess cs env channel frame with
      | error e =>
        rw [dispatch_of_fault hok hf]
        intro h
        obtain rfl := Except.error.inj h
        exact frameProcess_ne_assertion cs env channel _ frame hf
      | ok d =>
        rw [dispatch_of_handled hok hf]
        split_ifs
        · exact error_ne_error (by decide)
        · exact ok_ne_error
    · rw [dispatch_of_ne hok]
      exact ok_ne_error
  rw [process]
  generalize (if int32 (c.readBuff.length : Int) < 256 then int32 (c.readBuff.length : Int)
    else 256) = len
  dsimp only
  split_ifs
  · exact ok_ne_error
  · exact fun h => hdispatch _ _ _ _ h

end AppConn

/-! ## Runs -/

namespace Loop

variable {cs : CharSign} {s t : Loop}

/-- What holds between two event handlings. What is left of a batch is registered. -/
structure Booked (s : Loop) : Prop where
  nodup : s.server.fdSet.Nodup
  agreed : ∀ fd, s.Agreed fd
  pendingNodup : s.pending.Nodup
  pending : ∀ fd ∈ s.pending, fd ∈ s.server.fdSet

theorem booked_start (junk : Int → (Nat → UInt8) × (Nat → UInt8)) : Booked (start junk) := by
  refine ⟨List.nodup_nil, fun fd => ?_, List.nodup_nil, fun fd h => absurd h List.not_mem_nil⟩
  refine ⟨?_, ?_, ?_, fun h => absurd h List.not_mem_nil, Nat.zero_le 1, fun _ => rfl⟩
  · simp [start, SocketServer.start, SocketServer.conn, AppConn.new]
  · simp [start, SocketServer.start]
  · simp [start, SocketServer.start, FdCall.isOpen]

/-- The rest of a batch behind the descriptor that is being handled. -/
theorem Booked.tail (h : s.Booked) {fd : Int} (hhead : s.pending.head? = some fd) :
    fd ∈ s.server.fdSet ∧ s.pending.tail.Nodup ∧
      ∀ fd' ∈ s.pending.tail, fd ≠ fd' ∧ fd' ∈ s.server.fdSet := by
  obtain ⟨rest, hpending⟩ := List.head?_eq_some_iff.mp hhead
  have hnodup := h.pendingNodup
  have hmem := h.pending
  rw [hpending] at hnodup hmem ⊢
  obtain ⟨hnot, hrest⟩ := List.nodup_cons.mp hnodup
  refine ⟨hmem fd List.mem_cons_self, hrest, fun fd' hfd' => ⟨?_, ?_⟩⟩
  · rintro rfl
    exact hnot hfd'
  · exact hmem fd' (List.mem_cons_of_mem fd hfd')

/-- The descriptors that an event for another one leaves in the set. -/
theorem mem_of_other {e : SocketServer.Event} {log : Log} {fd fd' : Int}
    (hnodup : s.server.fdSet.Nodup) (hnext : s.server.next cs e = .ok (t.server, log))
    (hgiven : e = .hangup fd' ∨ ∃ i, e = .readable fd' i) (hne : fd' ≠ fd)
    (hmem : fd ∈ s.server.fdSet) : fd ∈ t.server.fdSet := by
  have heffect := SocketServer.effect_next hnodup fd hnext
  generalize actionsOf fd log = acts at heffect
  cases heffect with
  | elsewhere _ _ _ mem => exact mem.mpr hmem
  | accepted | written => obtain h | ⟨i, h⟩ := hgiven <;> cases h
  | hungup | broken | read =>
    obtain h | ⟨i, h⟩ := hgiven
    all_goals cases h
    all_goals exact absurd rfl hne

/-- A disarmed descriptor is still registered. -/
theorem epoll_disarm_ne_none {s : SocketServer} {fd : Int} (fds : List Int) :
    (s.disarm fds).epoll fd ≠ none ↔ s.epoll fd ≠ none := by
  rw [SocketServer.epoll_disarm]
  split_ifs
  · exact not_congr Option.map_eq_none_iff
  · rfl

/-- What is left of a batch is not in the books. -/
theorem Booked.agreed_same (h : s.Booked) (pending : List Int) (inBatch : Bool) (fd : Int) :
    Agreed { s with pending, inBatch } fd :=
  (h.agreed fd).kept ⟨rfl, rfl, id, Iff.rfl, Iff.rfl, rfl, rfl⟩

/-- A reported descriptor has been handled, and the books agree again. -/
theorem Booked.reported (h : s.Booked) {e : SocketServer.Event} {fd' : Int}
    (hhead : s.pending.head? = some fd') (hgiven : e = .hangup fd' ∨ ∃ i, e = .readable fd' i)
    (hserve : { s with pending := s.pending.tail }.serve cs e [] = .ok t)
    (hagreed : ∀ fd, t.Agreed fd) : t.Booked := by
  obtain ⟨-, hrest, hothers⟩ := h.tail hhead
  obtain ⟨⟨log, hstep⟩, hsame, -⟩ := serve_ok hserve
  have hpending : t.pending = s.pending.tail := hsame
  refine ⟨SocketServer.nodup_next h.nodup hstep, hagreed, hpending ▸ hrest, fun fd hfd => ?_⟩
  obtain ⟨hne, hmem⟩ := hothers fd (hpending ▸ hfd)
  exact mem_of_other h.nodup hstep hgiven hne hmem

/-- One event keeps the books. -/
theorem Booked.step (h : s.Booked) {e : Event} (step : Step cs s e t) : t.Booked := by
  obtain ⟨enabled, hnext⟩ := step
  cases e with
  | wait reported =>
    cases hnext
    obtain ⟨-, hreported, hregistered⟩ := enabled
    refine ⟨h.nodup, fun fd => (h.agreed fd).kept ⟨rfl, rfl, id, ?_, Iff.rfl, rfl, rfl⟩, hreported,
      fun fd hfd => (h.agreed fd).epoll.mp (hregistered fd hfd)⟩
    exact epoll_disarm_ne_none reported
  | accept fd' =>
    obtain ⟨-, -, hnot⟩ := enabled
    have hserve : s.serve cs (.accept fd') [.accept fd'] = .ok t := hnext
    obtain ⟨⟨log, hstep⟩, hpending, -⟩ := serve_ok hserve
    have hserver : t.server = s.server.addClient fd' :=
      (congrArg Prod.fst (Except.ok.inj hstep)).symm
    refine ⟨SocketServer.nodup_next h.nodup hstep, agreed_accept h.agreed h.nodup hnot hserve,
      hpending ▸ h.pendingNodup, fun fd hfd => ?_⟩
    have hmem := h.pending fd (hpending ▸ hfd)
    rw [hserver, SocketServer.addClient]
    split_ifs
    · exact hmem
    · exact SocketServer.mem_insertFd.mpr (.inr hmem)
  | hangup fd' =>
    obtain ⟨hmem, -⟩ := h.tail enabled.2
    have hserve : { s with pending := s.pending.tail }.serve cs (.hangup fd') [] = .ok t := hnext
    refine h.reported enabled.2 (.inl rfl) hserve ?_
    exact agreed_hangup (h.agreed_same s.pending.tail s.inBatch) h.nodup hmem hserve
  | readable fd' i =>
    obtain ⟨hmem, -⟩ := h.tail enabled.2
    have hserve : { s with pending := s.pending.tail }.serve cs (.readable fd' i) [] = .ok t :=
      hnext
    refine h.reported enabled.2 (.inr ⟨i, rfl⟩) hserve ?_
    exact agreed_readable (h.agreed_same s.pending.tail s.inBatch) h.nodup hmem hserve
  | other fd' =>
    cases hnext
    obtain ⟨-, hrest, hothers⟩ := h.tail enabled.2
    exact ⟨h.nodup, h.agreed_same s.pending.tail s.inBatch, hrest, fun fd hfd => (hothers fd hfd).2⟩
  | batchEnd w =>
    obtain ⟨-, hempty⟩ := enabled
    have hserve : { s with inBatch := false }.serve cs (.batchEnd w) [] = .ok t := hnext
    obtain ⟨⟨log, hstep⟩, hpending, -⟩ := serve_ok hserve
    have hnone : t.pending = [] := hpending.trans hempty
    have hagreed := agreed_batchEnd (h.agreed_same s.pending false) h.nodup hserve
    refine ⟨SocketServer.nodup_next h.nodup hstep, hagreed, hnone ▸ List.nodup_nil, ?_⟩
    intro fd hfd
    rw [hnone] at hfd
    exact absurd hfd List.not_mem_nil

theorem Booked.consistent (h : s.Booked) : s.Consistent := by
  refine ⟨fun fd => ?_, fun fd => (h.agreed fd).epoll.symm, fun fd => (h.agreed fd).once⟩
  constructor
  · intro hmem
    exact ⟨((h.agreed fd).own hmem).1, (h.agreed fd).isClose.mpr hmem⟩
  · rintro ⟨-, hopen⟩
    exact (h.agreed fd).isClose.mp hopen

theorem closeConn_of_known {s : SocketServer} (fd : Int) (h : s.manager.known fd = true) :
    ∃ t, s.closeConn fd = .ok t := by
  have hknown : ¬ s.manager.known fd = false := by simp [h]
  rw [SocketServer.closeConn, AppManager.close, if_neg hknown]
  exact ⟨_, rfl⟩

/-- The descriptors that come up for closing are known to the manager. -/
theorem Booked.next_ne_assertion (h : s.Booked) {e : Event} (enabled : s.Enabled e) :
    s.next cs e ≠ .error .assertion := by
  have hserve : ∀ {e : SocketServer.Event} {accepted : List FdCall} {s' : Loop},
      s'.server = s.server → s.server.next cs e ≠ .error .assertion →
        s'.serve cs e accepted ≠ .error .assertion := by
    intro e accepted s' hserver hne
    rw [serve, hserver]
    split
    · rename_i f hf
      intro hassert
      exact hne (hf.trans (congrArg Except.error (Except.error.inj hassert)))
    · exact ok_ne_error
  cases e with
  | wait reported => exact ok_ne_error
  | accept fd => exact ok_ne_error
  | hangup fd =>
    refine hserve rfl ?_
    obtain ⟨hmem, -⟩ := h.tail enabled.2
    obtain ⟨t, ht⟩ := closeConn_of_known (s := s.server.setEpoll fd (some false)) fd
      ((h.agreed fd).own hmem).1
    rw [SocketServer.next, ht]
    exact ok_ne_error
  | readable fd i =>
    refine hserve rfl ?_
    rw [SocketServer.next, SocketServer.dealRead]
    dsimp only
    split_ifs
    · obtain ⟨t, ht⟩ := closeConn_of_known (s := (s.server.setEpoll fd (some false)).setConn fd
        (((s.server.setEpoll fd (some false)).conn fd).read_ i.errno i.calls).conn) fd
        (Function.update_self ..)
      rw [ht]
      exact ok_ne_error
    · split
      · rename_i e he
        intro hassert
        refine AppConn.process_ne_assertion _ _ _ _ _ (he.trans ?_)
        exact congrArg Except.error (Except.error.inj hassert)
      · exact ok_ne_error
  | other fd => exact ok_ne_error
  | batchEnd w =>
    refine hserve rfl ?_
    obtain ⟨t, log, ht⟩ := SocketServer.writeLoop_total w s.server 0 s.server.fdSet
    rw [SocketServer.next, SocketServer.dealWrite, ht]
    exact ok_ne_error

/-- In every state of every run of the event loop whose handlers do not throw, the books are
consistent, and nothing that can happen next fails the assertion in `Close`. -/
theorem consistent_of_run (junk : Int → (Nat → UInt8) × (Nat → UInt8)) (events : List Event)
    (s : Loop) (run : Run (Step cs) (start junk) events s) :
    s.Consistent ∧ ∀ e, s.Enabled e → s.next cs e ≠ .error .assertion := by
  have booked : s.Booked := run.invariant (fun _ _ _ h step => h.step step) (booked_start junk)
  exact ⟨booked.consistent, fun e enabled => booked.next_ne_assertion enabled⟩

/-- The loop after an event, if no handler throws. -/
def handled (s : Loop) (e : Event) : Loop := (s.next .signed e).toOption.getD s

theorem step_handled {e : Event} (enabled : s.Enabled e)
    (h : (s.next .signed e).toOption.isSome = true) : Step .signed s e (s.handled e) := by
  refine ⟨enabled, ?_⟩
  rw [handled]
  cases hnext : s.next .signed e with
  | error f =>
    rw [hnext] at h
    cases h
  | ok t => rfl

/-- A client comes and hangs up, and the next one gets its descriptor within the same batch. -/
def reuse : List Event :=
  [.wait [], .accept 5, .batchEnd SocketServer.takesAll, .wait [5], .hangup 5, .accept 5]

theorem consistent_of_run_reuse : (reuse.foldl handled (start SocketServer.zeros)).Consistent ∧
    ∀ e, (reuse.foldl handled (start SocketServer.zeros)).Enabled e →
      (reuse.foldl handled (start SocketServer.zeros)).next .signed e ≠ .error .assertion := by
  refine consistent_of_run SocketServer.zeros reuse _ ?_
  refine .cons (step_handled ⟨rfl, by decide, by decide⟩ (by decide)) ?_
  refine .cons (step_handled ⟨rfl, by decide, rfl⟩ (by decide)) ?_
  refine .cons (step_handled ⟨rfl, rfl⟩ (by decide +kernel)) ?_
  refine .cons (step_handled ⟨rfl, by decide, by decide +kernel⟩ (by decide)) ?_
  refine .cons (step_handled ⟨rfl, rfl⟩ (by decide +kernel)) ?_
  exact .cons (step_handled ⟨rfl, by decide, by decide +kernel⟩ (by decide +kernel)) (.nil _)

end Loop

end SocketMaster
