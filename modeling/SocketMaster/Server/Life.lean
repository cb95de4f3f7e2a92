import SocketMaster.Library.Ownership
import SocketMaster.Server.Events

/-!
# The descriptors of a server, from its constructor to its destructor

The constructor opens the epoll descriptor and the listening socket, the loop accepts and closes
clients, and the destructor, which the signal handler calls, closes the listening socket, the
clients that are left, and the epoll descriptor. The handler is taken to run between two events;
the signal can also come in the middle of one, which is left out here. Where `InitSocket_` fails
it has closed the socket, or has none, and the destructor closes `listenFd_` all the same.
-/
namespace SocketMaster

open Library

/-- What the system calls of `InitSocket_` return. -/
structure SocketInput where
  socket : Int
  linger : Int
  reuse : Int
  bind : Int
  listen : Int
  control : Int

/-- The descriptors of the server that the constructor has made, and the calls made for them, the
latest of which stands first. One that is opened stands as accepted. -/
structure Endpoint where
  isClose : Bool
  listenFd : Int
  epollFd : Int
  calls : List FdCall

/-- `AddFd`; `control` is what `epoll_ctl` returns. -/
def addFd (fd control : Int) : Bool := if fd < 0 then false else control = 0

/-- `InitSocket_`: what it returns, `listenFd_`, and the calls. It leaves `listenFd_` as it is if
the port is out of range. `SetFdNonblock` asserts that the descriptor is positive. -/
def initSocket (port listenFd : Int) (i : SocketInput) : Except Fault (Bool × Int × List FdCall) :=
  if port > 65535 ∨ port < 1024 then .ok (false, listenFd, [])
  else if i.socket < 0 then .ok (false, i.socket, [])
  else if i.linger < 0 then .ok (false, i.socket, [.close i.socket, .accept i.socket])
  else if i.reuse = -1 then .ok (false, i.socket, [.close i.socket, .accept i.socket])
  else if i.bind < 0 then .ok (false, i.socket, [.close i.socket, .accept i.socket])
  else if i.listen < 0 then .ok (false, i.socket, [.close i.socket, .accept i.socket])
  else if addFd i.socket i.control = false then
    .ok (false, i.socket, [.close i.socket, .accept i.socket])
  else if ¬ i.socket > 0 then .error .assertion
  else .ok (true, i.socket, [.accept i.socket])

/-- The constructor. `epollFd` is what `epoll_create` returns, and `listenFd` what happens to be
in the field. -/
def construct (epollFd port listenFd : Int) (i : SocketInput) : Except Fault Endpoint :=
  if ¬ epollFd ≥ 0 then .error .assertion
  else
    match initSocket port listenFd i with
    | .error f => .error f
    | .ok (ok, listenFd, calls) => .ok ⟨!ok, listenFd, epollFd, calls ++ [.accept epollFd]⟩

/-- The `close` calls of the destructor, and of those of its members. `users` are the keys of
`users_` in the order in which the map gives them up. -/
def destruct (x : Endpoint) (users : List Int) (s : SocketServer) : List Int :=
  x.listenFd :: (users.flatMap fun fd => (s.conn fd).closeCalls) ++ [x.epollFd]

/-- All the calls of a server that is destroyed in this state of its loop. -/
def Endpoint.allCalls (x : Endpoint) (users : List Int) (s : Loop) : List FdCall :=
  ((destruct x users s.server).map .close).reverse ++ (s.calls ++ x.calls)

/-! ## The calls as a record -/

def FdCall.use : FdCall → Use Int
  | .accept fd => .take fd
  | .close fd => .release fd

def uses (calls : List FdCall) : List (Use Int) := calls.map FdCall.use

/-- Every `close` is of a descriptor that is open, and none is left open. -/
def Clean (calls : List FdCall) : Prop := Use.Clean (uses calls)

theorem uses_append (calls calls' : List FdCall) :
    uses (calls ++ calls') = uses calls ++ uses calls' := List.map_append

theorem uses_closes (fds : List Int) :
    uses ((fds.map FdCall.close).reverse) = Use.releases fds := by
  rw [uses, Use.releases, List.map_reverse, List.map_map]
  rfl

theorem mem_held_iff {fd : Int} {calls : List FdCall} :
    fd ∈ Use.held (uses calls) ↔ FdCall.isOpen fd calls = true := by
  induction calls with
  | nil => simp [uses, Use.held, FdCall.isOpen]
  | cons call calls ih =>
    cases call with
    | accept a =>
      change fd = a ∨ fd ∈ Use.held (uses calls) ↔ _
      rw [ih, FdCall.isOpen, Bool.or_eq_true, beq_iff_eq, eq_comm]
    | close a =>
      change fd ∈ Use.held (uses calls) ∧ fd ≠ a ↔ _
      rw [ih, FdCall.isOpen, Bool.and_eq_true, bne_iff_ne, and_comm, ne_comm]

/-- One of the `close` calls is for a descriptor that is not open. -/
def ClosesUnopened (calls : List FdCall) : Prop :=
  ∃ later fd earlier, calls = later ++ .close fd :: earlier ∧ FdCall.isOpen fd earlier = false

theorem ClosesUnopened.not_clean {calls : List FdCall} (h : ClosesUnopened calls) :
    ¬ Clean calls := by
  obtain ⟨later, fd, earlier, rfl, hclosed⟩ := h
  intro hclean
  have hproper := hclean.proper
  rw [uses_append] at hproper
  have hheld : fd ∈ Use.held (uses earlier) := hproper.of_append.1
  rw [mem_held_iff, hclosed] at hheld
  cases hheld

/-! ## The loop between the constructor and the destructor -/

namespace Loop

variable {cs : CharSign} {s t : Loop} {e : Event} {x : Endpoint}

/-- The calls of one event: none, those for a client that comes, and the `close` for one that
goes. -/
theorem calls_step (booked : s.Booked) (step : Step cs s e t) :
    t.calls = s.calls ∨
      (∃ fd, e = .accept fd ∧ FdCall.isOpen fd s.calls = false ∧
        (t.calls = .accept fd :: s.calls ∨ t.calls = .close fd :: .accept fd :: s.calls)) ∨
      ∃ fd ∈ s.server.fdSet, t.calls = .close fd :: s.calls := by
  obtain ⟨enabled, hnext⟩ := step
  cases e with
  | wait | other =>
    cases hnext
    exact .inl rfl
  | accept fd =>
    rw [next] at hnext
    obtain ⟨-, -, hcalls⟩ := serve_ok hnext
    refine .inr (.inl ⟨fd, rfl, enabled.2.2, ?_⟩)
    rw [hcalls, SocketServer.closes]
    split_ifs
    · exact .inr rfl
    · exact .inl rfl
  | hangup fd =>
    obtain ⟨-, -, hcalls⟩ := serve_ok hnext
    obtain ⟨hmem, -⟩ := booked.tail enabled.2
    have hopen := (booked.agreed fd).isClose.mpr hmem
    refine .inr (.inr ⟨fd, hmem, ?_⟩)
    rw [hcalls]
    dsimp only
    rw [SocketServer.closes, AppConn.closeCalls_of_open hopen, ((booked.agreed fd).own hmem).2]
    rfl
  | readable fd i =>
    obtain ⟨-, -, hcalls⟩ := serve_ok hnext
    obtain ⟨hmem, -⟩ := booked.tail enabled.2
    obtain ⟨hclose, hown⟩ := (s.server.conn fd).flags_read_ i.errno i.calls
    rw [(booked.agreed fd).isClose.mpr hmem] at hclose
    rw [((booked.agreed fd).own hmem).2] at hown
    rw [hcalls]
    dsimp only
    rw [SocketServer.closes]
    split_ifs
    · rw [AppConn.closeCalls_of_open hclose, hown]
      exact .inr (.inr ⟨fd, hmem, rfl⟩)
    · exact .inl rfl
  | batchEnd w =>
    obtain ⟨-, -, hcalls⟩ := serve_ok hnext
    rw [hcalls]
    dsimp only
    rw [SocketServer.closes, SocketServer.writeCloses_eq_nil]
    exact .inl rfl

/-- What the loop does with its clients, over what the constructor has opened. -/
theorem over_step (booked : s.Booked) (h : Use.Over (uses x.calls) (uses s.calls))
    (apart : ∀ fd, e = .accept fd → FdCall.isOpen fd x.calls = false) (step : Step cs s e t) :
    Use.Over (uses x.calls) (uses t.calls) := by
  have hnot : ∀ {fd : Int} {calls : List FdCall}, FdCall.isOpen fd calls = false →
      fd ∉ Use.held (uses calls) := by
    intro fd calls hclosed hheld
    rw [mem_held_iff, hclosed] at hheld
    cases hheld
  obtain hcalls | ⟨fd, he, hclosed, hcalls⟩ | ⟨fd, hmem, hcalls⟩ := calls_step booked step
  · rw [hcalls]
    exact h
  · have htaken := h.take (hnot hclosed) (hnot (apart fd he))
    obtain hcalls | hcalls := hcalls <;> rw [hcalls]
    · exact htaken
    · exact htaken.release (Set.mem_insert fd _)
  · rw [hcalls]
    exact h.release (mem_held_iff.mpr ((booked.agreed fd).isOpen.mpr hmem))

theorem over_run {events : List Event} (run : Run (Step cs) s events t) (booked : s.Booked)
    (h : Use.Over (uses x.calls) (uses s.calls))
    (apart : ∀ fd, .accept fd ∈ events → FdCall.isOpen fd x.calls = false) :
    Use.Over (uses x.calls) (uses t.calls) ∧ t.Booked := by
  induction run with
  | nil => exact ⟨h, booked⟩
  | cons step _ ih =>
    refine ih (booked.step step) (over_step booked h (fun fd he => ?_) step) fun fd hfd => ?_
    · exact apart fd (he ▸ List.mem_cons_self)
    · exact apart fd (List.mem_cons_of_mem _ hfd)

/-- The clients that are left when the map is destroyed. -/
theorem closeCalls_users (booked : s.Booked) (users : List Int) :
    (users.flatMap fun fd => (s.server.conn fd).closeCalls) =
      users.filter (· ∈ s.server.fdSet) := by
  have hone : ∀ fd, (s.server.conn fd).closeCalls = if fd ∈ s.server.fdSet then [fd] else [] := by
    intro fd
    split_ifs with hmem
    · rw [AppConn.closeCalls_of_open ((booked.agreed fd).isClose.mpr hmem),
        ((booked.agreed fd).own hmem).2]
    · have hclosed : (s.server.conn fd).isClose ≠ false :=
        fun hopen => hmem ((booked.agreed fd).isClose.mp hopen)
      rw [AppConn.closeCalls, AppConn.close, if_neg hclosed]
      rfl
  induction users with
  | nil => rfl
  | cons fd users ih =>
    rw [List.flatMap_cons, ih, hone, List.filter_cons]
    split_ifs with hmem <;> simp_all

end Loop

/-! ## The whole life -/

/-- A server made by the constructor has come to this state of its loop. `Start` does nothing if
the constructor has failed, the kernel gives no descriptor that is open to a client, and `users`
are the keys of `users_`. -/
structure Lived (cs : CharSign) (junk : Int → (Nat → UInt8) × (Nat → UInt8)) (x : Endpoint)
    (events : List Loop.Event) (s : Loop) (users : List Int) : Prop where
  run : Run (Loop.Step cs) (Loop.start junk) events s
  idle : x.isClose = true → events = []
  apart : ∀ fd, .accept fd ∈ events → FdCall.isOpen fd x.calls = false
  nodup : users.Nodup
  keys : ∀ fd, fd ∈ users ↔ s.server.manager.known fd = true

/-- `InitSocket_` leaves the socket open, or has closed it if there is one. -/
theorem initSocket_ok {port listenFd fd : Int} {i : SocketInput} {ok : Bool} {calls : List FdCall}
    (h : initSocket port listenFd i = .ok (ok, fd, calls)) :
    ok = true ∧ fd = i.socket ∧ calls = [.accept i.socket] ∨
      ok = false ∧ (calls = [] ∨ calls = [.close i.socket, .accept i.socket]) := by
  rw [initSocket] at h
  split_ifs at h <;> cases h <;> simp

/-- What the constructor leaves open. -/
theorem held_construct {epollFd port listenFd : Int} {i : SocketInput} {x : Endpoint}
    (h : construct epollFd port listenFd i = .ok x) (fresh : i.socket ≠ epollFd) :
    Use.Proper (uses x.calls) ∧
      (x.isClose = true ∧ Use.held (uses x.calls) = {x.epollFd} ∨
        x.isClose = false ∧ x.listenFd ≠ x.epollFd ∧
          Use.held (uses x.calls) = {x.listenFd, x.epollFd}) := by
  rw [construct] at h
  split_ifs at h
  split at h
  · cases h
  rename_i ok fd calls hinit
  cases h
  have hepoll : Use.held (uses [.accept epollFd]) = {epollFd} := insert_empty_eq epollFd
  have hnot : i.socket ∉ Use.held (uses [.accept epollFd]) := by
    rw [hepoll]
    exact fresh
  have hproper : Use.Proper (uses [.accept epollFd]) := ⟨Set.notMem_empty epollFd, trivial⟩
  obtain ⟨rfl, rfl, rfl⟩ | ⟨rfl, rfl | rfl⟩ := initSocket_ok hinit
  · exact ⟨⟨hnot, hproper⟩, .inr ⟨rfl, fresh, congrArg (insert i.socket) hepoll⟩⟩
  · exact ⟨hproper, .inl ⟨rfl, hepoll⟩⟩
  · refine ⟨⟨Set.mem_insert i.socket _, hnot, hproper⟩, .inl ⟨rfl, ?_⟩⟩
    change insert i.socket (Use.held (uses [.accept epollFd])) \ {i.socket} = {epollFd}
    rw [Set.insert_sdiff_self_of_notMem hnot, hepoll]

section

variable {cs : CharSign} {junk : Int → (Nat → UInt8) × (Nat → UInt8)} {x : Endpoint}
  {events : List Loop.Event} {s : Loop} {users : List Int}

/-- The constructor has failed: `Start` does nothing, and the destructor closes two descriptors of
which one at most is open. -/
theorem Lived.closesUnopened (lived : Lived cs junk x events s users) (hfailed : x.isClose = true)
    (hheld : Use.held (uses x.calls) = {x.epollFd}) : ClosesUnopened (x.allCalls users s) := by
  have hrun := lived.run
  rw [lived.idle hfailed] at hrun
  cases hrun
  have hclients := Loop.closeCalls_users (Loop.booked_start junk) users
  have hnone : users.filter (· ∈ (Loop.start junk).server.fdSet) = [] :=
    List.filter_eq_nil_iff.mpr fun fd _ => by simp [Loop.start, SocketServer.start]
  have hcalls : x.allCalls users (Loop.start junk) =
      [.close x.epollFd] ++ .close x.listenFd :: x.calls := by
    rw [Endpoint.allCalls, destruct, hclients, hnone]
    rfl
  by_cases hsame : x.listenFd = x.epollFd
  · -- what happens to be in `listenFd_` is the epoll descriptor, which is then closed twice
    refine ⟨[], x.epollFd, .close x.listenFd :: x.calls, hcalls, ?_⟩
    simp [FdCall.isOpen, hsame]
  · refine ⟨[.close x.epollFd], x.listenFd, x.calls, hcalls, ?_⟩
    rw [Bool.eq_false_iff, ne_eq, ← mem_held_iff, hheld]
    exact hsame

/-- The constructor has succeeded: the destructor closes what the loop has left, and what was there
before it. -/
theorem Lived.clean (lived : Lived cs junk x events s users) (hproper : Use.Proper (uses x.calls))
    (hne : x.listenFd ≠ x.epollFd)
    (hheld : Use.held (uses x.calls) = {x.listenFd, x.epollFd}) : Clean (x.allCalls users s) := by
  obtain ⟨hover, booked⟩ := Loop.over_run (x := x) lived.run (Loop.booked_start junk)
    (.nil hproper) lived.apart
  have hclients := Loop.closeCalls_users booked users
  have huses : uses (x.allCalls users s) =
      Use.releases (x.listenFd :: users.filter (· ∈ s.server.fdSet) ++ [x.epollFd]) ++
        (uses s.calls ++ uses x.calls) := by
    rw [Endpoint.allCalls, uses_append, uses_closes, uses_append, destruct, hclients]
  rw [Clean, huses]
  have hleft : ∀ fd, fd ∈ Use.held (uses s.calls) ↔ fd ∈ s.server.fdSet :=
    fun fd => mem_held_iff.trans (booked.agreed fd).isOpen
  have hall : Use.held (uses s.calls ++ uses x.calls) =
      Use.held (uses s.calls) ∪ {x.listenFd, x.epollFd} := by
    rw [hover.both, hheld]
  have hapart : x.listenFd ∉ s.server.fdSet ∧ x.epollFd ∉ s.server.fdSet := by
    rw [← hleft, ← hleft]
    exact ⟨fun h => hover.apart _ h (by rw [hheld]; exact Set.mem_insert ..),
      fun h => hover.apart _ h (by rw [hheld]; exact Set.mem_insert_of_mem _ rfl)⟩
  have hmem : ∀ fd, fd ∈ x.listenFd :: users.filter (· ∈ s.server.fdSet) ++ [x.epollFd] ↔
      fd ∈ Use.held (uses s.calls ++ uses x.calls) := by
    intro fd
    have hkey : fd ∈ s.server.fdSet → fd ∈ users :=
      fun h => (lived.keys fd).mpr ((booked.agreed fd).own h).1
    rw [hall]
    simp [hleft]
    tauto
  have hnodup : (x.listenFd :: users.filter (· ∈ s.server.fdSet) ++ [x.epollFd]).Nodup := by
    have hfilter := lived.nodup.filter fun fd => decide (fd ∈ s.server.fdSet)
    obtain ⟨hlisten, hepoll⟩ := hapart
    clear * - hfilter hlisten hepoll hne
    grind
  obtain ⟨hfine, hempty⟩ := hover.proper.releases hnodup fun fd => (hmem fd).mp
  refine ⟨hfine, hempty.trans ?_⟩
  exact Set.sdiff_eq_empty.mpr fun fd => (hmem fd).mpr

end

/-- From the constructor to the destructor, between whichever two events the signal stops the
loop, every `close` is of a descriptor that is open and all are closed in the end, if and only if
`InitSocket_` succeeds; and where it fails, a descriptor is closed that is not open. -/
theorem clean_iff_of_lived (cs : CharSign) (junk : Int → (Nat → UInt8) × (Nat → UInt8))
    (epollFd port listenFd : Int) (i : SocketInput) (x : Endpoint)
    (made : construct epollFd port listenFd i = .ok x) (fresh : i.socket ≠ epollFd)
    (events : List Loop.Event) (s : Loop) (users : List Int)
    (lived : Lived cs junk x events s users) :
    (Clean (x.allCalls users s) ↔ x.isClose = false) ∧
      (ClosesUnopened (x.allCalls users s) ↔ x.isClose = true) := by
  obtain ⟨hproper, ⟨hfailed, hheld⟩ | ⟨hopen, hne, hheld⟩⟩ := held_construct made fresh
  · have hunopened := lived.closesUnopened hfailed hheld
    exact ⟨iff_of_false hunopened.not_clean (by simp [hfailed]), iff_of_true hunopened hfailed⟩
  · have hclean := lived.clean hproper hne hheld
    refine ⟨iff_of_true hclean hopen, iff_of_false ?_ (by simp [hopen])⟩
    exact fun hunopened => hunopened.not_clean hclean

/-- The signal comes when a client has just been accepted. -/
def listening : Endpoint := ⟨false, 3, 4, [.accept 3, .accept 4]⟩

def interrupted : Loop := [.wait [], .accept 5].foldl Loop.handled (.start SocketServer.zeros)

theorem clean_iff_of_lived_interrupted :
    (Clean (listening.allCalls [5] interrupted) ↔ listening.isClose = false) ∧
      (ClosesUnopened (listening.allCalls [5] interrupted) ↔ listening.isClose = true) := by
  have hrun : Run (Loop.Step .signed) (Loop.start SocketServer.zeros) [.wait [], .accept 5]
      interrupted := by
    refine .cons (Loop.step_handled ⟨rfl, by decide, by decide⟩ (by decide)) ?_
    exact .cons (Loop.step_handled ⟨rfl, by decide, rfl⟩ (by decide)) (.nil _)
  have hknown : ∀ fd, interrupted.server.manager.known fd =
      Function.update (fun _ => false) 5 true fd := fun _ => rfl
  refine clean_iff_of_lived .signed SocketServer.zeros 4 9090 0 ⟨3, 0, 0, 0, 0, 0⟩ listening rfl
    (by decide) [.wait [], .accept 5] interrupted [5]
    ⟨hrun, fun h => absurd h (by decide), fun fd hfd => ?_, by decide, fun fd => ?_⟩
  · obtain rfl : fd = 5 := by simpa using hfd
    rfl
  · rw [hknown, Function.update_apply]
    simp

end SocketMaster
