import SocketMaster.Server.Clients

/-!
# Sessions that do not see one another

An isolated client would get what `Contents.run` says, a function of what it gives to the server
alone. The server does that for every client whose connection object was left with empty rings
and whose own events are clear, whatever the others do in between.
-/
namespace SocketMaster

open Library

/-- What the server does for an isolated client that gives it this. -/
def Contents.run (cs : CharSign) (k : Contents) : List Given → List Action
  | [] => []
  | .hangup :: _ => []
  | .read block env :: given =>
    let r := Contents.process cs env { k with unread := gather k.unread block.toList }
    r.2.1.toList.map .dispatched ++ .queued r.2.2 :: run cs r.1 given
  | .write lengths :: given =>
    .sent (lengths.flatMap (k.pending.take ·)) :: run cs { k with pending := [] } given

/-- The bytes received that `process` has not passed over. -/
def AppConn.unread (c : AppConn) : List UInt8 :=
  if CBuffer.Stale c.readBuff then [] else c.readBuff.content

/-- A read event on which nothing but the received bytes and the operating system matters: the
left-over `errno` hides no end of file and, unless the connection is then closed, it does not let
the event take a second block, a stale ring gets a block that mends it, the scan stays inside the
received bytes, and a channel script does not leave the channel buffer as it was. -/
structure ReadClear (cs : CharSign) (c : AppConn) (i : ReadInput) : Prop where
  errno : i.calls = .eof → i.errno ≠ eagain
  single : (i.calls.chunks i.errno).length ≤ 1
  stale : ¬ Broken (i.calls.chunks i.errno) (i.calls.ending i.errno) →
    CBuffer.Stale c.readBuff → Starts (i.calls.chunks i.errno)
  contained : ¬ Broken (i.calls.chunks i.errno) (i.calls.ending i.errno) →
    ScanContained cs (bare (gather c.unread (i.calls.chunks i.errno)))
      (gather c.unread (i.calls.chunks i.errno)).length
  script : ¬ Broken (i.calls.chunks i.errno) (i.calls.ending i.errno) → i.env.popen ≠ some []

namespace SocketServer

variable {cs : CharSign} {s t : SocketServer} {fd : Int} {given : List Given} {acts : List Action}

/-- The events that leave the client `fd` isolated. They are restricted where they are about
it, and nowhere else. -/
def Clear (cs : CharSign) (fd : Int) (s : SocketServer) : Event → Prop
  | .accept fd' =>
    fd' = fd → (s.conn fd).readBuff.isEmpty = true ∧ (s.conn fd).writeBuff.isEmpty = true
  | .hangup _ => True
  | .readable fd' i => fd' = fd → ReadClear cs (s.conn fd) i
  | .batchEnd _ => fd ∈ s.fdSet → (s.conn fd).toWriteBytes ≠ 0 →
    (s.conn fd).writeBuff.mIdxw ≠ (s.conn fd).writeBuff.mSize

/-- What the client that has `fd` gives to the server and gets from it in a run whose events meet
`ok`. The descriptor is not given to another client before the run ends. -/
inductive Served (cs : CharSign) (fd : Int) (ok : SocketServer → Event → Prop) :
    SocketServer → List Given → List Action → Prop where
  | done (s : SocketServer) : Served cs fd ok s [] []
  | step {s t : SocketServer} {e : Event} {log : Log} {given : List Given} {acts : List Action}
      (enabled : s.Enabled e) (other : e ≠ .accept fd) (clear : ok s e)
      (next : s.next cs e = .ok (t, log)) (rest : Served cs fd ok t given acts) :
      Served cs fd ok s (s.givenTo fd e ++ given) (actionsOf fd log ++ acts)

/-- A connection that is closed gives nothing and gets nothing. -/
theorem Served.closed {ok : SocketServer → Event → Prop} (h : Served cs fd ok s given acts)
    (hnodup : s.fdSet.Nodup) (hepoll : s.epoll fd = none) (hmem : fd ∉ s.fdSet) :
    given = [] ∧ acts = [] := by
  induction h with
  | done => exact ⟨rfl, rfl⟩
  | @step s t e log given acts enabled other clear next rest ih =>
    have hnot : ∀ state, s.epoll fd ≠ some state := by simp [hepoll]
    have heffect := effect_next hnodup fd next
    generalize actionsOf fd log = head at heffect
    cases heffect with
    | elsewhere nothing conn epoll mem =>
      rw [nothing]
      exact ih (nodup_next hnodup next) (epoll.trans hepoll) fun h => hmem (mem.mp h)
    | accepted => exact absurd rfl other
    | hungup | broken | read => exact absurd enabled (hnot true)
    | written w saveErrno member => exact absurd member hmem

/-- The connection after a clear `read_` that does not close it. -/
theorem holds_read_ {c : AppConn} {k : Contents} {i : ReadInput} (hc : c.Holding k)
    (hclear : ReadClear cs c i)
    (hstays : ¬ Broken (i.calls.chunks i.errno) (i.calls.ending i.errno)) :
    CBuffer.Holds (c.read_ i.errno i.calls).conn.readBuff
        (gather k.unread (i.calls.chunks i.errno)) ∧
      c.unread = k.unread := by
  rw [AppConn.read_, AppConn.readLoop_conn]
  refine ⟨AppConn.holds_appendReads_of_carries hc.read (hclear.stale hstays), ?_⟩
  rw [AppConn.unread]
  obtain hread | ⟨hstale, hnil⟩ := hc.read
  · rw [if_neg fun hstale => hstale.not_holds _ hread]
    exact hread.content
  · rw [if_pos hstale, hnil]

/-- A client whose events are clear gets what an isolated one would get. -/
theorem Served.acts_eq {k : Contents} (h : Served cs fd (Clear cs fd) s given acts)
    (hs : WellFormed s) (hk : (s.conn fd).Holding k) : acts = Contents.run cs k given := by
  induction h generalizing k with
  | done => rfl
  | @step s t e log given acts enabled other clear next rest ih =>
    have ht := hs.next next
    have heffect := effect_next hs.nodup fd next
    generalize actionsOf fd log = head at heffect
    cases heffect with
    | elsewhere nothing conn =>
      rw [nothing]
      exact ih ht (conn ▸ hk)
    | accepted => exact absurd rfl other
    | hungup conn epoll mem =>
      obtain ⟨rfl, rfl⟩ := rest.closed ht.nodup epoll mem
      rw [givenTo, if_pos rfl]
      rfl
    | broken i closes conn epoll mem =>
      obtain ⟨rfl, rfl⟩ := rest.closed ht.nodup epoll mem
      have hbroken := (AppConn.closes_iff (clear rfl).errno).mp closes
      rw [givenTo, if_pos rfl, ReadInput.given_of_broken hbroken]
      rfl
    | @read i p stays result conn =>
      have hclear := clear rfl
      have hstays := mt (AppConn.closes_iff hclear.errno).mpr stays
      obtain ⟨hread, hunread⟩ := holds_read_ hk hclear hstays
      have hcont := hclear.contained hstays
      rw [hunread] at hcont
      have hwrite : CBuffer.Holds ((s.conn fd).read_ i.errno i.calls).conn.writeBuff k.pending := by
        rw [AppConn.read_, AppConn.readLoop_conn, AppConn.appendReads_writeBuff]
        exact hk.write
      obtain ⟨hdispatched, haccepted, hafter⟩ := AppConn.process_holding
        (k := { k with unread := gather k.unread (i.calls.chunks i.errno) }) hread hwrite hcont
        (hclear.script hstays) result
      obtain ⟨block, hgiven, hblock⟩ := ReadInput.given_of_single hstays hclear.single
      rw [hblock] at hdispatched haccepted hafter
      rw [givenTo, if_pos rfl, hgiven, hdispatched, haccepted, ih ht (conn ▸ hafter),
        List.append_assoc]
      rfl
    | written w saveErrno member pending conn =>
      have hne : k.pending ≠ [] := by
        intro hnil
        have hbytes := Outgoing.toWriteBytes_eq hk.write
        rw [hnil] at hbytes
        exact pending hbytes
      obtain ⟨hsent, hempty, hsame⟩ := AppConn.dealWrite_holding hk.write hne (clear member pending)
        (w fd).arrays (w fd).errno saveErrno (w fd).calls
      rw [givenTo, if_pos ⟨member, pending⟩, hsent]
      refine congrArg (Action.sent _ :: ·) (ih ht ?_)
      rw [conn]
      exact ⟨hsame ▸ hk.read, hempty⟩

/-- Accepting a client leaves the rings alone. -/
theorem rings_addClient (s : SocketServer) (fd : Int) :
    ((s.addClient fd).conn fd).readBuff = (s.conn fd).readBuff ∧
      ((s.addClient fd).conn fd).writeBuff = (s.conn fd).writeBuff := by
  cases effect_accept .signed s fd fd with
  | elsewhere _ conn => rw [conn]; exact ⟨rfl, rfl⟩
  | accepted conn =>
    obtain hconn | hconn := conn
    · rw [hconn]
      exact ⟨rfl, rfl⟩
    · rw [hconn]
      exact ⟨rfl, rfl⟩

/-- A client of a server that has been started: what was before it, its descriptor, and what it
gives and gets, in a run whose events meet `ok` from its `accept` on. -/
structure Client (cs : CharSign) (ok : Int → SocketServer → Event → Prop) where
  junk : Int → (Nat → UInt8) × (Nat → UInt8)
  before : List Event
  server : SocketServer
  fd : Int
  given : List Given
  actions : List Action
  run : Run (Step cs) (start junk) before server
  enabled : server.Enabled (.accept fd)
  clear : ok fd server (.accept fd)
  served : Served cs fd (ok fd) (server.addClient fd) given actions

/-- The client gets a connection with nothing to be read and nothing to be written. -/
def Client.Fresh {ok : Int → SocketServer → Event → Prop} (x : Client cs ok) : Prop :=
  ((x.server.addClient x.fd).conn x.fd).readBuff.isEmpty = true ∧
    ((x.server.addClient x.fd).conn x.fd).writeBuff.isEmpty = true

theorem Client.fresh (x : Client cs (Clear cs)) : x.Fresh := by
  obtain ⟨hread, hwrite⟩ := rings_addClient x.server x.fd
  rw [Fresh, hread, hwrite]
  exact x.clear rfl

theorem Client.actions_eq (x : Client cs (Clear cs)) :
    x.actions = Contents.run cs ⟨[], []⟩ x.given := by
  have hs := (wellFormed_start x.junk).run x.run
  have hadd : WellFormed (x.server.addClient x.fd) :=
    hs.next (show x.server.next cs (.accept x.fd) = .ok (x.server.addClient x.fd, []) from rfl)
  obtain ⟨hread, hwrite⟩ := rings_addClient x.server x.fd
  obtain ⟨hr, hw⟩ := x.clear rfl
  have hindexed := hs.indexed x.fd
  refine x.served.acts_eq hadd ⟨.inl ?_, ?_⟩
  · rw [hread]
    exact CBuffer.holds_nil (hindexed.read.trans_eq (AppConn.readBuff_size _).symm) hr
  · rw [hwrite]
    exact CBuffer.holds_nil (hindexed.write.trans_eq (AppConn.writeBuff_size _).symm) hw

/-- Two clients whose events are all clear, and who give the same, get the same, whoever else is
or was there; and both get an empty connection. -/
theorem isolated_of_clear (x y : Client cs (Clear cs)) (h : x.given = y.given) :
    x.actions = y.actions ∧ x.Fresh ∧ y.Fresh :=
  ⟨by rw [x.actions_eq, y.actions_eq, h], x.fresh, y.fresh⟩

theorem eq_ok {x : Except Fault (SocketServer × Log)} (h : x.toOption.isSome = true) :
    x = .ok (x.toOption.get h) := by
  cases x with
  | error f => cases h
  | ok r => rfl

/-- A read event with one block, with `errno` as the failed `accept` has left it. -/
def block (bytes : List UInt8) (hne : bytes ≠ []) (hle : bytes.length ≤ 256) : ReadInput where
  errno := eagain
  calls := .data ⟨bytes, hne, hle⟩ .eof
  env := ⟨fun _ => 0, 0, none, fun _ => none, none, none, fun _ => 0⟩
  tail := fun _ => 0

/-- The first five bytes of a long request, and a whole short one. -/
def half : ReadInput := block [0x53, 0x30, 0x32, 0x30, 0x30] (by decide) (by decide)
def whole : ReadInput := block testRequest.bytes (by decide) (by decide)

/-- The server after an event that it survives. -/
def after (s : SocketServer) (e : Event) (h : (s.next .signed e).toOption.isSome = true) :
    SocketServer := ((s.next .signed e).toOption.get h).1

theorem step_after {e : Event} (enabled : s.Enabled e)
    (h : (s.next .signed e).toOption.isSome = true) : Step .signed s e (s.after e h) :=
  ⟨enabled, _, eq_ok h⟩

/-- A client that sends the short request. -/
def testClient {ok : Int → SocketServer → Event → Prop} {before : List Event}
    (run : Run (Step .signed) (start zeros) before s) (enabled : s.Enabled (.accept 5))
    (clear : ok 5 s (.accept 5)) (armed : (s.addClient 5).Enabled (.readable 5 whole))
    (clear' : ok 5 (s.addClient 5) (.readable 5 whole))
    (survives : ((s.addClient 5).next .signed (.readable 5 whole)).toOption.isSome = true) :
    Client .signed ok where
  junk := zeros
  before := before
  server := s
  fd := 5
  given := _
  actions := _
  run := run
  enabled := enabled
  clear := clear
  served := .step armed (by nofun) clear' (eq_ok survives) (.done _)

/-- The server with a client on `fd` of whose long request a part is there. -/
def waiting (fd : Int)
    (h : (((start zeros).addClient fd).next .signed (.readable fd half)).toOption.isSome = true) :
    SocketServer := ((start zeros).addClient fd).after (.readable fd half) h

theorem survives_half (fd : Int) (hfd : fd = 5 ∨ fd = 6) :
    (((start zeros).addClient fd).next .signed (.readable fd half)).toOption.isSome = true := by
  obtain rfl | rfl := hfd <;> decide +kernel

/-- A whole request is a clear event on a fresh connection. -/
theorem clear_whole {c : AppConn} (hstale : ¬ CBuffer.Stale c.readBuff) (hunread : c.unread = []) :
    ReadClear .signed c whole := by
  refine ⟨by nofun, by decide, fun _ h => absurd h hstale, fun _ => ?_, by nofun⟩
  rw [hunread]
  decide +kernel

/-- The client on a new server, and beside another one that has sent a part of a request. -/
def alone : Client .signed (Clear .signed) :=
  testClient (.nil _) (by decide) (fun _ => by decide) (by decide)
    (fun _ => clear_whole (by decide) (by decide)) (by decide +kernel)

def beside : Client .signed (Clear .signed) :=
  testClient (s := waiting 6 (survives_half 6 (.inr rfl)))
    (.cons (step_accept _ _ _ (by decide) (by decide))
      (.cons (step_after (by decide) (survives_half 6 (.inr rfl))) (.nil _)))
    (by decide +kernel) (fun _ => by decide +kernel) (by decide +kernel)
    (fun _ => clear_whole (by decide +kernel) (by decide +kernel)) (by decide +kernel)

/-- They get the same. -/
theorem isolated_beside : alone.actions = beside.actions ∧ alone.Fresh ∧ beside.Fresh :=
  isolated_of_clear alone beside rfl

/-- Without the condition: the client on a new server, and on the object of a client that has
hung up after a part of a request. -/
def first : Client .signed fun _ _ _ => True :=
  testClient (.nil _) (by decide) trivial (by decide) trivial (by decide +kernel)

theorem survives_hangup : ((waiting 5 (survives_half 5 (.inl rfl))).next .signed
    (.hangup 5)).toOption.isSome = true := by decide +kernel

def reused : Client .signed fun _ _ _ => True :=
  testClient (s := (waiting 5 (survives_half 5 (.inl rfl))).after (.hangup 5) survives_hangup)
    (.cons (step_accept _ _ _ (by decide) (by decide))
      (.cons (step_after (by decide) (survives_half 5 (.inl rfl)))
        (.cons (step_after (by decide +kernel) survives_hangup) (.nil _))))
    (by decide +kernel) trivial (by decide) trivial (by decide +kernel)

/-- The request is not dispatched where it comes in behind the rest of another client's. -/
theorem not_isolated_reused : first.given = reused.given ∧ ¬ reused.Fresh ∧
    first.actions ≠ reused.actions := by
  refine ⟨rfl, fun hfresh => absurd hfresh.1 (by decide +kernel), fun hsame => ?_⟩
  exact absurd (congrArg List.length hsame) (by decide +kernel)

end SocketServer

end SocketMaster
