import SocketMaster.Server.Events

/-!
# The loops of `Start`

`Start` itself, with the loops of `DealListen_` and of the batch, on what `Wait` leaves in
`events_`. It does what the event loop does on the events that the masks stand for, so whatever
holds of the runs of the event loop holds of it. It comes back only where a handler throws, on a
request that `frameProcess` cannot answer.
-/
namespace SocketMaster

open Library

/-! ## When the loop stops -/

namespace AppConn

/-- `process` throws exactly on a frame that cannot be answered, or whose length is negative. -/
theorem process_throws_iff (cs : CharSign) (env : Env) (tail : Int → UInt8) (channel : List UInt8)
    (c : AppConn) : (∃ e, (c.process cs env tail channel).result = .error e) ↔
      ∃ f, (c.process cs env tail channel).dispatched = some f ∧
        (¬ (f.type = typeAck ∨ Answerable env f) ∨ f.size < 0) := by
  have hdispatch : ∀ bytes reads frame discard,
      (∃ e, (c.dispatch cs env channel bytes reads frame discard).result = .error e) ↔
        ∃ f, (c.dispatch cs env channel bytes reads frame discard).dispatched = some f ∧
          (¬ (f.type = typeAck ∨ Answerable env f) ∨ f.size < 0) := by
    intro bytes reads frame discard
    by_cases hok : frame.state = .ok
    · have hreturns := frameProcess_returns_iff cs env channel (c.popRead discard) frame
      cases hf : (c.popRead discard).frameProcess cs env channel frame with
      | error e =>
        rw [dispatch_of_fault hok hf]
        refine iff_of_true ⟨e, rfl⟩ ⟨frame, rfl, .inl fun hans => ?_⟩
        obtain ⟨d, hd⟩ := hreturns.mpr hans
        rw [hf] at hd
        cases hd
      | ok d =>
        have hans := hreturns.mp ⟨d, hf⟩
        rw [dispatch_of_handled hok hf]
        split_ifs with hneg
        · exact iff_of_true ⟨_, rfl⟩ ⟨frame, rfl, .inr hneg⟩
        · refine iff_of_false (by rintro ⟨e, he⟩; cases he) ?_
          rintro ⟨f, hframe, hfault⟩
          obtain rfl := Option.some.inj hframe
          exact hfault.elim (fun hno => hno hans) hneg
    · rw [dispatch_of_ne hok]
      refine iff_of_false ?_ ?_
      · rintro ⟨e, he⟩
        cases he
      · rintro ⟨f, hf, -⟩
        cases hf
  rw [process]
  generalize (if int32 (c.readBuff.length : Int) < 256 then int32 (c.readBuff.length : Int)
    else 256) = len
  dsimp only
  split_ifs
  · refine iff_of_false ?_ ?_
    · rintro ⟨e, he⟩
      cases he
    · rintro ⟨f, hf, -⟩
      cases hf
  · exact hdispatch ..

end AppConn

namespace SocketServer

/-- A read event of which the connection survives the reading, and in which a frame is dispatched
that cannot be answered. -/
def Throws (cs : CharSign) (s : SocketServer) (fd : Int) (i : ReadInput) : Prop :=
  ¬ (((s.conn fd).read_ i.errno i.calls).ret ≤ 0 ∧
      ((s.conn fd).read_ i.errno i.calls).saveErrno ≠ eagain) ∧
    ∃ f, (((s.conn fd).read_ i.errno i.calls).conn.process cs i.env i.tail
        s.channel).dispatched = some f ∧
      (¬ (f.type = typeAck ∨ Answerable i.env f) ∨ f.size < 0)

theorem dealRead_error_iff (cs : CharSign) (s : SocketServer) (fd : Int) (i : ReadInput) :
    (∃ f, s.dealRead cs fd i = .error f) ↔ s.Throws cs fd i := by
  rw [dealRead, Throws, ← AppConn.process_throws_iff]
  dsimp only
  split_ifs with hcloses
  · -- the object is there, since `read_` has been called
    obtain ⟨t, ht⟩ := Loop.closeConn_of_known
      (s := s.setConn fd ((s.conn fd).read_ i.errno i.calls).conn) fd (Function.update_self ..)
    rw [ht]
    refine iff_of_false ?_ fun h => h.1 hcloses
    rintro ⟨f, hf⟩
    cases hf
  · cases hresult : (((s.conn fd).read_ i.errno i.calls).conn.process cs i.env i.tail
      s.channel).result with
    | error e => exact iff_of_true ⟨e, rfl⟩ ⟨hcloses, e, rfl⟩
    | ok p =>
      refine iff_of_false ?_ ?_
      · rintro ⟨f, hf⟩
        cases hf
      · rintro ⟨-, e, he⟩
        cases he

end SocketServer

namespace Loop

variable {cs : CharSign} {s t : Loop}

/-- A handler throws. -/
def Fatal (cs : CharSign) (s : Loop) (e : Event) : Prop :=
  ∃ fd i, e = .readable fd i ∧ s.server.Throws cs fd i

theorem serve_error_iff {e : SocketServer.Event} {accepted : List FdCall} :
    (∃ f, s.serve cs e accepted = .error f) ↔ ∃ f, s.server.next cs e = .error f := by
  rw [serve]
  cases s.server.next cs e with
  | error f => exact iff_of_true ⟨f, rfl⟩ ⟨f, rfl⟩
  | ok r =>
    refine iff_of_false ?_ ?_
    all_goals rintro ⟨f, hf⟩
    all_goals cases hf

theorem Booked.next_error_iff (h : s.Booked) {e : Event} (enabled : s.Enabled e) :
    (∃ f, s.next cs e = .error f) ↔ Fatal cs s e := by
  have hnever : ∀ {x : Except Fault Loop}, (∃ t, x = .ok t) → (∀ fd i, e ≠ .readable fd i) →
      ((∃ f, x = .error f) ↔ Fatal cs s e) := by
    rintro x ⟨t, rfl⟩ hread
    refine iff_of_false ?_ ?_
    · rintro ⟨f, hf⟩
      cases hf
    · rintro ⟨fd, i, heq, -⟩
      exact hread fd i heq
  have hserve : ∀ (e' : SocketServer.Event) {accepted : List FdCall} {s' : Loop},
      s'.server = s.server → (∃ r, s.server.next cs e' = .ok r) →
        ∃ t, s'.serve cs e' accepted = .ok t := by
    rintro e' accepted s' hserver ⟨r, hnext⟩
    rw [serve, hserver, hnext]
    exact ⟨_, rfl⟩
  cases e with
  | wait | other => exact hnever ⟨_, rfl⟩ (by simp)
  | accept fd =>
    exact hnever (hserve (.accept fd) rfl ⟨_, rfl⟩) (by simp)
  | hangup fd =>
    obtain ⟨hmem, -⟩ := h.tail enabled.2
    obtain ⟨t, ht⟩ := closeConn_of_known (s := s.server.setEpoll fd (some false)) fd
      ((h.agreed fd).own hmem).1
    exact hnever (hserve (.hangup fd) rfl ⟨(t, []), by rw [SocketServer.next, ht]⟩) (by simp)
  | readable fd i =>
    have hread : (∃ f, s.next cs (.readable fd i) = .error f) ↔
        ∃ f, (s.server.setEpoll fd (some false)).dealRead cs fd i = .error f := serve_error_iff
    rw [hread, SocketServer.dealRead_error_iff]
    constructor
    · exact fun hthrows => ⟨fd, i, rfl, hthrows⟩
    · rintro ⟨fd', i', heq, hthrows⟩
      cases heq
      exact hthrows
  | batchEnd w =>
    obtain ⟨t, log, ht⟩ := SocketServer.writeLoop_total w s.server 0 s.server.fdSet
    exact hnever (hserve (.batchEnd _) rfl ⟨(t, log), ht⟩) (by simp)

/-- In every state that the loop gets to, and for all that can happen next: the loop stops just
where a handler throws. -/
theorem stops_iff (cs : CharSign) (junk : Int → (Nat → UInt8) × (Nat → UInt8))
    (events : List Event) (s : Loop) (run : Run (Step cs) (start junk) events s) (e : Event)
    (enabled : s.Enabled e) : (∃ f, s.next cs e = .error f) ↔ Fatal cs s e :=
  (booked_of_run run).next_error_iff enabled

/-- A request without its parameter. -/
theorem stops_iff_bareSetTime :
    (∃ f, reported.next .signed (.readable 5 (SocketServer.block bareSetTime (by decide)
        (by decide))) = .error f) ↔
      Fatal .signed reported (.readable 5 (SocketServer.block bareSetTime (by decide)
        (by decide))) :=
  stops_iff .signed SocketServer.zeros _ reported
    (run_accepted.append (.cons step_reported (.nil _))) _
    ⟨rfl, by decide⟩

end Loop

/-! ## `Start` -/

/-- The event masks of `epoll`. -/
def epollIn : UInt32 := 0x1
def epollOut : UInt32 := 0x4
def epollErr : UInt32 := 0x8
def epollHup : UInt32 := 0x10
def epollRdHup : UInt32 := 0x2000
def epollOneShot : UInt32 := 0x40000000
def epollEt : UInt32 := 0x80000000

/-- `listenEvent_` and `connEvent_`, as `InitEventMode_` sets them. -/
def initEventMode (trigMode : Int) : UInt32 × UInt32 :=
  let listenEvent := epollRdHup
  let connEvent := epollOneShot ||| epollRdHup
  if trigMode = 3 then (listenEvent ||| epollEt, connEvent ||| epollEt)
  else (listenEvent ||| epollEt, connEvent ||| epollEt)

/-- Whatever mode is asked for, both are edge-triggered. -/
theorem initEventMode_et (trigMode : Int) : (initEventMode trigMode).1 &&& epollEt ≠ 0 ∧
    (initEventMode trigMode).2 &&& epollEt ≠ 0 := by
  rw [initEventMode, ite_self]
  decide

/-- An event that `Wait` has left in `events_`. If it is for the listening socket, `accepts` are
the results of the calls of `accept`, which fails when they are used up; if it comes to a
`DealRead_`, `input` is what the kernel does in it. -/
structure Report where
  fd : Int
  events : UInt32
  accepts : List Int
  input : ReadInput

/-- What a turn of the loop of `Start` gets from the kernel. Where `Wait` fails there are no
reports. -/
structure Batch where
  reports : List Report
  writes : Int → WriteInput

namespace SocketServer

variable (cs : CharSign) (listenEvent : UInt32) (listenFd : Int) (s : SocketServer)

def dealListen (s : SocketServer) : List Int → SocketServer
  | [] => s
  | fd :: fds =>
    if fd ≤ 0 then s
    else if listenEvent &&& epollEt ≠ 0 then dealListen (s.addClient fd) fds
    else s.addClient fd

/-- One turn of the loop over the events. -/
def handle (r : Report) : Except Fault SocketServer :=
  if r.fd = listenFd then .ok (s.dealListen listenEvent r.accepts)
  else if r.events &&& (epollRdHup ||| epollHup ||| epollErr) ≠ 0 then s.closeConn r.fd
  else if r.events &&& epollIn ≠ 0 then (s.dealRead cs r.fd r.input).map Prod.fst
  else if r.events &&& epollOut ≠ 0 then .ok s -- "error write"
  else .ok s -- "Unexpected event"

/-- One turn of the loop of `Start`. The kernel disarms the clients' descriptors that `Wait`
reports; the listening socket is not one-shot. -/
def turn (b : Batch) : Except Fault SocketServer := do
  let s := s.disarm ((b.reports.filter (·.fd ≠ listenFd)).map Report.fd)
  let s ← b.reports.foldlM (handle cs listenEvent listenFd) s
  (s.dealWrite b.writes).map Prod.fst

/-- `Start`, for as many turns as there are batches; `isClose_` is never set. -/
def startLoop (trigMode : Int) (batches : List Batch) : Except Fault SocketServer :=
  batches.foldlM (turn cs (initEventMode trigMode).1 listenFd) s

end SocketServer

/-- The events that the handling of a report consists of. -/
def Report.loopEvents (listenFd : Int) (r : Report) : List Loop.Event :=
  if r.fd = listenFd then (r.accepts.takeWhile (0 < ·)).map .accept
  else if r.events &&& (epollRdHup ||| epollHup ||| epollErr) ≠ 0 then [.hangup r.fd]
  else if r.events &&& epollIn ≠ 0 then [.readable r.fd r.input]
  else [.other r.fd]

def Batch.loopEvents (listenFd : Int) (b : Batch) : List Loop.Event :=
  .wait ((b.reports.filter (·.fd ≠ listenFd)).map Report.fd) ::
    (b.reports.flatMap (Report.loopEvents listenFd) ++ [.batchEnd b.writes])

namespace SocketServer

variable (cs : CharSign) (s : SocketServer) (fd : Int) (state : Option Bool)

theorem setEpoll_setEpoll (state' : Option Bool) :
    (s.setEpoll fd state).setEpoll fd state' = s.setEpoll fd state' := by
  simp only [setEpoll, Function.update_idem]

/-- A descriptor that is closed leaves the epoll set, armed or not. -/
theorem closeConn_setEpoll : (s.setEpoll fd state).closeConn fd = s.closeConn fd := by
  rw [closeConn, closeConn, setEpoll_setEpoll]
  rfl

/-- `DealRead_` arms the descriptor or closes it. -/
theorem dealRead_setEpoll (i : ReadInput) :
    (s.setEpoll fd state).dealRead cs fd i = s.dealRead cs fd i := by
  have hclose : ∀ c : AppConn, ((s.setEpoll fd state).setConn fd c).closeConn fd =
      (s.setConn fd c).closeConn fd := fun c => (s.setConn fd c).closeConn_setEpoll fd state
  have harm : ∀ c : AppConn, ((s.setEpoll fd state).setConn fd c).setEpoll fd (some true) =
      (s.setConn fd c).setEpoll fd (some true) :=
    fun c => (s.setConn fd c).setEpoll_setEpoll fd state (some true)
  rw [dealRead, dealRead]
  simp only [hclose, harm]
  rfl

end SocketServer

namespace Loop

variable {cs : CharSign} {listenEvent : UInt32} {listenFd : Int}

theorem server_serve (l : Loop) (e : SocketServer.Event) (accepted : List FdCall) :
    (l.serve cs e accepted).map server = (l.server.next cs e).map Prod.fst := by
  rw [serve]
  cases l.server.next cs e <;> rfl

/-- The loop of `DealListen_` accepts until it fails. -/
theorem server_accepts (het : listenEvent &&& epollEt ≠ 0) (l : Loop) (accepts : List Int) :
    (((accepts.takeWhile (0 < ·)).map Event.accept).foldlM (next cs) l).map server =
      .ok (l.server.dealListen listenEvent accepts) := by
  induction accepts generalizing l with
  | nil => rfl
  | cons fd fds ih =>
    rw [SocketServer.dealListen, List.takeWhile_cons]
    by_cases hfd : 0 < fd
    · rw [if_pos (decide_eq_true hfd), if_neg (not_le.mpr hfd), if_pos het, List.map_cons,
        List.foldlM_cons]
      exact ih _
    · rw [if_neg (by simpa using hfd), if_pos (not_lt.mp hfd)]
      rfl

theorem server_single (l : Loop) (e : Event) :
    ([e].foldlM (next cs) l).map server = (l.next cs e).map server := by
  rw [List.foldlM_cons]
  cases l.next cs e <;> rfl

theorem server_report (het : listenEvent &&& epollEt ≠ 0) (l : Loop) (r : Report) :
    l.server.handle cs listenEvent listenFd r =
      ((r.loopEvents listenFd).foldlM (next cs) l).map server := by
  rw [SocketServer.handle, Report.loopEvents]
  split_ifs
  · exact (server_accepts het l r.accepts).symm
  · rw [server_single, next, server_serve, SocketServer.next]
    dsimp only
    rw [SocketServer.closeConn_setEpoll]
    cases l.server.closeConn r.fd <;> rfl
  · rw [server_single, next, server_serve, SocketServer.next, SocketServer.dealRead_setEpoll]
  · rfl
  · rfl

theorem server_batch (het : listenEvent &&& epollEt ≠ 0) (l : Loop) (b : Batch) :
    l.server.turn cs listenEvent listenFd b =
      ((b.loopEvents listenFd).foldlM (next cs) l).map server := by
  obtain ⟨l', hwait, hserver⟩ : ∃ l', l.next cs
      (.wait ((b.reports.filter (·.fd ≠ listenFd)).map Report.fd)) = .ok l' ∧ l'.server =
        l.server.disarm ((b.reports.filter (·.fd ≠ listenFd)).map Report.fd) := ⟨_, rfl, rfl⟩
  rw [SocketServer.turn, Batch.loopEvents, List.foldlM_cons, hwait, ← hserver,
    foldlM_proj (server_report het)]
  change _ = (List.foldlM (next cs) l' _).map server
  rw [List.foldlM_append, foldlM_flatMap]
  cases b.reports.foldlM (fun l r => (r.loopEvents listenFd).foldlM (next cs) l) l' with
  | error f => rfl
  | ok l'' =>
    change _ = (List.foldlM (next cs) l'' _).map server
    rw [server_single, next, server_serve]
    rfl

/-- `Start` does what the event loop does. -/
theorem startLoop_eq (cs : CharSign) (trigMode listenFd : Int) (l : Loop) (batches : List Batch) :
    l.server.startLoop cs listenFd trigMode batches =
      ((batches.flatMap (Batch.loopEvents listenFd)).foldlM (next cs) l).map server := by
  rw [SocketServer.startLoop, foldlM_flatMap]
  exact foldlM_proj (server_batch (initEventMode_et trigMode).1) batches l

/-- However many turns `Start` makes on a kernel that keeps to the rules, it gets through all of
them with the books consistent, or it has come to a request that it cannot answer. -/
theorem start_spec (cs : CharSign) (trigMode listenFd : Int)
    (junk : Int → (Nat → UInt8) × (Nat → UInt8)) (batches : List Batch)
    (allowed : Allowed (next cs) Enabled (start junk)
      (batches.flatMap (Batch.loopEvents listenFd))) :
    (∃ l : Loop, (SocketServer.start junk).startLoop cs listenFd trigMode batches = .ok l.server ∧
        Run (Step cs) (start junk) (batches.flatMap (Batch.loopEvents listenFd)) l ∧
        l.Consistent) ∨
      ∃ before e after l f,
        (SocketServer.start junk).startLoop cs listenFd trigMode batches = .error f ∧
        batches.flatMap (Batch.loopEvents listenFd) = before ++ e :: after ∧
        Run (Step cs) (start junk) before l ∧ l.Consistent ∧ l.Enabled e ∧ Fatal cs l e := by
  have heq := startLoop_eq cs trigMode listenFd (start junk) batches
  obtain ⟨l, hfold, hrun⟩ | ⟨before, e, after, l, f, hevents, hrun, henabled, hfail, hfold⟩ :=
    Run.of_allowed allowed
  · rw [hfold] at heq
    exact .inl ⟨l, heq, hrun, (booked_of_run hrun).consistent⟩
  · rw [hfold] at heq
    exact .inr ⟨before, e, after, l, f, heq, hevents, hrun, (booked_of_run hrun).consistent,
      henabled, ((booked_of_run hrun).next_error_iff henabled).mp ⟨f, hfail⟩⟩

/-- A client comes and sends the short request. -/
def twoBatches : List Batch :=
  [⟨[⟨3, epollIn, [5], SocketServer.whole⟩], SocketServer.takesAll⟩,
    ⟨[⟨5, epollIn, [], SocketServer.whole⟩], SocketServer.takesAll⟩]

theorem start_spec_twoBatches :
    (∃ l : Loop, (SocketServer.start SocketServer.zeros).startLoop .signed 3 4 twoBatches =
          .ok l.server ∧
        Run (Step .signed) (start SocketServer.zeros)
          (twoBatches.flatMap (Batch.loopEvents 3)) l ∧ l.Consistent) ∨
      ∃ before e after l f,
        (SocketServer.start SocketServer.zeros).startLoop .signed 3 4 twoBatches = .error f ∧
        twoBatches.flatMap (Batch.loopEvents 3) = before ++ e :: after ∧
        Run (Step .signed) (start SocketServer.zeros) before l ∧ l.Consistent ∧ l.Enabled e ∧
        Fatal .signed l e := by
  have hstep : ∀ {s t : Loop} {e : Event} {es : List Event}, Step .signed s e t →
      Allowed (next .signed) Enabled t es → Allowed (next .signed) Enabled s (e :: es) :=
    fun step rest => .cons step.1 step.2 rest
  refine start_spec .signed 4 3 SocketServer.zeros twoBatches ?_
  refine hstep (step_handled (e := .wait []) ⟨rfl, by decide, by decide⟩ (by decide)) ?_
  refine hstep (step_handled (e := .accept 5) ⟨rfl, by decide, rfl⟩ (by decide)) ?_
  refine hstep (step_handled (e := .batchEnd SocketServer.takesAll) ⟨rfl, rfl⟩
    (by decide +kernel)) ?_
  refine hstep step_reported ?_
  refine hstep (step_handled (e := .readable 5 SocketServer.whole) ⟨rfl, by decide⟩
    (by decide +kernel)) ?_
  exact hstep (step_handled (e := .batchEnd SocketServer.takesAll)
    ⟨by decide +kernel, by decide +kernel⟩ (by decide +kernel)) trivial

end Loop

end SocketMaster
