import SocketMaster.Server.Loop

/-!
# What an event of the loop does to the server

Most events of the loop are events of the server, and the others do nothing to a connection. So
what is known of an event of the server is known of the loop, for one connection at a time.
-/
namespace SocketMaster

open Library

namespace AppConn

variable {c : AppConn}

/-- A `read_` that closes the connection has read nothing. -/
theorem chunks_of_ret_nonpos {errno : Nat} {calls : ReadCalls} (h : (c.read_ errno calls).ret ≤ 0) :
    calls.chunks errno = [] := by
  have hret := c.le_ret_readLoop errno 0 calls
  rw [read_] at h
  rw [← List.length_eq_zero_iff]
  omega

end AppConn

namespace Loop

variable {cs : CharSign} {s t : Loop} {fd fd' : Int} {e : Loop.Event}

/-- The event of the server that is handled. -/
def Event.server? : Event → Option SocketServer.Event
  | .wait _ => none
  | .accept fd => some (.accept fd)
  | .hangup fd => some (.hangup fd)
  | .readable fd i => some (.readable fd i)
  | .other _ => none
  | .batchEnd w => some (.batchEnd w)

/-- The event of the loop in which it is. -/
def Event.ofServer : SocketServer.Event → Event
  | .accept fd => .accept fd
  | .hangup fd => .hangup fd
  | .readable fd i => .readable fd i
  | .batchEnd w => .batchEnd w

theorem Event.eq_ofServer {e' : SocketServer.Event} (h : e.server? = some e') :
    e = .ofServer e' := by
  cases e <;> cases h <;> rfl

/-- What the server does for its clients in an event. -/
def log (cs : CharSign) (s : Loop) (e : Event) : Log :=
  match e.server? with
  | none => []
  | some e =>
    match s.server.next cs e with
    | .ok (_, log) => log
    | .error _ => []

theorem log_of_none (h : e.server? = none) : s.log cs e = [] := by
  rw [log, h]

theorem log_of_some {e' : SocketServer.Event} {t : SocketServer} {log : Log}
    (h : e.server? = some e') (hnext : s.server.next cs e' = .ok (t, log)) : s.log cs e = log := by
  simp only [Loop.log, h, hnext]

/-- An event that the server handles leaves what the server makes of it. -/
theorem next_server (e' : SocketServer.Event) (hstep : s.next cs e = .ok t)
    (h : e.server? = some e') : s.server.next cs e' = .ok (t.server, s.log cs e) := by
  suffices ∃ log, s.server.next cs e' = .ok (t.server, log) by
    obtain ⟨log, hnext⟩ := this
    rw [log_of_some h hnext]
    exact hnext
  cases e with
  | wait | other => cases h
  | accept | hangup | readable | batchEnd =>
    cases h
    rw [next] at hstep
    exact (serve_ok hstep).1

/-- The others leave the connections alone. -/
theorem next_none (hstep : s.next cs e = .ok t) (h : e.server? = none) :
    t.server.conn = s.server.conn ∧ t.server.fdSet = s.server.fdSet := by
  cases e with
  | wait | other =>
    cases hstep
    exact ⟨rfl, rfl⟩
  | accept | hangup | readable | batchEnd => cases h

/-- What an event does to one connection. -/
theorem next_effect (hnodup : s.server.fdSet.Nodup) (fd : Int) (hstep : s.next cs e = .ok t) :
    e.server? = none ∧ t.server.conn fd = s.server.conn fd ∧
        (fd ∈ t.server.fdSet ↔ fd ∈ s.server.fdSet) ∧ actionsOf fd (s.log cs e) = [] ∨
      ∃ e', e.server? = some e' ∧
        SocketServer.Effect cs s.server fd t.server e' (actionsOf fd (s.log cs e)) := by
  cases h : e.server? with
  | none =>
    obtain ⟨hconn, hset⟩ := next_none hstep h
    exact .inl ⟨rfl, by rw [hconn], by rw [hset], by rw [log_of_none h]; rfl⟩
  | some e' => exact .inr ⟨e', rfl, SocketServer.effect_next hnodup fd (next_server e' hstep h)⟩

/-- A batch begins with what is reported, ends, or is handled from its front. -/
theorem next_batch (hstep : s.next cs e = .ok t) :
    match e with
    | .wait reported => t.pending = reported ∧ t.inBatch = true
    | .accept _ => t.pending = s.pending ∧ t.inBatch = s.inBatch
    | .hangup _ | .readable _ _ | .other _ => t.pending = s.pending.tail ∧ t.inBatch = s.inBatch
    | .batchEnd _ => t.pending = s.pending ∧ t.inBatch = false := by
  have hserve : ∀ {s' : Loop} {e' : SocketServer.Event} {accepted : List FdCall},
      s'.serve cs e' accepted = .ok t → t.pending = s'.pending ∧ t.inBatch = s'.inBatch := by
    intro s' e' accepted h
    rw [serve] at h
    split at h
    · cases h
    · cases h
      exact ⟨rfl, rfl⟩
  cases e with
  | wait | other =>
    cases hstep
    exact ⟨rfl, rfl⟩
  | accept | hangup | readable | batchEnd =>
    rw [next] at hstep
    exact hserve hstep

/-! ## Runs -/

theorem booked_of_run {junk : Int → (Nat → UInt8) × (Nat → UInt8)} {events : List Event}
    (run : Run (Step cs) (start junk) events s) : s.Booked :=
  run.invariant (fun _ _ _ h step => h.step step) (booked_start junk)

/-- A descriptor with an open connection is not accepted. -/
theorem Booked.not_accept (h : s.Booked) (hmem : fd ∈ s.server.fdSet) :
    ¬ s.Enabled (.accept fd) := by
  rintro ⟨-, -, hnot⟩
  have hopen := (h.agreed fd).isOpen.mpr hmem
  rw [hnot] at hopen
  cases hopen

/-- The descriptor at the front of the batch is in it once. -/
theorem Booked.head_not_mem_tail (h : s.Booked) (hhead : s.pending.head? = some fd) :
    fd ∈ s.pending ∧ fd ∉ s.pending.tail := by
  obtain ⟨-, -, hothers⟩ := h.tail hhead
  exact ⟨List.mem_of_mem_head? hhead, fun hmem => (hothers fd hmem).1 rfl⟩

/-- A client has been accepted, and is then reported. -/
def accepted : Loop :=
  [.wait [], .accept 5, .batchEnd SocketServer.takesAll].foldl handled (start SocketServer.zeros)

def reported : Loop := accepted.handled (.wait [5])

theorem step_reported : Step .signed accepted (.wait [5]) reported :=
  step_handled ⟨rfl, by decide, by decide +kernel⟩ (by decide)

theorem run_accepted : Run (Step .signed) (start SocketServer.zeros)
    [.wait [], .accept 5, .batchEnd SocketServer.takesAll] accepted := by
  refine .cons (step_handled ⟨rfl, by decide, by decide⟩ (by decide)) ?_
  refine .cons (step_handled ⟨rfl, by decide, rfl⟩ (by decide)) ?_
  exact .cons (step_handled ⟨rfl, rfl⟩ (by decide +kernel)) (.nil _)

end Loop

end SocketMaster
