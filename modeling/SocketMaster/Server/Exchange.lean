import SocketMaster.Server.Events
import SocketMaster.Conn.Cut

/-!
# Requests and replies, end to end

A client of the running server whose requests come in at a good pace, and whose socket takes what
it is sent, gets all of them dispatched and gets the reply to each, in their order and nothing
else, whatever the other clients do. A batch has one read event for it at most, so no reply is
ever queued behind another, and none outlasts its batch.
-/
namespace SocketMaster

open Library

/-- The bytes of the blocks of a read event. -/
def ReadInput.bytes (i : ReadInput) : List UInt8 := (i.calls.chunks i.errno).flatMap Chunk.bytes

/-- The frames dispatched, the bytes queued, and the bytes that the socket took. -/
def framesOf (acts : List Action) : List Frame :=
  acts.filterMap fun
    | .dispatched f => some f
    | _ => none

def queuedOf (acts : List Action) : List UInt8 :=
  acts.flatMap fun
    | .queued bytes => bytes
    | _ => []

def sentOf (acts : List Action) : List UInt8 :=
  acts.flatMap fun
    | .sent bytes => bytes
    | _ => []

@[simp] theorem framesOf_append (acts acts' : List Action) :
    framesOf (acts ++ acts') = framesOf acts ++ framesOf acts' := List.filterMap_append

@[simp] theorem sentOf_append (acts acts' : List Action) :
    sentOf (acts ++ acts') = sentOf acts ++ sentOf acts' := List.flatMap_append

/-- The replies to requests that are answered in these environments, one after the other. -/
def replies (cs : CharSign) (envs : List Env) (reqs : List Request) : List UInt8 :=
  (List.zipWith (fun env r => replyTo cs env (Request.frame r)) envs reqs).flatten

namespace AppConn

variable {cs : CharSign} {env : Env} {tail : Int → UInt8} {channel : List UInt8} {c : AppConn}
  {p : Processed}

/-- `process` dispatches nothing, or a frame that is handled by the connection as it then is. -/
theorem process_handled (h : (c.process cs env tail channel).result = .ok p) :
    (c.process cs env tail channel).dispatched = none ∧ p.accepted = [] ∧
        p.conn.writeBuff = c.writeBuff ∨
      ∃ (f : Frame) (d : Handled) (c' : AppConn),
        (c.process cs env tail channel).dispatched = some f ∧
        c'.writeBuff = c.writeBuff ∧ c'.frameProcess cs env channel f = .ok d ∧
        p.accepted = d.accepted ∧ p.conn.writeBuff = d.conn.writeBuff := by
  rw [process] at h ⊢
  generalize (if int32 (c.readBuff.length : Int) < 256 then int32 (c.readBuff.length : Int)
    else 256) = len at h ⊢
  dsimp only at h ⊢
  split_ifs at h ⊢
  · cases h
    exact .inl ⟨rfl, rfl, rfl⟩
  · obtain ⟨hno, rfl⟩ | ⟨hok, hnonneg, d, hd, rfl⟩ := dispatch_ok_cases h
    · rw [dispatch_of_ne hno]
      exact .inl ⟨rfl, rfl, rfl⟩
    · rw [dispatch_of_handled hok hd, if_neg (not_lt.mpr hnonneg)]
      exact .inr ⟨_, d, c.popRead _, rfl, rfl, hd, rfl, rfl⟩

/-- `process` queues the reply to the frame that it dispatches, if that fits. -/
theorem process_queued {ws : List UInt8} (hw : CBuffer.Holds c.writeBuff ws)
    (hout : env.popen ≠ some []) (h : (c.process cs env tail channel).result = .ok p) :
    p.accepted =
        ((c.process cs env tail channel).dispatched.elim [] fun f => taken ws (replyTo cs env f)) ∧
      CBuffer.Holds p.conn.writeBuff (ws ++ p.accepted) := by
  obtain ⟨hnone, haccepted, hring⟩ | ⟨f, d, c', hsome, hring', hd, haccepted, hring⟩ :=
    process_handled h
  · rw [hnone, haccepted, hring, List.append_nil]
    exact ⟨rfl, hw⟩
  · rw [hsome, haccepted, hring]
    obtain ⟨htaken, hqueued⟩ := handled_taken (c := c') (hring' ▸ hw) hd hout
    exact ⟨htaken, htaken ▸ hqueued⟩

/-- A block comes to a connection with nothing queued and is processed: nothing is dispatched yet,
or the next request is, and its reply is queued. -/
theorem process_paced {chunk : Chunk} {reqs : List Request} {rest : List UInt8} {held : Int}
    {lens : List Nat} (hready : Ready c.readBuff reqs (chunk.bytes ++ rest) held)
    (hw : CBuffer.Holds c.writeBuff []) (hout : env.popen ≠ some [])
    (hpaced : Paced cs held reqs (chunk.bytes.length :: lens))
    (hfits : ∀ r ∈ reqs, r.Parsable env ∧ (replyTo cs env r.frame).length ≤ 254)
    (h : ((c.appendRead chunk.bytes).process cs env tail channel).result = .ok p) :
    (((c.appendRead chunk.bytes).process cs env tail channel).dispatched = none ∧
        p.accepted = [] ∧ CBuffer.Holds p.conn.writeBuff [] ∧
        Ready p.conn.readBuff reqs rest (held + chunk.bytes.length) ∧
        Paced cs (held + chunk.bytes.length) reqs lens) ∨
      ∃ r reqs', reqs = r :: reqs' ∧
        ((c.appendRead chunk.bytes).process cs env tail channel).dispatched = some r.frame ∧
        p.accepted = replyTo cs env r.frame ∧
        CBuffer.Holds p.conn.writeBuff (replyTo cs env r.frame) ∧
        Ready p.conn.readBuff reqs' rest (held + chunk.bytes.length - (r.body.length + 9)) ∧
        Paced cs (held + chunk.bytes.length - (r.body.length + 9)) reqs' lens := by
  obtain ⟨haccepted, hqueued⟩ := process_queued (c := c.appendRead chunk.bytes) hw hout h
  have hdeliver := Session.deliver_of_ok (s := ⟨c, channel, []⟩) (d := ⟨chunk, env, tail, 0⟩) h
  generalize ((c.appendRead chunk.bytes).process cs env tail channel).dispatched = f
    at haccepted hdeliver ⊢
  -- an event that answers nothing
  have hpause : ∀ s', Session.deliver cs ⟨c, channel, []⟩ ⟨chunk, env, tail, 0⟩ = .ok s' →
      s'.dispatched = [] → Ready s'.conn.readBuff reqs rest (held + chunk.bytes.length) →
      f = none ∧ p.accepted = [] ∧ CBuffer.Holds p.conn.writeBuff [] ∧
        Ready p.conn.readBuff reqs rest (held + chunk.bytes.length) := by
    intro s' hs' hnone hready'
    obtain rfl := Except.ok.inj (hdeliver.symm.trans hs')
    cases f with
    | some f => cases hnone
    | none =>
      rw [haccepted] at hqueued
      exact ⟨rfl, haccepted, hqueued, hready'⟩
  cases reqs with
  | nil =>
    -- only the newline of the last request can still come in
    have hlast : held = -1 ∧ chunk.bytes.length = 1 := by
      have hlen := List.length_pos_iff.mpr chunk.ne_nil
      cases hready with
      | level carries all short => simp [chunk.ne_nil] at all
      | behind carries all =>
        have hone := congrArg List.length all
        simp only [List.length_append, stream_nil, List.length_singleton] at hone
        exact ⟨rfl, by omega⟩
    obtain ⟨s', hs', hnone, hready'⟩ := Session.deliver_pause cs (s := ⟨c, channel, []⟩)
      (d := ⟨chunk, env, tail, 0⟩) hready (by dsimp only; omega) (.inl (by dsimp only; omega))
    obtain ⟨hf, hacc, hholds, hready'⟩ := hpause s' hs' hnone hready'
    exact .inl ⟨hf, hacc, hholds, hready', by cases lens <;> trivial⟩
  | cons r reqs =>
    obtain ⟨hfit, hrest⟩ := hpaced
    split_ifs at hrest with hcomplete
    · obtain ⟨hsum, hpaced⟩ := hrest
      obtain ⟨hparse, hshort⟩ := hfits r List.mem_cons_self
      obtain ⟨s', hs', hone, hready'⟩ := Session.deliver_request (s := ⟨c, channel, []⟩)
        (d := ⟨chunk, env, tail, 0⟩) hready hfit hcomplete hsum hparse
      obtain rfl := Except.ok.inj (hdeliver.symm.trans hs')
      cases f with
      | none => cases hone
      | some f =>
        obtain rfl : f = r.frame := List.singleton_inj.mp hone
        have htaken : p.accepted = replyTo cs env r.frame := by
          rw [haccepted, Option.elim_some, taken, if_pos (by simpa using hshort)]
        rw [htaken] at hqueued
        exact .inr ⟨r, reqs, rfl, rfl, htaken, hqueued, hready', hpaced⟩
    · obtain ⟨hstop, hpaced⟩ := hrest
      obtain ⟨s', hs', hnone, hready'⟩ := Session.deliver_pause cs (s := ⟨c, channel, []⟩)
        (d := ⟨chunk, env, tail, 0⟩) hready hfit (hstop.imp_right fun h => ⟨r, reqs, rfl, h⟩)
      obtain ⟨hf, hacc, hholds, hready'⟩ := hpause s' hs' hnone hready'
      exact .inl ⟨hf, hacc, hholds, hready', hpaced⟩

/-- A pass that finds the write index inside the array and whose first `write` takes all. -/
theorem dealWrite_all {ws : List UInt8} (hw : CBuffer.Holds c.writeBuff ws)
    (pending : c.toWriteBytes ≠ 0) (hend : c.writeBuff.mIdxw ≠ c.writeBuff.mSize)
    {calls : WriteCalls} (hall : calls.TakesAll c.writeBuff.length) (arrays : Nat → UInt8)
    (errno saveErrno : Nat) :
    (c.dealWrite true arrays errno saveErrno calls).sent = ws ∧
      CBuffer.Holds (c.dealWrite true arrays errno saveErrno calls).conn.writeBuff [] := by
  have hbytes := Outgoing.toWriteBytes_eq hw
  have hne : ws ≠ [] := by
    rintro rfl
    exact pending hbytes
  rw [hw.length_eq] at hall
  obtain ⟨hsent, hring⟩ := write_all hw hne true arrays errno saveErrno hall
  have hdeal : c.dealWrite true arrays errno saveErrno calls =
      c.write_ true arrays errno saveErrno calls := if_pos pending
  have hempty := hw.pop ws.length fun hstale => absurd hstale hend
  rw [List.drop_length] at hempty
  rw [hdeal, hring]
  exact ⟨hsent, hempty⟩

end AppConn

/-! ## One client of the loop -/

namespace Loop

variable {cs : CharSign} {s t : Loop} {fd : Int} {reqs : List Request} {rest waiting : List UInt8}
  {held : Int} {reads : List ReadInput} {acts : List Action}

/-- The client stays; a read event brings one block, and a script that is run for it prints
something; and a pass with output pending finds the write index inside the array, and the first
`write` takes all of it. -/
def Attentive (fd : Int) (s : Loop) : Event → Prop
  | .hangup fd' => fd' ≠ fd
  | .readable fd' i =>
    fd' = fd → (∃ chunk, i.calls.chunks i.errno = [chunk]) ∧ i.env.popen ≠ some []
  | .batchEnd w =>
    (s.server.conn fd).toWriteBytes ≠ 0 →
      (s.server.conn fd).writeBuff.mIdxw ≠ (s.server.conn fd).writeBuff.mSize ∧
        (w fd).calls.TakesAll (s.server.conn fd).writeBuff.length
  | _ => True

/-- The client between two events: `reqs` are still to be answered, `rest` is still to come of
their bytes, and `waiting` is still to be sent. -/
structure Serving (s : Loop) (fd : Int) (reqs : List Request) (rest : List UInt8) (held : Int)
    (waiting : List UInt8) : Prop where
  booked : s.Booked
  mem : fd ∈ s.server.fdSet
  ready : Ready (s.server.conn fd).readBuff reqs rest held
  queued : CBuffer.Holds (s.server.conn fd).writeBuff waiting
  sent : waiting ≠ [] → s.inBatch = true ∧ fd ∉ s.pending

/-- What is left of the batch gets shorter. -/
theorem Serving.kept (h : Serving s fd reqs rest held waiting) (booked : t.Booked)
    (mem : fd ∈ t.server.fdSet ↔ fd ∈ s.server.fdSet)
    (conn : t.server.conn fd = s.server.conn fd)
    (batch : waiting ≠ [] → t.inBatch = s.inBatch ∧ (fd ∈ t.pending → fd ∈ s.pending)) :
    Serving t fd reqs rest held waiting := by
  refine ⟨booked, mem.mpr h.mem, conn ▸ h.ready, conn ▸ h.queued, fun hne => ?_⟩
  obtain ⟨hin, hpending⟩ := batch hne
  obtain ⟨hbatch, hnot⟩ := h.sent hne
  exact ⟨hin.trans hbatch, fun hmem => hnot (hpending hmem)⟩

/-- An event that is not about the client. -/
theorem Serving.elsewhere (h : Serving s fd reqs rest held waiting) {e : Event}
    (step : Step cs s e t) (hread : ∀ i, e ≠ .readable fd i) (hend : ∀ w, e ≠ .batchEnd w)
    (hstay : e ≠ .hangup fd) :
    Serving t fd reqs rest held waiting ∧ actionsOf fd (s.log cs e) = [] := by
  obtain ⟨enabled, hnext⟩ := step
  have hbatch := next_batch hnext
  have hkept : waiting ≠ [] → t.inBatch = s.inBatch ∧ (fd ∈ t.pending → fd ∈ s.pending) := by
    intro hne
    cases e with
    | wait reported =>
      have hin := (h.sent hne).1
      rw [enabled.1] at hin
      cases hin
    | accept fd' => exact ⟨hbatch.2, fun hmem => hbatch.1 ▸ hmem⟩
    | hangup fd' | readable fd' i | other fd' =>
      exact ⟨hbatch.2, fun hmem => List.mem_of_mem_tail (hbatch.1 ▸ hmem)⟩
    | batchEnd w => exact absurd rfl (hend w)
  obtain ⟨-, hconn, hmem, hlog⟩ | ⟨e', he', heffect⟩ := next_effect h.booked.nodup fd hnext
  · exact ⟨h.kept (h.booked.step ⟨enabled, hnext⟩) hmem hconn hkept, hlog⟩
  · generalize actionsOf fd (s.log cs e) = acts at heffect
    cases heffect with
    | elsewhere _ conn _ mem =>
      exact ⟨h.kept (h.booked.step ⟨enabled, hnext⟩) mem conn hkept, rfl⟩
    | accepted =>
      obtain rfl := Event.eq_ofServer he'
      exact absurd enabled (h.booked.not_accept h.mem)
    | hungup =>
      obtain rfl := Event.eq_ofServer he'
      exact absurd rfl hstay
    | broken i | read i =>
      obtain rfl := Event.eq_ofServer he'
      exact absurd rfl (hread i)
    | written w =>
      obtain rfl := Event.eq_ofServer he'
      exact absurd rfl (hend w)

/-- A block from the client. -/
theorem Serving.readable {i : ReadInput} {lens : List Nat}
    (h : Serving s fd reqs (i.bytes ++ rest) held waiting) (step : Step cs s (.readable fd i) t)
    (attentive : Attentive fd s (.readable fd i))
    (paced : Paced cs held reqs (i.bytes.length :: lens))
    (fits : ∀ r ∈ reqs, r.Parsable i.env ∧ (replyTo cs i.env r.frame).length ≤ 254) :
    waiting = [] ∧ sentOf (actionsOf fd (s.log cs (.readable fd i))) = [] ∧
      ((Serving t fd reqs rest (held + i.bytes.length) [] ∧
          Paced cs (held + i.bytes.length) reqs lens ∧
          framesOf (actionsOf fd (s.log cs (.readable fd i))) = [] ∧
          queuedOf (actionsOf fd (s.log cs (.readable fd i))) = []) ∨
        ∃ r reqs', reqs = r :: reqs' ∧
          Serving t fd reqs' rest (held + i.bytes.length - (r.body.length + 9))
            (replyTo cs i.env r.frame) ∧
          Paced cs (held + i.bytes.length - (r.body.length + 9)) reqs' lens ∧
          framesOf (actionsOf fd (s.log cs (.readable fd i))) = [r.frame] ∧
          queuedOf (actionsOf fd (s.log cs (.readable fd i))) = replyTo cs i.env r.frame) := by
  obtain ⟨enabled, hnext⟩ := step
  obtain ⟨⟨chunk, hchunks⟩, hout⟩ := attentive rfl
  obtain ⟨hpending, hbatch⟩ := next_batch hnext
  obtain ⟨hhead, htail⟩ := h.booked.head_not_mem_tail enabled.2
  have hnone : waiting = [] := by
    by_contra hne
    exact (h.sent hne).2 hhead
  subst hnone
  have hbytes : i.bytes = chunk.bytes := by
    rw [ReadInput.bytes, hchunks, List.flatMap_singleton]
  rw [hbytes] at h paced ⊢
  have hbooked := h.booked.step ⟨enabled, hnext⟩
  obtain ⟨hno, -⟩ | ⟨e', he', heffect⟩ := next_effect h.booked.nodup fd hnext
  · cases hno
  obtain rfl : SocketServer.Event.readable fd i = e' := Option.some.inj he'
  have hring : ((s.server.conn fd).read_ i.errno i.calls).conn =
      (s.server.conn fd).appendRead chunk.bytes := by
    rw [AppConn.read_, AppConn.readLoop_conn, hchunks]
    rfl
  generalize actionsOf fd (s.log cs (.readable fd i)) = acts at heffect ⊢
  cases heffect with
  | elsewhere given => exact absurd given (by simp [SocketServer.givenTo])
  | broken _ closes =>
    have hnone := AppConn.chunks_of_ret_nonpos closes.1
    rw [hchunks] at hnone
    cases hnone
  | read _ stays result conn =>
    rw [hring] at result ⊢
    have hmem : fd ∈ t.server.fdSet := by
      refine (hbooked.agreed fd).isClose.mp ?_
      rw [conn, (AppConn.flags_process result).1]
      exact (h.booked.agreed fd).isClose.mpr h.mem
    have hserving : ∀ {reqs' : List Request} {held' : Int} {waiting' : List UInt8},
        Ready (t.server.conn fd).readBuff reqs' rest held' →
        CBuffer.Holds (t.server.conn fd).writeBuff waiting' →
          Serving t fd reqs' rest held' waiting' := by
      intro reqs' held' waiting' hready hqueued
      refine ⟨hbooked, hmem, hready, hqueued, fun _ => ⟨hbatch.trans enabled.1, ?_⟩⟩
      rw [hpending]
      exact htail
    refine ⟨rfl, ?_, ?_⟩
    · generalize (AppConn.process ..).dispatched = f
      cases f <;> rfl
    · obtain ⟨hf, hacc, hholds, hready, hpaced⟩ | ⟨r, reqs', rfl, hf, hacc, hholds, hready, hpaced⟩ :=
        AppConn.process_paced h.ready h.queued hout paced fits result
      · rw [hf, hacc]
        exact .inl ⟨hserving (by rw [conn]; exact hready) (by rw [conn]; exact hholds), hpaced,
          rfl, rfl⟩
      · rw [hf, hacc]
        refine .inr ⟨r, reqs', rfl, hserving (by rw [conn]; exact hready)
          (by rw [conn]; exact hholds), hpaced, rfl, ?_⟩
        exact List.append_nil _

/-- The end of a batch. -/
theorem Serving.batchEnd {w : Int → WriteInput} (h : Serving s fd reqs rest held waiting)
    (step : Step cs s (.batchEnd w) t) (attentive : Attentive fd s (.batchEnd w)) :
    Serving t fd reqs rest held [] ∧ framesOf (actionsOf fd (s.log cs (.batchEnd w))) = [] ∧
      queuedOf (actionsOf fd (s.log cs (.batchEnd w))) = [] ∧
      sentOf (actionsOf fd (s.log cs (.batchEnd w))) = waiting := by
  obtain ⟨enabled, hnext⟩ := step
  have hbooked := h.booked.step ⟨enabled, hnext⟩
  have hbytes := Outgoing.toWriteBytes_eq h.queued
  obtain ⟨hno, -⟩ | ⟨e', he', heffect⟩ := next_effect h.booked.nodup fd hnext
  · cases hno
  obtain rfl : SocketServer.Event.batchEnd w = e' := Option.some.inj he'
  generalize actionsOf fd (s.log cs (.batchEnd w)) = acts at heffect ⊢
  cases heffect with
  | elsewhere given conn _ mem =>
    have hnil : waiting = [] := by
      by_contra hne
      have hpos := List.length_pos_iff.mpr hne
      have hsome : fd ∈ s.server.fdSet ∧ (s.server.conn fd).toWriteBytes ≠ 0 :=
        ⟨h.mem, by omega⟩
      rw [SocketServer.givenTo, if_pos hsome] at given
      cases given
    subst hnil
    exact ⟨h.kept hbooked mem conn fun hne => absurd rfl hne, rfl, rfl, rfl⟩
  | written _ saveErrno member pending conn =>
    obtain ⟨hend, hall⟩ := attentive pending
    obtain ⟨hsent, hempty⟩ := AppConn.dealWrite_all h.queued pending hend hall (w fd).arrays
      (w fd).errno saveErrno
    have hread : (t.server.conn fd).readBuff = (s.server.conn fd).readBuff := by
      rw [conn]
      exact AppConn.keeps_dealWrite (P := fun c' => c'.readBuff = (s.server.conn fd).readBuff)
        (fun _ _ h => h) rfl ..
    refine ⟨⟨hbooked, ?_, hread ▸ h.ready, ?_, fun hno => absurd rfl hno⟩, rfl, rfl, ?_⟩
    · refine (hbooked.agreed fd).isClose.mp ?_
      rw [conn, (AppConn.flags_dealWrite ..).1]
      exact (h.booked.agreed fd).isClose.mpr h.mem
    · rw [conn]
      exact hempty
    · rw [hsent]
      exact List.append_nil waiting

/-- The client sends the short request and is answered in the same batch. -/
def answered : Loop := reported.handled (.readable 5 SocketServer.whole)

def served : Loop := answered.handled (.batchEnd SocketServer.takesAll)

end Loop

end SocketMaster
