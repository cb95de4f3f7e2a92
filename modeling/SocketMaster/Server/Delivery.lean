import SocketMaster.Frame.Unique
import SocketMaster.Conn.Replies
import SocketMaster.Server.Exchange

/-!
# What a client is sent

A reply is queued as a whole or not at all, and a pass that the socket does not cut short takes
everything that is queued. So what a client has been sent is always a number of whole frames, each
the reply to a request of its own, in the order in which the requests were dispatched; and where
one frame ends and the next begins can be told from the bytes alone.
-/
namespace SocketMaster

open Library

/-- A frame as `make` writes it, no longer than what the write ring has room for. -/
def Made (cs : CharSign) (bytes : List UInt8) : Prop :=
  bytes.length ≤ 254 ∧ ∃ dst host client type cmd paras,
    bytes = wire (Frame.make cs dst host client type cmd paras)

/-- A reply to a request that is handled: it goes back where the request came from if the command
is a plain one, and has the command of the request, but for the setting of the time. -/
def IsReply (cs : CharSign) (f : Frame) (bytes : List UInt8) : Prop :=
  f.type ≠ typeAck ∧ HandledCmd f.cmd ∧ ∃ (arr : Int → UInt8) (paras : List (List UInt8)),
    bytes = wire (Frame.make cs arr (if PlainCmd f.cmd then f.client else nanoId)
      (if PlainCmd f.cmd then f.host else appId) typeAck
      (if f.cmd = Cmd.setTime then Cmd.askTime else f.cmd) paras)

/-- What can be queued for a frame that has been dispatched. -/
def Answers (cs : CharSign) (f : Frame) (bytes : List UInt8) : Prop :=
  bytes = [] ∨ bytes.length ≤ 254 ∧ IsReply cs f bytes

theorem Answers.made {cs : CharSign} {f : Frame} {bytes : List UInt8} (h : Answers cs f bytes) :
    bytes = [] ∨ Made cs bytes := by
  obtain hnone | ⟨hshort, -, -, arr, paras, hmade⟩ := h
  · exact .inl hnone
  · exact .inr ⟨hshort, arr, _, _, _, _, paras, hmade⟩

theorem Made.ne_nil {cs : CharSign} {bytes : List UInt8} (h : Made cs bytes) : bytes ≠ [] := by
  obtain ⟨-, dst, host, client, type, cmd, paras, rfl⟩ := h
  intro hnil
  have hlen := length_wire_make cs dst host client type cmd paras
  rw [hnil, List.length_nil] at hlen
  omega

/-- The length digits say where a frame ends. -/
theorem prefixCode_made (cs : CharSign) : PrefixCode (Made cs) id := by
  rintro _ _ xs ys ⟨hshort, dst, host, client, type, cmd, paras, rfl⟩
    ⟨hshort', dst', host', client', type', cmd', paras', rfl⟩ heq
  rw [length_wire_make] at hshort hshort'
  have hwire := Frame.cells_make cs dst host client type cmd paras
  have hwire' := Frame.cells_make cs dst' host' client' type' cmd' paras'
  have hdigits : digitChars (parasLength paras + 9) 4 = digitChars (parasLength paras' + 9) 4 := by
    have hbytes := heq
    simp only [id, wire] at hbytes
    rw [hwire, hwire'] at hbytes
    simp only [List.cons_append, List.append_assoc] at hbytes
    exact (List.append_inj (List.cons.inj hbytes).2
      (by rw [length_digitChars, length_digitChars])).1
  have hlength := digitChars_inj (by omega) (by omega) hdigits
  refine (List.append_inj heq ?_).1
  simp only [id, length_wire_make, hlength]

/-- What a handler makes is a reply. -/
theorem Answer.isReply {cs : CharSign} {env : Env} {channel : List UInt8} {c : AppConn} {f : Frame}
    {d : Handled} (a : Answer cs env channel c f d) : d.bytes = [] ∨ IsReply cs f d.bytes := by
  have hother : ∀ {cmd : UInt8} {paras : List (List UInt8)}, f.type ≠ typeAck → f.cmd = cmd →
      ¬ PlainCmd cmd → HandledCmd cmd → d.bytes = wire (Frame.make cs env.arr nanoId appId typeAck
        (if cmd = Cmd.setTime then Cmd.askTime else cmd) paras) → IsReply cs f d.bytes := by
    rintro cmd paras ht rfl hplain hhandled hbytes
    rw [IsReply, if_neg hplain, if_neg hplain]
    exact ⟨ht, hhandled, env.arr, paras, hbytes⟩
  cases a with
  | silent => exact .inl rfl
  | plain ht hc =>
    have hset : f.cmd ≠ Cmd.setTime := by
      intro heq
      rw [heq] at hc
      exact absurd hc (by decide)
    rw [IsReply, if_pos hc, if_pos hc, if_neg hset]
    exact .inr ⟨ht, .inl hc, _, _, rfl⟩
  | state ht hc => exact .inr (hother ht hc (by decide) (by decide) rfl)
  | fixedInfo ht hc | channelInfo ht hc | otherInfo ht hc =>
    exact .inr (hother ht hc (by decide) (by decide) rfl)
  | time ht hc => exact .inr (hother ht hc (by decide) (by decide) rfl)
  | setInfo ht hc => exact .inr (hother ht hc (by decide) (by decide) rfl)

theorem answers_taken {cs : CharSign} {env : Env} {channel : List UInt8} {c : AppConn} {f : Frame}
    {d : Handled} (a : Answer cs env channel c f d) (ws : List UInt8) :
    Answers cs f (taken ws d.bytes) := by
  rw [taken]
  split_ifs with hfit
  · exact a.isReply.imp_right fun hreply => ⟨by omega, hreply⟩
  · exact .inl rfl

theorem AppConn.writeBuff_close (c : AppConn) : c.close.2.writeBuff = c.writeBuff := by
  rw [close]
  split <;> rfl

/-- One call of `process`. -/
theorem AppConn.process_answers {cs : CharSign} {env : Env} {tail : Int → UInt8}
    {channel ws : List UInt8} {c : AppConn} {p : Processed} (hw : CBuffer.Holds c.writeBuff ws)
    (h : (c.process cs env tail channel).result = .ok p) :
    ∃ replies,
      List.Forall₂ (Answers cs) (c.process cs env tail channel).dispatched.toList replies ∧
        p.accepted = replies.flatten ∧ CBuffer.Holds p.conn.writeBuff (ws ++ p.accepted) := by
  obtain ⟨hnone, haccepted, hring⟩ | ⟨f, d, c', hsome, hring', hd, haccepted, hring⟩ :=
    process_handled h
  · rw [hnone, haccepted, hring, List.append_nil]
    exact ⟨[], .nil, rfl, hw⟩
  · rw [hsome, haccepted, hring]
    obtain ⟨htaken, hqueued⟩ := handled_accepted (c := c') (hring' ▸ hw) hd
    rw [htaken]
    refine ⟨[taken ws d.bytes], .cons (answers_taken (frameProcess_ok hd) ws) .nil, ?_, hqueued⟩
    exact (List.append_nil _).symm

namespace Loop

variable {cs : CharSign} {fd : Int} {s t : Loop} {e : Event} {acts : List Action}

/-- A pass with output pending finds the write index inside the array, and the first `write`
takes all of it. -/
def Flushed (fd : Int) (s : Loop) : Event → Prop
  | .batchEnd w =>
    (s.server.conn fd).toWriteBytes ≠ 0 →
      (s.server.conn fd).writeBuff.mIdxw ≠ (s.server.conn fd).writeBuff.mSize ∧
        (w fd).calls.TakesAll (s.server.conn fd).writeBuff.length
  | _ => True

/-- One event of the loop, with what it does for the client added to what was done before. -/
def FlushedStep (cs : CharSign) (fd : Int) (p : Loop × List Action) (e : Event)
    (q : Loop × List Action) : Prop :=
  Flushed fd p.1 e ∧ Step cs p.1 e q.1 ∧ q.2 = p.2 ++ actionsOf fd (p.1.log cs e)

/-- The replies that have been sent, and those that wait in the ring. -/
structure Delivers (cs : CharSign) (fd : Int) (s : Loop) (acts : List Action)
    (before after : List (List UInt8)) : Prop where
  booked : s.Booked
  answers : List.Forall₂ (Answers cs) (framesOf acts) (before ++ after)
  sent : sentOf acts = before.flatten
  waiting : CBuffer.Holds (s.server.conn fd).writeBuff after.flatten

/-- An event after which nothing has been dispatched, sent or queued. -/
theorem Delivers.kept {before after : List (List UInt8)} (h : Delivers cs fd s acts before after)
    (step : Step cs s e t) (ring : (t.server.conn fd).writeBuff = (s.server.conn fd).writeBuff)
    (hacts : actionsOf fd (s.log cs e) = []) :
    Delivers cs fd t (acts ++ actionsOf fd (s.log cs e)) before after := by
  rw [hacts, List.append_nil]
  exact ⟨h.booked.step step, h.answers, h.sent, ring ▸ h.waiting⟩

/-- One event. -/
theorem Delivers.step {before after : List (List UInt8)} (h : Delivers cs fd s acts before after)
    (flushed : Flushed fd s e) (step : Step cs s e t) :
    ∃ before' after', Delivers cs fd t (acts ++ actionsOf fd (s.log cs e)) before' after' := by
  have hbooked := h.booked.step step
  obtain ⟨-, hconn, -, hlog⟩ | ⟨e', he', heffect⟩ := next_effect h.booked.nodup fd step.2
  · exact ⟨_, _, h.kept step (by rw [hconn]) hlog⟩
  have hkept := h.kept step
  generalize actionsOf fd (s.log cs e) = new at heffect hkept ⊢
  cases heffect with
  | elsewhere _ conn => exact ⟨_, _, hkept (by rw [conn]) rfl⟩
  | accepted conn =>
    refine ⟨_, _, hkept ?_ rfl⟩
    obtain hconn | hconn := conn <;> rw [hconn]
    rfl
  | hungup conn => exact ⟨_, _, hkept (by rw [conn, AppConn.writeBuff_close]) rfl⟩
  | broken i _ conn =>
    refine ⟨_, _, hkept ?_ rfl⟩
    rw [conn, AppConn.writeBuff_close, AppConn.read_, AppConn.readLoop_conn,
      AppConn.appendReads_writeBuff]
  | read i _ result conn =>
    have hring : CBuffer.Holds ((s.server.conn fd).read_ i.errno i.calls).conn.writeBuff
        after.flatten := by
      rw [AppConn.read_, AppConn.readLoop_conn, AppConn.appendReads_writeBuff]
      exact h.waiting
    obtain ⟨replies, hanswers, haccepted, hqueued⟩ := AppConn.process_answers hring result
    refine ⟨before, after ++ replies, hbooked, ?_, ?_, ?_⟩
    · have hframes : ∀ (f : Option Frame) (bytes : List UInt8),
          framesOf (f.toList.map .dispatched ++ [.queued bytes]) = f.toList := by
        rintro (_ | f) bytes <;> rfl
      rw [framesOf_append, hframes, ← List.append_assoc]
      exact List.rel_append h.answers hanswers
    · have hsent : ∀ (f : Option Frame) (bytes : List UInt8),
          sentOf (f.toList.map .dispatched ++ [.queued bytes]) = [] := by
        rintro (_ | f) bytes <;> rfl
      rw [sentOf_append, hsent, List.append_nil, h.sent]
    · rw [conn, List.flatten_append, ← haccepted]
      exact hqueued
  | written w saveErrno _ pending conn =>
    obtain rfl := Event.eq_ofServer he'
    obtain ⟨hend, hall⟩ := flushed pending
    obtain ⟨hsent, hempty⟩ := AppConn.dealWrite_all h.waiting pending hend hall (w fd).arrays
      (w fd).errno saveErrno
    refine ⟨before ++ after, [], hbooked, ?_, ?_, ?_⟩
    · rw [framesOf_append, List.append_nil]
      have hnone : ∀ bytes, framesOf [.sent bytes] = [] := fun _ => rfl
      rw [hnone, List.append_nil]
      exact h.answers
    · rw [sentOf_append, h.sent, List.flatten_append, hsent]
      exact congrArg (before.flatten ++ ·) (List.append_nil _)
    · rw [conn]
      exact hempty

/-- In every run in which the passes for a descriptor are not cut short, each frame dispatched for
it has an answer, which is a whole frame or nothing; what has been sent is the answers to the first
of the frames, what waits in the ring is those to the others, and what has been sent can be cut
into frames in one way only. -/
theorem answers_of_run (cs : CharSign) (junk : Int → (Nat → UInt8) × (Nat → UInt8)) (fd : Int)
    (events : List Event) (t : Loop) (acts : List Action)
    (run : Run (FlushedStep cs fd) (start junk, []) events (t, acts)) :
    ∃ before after, List.Forall₂ (Answers cs) (framesOf acts) (before ++ after) ∧
      sentOf acts = before.flatten ∧ (t.server.conn fd).writeBuff.content = after.flatten ∧
      ∀ frames, (∀ bytes ∈ frames, Made cs bytes) → frames.flatten = sentOf acts →
        frames = before.filter (· ≠ []) := by
  have keep : ∀ (p : Loop × List Action) (e : Event) (q : Loop × List Action),
      (∃ before after, Delivers cs fd p.1 p.2 before after) → FlushedStep cs fd p e q →
        ∃ before after, Delivers cs fd q.1 q.2 before after := by
    rintro p e ⟨t, _⟩ ⟨before, after, h⟩ ⟨flushed, step, rfl⟩
    exact h.step flushed step
  obtain ⟨before, after, h⟩ := run.invariant keep
    ⟨[], [], booked_start junk, .nil, rfl, CBuffer.holds_new ..⟩
  refine ⟨before, after, h.answers, h.sent, h.waiting.content, fun frames hmade hcut => ?_⟩
  have hwhole : ∀ bytes ∈ before.filter (· ≠ []), Made cs bytes := by
    have hfrom : List.Forall₂ (fun bytes f => (bytes = [] ∨ Made cs bytes) ∧ Answers cs f bytes)
        (before ++ after) (framesOf acts) :=
      h.answers.flip.imp fun _ _ hf => ⟨Answers.made hf, hf⟩
    intro bytes hbytes
    obtain ⟨hmem, hsome⟩ := List.mem_filter.mp hbytes
    exact (((List.forall₂_and_left ..).mp hfrom).1 bytes
      (List.mem_append_left after hmem)).resolve_left (of_decide_eq_true hsome)
  refine (prefixCode_made cs).eq_of_flatMap_eq (fun bytes h => h.ne_nil) hmade hwhole ?_
  rw [List.flatMap_id, List.flatMap_id, hcut, h.sent, List.flatten_filter_ne_nil]

theorem flushed_cons {u : Loop} {events : List Event} {acts' : List Action}
    (flushed : Flushed fd s e) (step : Step cs s e t)
    (rest : Run (FlushedStep cs fd) (t, acts ++ actionsOf fd (s.log cs e)) events (u, acts')) :
    Run (FlushedStep cs fd) (s, acts) (e :: events) (u, acts') :=
  .cons ⟨flushed, step, rfl⟩ rest

/-- The short request is dispatched and answered. -/
theorem answers_of_run_served : ∃ acts,
    Run (FlushedStep .signed 5) (start SocketServer.zeros, [])
      [.wait [], .accept 5, .batchEnd SocketServer.takesAll, .wait [5],
        .readable 5 SocketServer.whole, .batchEnd SocketServer.takesAll] (served, acts) ∧
    ∃ before after, List.Forall₂ (Answers .signed) (framesOf acts) (before ++ after) ∧
      sentOf acts = before.flatten ∧ (served.server.conn 5).writeBuff.content = after.flatten ∧
      ∀ frames, (∀ bytes ∈ frames, Made .signed bytes) → frames.flatten = sentOf acts →
        frames = before.filter (· ≠ []) := by
  have hidle : Flushed 5 (((start SocketServer.zeros).handled (.wait [])).handled (.accept 5))
      (.batchEnd SocketServer.takesAll) :=
    fun pending => absurd (by decide +kernel) pending
  have htakes : Flushed 5 answered (.batchEnd SocketServer.takesAll) :=
    fun _ => ⟨by decide +kernel, show (answered.server.conn 5).writeBuff.length ≤ 15 by
      decide +kernel⟩
  have hread : Step .signed reported (.readable 5 SocketServer.whole) answered :=
    step_handled ⟨rfl, by decide⟩ (by decide +kernel)
  have hend : Step .signed answered (.batchEnd SocketServer.takesAll) served :=
    step_handled ⟨by decide +kernel, by decide +kernel⟩ (by decide +kernel)
  have hrun : ∃ acts, Run (FlushedStep .signed 5) (start SocketServer.zeros, [])
      [.wait [], .accept 5, .batchEnd SocketServer.takesAll, .wait [5],
        .readable 5 SocketServer.whole, .batchEnd SocketServer.takesAll] (served, acts) :=
    ⟨_, flushed_cons (e := .wait []) trivial
        (step_handled ⟨rfl, by decide, by decide⟩ (by decide)) <|
      flushed_cons (e := .accept 5) trivial (step_handled ⟨rfl, by decide, rfl⟩ (by decide)) <|
      flushed_cons (t := accepted) hidle (step_handled ⟨rfl, rfl⟩ (by decide +kernel)) <|
      flushed_cons trivial step_reported <| flushed_cons trivial hread <|
      flushed_cons htakes hend (.nil _)⟩
  obtain ⟨acts, run⟩ := hrun
  exact ⟨acts, run, answers_of_run .signed SocketServer.zeros 5 _ served acts run⟩

end Loop

end SocketMaster
