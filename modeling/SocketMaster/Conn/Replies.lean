import SocketMaster.Conn.Contents

/-!
# Whether a request gets its own acknowledgement

The plain commands are answered by `ack`, which takes the addresses and the command from the
request. Each of the other handlers passes constants of its own to `make`: the addresses of one
particular sender and receiver, and in the case of `SET_TIME` the command of another request.
A reply that repeats a long parameter does not fit the ring, and is not queued at all.
-/
namespace SocketMaster

open Library

@[simp] theorem length_wire (r : Stores UInt8 × Int) : (wire r).length = r.2.toNat := by
  simp [wire]

/-- A frame with this much in its parameters is one that an empty ring takes in. -/
theorem make_fits_iff {cs : CharSign} {dst : Int → UInt8} {host client type cmd : UInt8}
    {paras : List (List UInt8)} :
    (Frame.make cs dst host client type cmd paras).2 ≤ 254 ↔ parasLength paras ≤ 241 := by
  rw [Frame.make_ret]
  omega

theorem length_wire_make (cs : CharSign) (dst : Int → UInt8) (host client type cmd : UInt8)
    (paras : List (List UInt8)) :
    (wire (Frame.make cs dst host client type cmd paras)).length = parasLength paras + 13 := by
  rw [length_wire, Frame.make_ret]
  omega

/-- The control bytes of a frame that was made, among the bytes queued. -/
theorem ctrl_wire_make (cs : CharSign) (dst : Int → UInt8) (host client type cmd : UInt8)
    (paras : List (List UInt8)) :
    ((wire (Frame.make cs dst host client type cmd paras)).drop 5).take 4 =
      [host, client, type, cmd] := by
  rw [← Frame.cells_ctrl_make cs dst host client type cmd paras]
  apply List.ext_getElem
  · rw [List.length_take, List.length_drop, length_wire_make, length_cells]
    omega
  · intro i hi _
    rw [List.length_take] at hi
    rw [List.getElem_take, List.getElem_drop, getElem_cells]
    simp only [wire, getElem_cells]
    congr 1
    omega

/-- The bytes are one frame, an acknowledgement of `f` that goes back where `f` came from. -/
def Acknowledges (cs : CharSign) (f : Frame) (bytes : List UInt8) : Prop :=
  ∃ dst paras, bytes = wire (Frame.make cs dst f.client f.host typeAck f.cmd paras)

theorem acknowledges_make_iff {cs : CharSign} {f : Frame} (dst : Int → UInt8)
    {host client cmd : UInt8} (paras : List (List UInt8)) :
    Acknowledges cs f (wire (Frame.make cs dst host client typeAck cmd paras)) ↔
      host = f.client ∧ client = f.host ∧ cmd = f.cmd := by
  constructor
  · rintro ⟨dst', paras', h⟩
    have hctrl := congrArg (fun xs => (xs.drop 5).take 4) h
    simp only [ctrl_wire_make, List.cons.injEq] at hctrl
    obtain ⟨hhost, hclient, -, hcmd, -⟩ := hctrl
    exact ⟨hhost, hclient, hcmd⟩
  · rintro ⟨rfl, rfl, rfl⟩
    exact ⟨dst, paras, rfl⟩

theorem not_acknowledges_nil {cs : CharSign} {f : Frame} : ¬ Acknowledges cs f [] := by
  rintro ⟨dst, paras, h⟩
  have hlen := congrArg List.length h
  rw [length_wire_make, List.length_nil] at hlen
  omega

/-- What an `ASK_INFO` request must keep to for its reply to be queued. -/
structure InfoQueued (env : Env) (channel p : List UInt8) (infoType : Int) : Prop where
  fixed : FixedInfo infoType → p.length ≤ 238
  channel : infoType = 4 → ∀ out, env.popen = some out →
    p.length + (channelVersion (readChannel channel out)).length ≤ 239
  other : ¬ FixedInfo infoType → infoType ≠ 4 → p.length ≤ 240

/-- The requests that get their own acknowledgement: one of the plain commands, or a request
from the one sender to the one receiver that the handlers know, other than `SET_TIME`, whose
parameter is not too long to be repeated. -/
structure OwnReply (env : Env) (channel : List UInt8) (f : Frame) : Prop where
  address : ¬ PlainCmd f.cmd → f.host = appId ∧ f.client = nanoId
  time : f.cmd ≠ Cmd.setTime
  info : f.cmd = Cmd.askInfo → ∀ p k, f.FirstPara p → InfoType env p k →
    InfoQueued env channel p k
  setInfo : f.cmd = Cmd.setInfo → ∀ p t, f.FirstPara p → stoi p = .ok t → p.length ≤ 238

section

variable (cs : CharSign) (env : Env) (channel : List UInt8) (c : AppConn) (f : Frame)

/-- What handling a frame should add to `writeBuff_`: an acknowledgement of its own for a
request that is handled, and nothing otherwise. -/
structure AnswersOnce : Prop where
  request : f.type ≠ typeAck → HandledCmd f.cmd → Answerable env f →
    ∃ d, c.frameProcess cs env channel f = .ok d ∧ Acknowledges cs f d.conn.writeBuff.content
  other : f.type = typeAck ∨ ¬ HandledCmd f.cmd →
    ∃ d, c.frameProcess cs env channel f = .ok d ∧ d.conn.writeBuff = c.writeBuff

variable {cs env channel c f}

/-- A frame queued on an empty ring: it is there as a whole, or the ring stays empty. -/
theorem acknowledges_reply_iff (hw : CBuffer.Holds c.writeBuff []) (buf : List UInt8)
    (dst : Int → UInt8) {host client cmd : UInt8} (paras : List (List UInt8))
    (commands : List String) :
    Acknowledges cs f (c.reply buf (Frame.make cs dst host client typeAck cmd paras)
        commands).conn.writeBuff.content ↔
      (host = f.client ∧ client = f.host ∧ cmd = f.cmd) ∧ parasLength paras ≤ 241 := by
  have hring := (hw.append_taken c.writeBuff_size
    (wire (Frame.make cs dst host client typeAck cmd paras))).2
  have hcontent : (c.reply buf (Frame.make cs dst host client typeAck cmd paras)
      commands).conn.writeBuff.content =
        taken [] (wire (Frame.make cs dst host client typeAck cmd paras)) := hring.content
  rw [hcontent, taken, length_wire_make, List.length_nil]
  by_cases hfit : parasLength paras ≤ 241
  · rw [if_pos (by omega), acknowledges_make_iff]
    exact (and_iff_left hfit).symm
  · rw [if_neg (by omega)]
    exact iff_of_false not_acknowledges_nil fun h => hfit h.2

/-- The acknowledgement that `frameProcess` queues, for each way it can return. -/
theorem Answer.acknowledges_iff {d : Handled} (a : Answer cs env channel c f d)
    (hw : CBuffer.Holds c.writeBuff []) (ht : f.type ≠ typeAck) (hc : HandledCmd f.cmd) :
    Acknowledges cs f d.conn.writeBuff.content ↔
      PlainCmd f.cmd ∨ (f.host = appId ∧ f.client = nanoId) ∧ f.cmd ≠ Cmd.setTime ∧
        ∃ r, d.made = some r ∧ r.2 ≤ 254 := by
  have hnot : ∀ {cmd : UInt8}, f.cmd = cmd → ¬ PlainCmd cmd → ¬ PlainCmd f.cmd := by
    rintro cmd rfl h
    exact h
  cases a with
  | silent h => exact absurd hc (h.resolve_left ht)
  | plain _ hplain =>
    rw [Frame.ack, acknowledges_reply_iff hw]
    exact iff_of_true ⟨⟨rfl, rfl, rfl⟩, by decide⟩ (.inl hplain)
  | time _ htime =>
    rw [acknowledges_reply_iff hw]
    refine iff_of_false (fun h => ?_) (fun h => ?_)
    · exact absurd (h.1.2.2.trans htime) (by decide)
    · obtain hplain | ⟨-, hother, -⟩ := h
      · exact hnot htime (by decide) hplain
      · exact hother htime
  | state _ hcmd | fixedInfo _ hcmd | channelInfo _ hcmd | otherInfo _ hcmd | setInfo _ hcmd =>
    have hplain := hnot hcmd (by decide)
    have hother : f.cmd ≠ Cmd.setTime := fun h => absurd (hcmd.symm.trans h) (by decide)
    rw [acknowledges_reply_iff hw, or_iff_right hplain]
    constructor
    · rintro ⟨⟨hclient, hhost, -⟩, hfit⟩
      exact ⟨⟨hhost.symm, hclient.symm⟩, hother, _, rfl, make_fits_iff.mpr hfit⟩
    · rintro ⟨⟨hhost, hclient⟩, -, r, hr, hfit⟩
      cases hr
      exact ⟨⟨hclient.symm, hhost.symm, hcmd.symm⟩, make_fits_iff.mp hfit⟩

/-- A reply made for a request that meets the condition is short enough to be queued. -/
theorem OwnReply.fits (h : OwnReply env channel f) {d : Handled} (a : Answer cs env channel c f d)
    (ht : f.type ≠ typeAck) (hc : HandledCmd f.cmd) (hplain : ¬ PlainCmd f.cmd) :
    ∃ r, d.made = some r ∧ r.2 ≤ 254 := by
  cases a with
  | silent hs => exact absurd hc (hs.resolve_left ht)
  | plain _ hp => exact absurd hp hplain
  | state _ hcmd =>
    have hthree : (AppConn.capacityText env).length ≤ 3 := length_cutText _
    refine ⟨_, rfl, make_fits_iff.mpr ?_⟩
    simp only [parasLength_cons, parasLength_nil, zeroText, List.length_cons, List.length_nil]
    omega
  | fixedInfo _ hcmd hp hk hfix =>
    have hle := (h.info hcmd _ _ hp hk).fixed hfix
    refine ⟨_, rfl, make_fits_iff.mpr ?_⟩
    simp only [parasLength_cons, parasLength_nil, zeroText, List.length_singleton]
    omega
  | channelInfo _ hcmd hp hk hout =>
    have hle := (h.info hcmd _ _ hp hk).channel rfl _ hout
    refine ⟨_, rfl, make_fits_iff.mpr ?_⟩
    simp only [parasLength_cons, parasLength_nil]
    omega
  | otherInfo _ hcmd hp hk hfix h4 =>
    have hle := (h.info hcmd _ _ hp hk).other hfix h4
    refine ⟨_, rfl, make_fits_iff.mpr ?_⟩
    simp only [parasLength_cons, parasLength_nil]
    omega
  | time _ hcmd => exact absurd hcmd h.time
  | setInfo _ hcmd hp hi =>
    have hle := h.setInfo hcmd _ _ hp hi
    refine ⟨_, rfl, make_fits_iff.mpr ?_⟩
    simp only [parasLength_cons, parasLength_nil, length_setInfoAction]
    omega

/-- A frame that gets its own acknowledgement meets the condition. -/
theorem AnswersOnce.ownReply (h : AnswersOnce cs env channel c f)
    (hw : CBuffer.Holds c.writeBuff []) (ht : f.type ≠ typeAck) (hc : HandledCmd f.cmd)
    (ha : Answerable env f) : OwnReply env channel f := by
  obtain ⟨d, hd, hack⟩ := h.request ht hc ha
  have hcases := ((frameProcess_ok hd).acknowledges_iff hw ht hc).mp hack
  -- every answer is the one returned, and so is short enough
  have hfits : ∀ {d' : Handled} {dst : Int → UInt8} {host client type cmd : UInt8}
      {paras : List (List UInt8)}, Answer cs env channel c f d' →
      d'.made = some (Frame.make cs dst host client type cmd paras) → ¬ PlainCmd f.cmd →
        parasLength paras ≤ 241 := by
    intro d' dst host client type cmd paras a hr hplain
    obtain rfl : d = d' := Except.ok.inj (hd.symm.trans a.ok)
    obtain ⟨-, -, r', hr', hle⟩ := hcases.resolve_left hplain
    cases hr.symm.trans hr'
    exact make_fits_iff.mp hle
  refine ⟨fun hplain => (hcases.resolve_left hplain).1, fun htime => ?_, ?_, ?_⟩
  · obtain hplain | ⟨-, hother, -⟩ := hcases
    · exact absurd (htime ▸ hplain) (by decide)
    · exact hother htime
  · intro hcmd p k hp hk
    have hplain : ¬ PlainCmd f.cmd := hcmd ▸ by decide
    refine ⟨fun hfix => ?_, ?_, fun hfix h4 => ?_⟩
    · have hle := hfits (.fixedInfo ht hcmd hp hk hfix) rfl hplain
      simp only [parasLength_cons, parasLength_nil, zeroText, List.length_singleton] at hle
      omega
    · rintro rfl out hout
      have hle := hfits (.channelInfo ht hcmd hp hk hout) rfl hplain
      simp only [parasLength_cons, parasLength_nil] at hle
      omega
    · have hle := hfits (.otherInfo ht hcmd hp hk hfix h4) rfl hplain
      simp only [parasLength_cons, parasLength_nil] at hle
      omega
  · intro hcmd p t hp hi
    have hplain : ¬ PlainCmd f.cmd := hcmd ▸ by decide
    have hle := hfits (.setInfo ht hcmd hp hi) rfl hplain
    simp only [parasLength_cons, parasLength_nil, length_setInfoAction] at hle
    omega

theorem answersOnce_iff_ownReply (hw : CBuffer.Holds c.writeBuff []) :
    AnswersOnce cs env channel c f ↔
      (f.type ≠ typeAck → HandledCmd f.cmd → Answerable env f → OwnReply env channel f) := by
  refine ⟨fun h => h.ownReply hw, fun h => ⟨fun ht hc ha => ?_, fun hsilent => ?_⟩⟩
  · obtain ⟨d, hd⟩ := (frameProcess_returns_iff cs env channel c f).mpr (.inr ha)
    have a := frameProcess_ok hd
    refine ⟨d, hd, (a.acknowledges_iff hw ht hc).mpr ?_⟩
    by_cases hplain : PlainCmd f.cmd
    · exact .inl hplain
    · have hown := h ht hc ha
      exact .inr ⟨hown.address hplain, hown.time, hown.fits a ht hc hplain⟩
  · exact ⟨_, (Answer.silent hsilent).ok, rfl⟩

end

/-- For every frame that a connection with an empty write ring handles, whatever it has passed
over before: the frame gets exactly its own acknowledgement just if it meets the condition. -/
theorem answersOnce_iff {cs : CharSign} {c : AppConn} (h : c.Reachable cs)
    (hempty : c.writeBuff.isEmpty = true) (env : Env) (channel : List UInt8) (discard : Int)
    (f : Frame) : AnswersOnce cs env channel (c.popRead discard) f ↔
      (f.type ≠ typeAck → HandledCmd f.cmd → Answerable env f → OwnReply env channel f) := by
  have hidxr := h.indexed.write
  rw [← c.writeBuff_size] at hidxr
  exact answersOnce_iff_ownReply (c := c.popRead discard) (CBuffer.holds_nil hidxr hempty)

/-- The test request, on a fresh connection. -/
theorem answersOnce_testRequest :
    AnswersOnce .signed printsNinetyNine []
      ((AppConn.new (fun _ => 0) fun _ => 0).popRead 0) testRequest.frame :=
  (answersOnce_iff (AppConn.reachable_new ..) rfl ..).mpr fun _ _ _ =>
    ⟨fun h => absurd (by decide) h, by decide, fun h => absurd h (by decide),
      fun h => absurd h (by decide)⟩

/-- A `SET_TIME` request from the sender that the handlers know, with the time zero. -/
def setTimeRequest : Request := ⟨[0x31, 0x33, 0x30, 0x37, 0x30, 0x20], by decide, by decide⟩

/-- It is accepted, and answered with the command `ASK_TIME`. -/
theorem not_answersOnce_setTimeRequest :
    let f := (Frame.init .signed {} 0 15).val (overlay setTimeRequest.bytes fun _ => 0)
    f.state = .ok ∧ ¬ AnswersOnce .signed printsNinetyNine []
      ((AppConn.new (fun _ => 0) fun _ => 0).popRead 0) f := by
  have hf : (Frame.init .signed {} 0 15).val (overlay setTimeRequest.bytes fun _ => 0) =
      setTimeRequest.frame := by decide
  have hempty : CBuffer.Holds ((AppConn.new (fun _ => 0) fun _ => 0).popRead 0).writeBuff [] :=
    CBuffer.holds_new ..
  have hparsed : setTimeRequest.frame.FirstPara [0x30] ∧ stoi [0x30] = .ok 0 := by decide
  rw [hf]
  refine ⟨rfl, fun h => ?_⟩
  have hown := (answersOnce_iff_ownReply hempty).mp h (by decide) (by decide)
    ⟨fun hinfo => absurd hinfo (by decide), fun _ => ⟨_, _, hparsed⟩⟩
  exact hown.time rfl

end SocketMaster
