import SocketMaster.Conn.Process
import SocketMaster.Frame.Wire

/-!
# How requests are answered

`Answer` lists every way `frameProcess` can return, and `frameProcess_ok_iff` says that there
are no others. From it follow the requests that are answered at all, and the ones whose reply
fits the 256 bytes of the caller's array.
-/
namespace SocketMaster

open Library

/-- The parameter that the handlers of `ASK_INFO`, `SET_TIME` and `SET_INFO` start from. -/
def Frame.FirstPara (f : Frame) (p : List UInt8) : Prop := f.paras[0]? = some p

instance (f : Frame) (p : List UInt8) : Decidable (f.FirstPara p) := by
  unfold Frame.FirstPara
  infer_instance

/-- The commands that are acknowledged and nothing else. -/
def PlainCmd (cmd : UInt8) : Prop :=
  cmd = Cmd.test ∨ cmd = Cmd.init ∨ cmd = Cmd.start ∨ cmd = Cmd.stop ∨ cmd = Cmd.askTime

/-- The commands that `frameProcess` handles. -/
def HandledCmd (cmd : UInt8) : Prop :=
  PlainCmd cmd ∨ cmd = Cmd.askState ∨ cmd = Cmd.askInfo ∨ cmd = Cmd.setTime ∨ cmd = Cmd.setInfo

instance : DecidablePred PlainCmd := fun cmd => by
  unfold PlainCmd
  infer_instance

instance : DecidablePred HandledCmd := fun cmd => by
  unfold HandledCmd
  infer_instance

/-- The info types that are answered with a zero. -/
def FixedInfo (infoType : Int) : Prop :=
  infoType = 3 ∨ infoType = 0 ∨ infoType = 1 ∨ infoType = 2

/-- `std::stod` as the handler uses it, converted to `int`. -/
def InfoType (env : Env) (p : List UInt8) (infoType : Int) : Prop :=
  ∃ v, stod p = .ok v ∧ v.toInt?.getD env.wild = infoType

section

variable (cs : CharSign) (env : Env) (channel : List UInt8) (c : AppConn) (f : Frame)

/-- The frame that answers an `ASK_INFO`. -/
abbrev infoReply (paras : List (List UInt8)) : Stores UInt8 × Int :=
  Frame.make cs env.arr nanoId appId typeAck Cmd.askInfo paras

/-- What `frameProcess` can return. -/
inductive Answer : Handled → Prop where
  | silent (h : f.type = typeAck ∨ ¬ HandledCmd f.cmd) : Answer { conn := c, channel }
  | plain (ht : f.type ≠ typeAck) (hc : PlainCmd f.cmd) :
      Answer (c.reply channel
        (f.ack cs (fun i => if 0 ≤ i ∧ i < 256 then 0 else env.arr i) [zeroText]) [])
  | state (ht : f.type ≠ typeAck) (hc : f.cmd = Cmd.askState) :
      Answer (c.reply channel (Frame.make cs env.arr nanoId appId typeAck Cmd.askState
        [zeroText, [0x30, 0x39, 0x38], AppConn.capacityText env]) [])
  | fixedInfo (ht : f.type ≠ typeAck) (hc : f.cmd = Cmd.askInfo) {p : List UInt8} {k : Int}
      (hp : f.FirstPara p) (hk : InfoType env p k) (hfix : FixedInfo k) :
      Answer (c.reply channel (infoReply cs env [p, zeroText]) [])
  | channelInfo (ht : f.type ≠ typeAck) (hc : f.cmd = Cmd.askInfo) {p out : List UInt8}
      (hp : f.FirstPara p) (hk : InfoType env p 4) (hout : env.popen = some out) :
      Answer (c.reply (readChannel channel out)
        (infoReply cs env [p, channelVersion (readChannel channel out)])
        ["/home/hhu/socket-master-new/1"])
  | otherInfo (ht : f.type ≠ typeAck) (hc : f.cmd = Cmd.askInfo) {p : List UInt8} {k : Int}
      (hp : f.FirstPara p) (hk : InfoType env p k) (hfix : ¬ FixedInfo k) (h4 : k ≠ 4) :
      Answer (c.reply channel (infoReply cs env [p]) [])
  | time (ht : f.type ≠ typeAck) (hc : f.cmd = Cmd.setTime) {p : List UInt8} {t : Int}
      (hp : f.FirstPara p) (hi : stoi p = .ok t) :
      Answer (c.reply channel (Frame.make cs env.arr nanoId appId typeAck Cmd.askTime
        [toString10 (AppConn.setTime env t)]) [])
  | setInfo (ht : f.type ≠ typeAck) (hc : f.cmd = Cmd.setInfo) {p : List UInt8} {t : Int}
      (hp : f.FirstPara p) (hi : stoi p = .ok t) :
      Answer (c.reply channel (Frame.make cs env.arr nanoId appId typeAck Cmd.setInfo
        [p, (AppConn.setInfoAction env.system t).1]) (AppConn.setInfoAction env.system t).2)

variable {cs env channel c f}

theorem para_ok_iff {f : Frame} {p : List UInt8} : f.para 0 = .ok p ↔ f.FirstPara p := by
  unfold Frame.para Frame.FirstPara
  split <;> simp_all

theorem uncaught_ok_iff {α : Type} {x : Except ParseError α} {a : α} :
    uncaught x = .ok a ↔ x = .ok a := by
  cases x <;> simp [uncaught]

theorem bind_ok_iff {α β : Type} {x : Except Fault α} {g : α → Except Fault β} {b : β} :
    x >>= g = .ok b ↔ ∃ a, x = .ok a ∧ g a = .ok b := by
  cases x with
  | error e => simp [Bind.bind, Except.bind]
  | ok a => simp [Bind.bind, Except.bind]

theorem cmdAskInfo_ok (ht : f.type ≠ typeAck) (hc : f.cmd = Cmd.askInfo) {h : Handled}
    (hok : c.cmdAskInfo cs env channel f = .ok h) : Answer cs env channel c f h := by
  simp only [AppConn.cmdAskInfo, bind_ok_iff, para_ok_iff, uncaught_ok_iff] at hok
  obtain ⟨p, hp, v, hv, hok⟩ := hok
  have hk : InfoType env p (v.toInt?.getD env.wild) := ⟨v, hv, rfl⟩
  generalize v.toInt?.getD env.wild = k at hk hok
  split_ifs at hok with hfix h4
  · cases hok
    exact .fixedInfo ht hc hp hk hfix
  · subst h4
    cases hout : env.popen with
    | none => simp only [hout] at hok; cases hok
    | some out =>
      simp only [hout] at hok
      cases hok
      exact .channelInfo ht hc hp hk hout
  · cases hok
    exact .otherInfo ht hc hp hk hfix h4

theorem frameProcess_ok {h : Handled} (hok : c.frameProcess cs env channel f = .ok h) :
    Answer cs env channel c f h := by
  unfold AppConn.frameProcess at hok
  split_ifs at hok with ht hplain hstate hinfo htime hset
  · cases hok
    exact .silent (.inl ht)
  · cases hok
    exact .plain ht hplain
  · cases hok
    exact .state ht hstate
  · exact cmdAskInfo_ok ht hinfo hok
  · simp only [AppConn.cmdSetTime, bind_ok_iff, para_ok_iff, uncaught_ok_iff] at hok
    obtain ⟨p, hp, t, hi, hok⟩ := hok
    cases hok
    exact .time ht htime hp hi
  · simp only [AppConn.cmdSetInfo, bind_ok_iff, para_ok_iff, uncaught_ok_iff] at hok
    obtain ⟨p, hp, t, hi, hok⟩ := hok
    cases hok
    exact .setInfo ht hset hp hi
  · cases hok
    refine .silent (.inr ?_)
    rintro (h | h | h | h | h)
    · exact hplain h
    · exact hstate h
    · exact hinfo h
    · exact htime h
    · exact hset h

theorem frameProcess_askInfo (ht : f.type ≠ typeAck) (hc : f.cmd = Cmd.askInfo) :
    c.frameProcess cs env channel f = c.cmdAskInfo cs env channel f := by
  rw [AppConn.frameProcess, if_neg ht, hc]
  rfl

theorem frameProcess_setTime (ht : f.type ≠ typeAck) (hc : f.cmd = Cmd.setTime) :
    c.frameProcess cs env channel f = c.cmdSetTime cs env channel f := by
  rw [AppConn.frameProcess, if_neg ht, hc]
  rfl

theorem frameProcess_setInfo (ht : f.type ≠ typeAck) (hc : f.cmd = Cmd.setInfo) :
    c.frameProcess cs env channel f = c.cmdSetInfo cs env channel f := by
  rw [AppConn.frameProcess, if_neg ht, hc]
  rfl

/-- Every way listed is one in which `frameProcess` returns. -/
theorem Answer.ok {h : Handled} (a : Answer cs env channel c f h) :
    c.frameProcess cs env channel f = .ok h := by
  cases a with
  | silent h =>
    obtain ht | hcmd := h
    · rw [AppConn.frameProcess, if_pos ht]
    · simp only [HandledCmd, PlainCmd, not_or] at hcmd
      simp [AppConn.frameProcess, hcmd]
  | plain ht hc =>
    unfold PlainCmd at hc
    rw [AppConn.frameProcess, if_neg ht, if_pos hc]
  | state ht hc =>
    rw [AppConn.frameProcess, if_neg ht, hc]
    rfl
  | fixedInfo ht hc hp hk hfix =>
    obtain ⟨v, hv, rfl⟩ := hk
    simp only [frameProcess_askInfo ht hc, AppConn.cmdAskInfo, bind_ok_iff, para_ok_iff,
      uncaught_ok_iff]
    refine ⟨_, hp, v, hv, ?_⟩
    unfold FixedInfo at hfix
    rw [if_pos hfix]
    rfl
  | channelInfo ht hc hp hk hout =>
    obtain ⟨v, hv, h4⟩ := hk
    simp only [frameProcess_askInfo ht hc, AppConn.cmdAskInfo, bind_ok_iff, para_ok_iff,
      uncaught_ok_iff]
    refine ⟨_, hp, v, hv, ?_⟩
    rw [h4, hout]
    rfl
  | otherInfo ht hc hp hk hfix h4 =>
    obtain ⟨v, hv, rfl⟩ := hk
    simp only [frameProcess_askInfo ht hc, AppConn.cmdAskInfo, bind_ok_iff, para_ok_iff,
      uncaught_ok_iff]
    refine ⟨_, hp, v, hv, ?_⟩
    unfold FixedInfo at hfix
    rw [if_neg hfix, if_neg h4]
    rfl
  | time ht hc hp hi =>
    simp only [frameProcess_setTime ht hc, AppConn.cmdSetTime, bind_ok_iff, para_ok_iff,
      uncaught_ok_iff]
    exact ⟨_, hp, _, hi, rfl⟩
  | setInfo ht hc hp hi =>
    simp only [frameProcess_setInfo ht hc, AppConn.cmdSetInfo, bind_ok_iff, para_ok_iff,
      uncaught_ok_iff]
    exact ⟨_, hp, _, hi, rfl⟩

/-- A handler leaves the connection alone, or queues the frame it has made. -/
theorem Answer.made_cases {h : Handled} (a : Answer cs env channel c f h) :
    h.made = none ∧ h.conn = c ∧ h.accepted = [] ∨
      ∃ r, h.made = some r ∧ h = c.reply h.channel r h.commands := by
  cases a with
  | silent => exact .inl ⟨rfl, rfl, rfl⟩
  | plain | state | fixedInfo | channelInfo | otherInfo | time | setInfo => exact .inr ⟨_, rfl, rfl⟩

theorem Answer.readBuff {h : Handled} (a : Answer cs env channel c f h) :
    h.conn.readBuff = c.readBuff := by
  obtain ⟨-, hc, -⟩ | ⟨r, -, hc⟩ := a.made_cases
  · rw [hc]
  · rw [hc]
    rfl

/-- Every way `frameProcess` returns. -/
theorem frameProcess_ok_iff {h : Handled} :
    c.frameProcess cs env channel f = .ok h ↔ Answer cs env channel c f h :=
  ⟨frameProcess_ok, Answer.ok⟩

end

/-! ## Requests that bring the server down -/

/-- The requests that `frameProcess` can answer: the parameter that the handler takes for
granted is there and is a number, and the channel script can be started if it is needed. -/
structure Answerable (env : Env) (f : Frame) : Prop where
  info : f.cmd = Cmd.askInfo →
    ∃ p k, f.FirstPara p ∧ InfoType env p k ∧ (k = 4 → env.popen ≠ none)
  number : f.cmd = Cmd.setTime ∨ f.cmd = Cmd.setInfo → ∃ p t, f.FirstPara p ∧ stoi p = .ok t

theorem cmd_cases (cmd : UInt8) : ¬ HandledCmd cmd ∨ PlainCmd cmd ∨ cmd = Cmd.askState ∨
    cmd = Cmd.askInfo ∨ cmd = Cmd.setTime ∨ cmd = Cmd.setInfo := by
  unfold HandledCmd
  tauto

theorem Answer.askInfo {cs : CharSign} {env : Env} {channel : List UInt8} {c : AppConn} {f : Frame}
    {h : Handled} (a : Answer cs env channel c f h) (ht : f.type ≠ typeAck)
    (hc : f.cmd = Cmd.askInfo) :
    ∃ p k, f.FirstPara p ∧ InfoType env p k ∧ (k = 4 → env.popen ≠ none) := by
  cases a with
  | silent h => exact absurd (h.resolve_left ht) (hc ▸ by decide)
  | plain _ hc' => exact absurd hc' (hc ▸ by decide)
  | state _ hc' | time _ hc' | setInfo _ hc' => exact absurd (hc.symm.trans hc') (by decide)
  | fixedInfo _ _ hp hk hfix =>
    refine ⟨_, _, hp, hk, ?_⟩
    rintro rfl
    exact absurd hfix (by simp [FixedInfo])
  | channelInfo _ _ hp hk hout => exact ⟨_, _, hp, hk, by simp [hout]⟩
  | otherInfo _ _ hp hk _ h4 => exact ⟨_, _, hp, hk, fun h => absurd h h4⟩

theorem Answer.number {cs : CharSign} {env : Env} {channel : List UInt8} {c : AppConn} {f : Frame}
    {h : Handled} (a : Answer cs env channel c f h) (ht : f.type ≠ typeAck)
    (hc : f.cmd = Cmd.setTime ∨ f.cmd = Cmd.setInfo) :
    ∃ p t, f.FirstPara p ∧ stoi p = .ok t := by
  have hno : ∀ cmd, f.cmd = cmd → cmd ≠ Cmd.setTime → cmd ≠ Cmd.setInfo → False := by
    rintro cmd rfl h1 h2
    exact hc.elim h1 h2
  cases a with
  | silent h =>
    have := h.resolve_left ht
    obtain hc | hc := hc <;> exact absurd this (hc ▸ by decide)
  | plain _ hc' => obtain hc | hc := hc <;> exact absurd hc' (hc ▸ by decide)
  | state _ hc' => exact (hno _ hc' (by decide) (by decide)).elim
  | fixedInfo _ hc' | channelInfo _ hc' | otherInfo _ hc' =>
    exact (hno _ hc' (by decide) (by decide)).elim
  | time _ _ hp hi | setInfo _ _ hp hi => exact ⟨_, _, hp, hi⟩

/-- `frameProcess` runs to its end exactly on acknowledgements and on the requests that it
can answer. -/
theorem frameProcess_returns_iff (cs : CharSign) (env : Env) (channel : List UInt8) (c : AppConn)
    (f : Frame) : (∃ h, c.frameProcess cs env channel f = .ok h) ↔
      f.type = typeAck ∨ Answerable env f := by
  simp only [frameProcess_ok_iff]
  constructor
  · rintro ⟨h, a⟩
    by_cases ht : f.type = typeAck
    · exact .inl ht
    · exact .inr ⟨a.askInfo ht, a.number ht⟩
  · intro h
    by_cases ht : f.type = typeAck
    · exact ⟨_, .silent (.inl ht)⟩
    obtain ⟨info, number⟩ := h.resolve_left ht
    obtain hc | hc | hc | hc | hc | hc := cmd_cases f.cmd
    · exact ⟨_, .silent (.inr hc)⟩
    · exact ⟨_, .plain ht hc⟩
    · exact ⟨_, .state ht hc⟩
    · obtain ⟨p, k, hp, hk, hopen⟩ := info hc
      by_cases hfix : FixedInfo k
      · exact ⟨_, .fixedInfo ht hc hp hk hfix⟩
      by_cases h4 : k = 4
      · obtain ⟨out, hout⟩ := Option.ne_none_iff_exists'.mp (hopen h4)
        exact ⟨_, .channelInfo ht hc hp (h4 ▸ hk) hout⟩
      · exact ⟨_, .otherInfo ht hc hp hk hfix h4⟩
    · obtain ⟨p, t, hp, hi⟩ := number (.inl hc)
      exact ⟨_, .time ht hc hp hi⟩
    · obtain ⟨p, t, hp, hi⟩ := number (.inr hc)
      exact ⟨_, .setInfo ht hc hp hi⟩

/-- A `SET_TIME` request without a parameter. -/
def bareSetTime : List UInt8 := [83, 48, 48, 48, 52, 49, 51, 48, 55, 50, 48, 51, 10]

/-- It is accepted, and its handler then indexes a parameter that is not there. -/
theorem not_returns_bareSetTime :
    let f := (Frame.init .signed {} 0 13).val (overlay bareSetTime fun _ => 0)
    f.state = .ok ∧ ∀ (env : Env) (channel : List UInt8) (c : AppConn),
      c.frameProcess .signed env channel f = .error .paraIndex := by
  refine ⟨by decide, fun env channel c => ?_⟩
  have hf : (Frame.init .signed {} 0 13).val (overlay bareSetTime fun _ => 0) =
      { head := 83, length := 4, host := 49, client := 51, type := 48, cmd := 55, paras := []
        check := 203, state := .ok } := by decide
  rw [hf]
  rfl

/-! ## Replies that fit their array -/

/-- The stores of a call of `make` stay inside the 256 bytes of the array. -/
def Inside (r : Stores UInt8 × Int) : Prop := ∀ a ∈ r.1.log, 0 ≤ a ∧ a < 256

theorem inside_make_iff (cs : CharSign) (dst : Int → UInt8) (host client type cmd : UInt8)
    (paras : List (List UInt8)) :
    Inside (Frame.make cs dst host client type cmd paras) ↔ parasLength paras ≤ 243 := by
  simp only [Inside, Frame.mem_log_make]
  constructor
  · intro h
    have := h (parasLength paras + 12) (by omega)
    omega
  · intro h a ha
    omega

/-- What an `ASK_INFO` request must keep to for its reply to fit. -/
structure InfoFits (env : Env) (channel p : List UInt8) (infoType : Int) : Prop where
  fixed : FixedInfo infoType → p.length ≤ 240
  channel : infoType = 4 → ∀ out, env.popen = some out →
    p.length + (channelVersion (readChannel channel out)).length ≤ 241
  other : ¬ FixedInfo infoType → infoType ≠ 4 → p.length ≤ 242

/-- What a request must keep to for its reply to fit: a bound on the parameter that the reply
repeats. -/
structure Fits (env : Env) (channel : List UInt8) (f : Frame) : Prop where
  info : f.type ≠ typeAck → f.cmd = Cmd.askInfo → ∀ p k, f.FirstPara p → InfoType env p k →
    InfoFits env channel p k
  setInfo : f.type ≠ typeAck → f.cmd = Cmd.setInfo → ∀ p t, f.FirstPara p → stoi p = .ok t →
    p.length ≤ 240

/-- What an info string must keep to for the warning to fit: if its words become parameters,
they take at most 243 bytes together with their group count. -/
def WarnFits (infos : List UInt8) : Prop :=
  infos.length ≤ 256 → (AppConn.tokensFrom [] infos).length % 8 = 0 →
    (decimal ((AppConn.tokensFrom [] infos).length / 8)).length + 1 +
      parasLength (AppConn.tokensFrom [] infos) ≤ 243

theorem length_setInfoAction (system : Nat → Int) (t : Int) :
    (AppConn.setInfoAction system t).1.length = 1 := by
  unfold AppConn.setInfoAction AppConn.commandStatus
  split_ifs <;> rfl

theorem length_cutText (sa : List UInt8) : (AppConn.cutText sa).length ≤ 3 := by
  unfold AppConn.cutText
  split_ifs with h
  · simp
  · simp only [List.length_cons]
    omega

theorem setTime_bounds (env : Env) (t : Int) :
    -2 ^ 31 ≤ AppConn.setTime env t ∧ AppConn.setTime env t < 2 ^ 31 := by
  unfold AppConn.setTime
  split
  · simp only [int32]
    split_ifs <;> omega
  · omega

/-- The stores made for a request stay inside the array exactly if the request fits. -/
theorem inside_frameProcess_iff (cs : CharSign) (env : Env) (channel : List UInt8) (c : AppConn)
    (f : Frame) :
    (∀ h r, c.frameProcess cs env channel f = .ok h → h.made = some r → Inside r) ↔
      Fits env channel f := by
  simp only [frameProcess_ok_iff]
  constructor
  · intro h
    refine ⟨fun ht hc p k hp hk => ⟨fun hfix => ?_, ?_, fun hfix h4 => ?_⟩,
      fun ht hc p t hp hi => ?_⟩
    · have := (inside_make_iff ..).mp (h _ _ (.fixedInfo ht hc hp hk hfix) rfl)
      simp only [parasLength_cons, parasLength_nil, zeroText, List.length_singleton] at this
      omega
    · rintro rfl out hout
      have := (inside_make_iff ..).mp (h _ _ (.channelInfo ht hc hp hk hout) rfl)
      simp only [parasLength_cons, parasLength_nil] at this
      omega
    · have := (inside_make_iff ..).mp (h _ _ (.otherInfo ht hc hp hk hfix h4) rfl)
      simp only [parasLength_cons, parasLength_nil] at this
      omega
    · have := (inside_make_iff ..).mp (h _ _ (.setInfo ht hc hp hi) rfl)
      simp only [parasLength_cons, parasLength_nil, length_setInfoAction] at this
      omega
  · rintro ⟨info, setInfo⟩ h r a hr
    cases a with
    | silent => simp at hr
    | plain ht hc =>
      cases hr
      exact (inside_make_iff ..).mpr (by decide)
    | state ht hc =>
      cases hr
      have : (AppConn.capacityText env).length ≤ 3 := length_cutText _
      refine (inside_make_iff ..).mpr ?_
      simp only [parasLength_cons, parasLength_nil, zeroText, List.length_cons, List.length_nil]
      omega
    | fixedInfo ht hc hp hk hfix =>
      cases hr
      have := (info ht hc _ _ hp hk).fixed hfix
      refine (inside_make_iff ..).mpr ?_
      simp only [parasLength_cons, parasLength_nil, zeroText, List.length_singleton]
      omega
    | channelInfo ht hc hp hk hout =>
      cases hr
      have := (info ht hc _ _ hp hk).channel rfl _ hout
      refine (inside_make_iff ..).mpr ?_
      simp only [parasLength_cons, parasLength_nil]
      omega
    | otherInfo ht hc hp hk hfix h4 =>
      cases hr
      have := (info ht hc _ _ hp hk).other hfix h4
      refine (inside_make_iff ..).mpr ?_
      simp only [parasLength_cons, parasLength_nil]
      omega
    | time ht hc hp hi =>
      cases hr
      obtain ⟨hlo, hhi⟩ := setTime_bounds env ‹Int›
      have := length_toString10_le hlo hhi
      refine (inside_make_iff ..).mpr ?_
      simp only [parasLength_cons, parasLength_nil]
      omega
    | setInfo ht hc hp hi =>
      cases hr
      have := setInfo ht hc _ _ hp hi
      refine (inside_make_iff ..).mpr ?_
      simp only [parasLength_cons, parasLength_nil, length_setInfoAction]
      omega

theorem inside_warn_iff (cs : CharSign) (arr : Int → UInt8) (channel : List UInt8) (c : AppConn)
    (info : List UInt8) :
    (∀ r, (c.warn cs arr channel info).made = some r → Inside r) ↔ WarnFits (cString info) := by
  have hmade : ∀ r, (c.warn cs arr channel info).made = some r ↔
      Frame.make cs arr nanoId appId typeHost Cmd.warn (AppConn.warnParas (cString info)) = r := by
    intro r
    simp [AppConn.warn, AppConn.reply]
  simp only [hmade, forall_eq', inside_make_iff, WarnFits, AppConn.warnParas]
  split_ifs with hlong hwords
  · simp [hlong]
  · simp [hwords]
  · have hle : (cString info).length ≤ 256 := by omega
    have hzero : (AppConn.tokensFrom [] (cString info)).length % 8 = 0 := by omega
    simp only [hle, hzero, true_imp_iff, parasLength_cons]

/-- For every request and every info string: no store of `make` leaves the array exactly if
the request, or the string, fits. -/
theorem inside_iff_fits (cs : CharSign) (env : Env) (channel : List UInt8) (c : AppConn)
    (f : Frame) (info : List UInt8) :
    ((∀ h r, c.frameProcess cs env channel f = .ok h → h.made = some r → Inside r) ↔
      Fits env channel f) ∧
    ((∀ r, (c.warn cs env.arr channel info).made = some r → Inside r) ↔
      WarnFits (cString info)) :=
  ⟨inside_frameProcess_iff cs env channel c f, inside_warn_iff cs env.arr channel c info⟩

/-- The longest `ASK_INFO` request for the channel: 254 bytes, most of them leading zeros. -/
def longAskInfo : Request where
  body := [0x31, 0x33, 0x30, 0x36] ++ List.replicate 239 0x30 ++ [0x34, 0x20]
  four_le := by decide +kernel
  length_le := by decide +kernel

/-- An operating system whose channel script prints `99`. -/
def printsNinetyNine : Env where
  arr := fun _ => 0
  wild := 0
  popen := some [0x39, 0x39]
  clock := fun _ => none
  statFree := none
  statUsed := none
  system := fun _ => 0

/-- The request is accepted, and the reply that repeats its parameter leaves the array. -/
theorem not_inside_longAskInfo :
    let f := (Frame.init .signed {} 0 254).val (overlay longAskInfo.bytes fun _ => 0)
    f.state = .ok ∧ ¬ ∀ h r, (AppConn.new (fun _ => 0) fun _ => 0).frameProcess .signed
      printsNinetyNine [] f = .ok h → h.made = some r → Inside r := by
  have hcore : Shows (overlay longAskInfo.bytes fun _ => 0) 0 longAskInfo.core :=
    shows_overlay longAskInfo.bytes _ 0 ⟨[newline], rfl⟩
  have hlead := ((shows_append ..).mp hcore).1
  obtain ⟨hchecks, hdecoded⟩ := longAskInfo.decoded_eq .signed (by decide +kernel) hcore
  have hbody : longAskInfo.body.length = 245 := by decide +kernel
  have hlen : Frame.lengthAt .signed (overlay longAskInfo.bytes fun _ => 0) 0 = 245 := by
    rw [longAskInfo.lengthAt_eq .signed hlead, hbody]
    rfl
  have hf : (Frame.init .signed {} 0 254).val (overlay longAskInfo.bytes fun _ => 0) =
      longAskInfo.frame := by
    rw [Frame.init_val _ _ _ (by omega), if_neg (not_not.mpr (longAskInfo.head_eq hlead)),
      if_neg (by omega), if_neg (by omega)]
    exact hdecoded
  intro f
  rw [show f = longAskInfo.frame from hf]
  refine ⟨rfl, fun inside => ?_⟩
  have fits := (inside_frameProcess_iff ..).mp inside
  have hp : longAskInfo.frame.FirstPara (List.replicate 239 0x30 ++ [0x34]) := by decide +kernel
  have hk : InfoType printsNinetyNine (List.replicate 239 0x30 ++ [0x34]) 4 :=
    ⟨.finite false 4503599627370496 (-50), by decide +kernel, by decide⟩
  exact absurd ((fits.info (by decide) (by decide) _ _ hp hk).channel rfl _ rfl)
    (by decide +kernel)

end SocketMaster
