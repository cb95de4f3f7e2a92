import SocketMaster.Library.Run
import SocketMaster.Ring.Sound
import SocketMaster.Conn.Answers
import SocketMaster.Conn.Scan

/-!
# The states of a connection

Everything that can be done with a connection object, in any order, and what always holds of
its read ring. `process` is restated on the content of that ring: `process_eq` has no index
arithmetic left.
-/
namespace SocketMaster

open Library

theorem CBuffer.append_mIdxr (b : CBuffer) (src : List UInt8) :
    (b.append src).2.mIdxr = b.mIdxr := by
  rw [append]
  dsimp only
  split <;> rfl

theorem CBuffer.pop_mIdxr_lt {b : CBuffer} (h : b.mIdxr < b.mSize) (len : Nat) :
    (b.pop len).2.mIdxr < b.mSize := by
  have hpos : 0 < b.mSize := Nat.lt_trans Nat.zero_lt_one b.one_lt_mSize
  rw [pop]
  split
  · exact Nat.mod_lt _ hpos
  · exact h

theorem CBuffer.holds_nil {b : CBuffer} (h : b.mIdxr < b.mSize) (hempty : b.isEmpty = true) :
    CBuffer.Holds b [] := by
  rw [isEmpty, beq_iff_eq] at hempty
  refine ⟨h, Nat.zero_lt_of_lt h, .inl ⟨hempty.symm, h.le⟩, fun i hi => ?_⟩
  exact absurd hi (Nat.not_lt_zero i)

namespace AppConn

variable (cs : CharSign) (env : Env) (tail : Int → UInt8) (channel : List UInt8) (c : AppConn)

section Fields

variable (src : List UInt8) (len : Int)

@[simp] theorem appendRead_readBuff :
    (c.appendRead src).readBuff = (c.readBuff.append src).2 := rfl

@[simp] theorem popRead_readBuff : (c.popRead len).readBuff = (c.readBuff.pop (u32 len)).2 := rfl

@[simp] theorem popWrite_writeBuff :
    (c.popWrite len).writeBuff = (c.writeBuff.pop (u32 len)).2 := rfl

end Fields

variable {cs env tail channel c}

theorem popRead_zero : c.popRead 0 = c := by
  have hpop : (c.readBuff.pop (u32 0)).2 = c.readBuff := by
    have hu : u32 0 = 0 := rfl
    have hpeek : c.readBuff.peek 0 = [] := by
      simp [CBuffer.peek, CBuffer.peekSegs, sub32]
    simp [hu, CBuffer.pop, hpeek]
  cases c
  simpa [popRead] using hpop

/-- The bytes passed over are popped, and popping none changes nothing. -/
theorem skip_eq (discard : Nat) :
    (if 0 < discard then c.popRead discard else c) = c.popRead discard := by
  split_ifs with h
  · rfl
  · obtain rfl : discard = 0 := by omega
    exact popRead_zero.symm

/-! ## `process` on the content of the ring -/

section Dispatch

variable {bytes : Int → UInt8} {reads : List Int} {frame : Frame} {discard : Nat}

theorem dispatch_of_ne (h : frame.state ≠ .ok) :
    c.dispatch cs env channel bytes reads frame discard =
      ⟨reads, none, .ok { ret := false, conn := c.popRead discard, channel }⟩ := if_pos h

theorem dispatch_of_fault (h : frame.state = .ok) {e : Fault}
    (hf : (c.popRead discard).frameProcess cs env channel frame = .error e) :
    c.dispatch cs env channel bytes reads frame discard = ⟨reads, some frame, .error e⟩ := by
  simp only [dispatch, h, ne_eq, not_true, if_false, skip_eq, hf]

theorem dispatch_of_handled (h : frame.state = .ok) {d : Handled}
    (hf : (c.popRead discard).frameProcess cs env channel frame = .ok d) :
    c.dispatch cs env channel bytes reads frame discard =
      if frame.size < 0 then ⟨reads, some frame, .error .lengthError⟩
      else ⟨reads ++ (Reads.readBlock 0 frame.size.toNat).log bytes, some frame,
        .ok { ret := true, conn := d.conn.popRead frame.size, channel := d.channel
              accepted := d.accepted, commands := d.commands }⟩ := by
  simp only [dispatch, h, ne_eq, not_true, if_false, skip_eq, hf]

end Dispatch

/-- `process` as a function of what the read ring holds. -/
theorem process_eq (hs : c.readBuff.Sound) : c.process cs env tail channel =
    if c.readBuff.content = [] then ⟨[], none, .ok { ret := false, conn := c, channel }⟩
    else
      let bytes := overlay c.readBuff.content tail
      let scan := getFrameFromBuffer cs {} 0 c.readBuff.content.length
      c.dispatch cs env channel bytes (scan.log bytes) (scan.val bytes).1 (scan.val bytes).2 := by
  have hlen := hs.length_content
  have hle := hs.length_le
  rw [c.readBuff_size] at hle
  have hint : int32 (c.readBuff.length : Int) = c.readBuff.length := int32_of_lt (by omega)
  have hcap : (if (c.readBuff.length : Int) < 256 then (c.readBuff.length : Int) else 256) =
      c.readBuff.length := by
    split_ifs <;> omega
  simp only [process, hint, hcap, u32_of_lt (show c.readBuff.length < 4294967296 by omega)]
  by_cases hnil : c.readBuff.content = []
  · have hzero : c.readBuff.length = 0 := by rw [← hlen, hnil]; rfl
    rw [if_pos hnil, if_pos (by omega)]
  · have hpos : 0 < c.readBuff.content.length := List.length_pos_iff.mpr hnil
    rw [if_neg hnil, if_neg (by omega), hlen]
    rfl

/-- How a `dispatch` that returns has ended. -/
theorem dispatch_ok_cases {bytes : Int → UInt8} {reads : List Int} {frame : Frame} {discard : Nat}
    {p : Processed} (h : (c.dispatch cs env channel bytes reads frame discard).result = .ok p) :
    frame.state ≠ .ok ∧ p = { ret := false, conn := c.popRead discard, channel } ∨
      frame.state = .ok ∧ 0 ≤ frame.size ∧ ∃ d,
        (c.popRead discard).frameProcess cs env channel frame = .ok d ∧
        p = { ret := true, conn := d.conn.popRead frame.size, channel := d.channel
              accepted := d.accepted, commands := d.commands } := by
  by_cases hok : frame.state = .ok
  · right
    cases hf : (c.popRead discard).frameProcess cs env channel frame with
    | error e =>
      rw [dispatch_of_fault hok hf] at h
      cases h
    | ok d =>
      rw [dispatch_of_handled hok hf] at h
      split_ifs at h with hneg
      cases h
      exact ⟨hok, not_lt.mp hneg, d, rfl, rfl⟩
  · left
    rw [dispatch_of_ne hok] at h
    cases h
    exact ⟨hok, rfl⟩

/-! ## What the loops keep

A property that every step of a loop keeps holds of the connection that it leaves. -/

section Keeps

variable {P : AppConn → Prop}

theorem keeps_readLoop (keep : ∀ c (chunk : Chunk), P c → P (c.appendRead chunk.bytes)) (h : P c)
    (errno : Nat) (sum : Int) (calls : ReadCalls) : P (c.readLoop errno sum calls).conn := by
  induction calls generalizing c sum with
  | eof => exact h
  | fail e => exact h
  | data chunk next ih =>
    rw [readLoop]
    split
    · exact keep c chunk h
    · exact ih (keep c chunk h) _

theorem keeps_writeLoop (keep : ∀ c len, P c → P (c.popWrite len)) (h : P c) (isET : Bool)
    (arrays : Nat → UInt8) (sum : Int) (errno saveErrno : Nat) (sent : List UInt8)
    (calls : WriteCalls) : P (c.writeLoop isET arrays sum errno saveErrno sent calls).conn := by
  induction calls generalizing c arrays sum sent with
  | zero => exact keep c _ h
  | fail e => exact keep c _ h
  | sent n next ih =>
    rw [writeLoop]
    dsimp only
    split
    · exact keep c _ h
    split
    · exact ih (keep c _ h) _ _ _
    · exact keep c _ h

theorem keeps_write_ (keep : ∀ c len, P c → P (c.popWrite len)) (h : P c) (isET : Bool)
    (arrays : Nat → UInt8) (errno saveErrno : Nat) (calls : WriteCalls) :
    P (c.write_ isET arrays errno saveErrno calls).conn := by
  rw [write_]
  split
  · exact h
  · exact keeps_writeLoop keep h ..

/-- `process` takes bytes out of the read ring and queues a reply. -/
theorem keeps_process (pop : ∀ c len, P c → P (c.popRead len))
    (send : ∀ c arr len, P c → P (c.sendCmd arr len)) (h : P c) {p : Processed}
    (hp : (c.process cs env tail channel).result = .ok p) : P p.conn := by
  simp only [process] at hp
  generalize (if int32 (c.readBuff.length : Int) < 256 then int32 (c.readBuff.length : Int)
    else 256) = len at hp
  split_ifs at hp with hempty
  · cases hp
    exact h
  · obtain ⟨-, rfl⟩ | ⟨-, -, d, hd, rfl⟩ := dispatch_ok_cases hp
    · exact pop c _ h
    · refine pop d.conn _ ?_
      obtain ⟨-, hconn, -⟩ | ⟨r, -, hreply⟩ := (frameProcess_ok hd).made_cases
      · rw [hconn]
        exact pop c _ h
      · rw [hreply]
        exact send _ _ _ (pop c _ h)

end Keeps

/-! ## How `process` ends -/

/-- How a call of `process` ends on a ring that holds `ys`, with the array as in `m`: it comes
to the end of the bytes or to a frame that is not complete, or it dispatches a frame. What it
has passed over is gone either way. -/
inductive Ended (cs : CharSign) (env : Env) (channel : List UInt8) (m : Int → UInt8)
    (ys : List UInt8) (o : Outcome) : Prop where
  | idle {k : Nat} {p : Processed} (inside : k ≤ ys.length)
      (before : ∀ j < k, Frame.Skipped cs m (j : Nat) (ys.length - j : Nat))
      (stop : k = ys.length ∨ k < ys.length ∧ Frame.Waits cs m (k : Nat) (ys.length - k : Nat))
      (dispatched : o.dispatched = none) (result : o.result = .ok p) (buffer : p.channel = channel)
      (rest : CBuffer.Carries p.conn.readBuff (ys.drop k))
  | found {k : Nat} (inside : k < ys.length)
      (before : ∀ j < k, Frame.Skipped cs m (j : Nat) (ys.length - j : Nat))
      (accepts : Frame.Accepts cs m (k : Nat) (ys.length - k : Nat))
      (dispatched : o.dispatched = some (Frame.decoded cs m (k : Nat)))
      (rest : ∀ p, o.result = .ok p → 0 ≤ (Frame.decoded cs m (k : Nat)).size ∧
        CBuffer.Carries p.conn.readBuff
          (ys.drop (k + (Frame.decoded cs m (k : Nat)).size.toNat)))
      (returns : (Frame.decoded cs m (k : Nat)).type = typeAck ∨
          Answerable env (Frame.decoded cs m (k : Nat)) →
        0 ≤ (Frame.decoded cs m (k : Nat)).size → ∃ p, o.result = .ok p)

theorem process_ended {ys : List UInt8} (cs : CharSign) (env : Env) (tail : Int → UInt8)
    (channel : List UInt8)
    (hx : CBuffer.Holds c.readBuff ys) (hne : ys ≠ []) :
    Ended cs env channel (overlay ys tail) ys (c.process cs env tail channel) := by
  have hcontent : c.readBuff.content = ys := hx.content
  have hshort := hx.short
  rw [c.readBuff_size] at hshort
  have hpos := List.length_pos_iff.mpr hne
  rw [process_eq hx.sound, hcontent, if_neg hne]
  dsimp only
  obtain ⟨k, hk, hdiscard, before, ends⟩ := getFrameFromBuffer_spec cs (overlay ys tail) ys.length
  generalize ((getFrameFromBuffer cs {} 0 ys.length).val (overlay ys tail)).1 = f at ends ⊢
  rw [hdiscard]
  have hu : u32 (k : Int) = k := u32_of_lt (by omega)
  have hskip : CBuffer.Carries (c.popRead k).readBuff (ys.drop k) := by
    rw [popRead_readBuff, hu]
    exact hx.pop_carries k
  cases ends with
  | nothing all notOk =>
    rw [dispatch_of_ne notOk]
    exact .idle hk before (.inl all) rfl rfl rfl hskip
  | wait inside waits state =>
    rw [Int.zero_add, Frame.stateAt_wait_iff cs _ (by omega)] at waits
    rw [dispatch_of_ne (by simp [state])]
    exact .idle hk before (.inr ⟨inside, waits⟩) rfl rfl rfl hskip
  | found inside accepts frame =>
    rw [Int.zero_add] at accepts frame
    subst frame
    rw [Frame.stateAt_ok_iff cs _ (by omega)] at accepts
    obtain ⟨hhead, hbig, hfit, hchecks⟩ := accepts
    have hok : (Frame.decoded cs (overlay ys tail) (k : Nat)).state = .ok := if_pos hchecks
    have hsize : (Frame.decoded cs (overlay ys tail) (k : Nat)).size =
        Frame.lengthAt cs (overlay ys tail) (k : Nat) + 9 := by
      simp only [Frame.size, Frame.decoded]
      omega
    refine .found inside before ⟨hhead, hbig, hfit, hchecks⟩ ?_ ?_ ?_
    all_goals generalize Frame.decoded cs (overlay ys tail) (k : Nat) = f at hok hsize ⊢
    · cases hf : (c.popRead k).frameProcess cs env channel f with
      | error e => rw [dispatch_of_fault hok hf]
      | ok d =>
        rw [dispatch_of_handled hok hf]
        split_ifs <;> rfl
    · intro p hp
      obtain ⟨hno, -⟩ | ⟨-, hnonneg, d, hd, rfl⟩ := dispatch_ok_cases hp
      · exact absurd hok hno
      have hread : d.conn.readBuff = (c.readBuff.pop k).2 := by
        rw [(frameProcess_ok hd).readBuff, popRead_readBuff, hu]
      have hpop : u32 f.size = f.size.toNat := by
        rw [← u32_of_lt (show f.size.toNat < 4294967296 by omega), Int.toNat_of_nonneg hnonneg]
      refine ⟨hnonneg, ?_⟩
      rw [popRead_readBuff, hread, hpop, ← List.drop_drop]
      exact (hx.pop k fun _ => inside).pop_carries _
    · intro hans hnonneg
      obtain ⟨d, hd⟩ := (frameProcess_returns_iff cs env channel (c.popRead k) f).mpr hans
      rw [dispatch_of_handled hok hd, if_neg (not_lt.mpr hnonneg)]
      exact ⟨_, rfl⟩

/-! ## Reachable states -/

/-- What can be done with a connection. -/
inductive Event where
  | init (fd : Int)
  | close
  | read (errno : Nat) (calls : ReadCalls)
  | process (env : Env) (tail : Int → UInt8) (channel : List UInt8)
  | write (isET : Bool) (arrays : Nat → UInt8) (errno saveErrno : Nat) (calls : WriteCalls)
  | warn (arr : Int → UInt8) (channel info : List UInt8)

/-- One of these; `process` only where it returns. -/
inductive Step (cs : CharSign) : AppConn → Event → AppConn → Prop where
  | init (c : AppConn) (fd : Int) : Step cs c (.init fd) (c.init fd)
  | close (c : AppConn) : Step cs c .close c.close.2
  | read (c : AppConn) (errno : Nat) (calls : ReadCalls) :
      Step cs c (.read errno calls) (c.read_ errno calls).conn
  | process (c : AppConn) (env : Env) (tail : Int → UInt8) (channel : List UInt8) {p : Processed}
      (h : (c.process cs env tail channel).result = .ok p) :
      Step cs c (.process env tail channel) p.conn
  | write (c : AppConn) (isET : Bool) (arrays : Nat → UInt8) (errno saveErrno : Nat)
      (calls : WriteCalls) : Step cs c (.write isET arrays errno saveErrno calls)
        (c.write_ isET arrays errno saveErrno calls).conn
  | warn (c : AppConn) (arr : Int → UInt8) (channel info : List UInt8) :
      Step cs c (.warn arr channel info) (c.warn cs arr channel info).conn

/-- The connection is in a state that its object can get into. -/
def Reachable (cs : CharSign) (c : AppConn) : Prop :=
  ∃ junkR junkW events, Run (Step cs) (new junkR junkW) events c

theorem reachable_new (cs : CharSign) (junkR junkW : Nat → UInt8) :
    Reachable cs (new junkR junkW) := ⟨junkR, junkW, [], .nil _⟩

/-- One step keeps the indices of the read ring in its array. -/
theorem Step.sound {cs : CharSign} {c c' : AppConn} {e : Event} (step : Step cs c e c')
    (h : c.readBuff.Sound) : c'.readBuff.Sound := by
  cases step with
  | init fd => exact h
  | close =>
    unfold AppConn.close
    split_ifs <;> exact h
  | read errno calls =>
    refine keeps_readLoop (P := fun c => c.readBuff.Sound) (fun c chunk hc => ?_) h errno 0 calls
    exact hc.append (by rw [c.readBuff_size]; exact chunk.length_le)
  | process env tail channel hp =>
    exact keeps_process (P := fun c => c.readBuff.Sound) (fun _ _ hc => hc.pop _)
      (fun _ _ _ hc => hc) h hp
  | write isET arrays errno saveErrno calls =>
    exact keeps_write_ (P := fun c => c.readBuff.Sound) (fun _ _ hc => hc) h ..
  | warn arr channel info => exact h

theorem Reachable.sound {cs : CharSign} {c : AppConn} (h : Reachable cs c) :
    c.readBuff.Sound := by
  obtain ⟨junkR, junkW, events, run⟩ := h
  have keep : ∀ s e t, s.readBuff.Sound → Step cs s e t → t.readBuff.Sound :=
    fun s e t hs step => step.sound hs
  exact run.invariant keep (CBuffer.holds_new ..).sound

/-! ## The read indices -/

/-- The read indices of both rings stand on a cell. -/
structure Indexed (c : AppConn) : Prop where
  read : c.readBuff.mIdxr < 256
  write : c.writeBuff.mIdxr < 256

theorem Indexed.popRead (h : c.Indexed) (len : Int) : (c.popRead len).Indexed := by
  have hlt := h.read
  rw [← c.readBuff_size] at hlt
  exact ⟨(CBuffer.pop_mIdxr_lt hlt _).trans_eq c.readBuff_size, h.write⟩

theorem Indexed.popWrite (h : c.Indexed) (len : Int) : (c.popWrite len).Indexed := by
  have hlt := h.write
  rw [← c.writeBuff_size] at hlt
  exact ⟨h.read, (CBuffer.pop_mIdxr_lt hlt _).trans_eq c.writeBuff_size⟩

theorem Indexed.read_ (h : c.Indexed) (errno : Nat) (calls : ReadCalls) :
    (c.read_ errno calls).conn.Indexed :=
  keeps_readLoop (fun _ _ hc => ⟨(CBuffer.append_mIdxr ..).trans_lt hc.read, hc.write⟩) h errno 0
    calls

theorem Indexed.close (h : c.Indexed) : c.close.2.Indexed := by
  rw [AppConn.close]
  split
  · exact ⟨h.read, h.write⟩
  · exact h

theorem Indexed.process {p : Processed} (h : c.Indexed)
    (hp : (c.process cs env tail channel).result = .ok p) : p.conn.Indexed :=
  keeps_process (fun _ len hc => hc.popRead len)
    (fun _ _ _ hc => ⟨hc.read, (CBuffer.append_mIdxr ..).trans_lt hc.write⟩) h hp

/-- One step keeps the read indices on a cell. -/
theorem Step.indexed {cs : CharSign} {c c' : AppConn} {e : Event} (step : Step cs c e c')
    (h : c.Indexed) : c'.Indexed := by
  cases step with
  | init fd => exact ⟨h.read, h.write⟩
  | close => exact h.close
  | read errno calls => exact h.read_ errno calls
  | process env tail channel hp => exact h.process hp
  | write isET arrays errno saveErrno calls =>
    exact keeps_write_ (fun _ len hc => hc.popWrite len) h ..
  | warn arr channel info => exact ⟨h.read, (CBuffer.append_mIdxr ..).trans_lt h.write⟩

theorem Reachable.indexed {cs : CharSign} {c : AppConn} (h : Reachable cs c) : c.Indexed := by
  obtain ⟨junkR, junkW, events, run⟩ := h
  have keep : ∀ (s : AppConn) (e : Event) (t : AppConn), s.Indexed → Step cs s e t → t.Indexed :=
    fun s e t hs step => step.indexed hs
  exact run.invariant keep ⟨show 0 < 256 by decide, show 0 < 256 by decide⟩

/-- A fresh connection that has received one block. -/
def received (chunk : Chunk) : AppConn :=
  ((new (fun _ => 0) fun _ => 0).read_ 0 (.data chunk (.fail eagain))).conn

theorem reachable_received (cs : CharSign) (chunk : Chunk) : Reachable cs (received chunk) :=
  ⟨_, _, [.read 0 _], .cons (.read ..) (.nil _)⟩

end AppConn

end SocketMaster
