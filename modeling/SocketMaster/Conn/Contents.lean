import SocketMaster.Conn.Outgoing
import SocketMaster.Conn.Bounds

/-!
# A connection as the bytes it holds

What an isolated connection would be: the bytes received and not yet passed over, and the bytes
queued and not yet written, with nothing else to depend on. Where the code comes across anything
else (the array behind the received bytes, the channel buffer, stale indices), the condition of
the lemma about that operation says that it makes no difference.
-/
namespace SocketMaster

open Library

/-- What the rings of a connection hold. -/
structure Contents where
  unread : List UInt8
  pending : List UInt8

/-- The connection holds these bytes. A stale read ring has none that are still to be read. -/
structure AppConn.Holding (c : AppConn) (k : Contents) : Prop where
  read : CBuffer.Carries c.readBuff k.unread
  write : CBuffer.Holds c.writeBuff k.pending

/-! ## Reading -/

/-- How a `read_` ends: at the end of file, with a failure, or after a block because of the
`errno` that was left. -/
inductive ReadEnd where
  | eof
  | fail (errno : Nat)
  | left
  deriving DecidableEq

namespace ReadCalls

/-- The blocks that the calls made by `read_` return. -/
def chunks (errno : Nat) : ReadCalls → List Chunk
  | .eof => []
  | .fail _ => []
  | .data chunk next => chunk :: if errno = eagain then [] else chunks errno next

def ending (errno : Nat) : ReadCalls → ReadEnd
  | .eof => .eof
  | .fail e => .fail e
  | .data _ next => if errno = eagain then .left else ending errno next

end ReadCalls

/-- A `read_` without data, after which the connection is closed. -/
def Broken (chunks : List Chunk) (ending : ReadEnd) : Prop :=
  chunks = [] ∧ ending ≠ .fail eagain

instance (chunks : List Chunk) (ending : ReadEnd) : Decidable (Broken chunks ending) :=
  decidable_of_iff (chunks.length = 0 ∧ ending ≠ .fail eagain) (by simp [Broken])

/-- The bytes in the ring after the blocks: one that does not fit is dropped as a whole. -/
def gather (xs : List UInt8) (chunks : List Chunk) : List UInt8 :=
  chunks.foldl (fun xs chunk =>
    if xs.length + chunk.bytes.length ≤ 254 then xs ++ chunk.bytes else xs) xs

theorem gather_cons (xs : List UInt8) (chunk : Chunk) (chunks : List Chunk) :
    gather xs (chunk :: chunks) =
      gather (if xs.length + chunk.bytes.length ≤ 254 then xs ++ chunk.bytes else xs) chunks := rfl

/-- The first block is one that a ring with nothing in it takes in. -/
def Starts (chunks : List Chunk) : Prop := ∃ chunk ∈ chunks.head?, chunk.bytes.length ≤ 254

namespace AppConn

variable {cs : CharSign} {env : Env} {tail : Int → UInt8} {channel : List UInt8} {c : AppConn}
  {xs ys : List UInt8} {chunks : List Chunk}

/-- The connection after blocks have come in. -/
def appendReads (c : AppConn) (chunks : List Chunk) : AppConn :=
  chunks.foldl (fun c chunk => c.appendRead chunk.bytes) c

theorem appendReads_cons (c : AppConn) (chunk : Chunk) (chunks : List Chunk) :
    c.appendReads (chunk :: chunks) = (c.appendRead chunk.bytes).appendReads chunks := rfl

@[simp] theorem appendReads_writeBuff (c : AppConn) (chunks : List Chunk) :
    (c.appendReads chunks).writeBuff = c.writeBuff := by
  induction chunks generalizing c with
  | nil => rfl
  | cons chunk chunks ih => exact ih (c.appendRead chunk.bytes)

theorem readLoop_conn (c : AppConn) (errno : Nat) (sum : Int) (calls : ReadCalls) :
    (c.readLoop errno sum calls).conn = c.appendReads (calls.chunks errno) := by
  induction calls generalizing c sum with
  | eof => rfl
  | fail e => rfl
  | data chunk next ih =>
    rw [readLoop, ReadCalls.chunks]
    split_ifs
    · rfl
    · rw [ih, appendReads_cons]

theorem le_ret_readLoop (c : AppConn) (errno : Nat) (sum : Int) (calls : ReadCalls) :
    sum + (calls.chunks errno).length ≤ (c.readLoop errno sum calls).ret := by
  induction calls generalizing c sum with
  | eof => simp [readLoop, ReadCalls.chunks]
  | fail e => simp [readLoop, ReadCalls.chunks]
  | data chunk next ih =>
    have hpos := List.length_pos_iff.mpr chunk.ne_nil
    rw [readLoop, ReadCalls.chunks]
    split_ifs
    · simp only [List.length_singleton]
      omega
    · have hrest := ih (c.appendRead chunk.bytes) (sum + chunk.bytes.length)
      simp only [List.length_cons]
      omega

/-- `DealRead_` closes the connection after a `read_` that is broken, unless the left-over
`errno` hides the end of file. -/
theorem closes_iff {errno : Nat} {calls : ReadCalls} (h : calls = .eof → errno ≠ eagain) :
    ((c.read_ errno calls).ret ≤ 0 ∧ (c.read_ errno calls).saveErrno ≠ eagain) ↔
      Broken (calls.chunks errno) (calls.ending errno) := by
  cases calls with
  | eof => simpa [read_, readLoop, Broken, ReadCalls.chunks, ReadCalls.ending] using h
  | fail e => simp [read_, readLoop, Broken, ReadCalls.chunks, ReadCalls.ending]
  | data chunk next =>
    have hret := c.le_ret_readLoop errno 0 (.data chunk next)
    have hsome : (ReadCalls.chunks errno (.data chunk next)) ≠ [] := by simp [ReadCalls.chunks]
    have hpos := List.length_pos_iff.mpr hsome
    refine iff_of_false (fun hclose => ?_) (fun hbroken => hsome hbroken.1)
    have hle : (c.readLoop errno 0 (.data chunk next)).ret ≤ 0 := hclose.1
    omega

/-- Blocks that come into a ring that is not stale. -/
theorem holds_appendReads (hx : CBuffer.Holds c.readBuff xs) (chunks : List Chunk) :
    CBuffer.Holds (c.appendReads chunks).readBuff (gather xs chunks) := by
  induction chunks generalizing c xs with
  | nil => exact hx
  | cons chunk chunks ih =>
    have hsize := c.readBuff_size
    rw [appendReads_cons, gather_cons]
    split_ifs with hfit
    · exact ih (hx.append chunk.bytes (by omega)).2
    · refine ih ?_
      rw [appendRead_readBuff, hx.append_of_ge chunk.bytes (by omega)]
      exact hx

/-- A stale ring is mended by the first block. -/
theorem holds_appendReads_of_carries (hx : CBuffer.Carries c.readBuff xs)
    (hstale : CBuffer.Stale c.readBuff → Starts chunks) :
    CBuffer.Holds (c.appendReads chunks).readBuff (gather xs chunks) := by
  obtain hx | ⟨hs, rfl⟩ := hx
  · exact holds_appendReads hx chunks
  · obtain ⟨chunk, hchunk, hshort⟩ := hstale hs
    obtain ⟨chunks, rfl⟩ : ∃ rest, chunks = chunk :: rest := by
      cases chunks with
      | nil => cases hchunk
      | cons first rest => exact ⟨rest, by rw [Option.some.inj hchunk]⟩
    rw [appendReads_cons, gather_cons, if_pos (by simpa using hshort), List.nil_append]
    exact holds_appendReads (hs.append chunk.ne_nil (by rw [c.readBuff_size]; omega)).2 chunks

end AppConn

/-! ## Answering -/

/-- The environment without the memory that the handlers overwrite. -/
def Env.clean (env : Env) : Env := { env with arr := fun _ => 0 }

theorem wire_make (cs : CharSign) (dst dst' : Int → UInt8) (host client type cmd : UInt8)
    (paras : List (List UInt8)) : wire (Frame.make cs dst host client type cmd paras) =
      wire (Frame.make cs dst' host client type cmd paras) := by
  rw [wire, wire, Frame.make_ret, Frame.make_ret]
  refine (Frame.agree_make cs dst host client type cmd paras dst').cells_eq fun i hi hi' => ?_
  rw [Frame.mem_log_make]
  omega

/-- A script that prints something overwrites the channel buffer. -/
theorem readChannel_congr (channel channel' : List UInt8) {out : List UInt8} (h : out ≠ []) :
    readChannel channel out = readChannel channel' out := by
  have hloop : fgetsLoop channel out out.length = fgetsLoop channel' out out.length := by
    cases out with
    | nil => exact absurd rfl h
    | cons x xs => rfl
  rw [readChannel, readChannel, hloop]

/-- The bytes that a handler hands on to the connection. -/
def Handled.bytes (d : Handled) : List UInt8 := (d.made.map wire).getD []

section Reply

variable {cs : CharSign} {env : Env} {channel : List UInt8} {c : AppConn} {f : Frame} {d : Handled}

/-- Every answer is the one that a connection of its own would have given. -/
theorem Answer.clean (a : Answer cs env channel c f d) (hout : env.popen ≠ some [])
    (c' : AppConn) : ∃ d', Answer cs env.clean [] c' f d' ∧ d'.bytes = d.bytes := by
  cases a with
  | silent h => exact ⟨_, .silent h, rfl⟩
  | plain ht hc => exact ⟨_, .plain ht hc, wire_make ..⟩
  | state ht hc => exact ⟨_, .state ht hc, wire_make ..⟩
  | fixedInfo ht hc hp hk hfix => exact ⟨_, .fixedInfo ht hc hp hk hfix, wire_make ..⟩
  | @channelInfo ht hc p out hp hk hsome =>
    have hk' : InfoType env.clean p 4 := hk
    have hsome' : env.clean.popen = some out := hsome
    refine ⟨_, .channelInfo ht hc hp hk' hsome', ?_⟩
    have hne : out ≠ [] := by
      rintro rfl
      exact hout hsome
    rw [readChannel_congr [] channel hne]
    exact wire_make ..
  | otherInfo ht hc hp hk hfix h4 => exact ⟨_, .otherInfo ht hc hp hk hfix h4, wire_make ..⟩
  | time ht hc hp hi => exact ⟨_, .time ht hc hp hi, wire_make ..⟩
  | setInfo ht hc hp hi => exact ⟨_, .setInfo ht hc hp hi, wire_make ..⟩

/-- What is queued for a frame, as far as the frame and the operating system decide it. -/
def replyTo (cs : CharSign) (env : Env) (f : Frame) : List UInt8 :=
  match (AppConn.new (fun _ => 0) fun _ => 0).frameProcess cs env.clean [] f with
  | .ok d => d.bytes
  | .error _ => []

theorem bytes_eq (h : c.frameProcess cs env channel f = .ok d) (hout : env.popen ≠ some []) :
    d.bytes = replyTo cs env f := by
  obtain ⟨d', answer, hbytes⟩ := (frameProcess_ok h).clean hout (.new (fun _ => 0) fun _ => 0)
  rw [replyTo, answer.ok]
  exact hbytes.symm

end Reply

/-- What of `bytes` a ring that holds `xs` takes in: all or nothing. -/
def taken (xs bytes : List UInt8) : List UInt8 :=
  if xs.length + bytes.length ≤ 254 then bytes else []

theorem CBuffer.Holds.append_taken {b : CBuffer} {xs : List UInt8} (hx : CBuffer.Holds b xs)
    (hsize : b.mSize = 256) (bytes : List UInt8) :
    bytes.take (b.append bytes).1 = taken xs bytes ∧
      CBuffer.Holds (b.append bytes).2 (xs ++ taken xs bytes) := by
  rw [taken]
  split_ifs with hfit
  · obtain ⟨hret, hnew⟩ := hx.append bytes (by omega)
    rw [hret, List.take_length]
    exact ⟨rfl, hnew⟩
  · rw [hx.append_of_ge bytes (by omega), List.append_nil]
    exact ⟨rfl, hx⟩

/-- The frame that the scan finds in the bytes, and how many it passes over. -/
def scanned (cs : CharSign) (xs : List UInt8) : Frame × Nat :=
  (AppConn.getFrameFromBuffer cs {} 0 xs.length).val (bare xs)

/-- What `process` makes of the contents: what is left of them, the frame dispatched, and the
bytes queued. -/
def Contents.process (cs : CharSign) (env : Env) (k : Contents) :
    Contents × Option Frame × List UInt8 :=
  let (f, d) := scanned cs k.unread
  if f.state ≠ .ok then (⟨k.unread.drop d, k.pending⟩, none, [])
  else
    let bytes := taken k.pending (replyTo cs env f)
    (⟨k.unread.drop (d + f.size.toNat), k.pending ++ bytes⟩, some f, bytes)

theorem Contents.process_of_ne {cs : CharSign} (env : Env) {k : Contents}
    (h : (scanned cs k.unread).1.state ≠ .ok) : k.process cs env =
      (⟨k.unread.drop (scanned cs k.unread).2, k.pending⟩, none, []) := if_pos h

theorem Contents.process_of_ok {cs : CharSign} (env : Env) {k : Contents}
    (h : (scanned cs k.unread).1.state = .ok) : k.process cs env =
      (⟨k.unread.drop ((scanned cs k.unread).2 + (scanned cs k.unread).1.size.toNat),
          k.pending ++ taken k.pending (replyTo cs env (scanned cs k.unread).1)⟩,
        some (scanned cs k.unread).1, taken k.pending (replyTo cs env (scanned cs k.unread).1)) :=
  if_neg (not_not.mpr h)

namespace AppConn

variable {cs : CharSign} {env : Env} {tail : Int → UInt8} {channel : List UInt8} {c : AppConn}
  {k : Contents}

theorem scanned_nil (cs : CharSign) : (scanned cs []).1.state ≠ .ok := by
  obtain ⟨k, hk, -, -, hends⟩ := getFrameFromBuffer_spec cs (bare []) 0
  cases hends with
  | nothing _ notOk => exact notOk
  | wait inside => omega
  | found inside => omega

/-- A scan that stays inside the received bytes finds the same whatever lies behind them. -/
theorem process_scanned (env : Env) (tail : Int → UInt8) (channel : List UInt8)
    (hx : CBuffer.Holds c.readBuff k.unread)
    (hcont : ScanContained cs (bare k.unread) k.unread.length) (hne : k.unread ≠ []) :
    ∃ reads, c.process cs env tail channel = c.dispatch cs env channel (overlay k.unread tail) reads
      (scanned cs k.unread).1 (scanned cs k.unread).2 := by
  have hcontent : c.readBuff.content = k.unread := hx.content
  have hval : (getFrameFromBuffer cs {} 0 k.unread.length).val (overlay k.unread tail) =
      scanned cs k.unread := congrArg Prod.fst (scan_congr hcont tail)
  rw [process_eq hx.sound, hcontent, if_neg hne, ← hval]
  exact ⟨_, rfl⟩

/-- The frame found begins in front of the end of the bytes, and is not too long. -/
theorem scanned_ok (cs : CharSign) {xs : List UInt8} (h : (scanned cs xs).1.state = .ok) :
    (scanned cs xs).2 < xs.length ∧ (scanned cs xs).1.size ≤ 265 := by
  obtain ⟨k, hk, hdiscard, -, hends⟩ := getFrameFromBuffer_spec cs (bare xs) xs.length
  have hat : (scanned cs xs).2 = k := hdiscard
  rw [hat]
  cases hends with
  | nothing _ notOk => exact absurd h notOk
  | wait _ _ state => exact absurd (h.symm.trans state) (by decide)
  | found inside accepts frame =>
    obtain ⟨-, hbig, -⟩ := (Frame.stateAt_ok_iff cs (bare xs) (by omega)).mp accepts
    have hframe : (scanned cs xs).1 = Frame.decoded cs (bare xs) (0 + (k : Int)) := frame
    refine ⟨inside, ?_⟩
    rw [hframe]
    simp only [Frame.size, Frame.decoded]
    omega

theorem scanned_le (cs : CharSign) (xs : List UInt8) : (scanned cs xs).2 ≤ xs.length := by
  obtain ⟨k, hk, hdiscard, -⟩ := getFrameFromBuffer_spec cs (bare xs) xs.length
  exact hdiscard.trans_le hk

/-- A handler queues what it has made, if that fits. -/
theorem handled_accepted {f : Frame} {d : Handled} {ws : List UInt8}
    (hw : CBuffer.Holds c.writeBuff ws) (h : c.frameProcess cs env channel f = .ok d) :
    d.accepted = taken ws d.bytes ∧ CBuffer.Holds d.conn.writeBuff (ws ++ taken ws d.bytes) := by
  obtain ⟨hmade, hconn, haccepted⟩ | ⟨r, hmade, hreply⟩ := (frameProcess_ok h).made_cases
  · have hnone : taken ws d.bytes = [] := by
      rw [Handled.bytes, hmade, taken]
      exact ite_self _
    rw [hnone, haccepted, hconn, List.append_nil]
    exact ⟨rfl, hw⟩
  · have hbytes : d.bytes = wire r := by
      rw [Handled.bytes, hmade]
      rfl
    rw [hbytes, hreply]
    exact hw.append_taken c.writeBuff_size (wire r)

/-- A handler queues the reply, if there is one and it fits. -/
theorem handled_taken {f : Frame} {d : Handled} {ws : List UInt8}
    (hw : CBuffer.Holds c.writeBuff ws) (h : c.frameProcess cs env channel f = .ok d)
    (hout : env.popen ≠ some []) :
    d.accepted = taken ws (replyTo cs env f) ∧
      CBuffer.Holds d.conn.writeBuff (ws ++ taken ws (replyTo cs env f)) := by
  rw [← bytes_eq h hout]
  exact handled_accepted hw h

/-- `process` does with the connection what `Contents.process` does with its contents. -/
theorem process_holding {p : Processed} (hread : CBuffer.Holds c.readBuff k.unread)
    (hwrite : CBuffer.Holds c.writeBuff k.pending)
    (hcont : ScanContained cs (bare k.unread) k.unread.length) (hout : env.popen ≠ some [])
    (h : (c.process cs env tail channel).result = .ok p) :
    (c.process cs env tail channel).dispatched = (k.process cs env).2.1 ∧
      p.accepted = (k.process cs env).2.2 ∧ p.conn.Holding (k.process cs env).1 := by
  by_cases hne : k.unread = []
  · have hcontent : c.readBuff.content = k.unread := hread.content
    rw [process_eq hread.sound, hcontent, if_pos hne] at h ⊢
    cases h
    have hno : (scanned cs k.unread).1.state ≠ .ok := hne ▸ scanned_nil cs
    rw [Contents.process_of_ne env hno]
    refine ⟨rfl, rfl, .inl ?_, hwrite⟩
    rw [hne, List.drop_nil]
    exact hne ▸ hread
  have hshort := hread.short
  rw [c.readBuff_size] at hshort
  have hle := scanned_le cs k.unread
  have hu : u32 ((scanned cs k.unread).2 : Int) = (scanned cs k.unread).2 := u32_of_lt (by omega)
  obtain ⟨reads, hprocess⟩ := process_scanned env tail channel hread hcont hne
  rw [hprocess] at h ⊢
  obtain ⟨hno, rfl⟩ | ⟨hok, hnonneg, d, hd, rfl⟩ := dispatch_ok_cases h
  · rw [dispatch_of_ne hno, Contents.process_of_ne env hno]
    refine ⟨rfl, rfl, ?_, hwrite⟩
    rw [popRead_readBuff, hu]
    exact hread.pop_carries _
  · obtain ⟨hinside, hsmall⟩ := scanned_ok cs hok
    have hskip := hread.pop (scanned cs k.unread).2 fun _ => hinside
    obtain ⟨haccepted, hqueued⟩ :=
      handled_taken (c := c.popRead (scanned cs k.unread).2) hwrite hd hout
    have hback : d.conn.readBuff = (c.readBuff.pop (scanned cs k.unread).2).2 := by
      rw [(frameProcess_ok hd).readBuff, popRead_readBuff, hu]
    rw [dispatch_of_handled hok hd, if_neg (not_lt.mpr hnonneg), Contents.process_of_ok env hok]
    refine ⟨rfl, haccepted, ?_, hqueued⟩
    have hsize : u32 (scanned cs k.unread).1.size = (scanned cs k.unread).1.size.toNat := by
      rw [← u32_of_lt (show (scanned cs k.unread).1.size.toNat < 4294967296 by omega),
        Int.toNat_of_nonneg hnonneg]
    rw [popRead_readBuff, hback, hsize, ← List.drop_drop]
    exact hskip.pop_carries _

end AppConn

/-! ## Writing -/

/-- The lengths that the calls made by `write_` return, with `sum` bytes to be sent. -/
def WriteCalls.lengths (sum : Int) : WriteCalls → List Nat
  | .zero => []
  | .fail _ => []
  | .sent n next =>
    let len := min n (u32 (AppConn.frameLen sum))
    if len = 0 then [] else len :: lengths (sum - len) next

namespace AppConn

variable {c : AppConn} {ys : List UInt8}

theorem pop_nil {b : CBuffer} (hb : CBuffer.Holds b []) (k : Nat) :
    b.peek k = [] ∧ CBuffer.Holds (b.pop k).2 [] := by
  have hr := hb.idxr
  have hw := hb.idxw
  refine ⟨by rw [hb.peek_eq, List.take_nil], ?_⟩
  have hpop := hb.pop k fun hend => ?_
  · rwa [List.drop_nil] at hpop
  · rw [List.length_nil] at hw
    omega

theorem frameLen_of_le {sum : Int} (h0 : 0 ≤ sum) (hle : sum ≤ 255) :
    frameLen sum = sum ∧ u32 (frameLen sum) = sum.toNat := by
  have hframe : frameLen sum = sum := if_pos (by omega)
  refine ⟨hframe, ?_⟩
  rw [hframe, ← u32_of_lt (show sum.toNat < 4294967296 by omega), Int.toNat_of_nonneg h0]

/-- The ring is emptied by the first turn. Every turn writes from the beginning of the array,
which still starts with what the ring held then. -/
theorem writeLoop_lengths (hys : ys.length ≤ 255) (arrays : Nat → UInt8) (sum : Int)
    (errno saveErrno : Nat) (sent : List UInt8) (calls : WriteCalls) (h0 : 0 ≤ sum)
    (hle : sum ≤ ys.length) (hpop : CBuffer.Holds (c.popWrite (frameLen sum)).writeBuff [])
    (harrays : ∀ i (h : i < ys.length),
      blit arrays 0 (c.writeBuff.peek (u32 (frameLen sum))) i = ys[i]) :
    (c.writeLoop true arrays sum errno saveErrno sent calls).sent =
        sent ++ (calls.lengths sum).flatMap (ys.take ·) ∧
      CBuffer.Holds (c.writeLoop true arrays sum errno saveErrno sent calls).conn.writeBuff [] := by
  induction calls generalizing c arrays sum sent with
  | zero => exact ⟨(List.append_nil sent).symm, hpop⟩
  | fail e => exact ⟨(List.append_nil sent).symm, hpop⟩
  | sent n next ih =>
    obtain ⟨-, hu⟩ := frameLen_of_le h0 (by omega)
    have hmin : min n (u32 (frameLen sum)) ≤ ys.length := by omega
    have hslice : slice (blit arrays 0 (c.writeBuff.peek (u32 (frameLen sum)))) 0
        (min n (u32 (frameLen sum))) = ys.take (min n (u32 (frameLen sum))) := by
      apply List.ext_getElem
      · rw [length_slice, List.length_take]
        omega
      · intro i hi _
        rw [length_slice] at hi
        rw [getElem_slice, Nat.zero_add, List.getElem_take]
        exact harrays i (by omega)
    rw [writeLoop, WriteCalls.lengths]
    dsimp only
    rw [hslice]
    split_ifs with hzero hmore
    · exact ⟨(List.append_nil sent).symm, hpop⟩
    · obtain ⟨hpeek, hpop'⟩ :=
        pop_nil hpop (u32 (frameLen (sum - (min n (u32 (frameLen sum)) : Nat))))
      rw [← popWrite_writeBuff] at hpop'
      obtain ⟨hsent, hempty⟩ := ih (c := c.popWrite (frameLen sum))
        (blit arrays 0 (c.writeBuff.peek (u32 (frameLen sum))))
        (sum - (min n (u32 (frameLen sum)) : Nat)) (sent ++ ys.take (min n (u32 (frameLen sum))))
        (by omega) (by omega) hpop' (by
          rw [hpeek, blit_nil]
          exact harrays)
      refine ⟨?_, hempty⟩
      rw [hsent, List.append_assoc, List.flatMap_cons]
    · exact absurd (.inl rfl) hmore

/-- A pass over a connection with output pending, with the write index inside the array: each
call that takes something takes it from the beginning of what was pending, and nothing is
pending any more. -/
theorem dealWrite_holding (hx : CBuffer.Holds c.writeBuff ys) (hne : ys ≠ [])
    (hend : c.writeBuff.mIdxw ≠ c.writeBuff.mSize) (arrays : Nat → UInt8) (errno saveErrno : Nat)
    (calls : WriteCalls) :
    (c.dealWrite true arrays errno saveErrno calls).sent =
        (calls.lengths c.toWriteBytes).flatMap (ys.take ·) ∧
      CBuffer.Holds (c.dealWrite true arrays errno saveErrno calls).conn.writeBuff [] ∧
      (c.dealWrite true arrays errno saveErrno calls).conn.readBuff = c.readBuff := by
  have hshort := hx.short
  rw [c.writeBuff_size] at hshort
  have hpos := List.length_pos_iff.mpr hne
  have hbytes : c.toWriteBytes = ys.length := Outgoing.toWriteBytes_eq hx
  have hsum : int32 (c.writeBuff.length : Int) = ys.length := hbytes
  obtain ⟨hframe, hu⟩ := frameLen_of_le (show (0 : Int) ≤ ys.length by omega) (by omega)
  rw [Int.toNat_natCast] at hu
  have hpeek : c.writeBuff.peek (u32 (frameLen ys.length)) = ys := by
    rw [hu, hx.peek_eq, List.take_length]
  have hpop : CBuffer.Holds (c.popWrite (frameLen ys.length)).writeBuff [] := by
    have hpop := hx.pop ys.length fun h => absurd h hend
    rwa [List.drop_length, ← hu] at hpop
  have hdeal : c.dealWrite true arrays errno saveErrno calls =
      c.writeLoop true arrays ys.length errno saveErrno [] calls := by
    rw [dealWrite, if_pos (by omega), write_, hsum]
    exact if_neg (by omega)
  obtain ⟨hsent, hempty⟩ := writeLoop_lengths (by omega) arrays ys.length errno saveErrno [] calls
    (show (0 : Int) ≤ ys.length by omega) (le_refl _) hpop fun i hi => by
      rw [hpeek]
      exact blit_at arrays ys (Nat.zero_le i) hi
  have hread : (c.dealWrite true arrays errno saveErrno calls).conn.readBuff = c.readBuff :=
    keeps_dealWrite (P := fun c' => c'.readBuff = c.readBuff) (fun _ _ h => h) rfl ..
  refine ⟨?_, ?_, hread⟩
  · rw [hdeal, hbytes, hsent, List.nil_append]
  · rwa [hdeal]

end AppConn

end SocketMaster
