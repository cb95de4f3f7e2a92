import SocketMaster.Conn.Scan
import SocketMaster.Frame.Made
import SocketMaster.Frame.Packet

/-!
# Packets in a stream

`getFrameFromBuffer` ends at the first offset where a fresh `init` would accept or wait, and with
what that `init` would leave. A packet behind junk without a head is found there, if the chars of
its body give the sum that its check digits say. A packet of which only the front is there is
waited for as long as less than its body's length is there: `init` compares the length with the
bytes that it has, and forgets the nine others.
-/
namespace SocketMaster

open Library

namespace Packet

variable (cs : CharSign) {m : Int → UInt8} {ptr : Int} (p : Packet)

/-- Decimal check digits are worth what they say. -/
theorem checkValue_of_decimal {n : Nat} (h : Decimal 3 n p.check) :
    cs.checkValue p.check = n := by
  obtain ⟨c0, c1, c2, hthree⟩ := List.length_eq_three.mp h.length
  have hvalue := h.value
  have hdigits := h.digits
  rw [hthree] at hvalue hdigits ⊢
  simp only [List.mem_cons, List.not_mem_nil, or_false, forall_eq_or_imp, forall_eq] at hdigits
  obtain ⟨h0, h1, h2⟩ := hdigits
  simp only [natOf, List.foldl_cons, List.foldl_nil] at hvalue
  simp only [CharSign.checkValue, List.foldl_cons, List.foldl_nil, digit_of_isDigit cs, h0, h1, h2]
  omega

/-- What `init` leaves on a whole packet depends on the check characters only. -/
theorem stateAt_eq (h : Shows m ptr p.bytes) {len : Int} (hlen : p.body.length ≤ len) :
    Frame.stateAt cs m ptr len =
      if cs.checkValue p.check = (cs.sum p.body).tmod 1000 then .ok else .checkError := by
  obtain ⟨hhead, hlength, hbody, hcheck⟩ := p.found cs h
  have hfour := p.four_le
  have hbig := p.length_le
  have hchecks : Frame.Checks cs m ptr ↔ cs.checkValue p.check = (cs.sum p.body).tmod 1000 := by
    rw [Frame.Checks, hcheck, hbody]
  rw [Frame.stateAt_eq cs m (by omega), hlength, if_neg (not_not.mpr hhead), if_neg (by omega),
    if_neg (by omega)]
  simp only [hchecks]

end Packet

namespace AppConn

open SocketMaster.Frame (stateAt Skipped)

variable (cs : CharSign) (m : Int → UInt8)

/-- What is asked of a call on the `n` bytes at `bytes` that returns `r`: it stops at the first
offset where a fresh `init` accepts or waits, and leaves what that leaves; without such an offset
it goes through all of them and ends with an error. -/
structure Resyncs (bytes : Int) (n : Nat) (r : Frame × Nat) : Prop where
  le : r.2 ≤ n
  before : ∀ j < r.2, Skipped cs m (bytes + j) (n - j : Nat)
  stops : r.2 < n → ¬ Skipped cs m (bytes + r.2) (n - r.2 : Nat)
  state : r.2 < n → r.1.state = stateAt cs m (bytes + r.2) (n - r.2 : Nat)
  frame : r.2 < n → r.1.state = .ok →
    r.1 = (Frame.init cs {} (bytes + r.2) (n - r.2 : Nat)).val m
  error : r.2 = n → r.1.state = .headError ∨ r.1.state = .lengthError ∨ r.1.state = .checkError

variable {cs m}

/-- The offset is the only one of its kind. -/
theorem Resyncs.eq_of_not_skipped {bytes : Int} {n k : Nat} {r : Frame × Nat}
    (h : Resyncs cs m bytes n r) (hk : k < n)
    (before : ∀ j < k, Skipped cs m (bytes + (j : Nat)) (n - j : Nat))
    (stop : ¬ Skipped cs m (bytes + (k : Nat)) (n - k : Nat)) : r.2 = k := by
  obtain hlt | heq | hgt := Nat.lt_trichotomy r.2 k
  · exact absurd (before r.2 hlt) (h.stops (by omega))
  · exact heq
  · exact absurd (h.before k hgt) stop

variable (cs m)

/-- The states that `init` leaves when it has looked at a byte. -/
def Decided (f : Frame) : Prop :=
  f.state = .ok ∨ f.state = .wait ∨ f.state = .headError ∨ f.state = .lengthError ∨
    f.state = .checkError

theorem decided_init (f : Frame) {ptr len : Int} (h : 0 < len) :
    Decided ((Frame.init cs f ptr len).val m) := by
  unfold Decided
  rw [Frame.init_state cs f m h, Frame.stateAt_eq cs m h]
  split_ifs <;> simp

theorem decided_scan {f : Frame} (bytes : Int) (discard n : Nat) (hf : n = 0 → Decided f) :
    Decided ((scan cs f bytes discard n).val m).1 := by
  induction n generalizing f bytes discard with
  | zero => simpa [scan, scanLoop] using hf rfl
  | succ n ih =>
    have hinit : Decided ((Frame.init cs f bytes (n + 1 : Nat)).val m) :=
      decided_init cs m f (by omega)
    rw [scan_succ]
    split_ifs
    · exact ih _ _ fun _ => hinit
    · exact hinit

/-- The scan of at least one byte, whatever the frame it is given. -/
theorem resyncs_getFrameFromBuffer (f : Frame) (bytes : Int) {n : Nat} (hn : 0 < n) :
    Resyncs cs m bytes n ((getFrameFromBuffer cs f bytes n).val m) := by
  have hne : n ≠ 0 := by omega
  obtain ⟨k, hk, hdiscard, hbefore, hends⟩ :=
    scan_spec cs m f bytes 0 n (absurd · hne) (absurd · hne)
  have hdecided := decided_scan cs m bytes 0 n (f := f) (absurd · hne)
  rw [Nat.zero_add] at hdiscard
  rw [getFrameFromBuffer_eq]
  generalize (scan cs f bytes 0 n).val m = r at hdiscard hends hdecided
  subst hdiscard
  refine ⟨hk, hbefore, fun hlt => ?_, fun hlt => ?_, fun hlt hok => ?_, fun heq => ?_⟩
  · cases hends with
    | nothing all => omega
    | wait _ waits => exact fun hskip => hskip.2 waits
    | found _ accepts => exact fun hskip => hskip.1 accepts
  · cases hends with
    | nothing all => omega
    | wait _ waits state => exact state.trans waits.symm
    | found _ accepts frame =>
      rw [frame, ← Frame.init_of_ok cs {} m (by omega) accepts]
      rfl
  · cases hends with
    | nothing all => omega
    | wait _ waits state =>
      rw [state] at hok
      cases hok
    | found _ accepts frame =>
      rw [Frame.init_of_ok cs {} m (by omega) accepts]
      exact frame
  · cases hends with
    | nothing _ notOk notWait => exact (hdecided.resolve_left notOk).resolve_left notWait
    | wait inside => omega
    | found inside => omega

/-- A packet behind junk is found if its check characters stand for the sum of its chars, and
passed over otherwise. -/
theorem getFrameFromBuffer_junk (f : Frame) {junk : List UInt8} (p : Packet) (bytes : Int) {n : Nat}
    (hjunk : frameHead ∉ junk) (h : Shows m bytes (junk ++ p.bytes))
    (hn : junk.length + p.body.length ≤ n) :
    let r := (getFrameFromBuffer cs f bytes n).val m
    (r.2 = junk.length ∧ r.1 = p.frame cs) ↔
      cs.checkValue p.check = (cs.sum p.body).tmod 1000 := by
  intro r
  have hfour := p.four_le
  obtain ⟨hat, hp⟩ := (shows_append ..).mp h
  have hresyncs : Resyncs cs m bytes n r := resyncs_getFrameFromBuffer cs m f bytes (by omega)
  have hlen : (p.body.length : Int) ≤ (n - junk.length : Nat) := by omega
  have hstate := p.stateAt_eq cs hp hlen
  have before : ∀ j < junk.length, Skipped cs m (bytes + (j : Nat)) (n - j : Nat) := by
    intro j hj
    have hnot : m (bytes + (j : Nat)) ≠ frameHead := by
      rw [hat.cell hj]
      intro heq
      exact hjunk (heq ▸ List.getElem_mem hj)
    rw [Skipped, Frame.stateAt_eq cs m (by omega), if_pos hnot]
    exact ⟨by decide, by decide⟩
  constructor
  · rintro ⟨hdiscard, -⟩
    by_contra hsum
    have hstop := hresyncs.stops (by omega)
    rw [if_neg hsum] at hstate
    rw [hdiscard, Skipped, hstate] at hstop
    exact hstop ⟨by decide, by decide⟩
  · intro hsum
    rw [if_pos hsum] at hstate
    have hdiscard : r.2 = junk.length := by
      refine hresyncs.eq_of_not_skipped (by omega) before ?_
      rw [Skipped, hstate]
      exact fun hskip => hskip.1 rfl
    have hok := hresyncs.state (by omega)
    rw [hdiscard, hstate] at hok
    refine ⟨hdiscard, (hresyncs.frame (by omega) hok).trans ?_⟩
    rw [hdiscard]
    exact p.init_eq cs {} hsum hp (by omega)

/-- `getFrameFromBuffer` stops where it should, on any bytes. Behind junk without a head it finds
a packet with decimal check digits for the sum of its bytes exactly if the chars of the body, as
this compiler has them, leave the same remainder; and they do where they are the bytes. -/
theorem getFrameFromBuffer_resyncs (cs : CharSign) :
    (∀ (m : Int → UInt8) (f : Frame) (bytes : Int) (n : Nat), 0 < n →
      Resyncs cs m bytes n ((getFrameFromBuffer cs f bytes n).val m)) ∧
    ∀ (m : Int → UInt8) (f : Frame) (bytes : Int) (junk : List UInt8) (p : Packet)
      (rest : List UInt8), frameHead ∉ junk → Decimal 3 (byteSum p.body % 1000) p.check →
        Shows m bytes (junk ++ (p.bytes ++ rest)) →
          let r := (getFrameFromBuffer cs f bytes (junk ++ (p.bytes ++ rest)).length).val m
          ((r.2 = junk.length ∧ r.1 = p.frame cs) ↔
            (cs.sum p.body).tmod 1000 = (byteSum p.body % 1000 : Nat)) ∧
          ((cs = .unsigned ∨ ∀ c ∈ p.body, c.toNat < 128) →
            r.2 = junk.length ∧ r.1 = p.frame cs) := by
  refine ⟨fun m f bytes n hn => resyncs_getFrameFromBuffer cs m f bytes hn, ?_⟩
  intro m f bytes junk p rest hjunk hcheck h
  have hvalue := p.checkValue_of_decimal cs hcheck
  have hshows : Shows m bytes (junk ++ p.bytes) := by
    rw [← List.append_assoc] at h
    exact ((shows_append ..).mp h).1
  have hlen : junk.length + p.body.length ≤ (junk ++ (p.bytes ++ rest)).length := by
    simp only [List.length_append, Packet.length_bytes]
    omega
  have hfound := getFrameFromBuffer_junk cs m f p bytes hjunk hshows hlen
  rw [hvalue] at hfound
  refine ⟨hfound.trans eq_comm, fun hchars => hfound.mpr ?_⟩
  rw [sum_eq_byteSum cs hchars]
  exact Int.ofNat_tmod (byteSum p.body) 1000

/-- The test request behind the junk `xx`. -/
theorem getFrameFromBuffer_resyncs_test :
    let bytes : List UInt8 := [0x78, 0x78] ++ (testPacket.bytes ++ [0x58])
    let r := (getFrameFromBuffer .signed {} 0 bytes.length).val (overlay bytes fun _ => 0)
    r.2 = 2 ∧ r.1 = testPacket.frame .signed := by
  intro bytes
  exact ((getFrameFromBuffer_resyncs .signed).2 _ {} 0 [0x78, 0x78] testPacket [0x58] (by decide)
    ⟨rfl, List.all_eq_true.mp (by decide), by decide⟩
    (shows_overlay bytes _ 0 List.prefix_rfl)).1.mpr (by decide)

/-- A body with a byte that is 128 and a char that is -128. -/
def highPacket : Packet :=
  ⟨[0x31, 0x33, 0x30, 0x80], [0x32, 0x37, 0x36], by decide, by decide, rfl⟩

theorem not_found_highPacket :
    Decimal 3 (byteSum highPacket.body % 1000) highPacket.check ∧
      let r := (getFrameFromBuffer .signed {} 0 highPacket.bytes.length).val
        (overlay highPacket.bytes fun _ => 0)
      ¬ (r.2 = 0 ∧ r.1 = highPacket.frame .signed) := by
  refine ⟨⟨rfl, List.all_eq_true.mp (by decide), by decide⟩, fun h => ?_⟩
  have hshows : Shows (overlay highPacket.bytes fun _ => 0) 0 ([] ++ highPacket.bytes) :=
    shows_overlay _ _ 0 List.prefix_rfl
  have hfound := getFrameFromBuffer_junk .signed _ {} highPacket 0
    (n := highPacket.bytes.length) List.not_mem_nil hshows (by decide)
  exact absurd (hfound.mp h) (by decide)

/-! ## A packet of which only the front is there -/

/-- The bytes are left where they are, until more of them come in. -/
def Kept (cs : CharSign) (m : Int → UInt8) (f : Frame) (bytes : Int) (n : Nat) : Prop :=
  let r := (getFrameFromBuffer cs f bytes n).val m
  r.1.state = .wait ∧ r.2 = 0

theorem kept_iff (f : Frame) (bytes : Int) {n : Nat} (hn : 0 < n) :
    Kept cs m f bytes n ↔ Frame.Waits cs m bytes n := by
  have hresyncs := resyncs_getFrameFromBuffer cs m f bytes hn
  rw [← Frame.stateAt_wait_iff cs m (by omega)]
  constructor
  · rintro ⟨hwait, hdiscard⟩
    have hstate := hresyncs.state (by omega)
    rw [hwait, hdiscard] at hstate
    simpa using hstate.symm
  · intro hwait
    have hdiscard := hresyncs.eq_of_not_skipped hn (by simp) (fun hskip => by
      simp only [Int.natCast_zero, Int.add_zero, Nat.sub_zero] at hskip
      exact hskip.2 hwait)
    have hstate := hresyncs.state (by omega)
    rw [hdiscard] at hstate
    simp only [Int.natCast_zero, Int.add_zero, Nat.sub_zero] at hstate
    exact ⟨hstate.trans hwait, hdiscard⟩

/-- The front of a packet is kept if it has the length in it and is shorter than the body, or if
the length that is made up from the memory behind it is in between its own length and 256. -/
theorem kept_front_iff (f : Frame) (p : Packet) (bytes : Int) {k : Nat} (hpos : 0 < k)
    (hk : k < p.bytes.length) (h : Shows m bytes (p.bytes.take k)) :
    Kept cs m f bytes k ↔
      if 5 ≤ k then k < p.body.length
      else (k : Int) < Frame.lengthAt cs m bytes ∧ Frame.lengthAt cs m bytes ≤ 256 := by
  have hbig := p.length_le
  have hhead : m bytes = frameHead := by
    obtain ⟨k, rfl⟩ := Nat.exists_eq_add_of_lt hpos
    have hcons : p.bytes.take (0 + k + 1) = frameHead :: p.bytes.tail.take (0 + k) := rfl
    rw [hcons] at h
    exact ((shows_cons ..).mp h).1
  rw [kept_iff cs m f bytes hpos, Frame.Waits, and_iff_right hhead]
  split_ifs with hfive
  · have hlead : Shows m bytes p.lead := by
      rw [Packet.bytes, List.take_append, p.length_lead,
        List.take_of_length_le (by rw [p.length_lead]; exact hfive)] at h
      exact ((shows_append ..).mp h).1
    rw [p.lengthAt_eq cs hlead]
    omega
  · exact and_comm

/-- A body of six bytes, of which the length has come in. -/
theorem kept_front_six :
    let p : Packet :=
      ⟨[0x31, 0x33, 0x30, 0x30, 0x41, 0x20], [0x32, 0x39, 0x33], by decide, by decide, rfl⟩
    Kept .signed (overlay (p.bytes.take 5) fun _ => 0) {} 0 5 := by
  intro p
  exact (kept_front_iff .signed _ {} p 0 (by decide) (by decide)
    (shows_overlay _ _ 0 List.prefix_rfl)).mpr (by decide)

/-- The head and the length of the test request, which are passed over. -/
theorem not_kept_front_test :
    Shows (overlay (testPacket.bytes.take 5) fun _ => 0) 0 (testPacket.bytes.take 5) ∧
      ¬ Kept .signed (overlay (testPacket.bytes.take 5) fun _ => 0) {} 0 5 := by
  refine ⟨shows_overlay _ _ 0 List.prefix_rfl, fun h => ?_⟩
  exact absurd ((kept_iff .signed _ {} 0 (by decide)).mp h) (by decide)

end AppConn

end SocketMaster
