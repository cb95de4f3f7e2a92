import SocketMaster.Conn.Life

/-!
# Where `process` reads in its local array

The condition under which every index that `process` reads lies within the bytes that were
received. It is a condition on those bytes alone, whatever lies behind them in the array:
as long as the scan stays inside, it cannot tell what is outside.
-/
namespace SocketMaster

open Library

/-- The received bytes, with zeros for everything around them. -/
def bare (xs : List UInt8) : Int → UInt8 := overlay xs fun _ => 0

/-- Every frame that the scan looks at is contained in the bytes that are left: it looks at
an offset if it neither accepts nor waits at any before it. -/
def ScanContained (cs : CharSign) (m : Int → UInt8) (n : Nat) : Prop :=
  ∀ d < n, (∀ j < d, ¬ Frame.Accepts cs m (j : Nat) (n - j : Nat) ∧
      ¬ Frame.Waits cs m (j : Nat) (n - j : Nat)) →
    Frame.Contained cs m (d : Nat) (n - d : Nat)

instance (cs : CharSign) (m : Int → UInt8) (n : Nat) : Decidable (ScanContained cs m n) := by
  unfold ScanContained
  infer_instance

/-- The received bytes on which `process` stays inside them. A frame right at the front needs
its newline, too, unless its handler never returns: the log line that repeats it is one byte
longer than what `init` has looked at. -/
structure InputClear (cs : CharSign) (env : Env) (xs : List UInt8) : Prop where
  contained : ScanContained cs (bare xs) xs.length
  record : Frame.Accepts cs (bare xs) 0 xs.length →
    (Frame.decoded cs (bare xs) 0).type = typeAck ∨ Answerable env (Frame.decoded cs (bare xs) 0) →
    Frame.lengthAt cs (bare xs) 0 + 9 ≤ xs.length

/-- Every index read is one of the `n` bytes stored in the array. -/
def Outcome.ReadsInside (o : Outcome) (n : Nat) : Prop := ∀ a ∈ o.reads, 0 ≤ a ∧ a < 256 ∧ a < n

instance (o : Outcome) (n : Nat) : Decidable (o.ReadsInside n) := by
  unfold Outcome.ReadsInside
  infer_instance

namespace AppConn

variable {cs : CharSign} {env : Env} {tail : Int → UInt8} {channel : List UInt8} {c : AppConn}

theorem scan_within_iff (m : Int → UInt8) (n : Nat) :
    Reads.Within (fun a => 0 ≤ a ∧ a < n) (getFrameFromBuffer cs {} 0 n) m ↔
      ScanContained cs m n := by
  rw [getFrameFromBuffer_eq, scan_within]
  refine forall₂_congr fun d hd => ?_
  simp only [Int.zero_add]
  refine imp_congr (forall₂_congr fun j hj => Frame.skipped_iff cs m (by omega)) ?_
  have hbound : (fun a : Int => 0 ≤ a ∧ a < n) =
      fun a => 0 ≤ a ∧ a < ((d : Nat) : Int) + ((n - d : Nat) : Int) := by
    funext a
    rw [show ((d : Nat) : Int) + ((n - d : Nat) : Int) = n by omega]
  rw [hbound]
  exact Frame.init_within cs {} (by omega) (by omega)

/-- A scan that stays inside the received bytes sees nothing else. -/
theorem scan_congr {xs : List UInt8} {tail : Int → UInt8}
    (h : ScanContained cs (overlay xs tail) xs.length) (other : Int → UInt8) :
    getFrameFromBuffer cs {} 0 xs.length (overlay xs other) =
      getFrameFromBuffer cs {} 0 xs.length (overlay xs tail) := by
  refine getFrameFromBuffer_local cs _ _ _ _ _ fun a ha => ?_
  obtain ⟨h0, hlt⟩ := (scan_within_iff _ _).mpr h a ha
  obtain ⟨i, rfl⟩ := Int.eq_ofNat_of_zero_le h0
  rw [overlay_of_lt xs other (by omega), overlay_of_lt xs tail (by omega)]

theorem scanContained_congr {xs : List UInt8} {tail : Int → UInt8}
    (h : ScanContained cs (overlay xs tail) xs.length) (other : Int → UInt8) :
    ScanContained cs (overlay xs other) xs.length := by
  have hscan := scan_congr h other
  rw [← scan_within_iff] at h ⊢
  intro a ha
  exact h a (by rwa [Reads.log, hscan] at ha)

/-- The frame at the very front, where the scan accepts it. -/
theorem getFrameFromBuffer_front {m : Int → UInt8} {n : Nat}
    (hok : Frame.stateAt cs m 0 n = .ok) :
    (getFrameFromBuffer cs {} 0 n).val m = (Frame.decoded cs m 0, 0) := by
  have hpos : 0 < n := by
    by_contra hzero
    obtain rfl : n = 0 := by omega
    simp [Frame.stateAt] at hok
  have stop : ¬ Frame.Skipped cs m ((0 : Nat) : Int) (n - 0 : Nat) := fun h => h.1 (by simpa using hok)
  obtain ⟨hdiscard, hends⟩ := getFrameFromBuffer_stop cs m hpos (by simp) stop
  cases hends with
  | nothing all => omega
  | wait _ waits => simp [hok] at waits
  | found _ _ frame => exact Prod.ext (by simpa using frame) hdiscard

/-- `dispatch` adds to the reads so far. -/
theorem mem_dispatch_reads {bytes : Int → UInt8} {reads : List Int} {frame : Frame} {discard : Nat}
    {a : Int} (h : a ∈ reads) :
    a ∈ (c.dispatch cs env channel bytes reads frame discard).reads := by
  by_cases hok : frame.state = .ok
  · cases hf : (c.popRead discard).frameProcess cs env channel frame with
    | error e =>
      rw [dispatch_of_fault hok hf]
      exact h
    | ok d =>
      rw [dispatch_of_handled hok hf]
      split_ifs
      · exact h
      · exact List.mem_append_left _ h
  · rw [dispatch_of_ne hok]
    exact h

/-- What `dispatch` adds are the bytes of a frame that has been handled. -/
theorem dispatch_reads_cases {bytes : Int → UInt8} {reads : List Int} {frame : Frame}
    {discard : Nat} {a : Int}
    (h : a ∈ (c.dispatch cs env channel bytes reads frame discard).reads) :
    a ∈ reads ∨ frame.state = .ok ∧ (frame.type = typeAck ∨ Answerable env frame) ∧
      0 ≤ a ∧ a < frame.size := by
  by_cases hok : frame.state = .ok
  · cases hf : (c.popRead discard).frameProcess cs env channel frame with
    | error e =>
      rw [dispatch_of_fault hok hf] at h
      exact .inl h
    | ok d =>
      rw [dispatch_of_handled hok hf] at h
      split_ifs at h with hneg
      · exact .inl h
      · obtain h | h := List.mem_append.mp h
        · exact .inl h
        · rw [Reads.mem_log_readBlock] at h
          exact .inr ⟨hok, (frameProcess_returns_iff ..).mp ⟨d, hf⟩, h.1, by omega⟩
  · rw [dispatch_of_ne hok] at h
    exact .inl h

/-- Where a frame that the scan has found ends. -/
theorem found_size_le {m : Int → UInt8} {n k : Nat} {f : Frame} (h : ScanContained cs m n)
    (before : ∀ j < k, Frame.Skipped cs m (j : Nat) (n - j : Nat))
    (ends : Ends cs m 0 n k f) (hok : f.state = .ok) : f.size ≤ n + 1 - k := by
  cases ends with
  | nothing _ notOk => exact absurd hok notOk
  | wait _ _ state => simp [hok] at state
  | found inside accepts frame =>
    rw [Int.zero_add] at accepts frame
    obtain ⟨hhead, hbig, hfit, -⟩ := (Frame.stateAt_ok_iff cs m (by omega)).mp accepts
    have passed : ∀ j < k, ¬ Frame.Accepts cs m (j : Nat) (n - j : Nat) ∧
        ¬ Frame.Waits cs m (j : Nat) (n - j : Nat) :=
      fun j hj => (Frame.skipped_iff cs m (by omega)).mp (before j hj)
    obtain ⟨-, hrest⟩ := h k inside passed hhead
    obtain ⟨-, hlast, -⟩ := hrest hbig hfit
    rw [frame]
    simp only [Frame.size, Frame.decoded]
    omega

/-- `process` reads nothing outside the received bytes exactly on the inputs that are clear. -/
theorem reads_inside_iff (hc : Reachable cs c) (env : Env) (tail : Int → UInt8)
    (channel : List UInt8) :
    (c.process cs env tail channel).ReadsInside c.readBuff.content.length ↔
      InputClear cs env c.readBuff.content := by
  have hs := hc.sound
  have hle := hs.length_le
  rw [c.readBuff_size, ← hs.length_content] at hle
  rw [process_eq hs]
  generalize c.readBuff.content = xs at hle
  by_cases hnil : xs = []
  · subst hnil
    have hclear : InputClear cs env [] :=
      ⟨by simp [ScanContained], fun haccepts => absurd haccepts.1 (by decide)⟩
    exact iff_of_true (by simp [Outcome.ReadsInside]) hclear
  have hpos : (0 : Int) < xs.length := by
    have := List.length_pos_iff.mpr hnil
    omega
  rw [if_neg hnil]
  dsimp only
  constructor
  · intro h
    have hcont : ScanContained cs (overlay xs tail) xs.length :=
      (scan_within_iff _ _).mp fun a ha =>
        ⟨(h a (mem_dispatch_reads ha)).1, (h a (mem_dispatch_reads ha)).2.2⟩
    have hbare : ScanContained cs (bare xs) xs.length := scanContained_congr hcont _
    refine ⟨hbare, fun haccepts hans => ?_⟩
    have hok := (Frame.stateAt_ok_iff cs (bare xs) hpos).mpr haccepts
    obtain ⟨hhead, hbig, hfit, -⟩ := haccepts
    have hval : (getFrameFromBuffer cs {} 0 xs.length).val (overlay xs tail) =
        (Frame.decoded cs (bare xs) 0, 0) := by
      rw [← getFrameFromBuffer_front hok, Reads.val, Reads.val, scan_congr hbare tail]
      rfl
    have hfirst := hbare 0 (List.length_pos_iff.mpr hnil) (by simp) hhead
    have hlow := (hfirst.2 hbig (by simpa using hfit)).2.2
    rw [Int.natCast_zero] at hlow
    obtain ⟨d, hd⟩ := (frameProcess_returns_iff cs env channel (c.popRead (0 : Nat)) _).mpr hans
    have hstate : (Frame.decoded cs (bare xs) 0).state = .ok := by
      rw [← Frame.init_of_ok cs {} (bare xs) (by omega) hok]
      exact hok
    rw [hval, dispatch_of_handled hstate hd] at h
    have hsize : (Frame.decoded cs (bare xs) 0).size = Frame.lengthAt cs (bare xs) 0 + 9 := by
      simp only [Frame.size, Frame.decoded]
      omega
    rw [if_neg (by omega)] at h
    have hlast := h ((Frame.decoded cs (bare xs) 0).size - 1)
      (List.mem_append_right _ ((Reads.mem_log_readBlock ..).mpr (by omega)))
    omega
  · rintro ⟨hbare, record⟩ a ha
    have hscan : getFrameFromBuffer cs {} 0 xs.length (overlay xs tail) =
        getFrameFromBuffer cs {} 0 xs.length (bare xs) := scan_congr hbare tail
    have hval : (getFrameFromBuffer cs {} 0 xs.length).val (overlay xs tail) =
        (getFrameFromBuffer cs {} 0 xs.length).val (bare xs) := congrArg Prod.fst hscan
    have hlog : (getFrameFromBuffer cs {} 0 xs.length).log (overlay xs tail) =
        (getFrameFromBuffer cs {} 0 xs.length).log (bare xs) := congrArg Prod.snd hscan
    rw [hval, hlog] at ha
    obtain ⟨k, hk, hdiscard, before, ends⟩ := getFrameFromBuffer_spec cs (bare xs) xs.length
    obtain ha | ⟨hok, hans, h0, hlt⟩ := dispatch_reads_cases ha
    · have := (scan_within_iff _ _).mpr hbare a ha
      omega
    · have hsize := found_size_le hbare before ends hok
      by_cases hfront : k = 0
      · subst hfront
        cases ends with
        | nothing _ notOk => exact absurd hok notOk
        | wait _ _ state => simp [hok] at state
        | found inside accepts frame =>
          rw [Int.zero_add, Int.natCast_zero] at accepts frame
          rw [frame] at hans hlt
          have := record ((Frame.stateAt_ok_iff cs (bare xs) hpos).mp accepts) hans
          simp only [Frame.size, Frame.decoded] at hlt
          omega
      · omega

/-- A whole request that is the only thing received. -/
theorem reads_inside_bareSetTime :
    ((received ⟨bareSetTime, by decide, by decide⟩).process .signed printsNinetyNine
      (fun _ => 0) []).ReadsInside
        (received ⟨bareSetTime, by decide, by decide⟩).readBuff.content.length := by
  have hcontent : (received ⟨bareSetTime, by decide, by decide⟩).readBuff.content = bareSetTime := by
    decide
  refine (reads_inside_iff (reachable_received .signed _) printsNinetyNine (fun _ => 0) []).mpr ?_
  rw [hcontent]
  have hlast : Frame.lengthAt .signed (bare bareSetTime) 0 + 9 ≤ bareSetTime.length := by decide
  exact ⟨by decide, fun _ _ => hlast⟩

/-- A lone head: the length characters are taken from behind it. -/
theorem not_reads_inside_lone_head :
    Reachable .signed (received ⟨[frameHead], by decide, by decide⟩) ∧
    ¬ ((received ⟨[frameHead], by decide, by decide⟩).process .signed printsNinetyNine
      (fun _ => 0) []).ReadsInside
        (received ⟨[frameHead], by decide, by decide⟩).readBuff.content.length :=
  ⟨reachable_received .signed _, by decide⟩

end AppConn

end SocketMaster
