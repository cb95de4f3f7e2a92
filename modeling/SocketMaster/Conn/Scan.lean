import SocketMaster.Conn.Process
import SocketMaster.Frame.Bounds

/-!
# What `getFrameFromBuffer` finds

The scan stops at the first offset where `init` accepts a frame or wants to wait for the rest
of one, and passes over every byte before it. What `init` decides at an offset does not
depend on the frame object that earlier offsets have left behind.
-/
namespace SocketMaster

open Library

namespace Frame

/-- The state that `init` leaves on the `len` bytes at `ptr`. -/
def stateAt (cs : CharSign) (m : Int → UInt8) (ptr len : Int) : FrameState :=
  ((init cs {} ptr len).val m).state

/-- `getFrameFromBuffer` passes over the byte at `ptr`. -/
def Skipped (cs : CharSign) (m : Int → UInt8) (ptr len : Int) : Prop :=
  stateAt cs m ptr len ≠ .ok ∧ stateAt cs m ptr len ≠ .wait

instance (cs : CharSign) (m : Int → UInt8) (ptr len : Int) : Decidable (Skipped cs m ptr len) := by
  unfold Skipped
  infer_instance

variable (cs : CharSign) (f : Frame) (m : Int → UInt8) {ptr len : Int}

theorem stateAt_eq (h : 0 < len) : stateAt cs m ptr len =
    if m ptr ≠ frameHead then .headError
    else if 256 < lengthAt cs m ptr then .lengthError
    else if len < lengthAt cs m ptr then .wait
    else if Checks cs m ptr then .ok else .checkError := by
  unfold stateAt
  rw [init_val _ _ _ h]
  split_ifs with _ _ _ hcheck
  · rfl
  · rfl
  · rfl
  · simp [decoded, hcheck]
  · simp [decoded, hcheck]

theorem init_state (h : 0 < len) : ((init cs f ptr len).val m).state = stateAt cs m ptr len := by
  unfold stateAt
  rw [init_val _ _ _ h, init_val _ _ _ h]
  split_ifs <;> rfl

theorem init_of_ok (h : 0 < len) (hok : stateAt cs m ptr len = .ok) :
    (init cs f ptr len).val m = decoded cs m ptr := by
  rw [stateAt_eq cs m h] at hok
  rw [init_val _ _ _ h]
  split_ifs at hok ⊢
  rfl

/-- The bytes at `ptr` that `init` accepts: a head, a length that does not exceed the bytes
there are, and check digits that agree. -/
def Accepts (cs : CharSign) (m : Int → UInt8) (ptr len : Int) : Prop :=
  m ptr = frameHead ∧ lengthAt cs m ptr ≤ 256 ∧ lengthAt cs m ptr ≤ len ∧ Checks cs m ptr

/-- The bytes at `ptr` on which `init` waits for more. -/
def Waits (cs : CharSign) (m : Int → UInt8) (ptr len : Int) : Prop :=
  m ptr = frameHead ∧ lengthAt cs m ptr ≤ 256 ∧ len < lengthAt cs m ptr

instance (cs : CharSign) (m : Int → UInt8) (ptr len : Int) : Decidable (Accepts cs m ptr len) := by
  unfold Accepts
  infer_instance

instance (cs : CharSign) (m : Int → UInt8) (ptr len : Int) : Decidable (Waits cs m ptr len) := by
  unfold Waits
  infer_instance

theorem stateAt_ok_iff (h : 0 < len) : stateAt cs m ptr len = .ok ↔ Accepts cs m ptr len := by
  rw [stateAt_eq cs m h, Accepts]
  split_ifs <;> simp_all

theorem stateAt_wait_iff (h : 0 < len) : stateAt cs m ptr len = .wait ↔ Waits cs m ptr len := by
  rw [stateAt_eq cs m h, Waits]
  split_ifs <;> simp_all

theorem skipped_iff (h : 0 < len) :
    Skipped cs m ptr len ↔ ¬ Accepts cs m ptr len ∧ ¬ Waits cs m ptr len := by
  rw [← stateAt_ok_iff cs m h, ← stateAt_wait_iff cs m h]
  rfl

variable {cs m}

theorem Accepts.not_skipped (h : 0 < len) (haccepts : Accepts cs m ptr len) :
    ¬ Skipped cs m ptr len :=
  fun hskip => ((skipped_iff cs m h).mp hskip).1 haccepts

theorem Waits.not_skipped (h : 0 < len) (hwaits : Waits cs m ptr len) : ¬ Skipped cs m ptr len :=
  fun hskip => ((skipped_iff cs m h).mp hskip).2 hwaits

variable (cs m)

/-- The addresses that `init` reads do not depend on the frame it starts from. -/
theorem init_log (ptr len : Int) : (init cs f ptr len).log m = (init cs {} ptr len).log m := by
  by_cases hlen : len ≤ 0
  · rw [init, init, if_pos hlen, if_pos hlen]
    rfl
  · rw [init, init, if_neg hlen, if_neg hlen]
    simp only [Reads.log_bind, Reads.log_ite, Reads.log_pure]

end Frame

namespace AppConn

variable (cs : CharSign) (m : Int → UInt8)

open SocketMaster.Frame (stateAt Skipped decoded init_state)

/-- The scan from one offset on, with `discard` bytes passed over already. -/
def scan (f : Frame) (bytes : Int) (discard n : Nat) : Reads UInt8 (Frame × Nat) := do
  let f ← Frame.init cs f bytes n
  scanLoop cs f bytes discard n

theorem getFrameFromBuffer_eq (f : Frame) (bytes : Int) (n : Nat) :
    getFrameFromBuffer cs f bytes n = scan cs f bytes 0 n := rfl

/-- How a scan of `n` bytes from `bytes` on ends after passing over `k` of them. -/
inductive Ends (bytes : Int) (n k : Nat) (f : Frame) : Prop where
  | nothing (all : k = n) (notOk : f.state ≠ .ok) (notWait : f.state ≠ .wait)
  | wait (inside : k < n) (waits : stateAt cs m (bytes + k) (n - k : Nat) = .wait)
      (state : f.state = .wait)
  | found (inside : k < n) (accepts : stateAt cs m (bytes + k) (n - k : Nat) = .ok)
      (frame : f = decoded cs m (bytes + k))

/-- One turn of the scan. -/
theorem scan_succ (f : Frame) (bytes : Int) (discard n : Nat) :
    (scan cs f bytes discard (n + 1)).val m =
      if Skipped cs m bytes (n + 1 : Nat) then
        (scan cs ((Frame.init cs f bytes (n + 1 : Nat)).val m) (bytes + 1) (discard + 1) n).val m
      else ((Frame.init cs f bytes (n + 1 : Nat)).val m, discard) := by
  have hpos : (0 : Int) < (n + 1 : Nat) := by omega
  have hstate : ((Frame.init cs f bytes (n + 1 : Nat)).val m).state =
      stateAt cs m bytes (n + 1 : Nat) := init_state cs f m hpos
  by_cases hskip : Skipped cs m bytes (n + 1 : Nat)
  · have hgo : ¬ (stateAt cs m bytes (n + 1 : Nat) = .ok ∨ stateAt cs m bytes (n + 1 : Nat) = .wait) :=
      not_or.mpr hskip
    simp only [scan, Reads.val_bind, scanLoop, hstate, if_neg hgo, if_pos hskip]
  · have hstop : stateAt cs m bytes (n + 1 : Nat) = .ok ∨ stateAt cs m bytes (n + 1 : Nat) = .wait := by
      simpa [Skipped, imp_iff_not_or] using hskip
    simp only [scan, Reads.val_bind, scanLoop, hstate, if_pos hstop, if_neg hskip,
      Reads.val_pure]

/-- The frame the scan starts from matters only if there is no byte to look at. -/
theorem scan_spec (f : Frame) (bytes : Int) (discard n : Nat)
    (hok : n = 0 → f.state ≠ .ok) (hwait : n = 0 → f.state ≠ .wait) :
    ∃ k ≤ n, ((scan cs f bytes discard n).val m).2 = discard + k ∧
      (∀ j < k, Skipped cs m (bytes + (j : Nat)) (n - j : Nat)) ∧
      Ends cs m bytes n k ((scan cs f bytes discard n).val m).1 := by
  induction n generalizing f bytes discard with
  | zero =>
    refine ⟨0, le_refl 0, by simp [scan, scanLoop], by simp, ?_⟩
    exact .nothing rfl (by simpa [scan, scanLoop] using hok rfl)
      (by simpa [scan, scanLoop] using hwait rfl)
  | succ n ih =>
    have hpos : (0 : Int) < ((n + 1 : Nat) : Int) := by omega
    have hstate : ((Frame.init cs f bytes (n + 1 : Nat)).val m).state =
        stateAt cs m bytes (n + 1 : Nat) := init_state cs f m hpos
    rw [scan_succ]
    split_ifs with hskip
    · obtain ⟨k, hk, hdiscard, hbefore, hends⟩ := ih ((Frame.init cs f bytes (n + 1 : Nat)).val m)
        (bytes + 1) (discard + 1) (fun _ => hstate ▸ hskip.1) (fun _ => hstate ▸ hskip.2)
      have hat : bytes + 1 + (k : Int) = bytes + (k + 1 : Nat) := by omega
      have hleft : n - k = n + 1 - (k + 1) := by omega
      refine ⟨k + 1, by omega, by omega, ?_, ?_⟩
      · intro j hj
        cases j with
        | zero => simpa using hskip
        | succ j =>
          have hj' : bytes + 1 + (j : Int) = bytes + (j + 1 : Nat) := by omega
          have hleft' : n - j = n + 1 - (j + 1) := by omega
          simpa only [hj', hleft'] using hbefore j (by omega)
      · cases hends with
        | nothing all notOk notWait => exact .nothing (by omega) notOk notWait
        | wait inside waits state =>
          rw [hat, hleft] at waits
          exact .wait (by omega) waits state
        | found inside accepts frame =>
          rw [hat, hleft] at accepts
          rw [hat] at frame
          exact .found (by omega) accepts frame
    · refine ⟨0, Nat.zero_le _, rfl, by simp, ?_⟩
      by_cases haccept : stateAt cs m bytes (n + 1 : Nat) = .ok
      · refine .found (by omega) (by simpa using haccept) ?_
        simpa using Frame.init_of_ok cs f m hpos haccept
      · have hwaits : stateAt cs m bytes (n + 1 : Nat) = .wait :=
          by_contra fun h => hskip ⟨haccept, h⟩
        exact .wait (by omega) (by simpa using hwaits) (hstate.trans hwaits)

/-- `getFrameFromBuffer` on a fresh frame. -/
theorem getFrameFromBuffer_spec (n : Nat) :
    ∃ k ≤ n, ((getFrameFromBuffer cs {} 0 n).val m).2 = k ∧
      (∀ j < k, Skipped cs m (j : Nat) (n - j : Nat)) ∧
      Ends cs m 0 n k ((getFrameFromBuffer cs {} 0 n).val m).1 := by
  obtain ⟨k, hk, hdiscard, hbefore, hends⟩ := scan_spec cs m {} 0 0 n
    (fun _ => by decide) (fun _ => by decide)
  rw [getFrameFromBuffer_eq]
  exact ⟨k, hk, by simpa using hdiscard, by simpa using hbefore, hends⟩

/-- The scan stops where it has to. -/
theorem getFrameFromBuffer_stop {n k : Nat} (hk : k < n)
    (before : ∀ j < k, Skipped cs m (j : Nat) (n - j : Nat))
    (stop : ¬ Skipped cs m (k : Nat) (n - k : Nat)) :
    ((getFrameFromBuffer cs {} 0 n).val m).2 = k ∧
      Ends cs m 0 n k ((getFrameFromBuffer cs {} 0 n).val m).1 := by
  obtain ⟨k', hk', hdiscard, hbefore, hends⟩ := getFrameFromBuffer_spec cs m n
  have hle : k' ≤ k := by
    by_contra hlt
    exact stop (hbefore k (by omega))
  have hge : k ≤ k' := by
    by_contra hlt
    have hskip := before k' (by omega)
    cases hends with
    | nothing all => omega
    | wait inside waits => exact hskip.2 (by simpa using waits)
    | found inside accepts => exact hskip.1 (by simpa using accepts)
  obtain rfl : k' = k := le_antisymm hle hge
  exact ⟨hdiscard, hends⟩

/-! ## What the scan reads -/

theorem scan_within_succ {P : Int → Prop} (f : Frame) (bytes : Int) (discard n : Nat) :
    Reads.Within P (scan cs f bytes discard (n + 1)) m ↔
      Reads.Within P (Frame.init cs {} bytes (n + 1 : Nat)) m ∧
        (Skipped cs m bytes (n + 1 : Nat) → Reads.Within P
          (scan cs ((Frame.init cs f bytes (n + 1 : Nat)).val m) (bytes + 1) (discard + 1) n) m) := by
  have hstate : ((Frame.init cs f bytes (n + 1 : Nat)).val m).state =
      stateAt cs m bytes (n + 1 : Nat) := init_state cs f m (by omega)
  have hfirst : Reads.Within P (Frame.init cs f bytes (n + 1 : Nat)) m ↔
      Reads.Within P (Frame.init cs {} bytes (n + 1 : Nat)) m := by
    simp only [Reads.Within, Frame.init_log cs f]
  have hscan : Reads.Within P (scan cs f bytes discard (n + 1)) m ↔
      Reads.Within P (Frame.init cs f bytes (n + 1 : Nat)) m ∧ Reads.Within P
        (scanLoop cs ((Frame.init cs f bytes (n + 1 : Nat)).val m) bytes discard (n + 1)) m :=
    Reads.within_bind _ _
  rw [hscan, hfirst]
  refine and_congr_right fun _ => ?_
  simp only [scanLoop, hstate]
  by_cases hskip : Skipped cs m bytes (n + 1 : Nat)
  · rw [if_neg (not_or.mpr hskip)]
    exact ⟨fun h _ => h, fun h => h hskip⟩
  · have hstop : stateAt cs m bytes (n + 1 : Nat) = .ok ∨ stateAt cs m bytes (n + 1 : Nat) = .wait := by
      simpa [Skipped, imp_iff_not_or] using hskip
    rw [if_pos hstop]
    exact ⟨fun _ h => absurd h hskip, fun _ => Reads.within_pure _⟩

/-- The scan reads what `init` reads at every offset it comes to. -/
theorem scan_within {P : Int → Prop} (f : Frame) (bytes : Int) (discard n : Nat) :
    Reads.Within P (scan cs f bytes discard n) m ↔
      ∀ j < n, (∀ i < j, Skipped cs m (bytes + (i : Nat)) (n - i : Nat)) →
        Reads.Within P (Frame.init cs {} (bytes + (j : Nat)) (n - j : Nat)) m := by
  induction n generalizing f bytes discard with
  | zero => simp [scan, scanLoop, Frame.init]
  | succ n ih =>
    have hshift : ∀ j : Nat, bytes + 1 + (j : Int) = bytes + (j + 1 : Nat) := by omega
    have hleft : ∀ j : Nat, n - j = n + 1 - (j + 1) := by omega
    rw [scan_within_succ, ih]
    constructor
    · rintro ⟨hfirst, hrest⟩ j hj before
      cases j with
      | zero => simpa using hfirst
      | succ j =>
        have hskip : Skipped cs m bytes (n + 1 : Nat) := by simpa using before 0 (by omega)
        rw [← hshift, ← hleft]
        refine hrest hskip j (by omega) fun i hi => ?_
        rw [hshift, hleft]
        exact before (i + 1) (by omega)
    · intro h
      refine ⟨by simpa using h 0 (by omega) (by simp), fun hskip j hj before => ?_⟩
      rw [hshift, hleft]
      refine h (j + 1) (by omega) fun i hi => ?_
      cases i with
      | zero => simpa using hskip
      | succ i =>
        rw [← hshift, ← hleft]
        exact before i (by omega)

theorem scanLoop_local (f : Frame) (bytes : Int) (discard n : Nat) :
    Reads.Local (scanLoop cs f bytes discard n) := by
  induction n generalizing f bytes discard with
  | zero => exact .pure _
  | succ n ih => exact .ite (.pure _) (.bind (Frame.init_local cs f) fun _ => ih _ _ _)

theorem getFrameFromBuffer_local (f : Frame) (bytes len : Int) :
    Reads.Local (getFrameFromBuffer cs f bytes len) :=
  .bind (Frame.init_local cs f) fun _ => scanLoop_local cs _ _ _ _

end AppConn

end SocketMaster
