import SocketMaster.Frame.Decode

/-!
# Where `Frame::init` reads

`init` is given the number of bytes there are from its pointer on. It reads past them in
exactly the cases that `Contained` excludes: a head with fewer than four bytes behind it, and
a length that it accepts although the frame with its nine further bytes does not fit. A
length below zero sends the check digits in front of the pointer.
-/
namespace SocketMaster

open Library

namespace Frame

/-- The frame that begins at `ptr` lies within the `len` bytes there, as far as `init` looks
at it. -/
def Contained (cs : CharSign) (m : Int → UInt8) (ptr len : Int) : Prop :=
  m ptr = frameHead → 5 ≤ len ∧ (lengthAt cs m ptr ≤ 256 → lengthAt cs m ptr ≤ len →
    10 ≤ len ∧ lengthAt cs m ptr + 8 ≤ len ∧ 0 ≤ ptr + lengthAt cs m ptr + 5)

instance (cs : CharSign) (m : Int → UInt8) (ptr len : Int) : Decidable (Contained cs m ptr len) := by
  unfold Contained
  infer_instance

variable (cs : CharSign) (f : Frame) {m m' : Int → UInt8} {ptr len : Int}

theorem initBody_within {P : Int → Prop} {head : UInt8} {length : Int}
    (hP : ∀ a, ptr + 5 ≤ a → a ≤ ptr + 9 → P a)
    (hbody : ∀ a, ptr + 5 ≤ a → a < ptr + length + 8 → P a)
    (hcheck : ∀ a, ptr + length + 5 ≤ a → a < ptr + length + 8 → P a) :
    Reads.Within P (initBody cs ptr head length) m := by
  simp only [initBody, Reads.within_bind, Reads.within_read, Reads.within_pure, and_true,
    sumLoop_within]
  refine ⟨hP _ (by omega) (by omega), hP _ (by omega) (by omega), hP _ (by omega) (by omega),
    hP _ (by omega) (by omega), ?_, ?_, hcheck _ (by omega) (by omega),
    hcheck _ (by omega) (by omega), hcheck _ (by omega) (by omega)⟩
  · intro a ha ha'
    exact hbody a (by omega) (by omega)
  · refine paraLoop_within m _ _ _ _ (by omega) fun a ha ha' => ?_
    by_cases hlast : a < ptr + length + 8
    · exact hbody a (by omega) hlast
    · exact hP a (by omega) (by omega)

/-- The cells of the body that `init` cannot do without. -/
theorem initBody_within_ends {P : Int → Prop} {head : UInt8} {length : Int}
    (h : Reads.Within P (initBody cs ptr head length) m) :
    P (ptr + 9) ∧ P (ptr + length + 5) ∧ P (ptr + length + 7) := by
  simp only [initBody, Reads.within_bind, Reads.within_read, Reads.within_pure, and_true] at h
  obtain ⟨-, -, -, -, -, hpara, hfirst, -, hlast⟩ := h
  refine ⟨paraLoop_within_first m hpara, ?_, ?_⟩
  · simpa [Int.add_assoc] using hfirst
  · simpa [Int.add_assoc] using hlast

/-- What `init` reads: the dump of all the bytes, the head, behind a head the length, and behind
a length that it accepts the body. -/
theorem init_within_iff {P : Int → Prop} (hlen : 0 < len) :
    Reads.Within P (init cs f ptr len) m ↔
      (∀ a, ptr ≤ a → a < ptr + (len.toNat : Int) → P a) ∧ P ptr ∧ (m ptr = frameHead →
        P (ptr + 1) ∧ P (ptr + 2) ∧ P (ptr + 3) ∧ P (ptr + 4) ∧
          (lengthAt cs m ptr ≤ 256 → lengthAt cs m ptr ≤ len →
            Reads.Within P (initBody cs ptr frameHead (lengthAt cs m ptr)) m)) := by
  have hnot : ¬ len ≤ 0 := not_le.mpr hlen
  simp only [init, hnot, if_false, Reads.within_bind, Reads.within_readBlock, Reads.within_read]
  refine and_congr_right fun _ => and_congr_right fun _ => ?_
  by_cases hhead : m ptr = frameHead
  swap
  · simp [hhead]
  simp only [Reads.val_read, hhead, ne_eq, not_true, if_false, true_implies, Reads.within_bind,
    Reads.within_read]
  refine and_congr_right fun _ => and_congr_right fun _ => and_congr_right fun _ =>
    and_congr_right fun _ => ?_
  show Reads.Within P (if 256 < lengthAt cs m ptr then _ else
    if len < lengthAt cs m ptr then _ else _) m ↔ _
  split_ifs with hbig hwait
  · simp [hbig]
  · simp [hwait]
  · exact ⟨fun h _ _ => h, fun h => h (not_lt.mp hbig) (not_lt.mp hwait)⟩

/-- `init` stays within the bytes it is told of exactly if the frame is contained in them. -/
theorem init_within (hptr : 0 ≤ ptr) (hlen : 0 < len) :
    Reads.Within (fun a => 0 ≤ a ∧ a < ptr + len) (init cs f ptr len) m ↔
      Contained cs m ptr len := by
  rw [init_within_iff cs f hlen]
  constructor
  · rintro ⟨-, -, h⟩ hhead
    obtain ⟨-, -, -, hfour, hbody⟩ := h hhead
    refine ⟨by omega, fun hbig hfit => ?_⟩
    have hends := initBody_within_ends cs (hbody hbig hfit)
    exact ⟨by omega, by omega, by omega⟩
  · intro h
    refine ⟨fun a ha ha' => by omega, by omega, fun hhead => ?_⟩
    obtain ⟨hfive, hfit⟩ := h hhead
    refine ⟨by omega, by omega, by omega, by omega, fun hbig hlong => ?_⟩
    obtain ⟨hten, hlast, hfirst⟩ := hfit hbig hlong
    refine initBody_within cs ?_ ?_ ?_
    · intro a ha ha'
      omega
    · intro a ha ha'
      omega
    · intro a ha ha'
      omega

theorem initBody_local (head : UInt8) (length : Int) :
    Reads.Local (initBody cs ptr head length) := by
  refine .bind (.read _) fun _ => .bind (.read _) fun _ => .bind (.read _) fun _ => ?_
  refine .bind (.read _) fun _ => .bind (sumLoop_local cs _ _ _) fun _ => ?_
  refine .bind (paraLoop_local _ _ _ _) fun _ => ?_
  exact .bind (.read _) fun _ => .bind (.read _) fun _ => .bind (.read _) fun _ => .pure _

theorem init_local : Reads.Local (init cs f ptr len) := by
  refine .ite (.pure _) (.bind (.readBlock _ _) fun _ => .bind (.read _) fun _ => ?_)
  refine .ite (.pure _) (.bind (.read _) fun _ => .bind (.read _) fun _ => ?_)
  refine .bind (.read _) fun _ => .bind (.read _) fun _ => ?_
  exact .ite (.pure _) (.ite (.pure _) (initBody_local cs _ _))

end Frame

end SocketMaster
