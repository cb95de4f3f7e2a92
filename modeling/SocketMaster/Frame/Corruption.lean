import SocketMaster.Library.Codes
import SocketMaster.Frame.Grammar

/-!
# What the check digits detect

An accepted frame in which one byte of the body or one check digit has become another is refused.
One whose body has been put into another order is accepted, whatever it now says.
-/
namespace SocketMaster

open Library

theorem val_ne (cs : CharSign) {a b : UInt8} (h : a ≠ b) :
    cs.val a ≠ cs.val b ∧ cs.val a - cs.val b < 1000 := by
  have hnat : a.toNat ≠ b.toNat := fun heq => h (UInt8.toNat_inj.mp heq)
  have ha := a.toNat_lt
  have hb := b.toNat_lt
  cases cs with
  | unsigned =>
    simp only [CharSign.val]
    omega
  | signed =>
    simp only [CharSign.val]
    split_ifs <;> omega

theorem cells_update (m : Int → UInt8) (a : Int) (n k : Nat) (v : UInt8) :
    cells (Function.update m (a + k) v) a n = (cells m a n).set k v := by
  apply List.ext_getElem
  · rw [List.length_set, length_cells, length_cells]
  · intro i _ _
    rw [getElem_cells, List.getElem_set, getElem_cells]
    split_ifs with hi
    · rw [hi, Function.update_self]
    · exact Function.update_of_ne (by omega) ..

theorem cells_congr {m m' : Int → UInt8} {a : Int} {n : Nat}
    (h : ∀ i, a ≤ i → i < a + n → m' i = m i) : cells m' a n = cells m a n := by
  apply List.ext_getElem (by rw [length_cells, length_cells])
  intro i hi _
  rw [length_cells] at hi
  rw [getElem_cells, getElem_cells, h (a + i) (by omega) (by omega)]

namespace Frame

variable {cs : CharSign} {f : Frame} {m m' : Int → UInt8} {ptr len : Int}

theorem charSum_eq_checksum : charSum cs m ptr = checksum cs.val 1000 (bodyAt cs m ptr) := rfl

theorem lengthAt_of_agree (h : ∀ i, ptr ≤ i → i < ptr + 5 → m' i = m i) :
    lengthAt cs m' ptr = lengthAt cs m ptr := by
  simp only [lengthAt]
  rw [h (ptr + 1) (by omega) (by omega), h (ptr + 2) (by omega) (by omega),
    h (ptr + 3) (by omega) (by omega), h (ptr + 4) (by omega) (by omega)]

/-- With the head and the length as they were, everything depends on the check digits. -/
theorem state_init_of_ok (hf : f.state ≠ .ok)
    (hok : ((init cs f ptr len).val m).state = .ok)
    (h : ∀ i, ptr ≤ i → i < ptr + 5 → m' i = m i) :
    ((init cs f ptr len).val m').state =
      if checkAt cs m' ptr = charSum cs m' ptr then .ok else .checkError := by
  obtain ⟨⟨hpos, hhead, hshort, hthere⟩, -⟩ := (init_ok_iff hf).mp hok
  rw [init_val _ _ _ hpos, h ptr (by omega) (by omega), lengthAt_of_agree h,
    if_neg (not_not.mpr hhead), if_neg (not_lt.mpr hshort), if_neg (not_lt.mpr hthere)]
  rfl

/-- One byte behind the length. -/
theorem checkAt_ne_of_update (hchecks : checkAt cs m ptr = charSum cs m ptr) {a : Int} {v : UInt8}
    (hlo : ptr + 5 ≤ a) (hhi : a < ptr + lengthAt cs m ptr + 8) (hne : v ≠ m a) :
    checkAt cs (Function.update m a v) ptr ≠ charSum cs (Function.update m a v) ptr := by
  have hlen : lengthAt cs (Function.update m a v) ptr = lengthAt cs m ptr :=
    lengthAt_of_agree fun i _ hi => Function.update_of_ne (by omega) ..
  by_cases hbody : a < ptr + lengthAt cs m ptr + 5
  · -- the check digits are as before, and the sum is not
    obtain ⟨k, hk⟩ := Int.eq_ofNat_of_zero_le (show 0 ≤ a - (ptr + 5) by omega)
    obtain rfl : a = ptr + 5 + (k : Nat) := by omega
    have hcheck : checkAt cs (Function.update m (ptr + 5 + (k : Nat)) v) ptr =
        checkAt cs m ptr := by
      simp only [checkAt, hlen]
      rw [Function.update_of_ne (by omega), Function.update_of_ne (by omega),
        Function.update_of_ne (by omega)]
    have hset : bodyAt cs (Function.update m (ptr + 5 + (k : Nat)) v) ptr =
        (bodyAt cs m ptr).set k v := by
      rw [bodyAt, hlen, cells_update, bodyAt]
    have hin : k < (bodyAt cs m ptr).length := by
      rw [bodyAt, length_cells]
      omega
    have hsum := checksum_set_ne (w := cs.val) (m := 1000) (fun _ _ h => val_ne cs h) hin
      (a := v) (by simpa only [bodyAt, getElem_cells] using hne)
    rw [hcheck, hchecks, charSum_eq_checksum, charSum_eq_checksum, hset]
    exact hsum.symm
  · -- the sum is as before, and the check digits are not
    have hbody' : bodyAt cs (Function.update m a v) ptr = bodyAt cs m ptr := by
      rw [bodyAt, hlen, bodyAt]
      exact cells_congr fun i _ hi => Function.update_of_ne (by omega) ..
    have hval := (val_ne cs hne).1
    have hcases : a = ptr + (lengthAt cs m ptr + 5) ∨ a = ptr + (lengthAt cs m ptr + 5) + 1 ∨
        a = ptr + (lengthAt cs m ptr + 5) + 2 := by omega
    rw [charSum_eq_checksum, hbody', ← charSum_eq_checksum, ← hchecks]
    simp only [checkAt, hlen, CharSign.digit]
    obtain rfl | rfl | rfl := hcases
    · rw [Function.update_self, Function.update_of_ne (by omega), Function.update_of_ne (by omega)]
      omega
    · rw [Function.update_self, Function.update_of_ne (by omega), Function.update_of_ne (by omega)]
      omega
    · rw [Function.update_self, Function.update_of_ne (by omega), Function.update_of_ne (by omega)]
      omega

/-- With any one byte of the body or any one check digit replaced, the frame at `ptr` is refused
for its check digits; with its body in another order it is accepted. -/
structure Detects (cs : CharSign) (f : Frame) (m : Int → UInt8) (ptr len : Int) : Prop where
  replaced : ∀ a v, ptr + 5 ≤ a → a < ptr + lengthAt cs m ptr + 8 → v ≠ m a →
    ((init cs f ptr len).val (Function.update m a v)).state = .checkError
  reordered : ∀ m' : Int → UInt8,
    (∀ i, i < ptr + 5 ∨ ptr + 5 + lengthAt cs m ptr ≤ i → m' i = m i) →
    (cells m' (ptr + 5) (lengthAt cs m ptr).toNat).Perm (bodyAt cs m ptr) →
      ((init cs f ptr len).val m').state = .ok

/-- What the check digits of an accepted frame detect, and what they do not. -/
theorem detects_of_ok (cs : CharSign) (f : Frame) (m : Int → UInt8) (ptr len : Int)
    (hf : f.state ≠ .ok) (hok : ((init cs f ptr len).val m).state = .ok) :
    Detects cs f m ptr len := by
  obtain ⟨-, hchecks⟩ := (init_ok_iff hf).mp hok
  constructor
  · intro a v hlo hhi hne
    rw [state_init_of_ok hf hok fun i _ hi => Function.update_of_ne (by omega) ..]
    exact if_neg (checkAt_ne_of_update hchecks hlo hhi hne)
  · intro m' hsame hperm
    have hhead : ∀ i, ptr ≤ i → i < ptr + 5 → m' i = m i := fun i _ hi => hsame i (.inl hi)
    have hlen : lengthAt cs m' ptr = lengthAt cs m ptr := lengthAt_of_agree hhead
    have hcheck : checkAt cs m' ptr = checkAt cs m ptr := by
      simp only [checkAt, hlen]
      rw [hsame _ (.inr (by omega)), hsame _ (.inr (by omega)), hsame _ (.inr (by omega))]
    have hsum : charSum cs m' ptr = charSum cs m ptr := by
      rw [charSum_eq_checksum, charSum_eq_checksum, bodyAt, hlen]
      exact checksum_perm hperm
    rw [state_init_of_ok hf hok hhead, hcheck, hsum]
    exact if_pos hchecks

theorem detects_of_ok_testRequest :
    Detects .signed {} (overlay testRequest.bytes fun _ => 0) 0 13 :=
  detects_of_ok .signed {} _ 0 13 (by decide) (by decide)

end Frame

end SocketMaster
