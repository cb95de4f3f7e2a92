import SocketMaster.Frame.Basic

/-!
# What `Frame::init` computes

The loops of `init` in closed form, and from them `init` itself as a case distinction on
the memory it is given. `words` is what the parameter loop splits its stretch into: the
runs of bytes that a space ends, up to the first newline.
-/
namespace SocketMaster

open Library

/-- The sum of the chars of a list of bytes. -/
def CharSign.sum (cs : CharSign) (xs : List UInt8) : Int := (xs.map cs.val).sum

/-- The words of `xs` that a space ends, with `cur` already read of the first one. -/
def wordsFrom (cur : List UInt8) : List UInt8 → List (List UInt8)
  | [] => []
  | c :: xs =>
    if c = newline then []
    else if c = space then
      if cur = [] then wordsFrom [] xs else cur :: wordsFrom [] xs
    else wordsFrom (cur ++ [c]) xs

def words (xs : List UInt8) : List (List UInt8) := wordsFrom [] xs

@[simp] theorem CharSign.sum_nil (cs : CharSign) : cs.sum [] = 0 := rfl

@[simp] theorem CharSign.sum_cons (cs : CharSign) (x : UInt8) (xs : List UInt8) :
    cs.sum (x :: xs) = cs.val x + cs.sum xs := by
  simp [CharSign.sum]

section Loops

variable (cs : CharSign) (m : Int → UInt8)

@[simp] theorem sumLoop_val (sum i : Int) (n : Nat) :
    (sumLoop cs sum i n).val m = sum + cs.sum (cells m i n) := by
  induction n generalizing sum i with
  | zero => simp [sumLoop]
  | succ n ih =>
    simp only [sumLoop, Reads.val_bind, Reads.val_read, ih, cells_succ, CharSign.sum_cons]
    omega

theorem sumLoop_within {P : Int → Prop} (sum i : Int) (n : Nat) :
    Reads.Within P (sumLoop cs sum i n) m ↔ ∀ a, i ≤ a → a < i + n → P a := by
  induction n generalizing sum i with
  | zero =>
    simp only [sumLoop, Reads.within_pure, true_iff]
    intro a hle hlt
    omega
  | succ n ih =>
    simp only [sumLoop, Reads.within_bind, Reads.within_read, ih]
    constructor
    · rintro ⟨hi, hrest⟩ a hle hlt
      by_cases ha : a = i
      · exact ha ▸ hi
      · exact hrest a (by omega) (by omega)
    · intro h
      exact ⟨h i (by omega) (by omega), fun a hle hlt => h a (by omega) (by omega)⟩

theorem sumLoop_local (sum i : Int) (n : Nat) : Reads.Local (sumLoop cs sum i n) := by
  induction n generalizing sum i with
  | zero => exact .pure _
  | succ n ih => exact .bind (.read _) fun _ => ih _ _

/-- One turn of the parameter loop. -/
theorem paraLoop_val_succ (startPtr endPtr : Int) (paras : List (List UInt8)) (n : Nat) :
    (paraLoop startPtr endPtr paras (n + 1)).val m =
      if m endPtr = newline then paras
      else if m startPtr = space then (paraLoop (startPtr + 1) (startPtr + 1) paras n).val m
      else if m endPtr ≠ space then (paraLoop startPtr (endPtr + 1) paras n).val m
      else if startPtr < endPtr then
        (paraLoop (endPtr + 1) (endPtr + 1)
          (paras ++ [cells m startPtr (endPtr - startPtr).toNat]) n).val m
      else (paraLoop startPtr endPtr paras n).val m := by
  -- the reads stay as they are until the conditions that mention them are in place
  simp only [paraLoop, Reads.val_bind, Reads.val_ite, Reads.val_pure, Reads.val_readBlock]
  rfl

/-- The parameter loop with `cur` between its two pointers: each turn consumes one byte. -/
theorem paraLoop_val (startPtr : Int) (cur : List UInt8) (paras : List (List UInt8)) (n : Nat)
    (hcur : cells m startPtr cur.length = cur) (hspace : ∀ c ∈ cur, c ≠ space) :
    (paraLoop startPtr (startPtr + cur.length) paras n).val m =
      paras ++ wordsFrom cur (cells m (startPtr + cur.length) n) := by
  induction n generalizing startPtr cur paras with
  | zero => simp [paraLoop, wordsFrom]
  | succ n ih =>
    rw [paraLoop_val_succ, cells_succ, wordsFrom]
    by_cases hnl : m (startPtr + cur.length) = newline
    · rw [if_pos hnl, if_pos hnl, List.append_nil]
    rw [if_neg hnl, if_neg hnl]
    cases cur with
    | nil =>
      -- both pointers on the same byte
      simp only [List.length_nil, Int.natCast_zero, Int.add_zero] at hnl ⊢
      by_cases hs : m startPtr = space
      · rw [if_pos hs, if_pos hs, if_pos trivial]
        simpa using ih (startPtr + 1) [] paras rfl (by simp)
      · rw [if_neg hs, if_pos hs, if_neg hs]
        have := ih startPtr [m startPtr] paras (by simp [cells_succ]) (by simpa using hs)
        simpa using this
    | cons c cur =>
      have hfirst : m startPtr = c := by
        rw [List.length_cons, cells_succ] at hcur
        exact (List.cons.inj hcur).1
      have hc : c ≠ space := hspace c (by simp)
      rw [hfirst, if_neg hc]
      by_cases he : m (startPtr + (c :: cur).length) = space
      · have hlt : startPtr < startPtr + ((c :: cur).length : Int) := by
          simp only [List.length_cons]; omega
        have hpara : cells m startPtr (startPtr + ((c :: cur).length : Int) - startPtr).toNat =
            c :: cur := by
          rw [show (startPtr + ((c :: cur).length : Int) - startPtr).toNat = (c :: cur).length by omega]
          exact hcur
        rw [if_neg (not_not.mpr he), if_pos hlt, if_pos he, if_neg (List.cons_ne_nil c cur), hpara]
        have := ih (startPtr + ((c :: cur).length : Int) + 1) [] (paras ++ [c :: cur]) rfl (by simp)
        simpa using this
      · rw [if_pos he, if_neg he]
        have hsnoc : cells m startPtr (c :: cur ++ [m (startPtr + (c :: cur).length)]).length =
            c :: cur ++ [m (startPtr + (c :: cur).length)] := by
          rw [List.length_append, cells_add, hcur]
          simp [cells_succ]
        have := ih startPtr (c :: cur ++ [m (startPtr + (c :: cur).length)]) paras hsnoc (by
          intro x hx
          rcases List.mem_append.mp hx with hx | hx
          · exact hspace x hx
          · exact List.mem_singleton.mp hx ▸ he)
        simpa [Int.add_assoc] using this

/-- The parameter loop stays between its two pointers and the end of its stretch, and looks
at the byte that ends the stretch. -/
theorem paraLoop_within {P : Int → Prop} (startPtr endPtr : Int) (paras : List (List UInt8))
    (n : Nat) (hle : startPtr ≤ endPtr) (hP : ∀ a, startPtr ≤ a → a ≤ endPtr + n → P a) :
    Reads.Within P (paraLoop startPtr endPtr paras n) m := by
  induction n generalizing startPtr endPtr paras with
  | zero =>
    simp only [paraLoop, Reads.within_bind, Reads.within_read, Reads.within_pure, and_true]
    exact hP _ hle (by omega)
  | succ n ih =>
    have hend : P endPtr := hP _ hle (by omega)
    have hstart : P startPtr := hP _ (by omega) (by omega)
    refine Reads.within_bind _ _ |>.mpr ⟨by simpa using hend, ?_⟩
    split
    · simp
    refine Reads.within_bind _ _ |>.mpr ⟨by simpa using hstart, ?_⟩
    split
    · exact ih _ _ _ (by omega) fun a ha ha' => hP a (by omega) (by omega)
    refine Reads.within_bind _ _ |>.mpr ⟨by simpa using hend, ?_⟩
    split
    · exact ih _ _ _ (by omega) fun a ha ha' => hP a (by omega) (by omega)
    split
    · refine Reads.within_bind _ _ |>.mpr ⟨?_, ?_⟩
      · exact Reads.within_readBlock _ _ |>.mpr fun i hi hi' => hP i hi (by omega)
      · exact ih _ _ _ (by omega) fun a ha ha' => hP a (by omega) (by omega)
    · exact ih _ _ _ (by omega) fun a ha ha' => hP a (by omega) (by omega)

/-- Whatever the memory, the parameter loop looks at the byte its end pointer starts on. -/
theorem paraLoop_within_first {P : Int → Prop} {startPtr endPtr : Int}
    {paras : List (List UInt8)} {n : Nat}
    (h : Reads.Within P (paraLoop startPtr endPtr paras n) m) : P endPtr := by
  cases n with
  | zero => exact (Reads.within_bind _ _ |>.mp h).1 _ (by simp)
  | succ n => exact (Reads.within_bind _ _ |>.mp h).1 _ (by simp)

theorem paraLoop_local (startPtr endPtr : Int) (paras : List (List UInt8)) (n : Nat) :
    Reads.Local (paraLoop startPtr endPtr paras n) := by
  induction n generalizing startPtr endPtr paras with
  | zero => exact .bind (.read _) fun _ => .pure _
  | succ n ih =>
    refine .bind (.read _) fun e => .ite (.pure _) (.bind (.read _) fun s => ?_)
    refine .ite (ih _ _ _) (.bind (.read _) fun e => .ite (ih _ _ _) ?_)
    exact .ite (.bind (.readBlock _ _) fun _ => ih _ _ _) (ih _ _ _)

end Loops

namespace Frame

/-- The number that the four length characters at `ptr` stand for. -/
def lengthAt (cs : CharSign) (m : Int → UInt8) (ptr : Int) : Int :=
  cs.digit (m (ptr + 1)) * 1000 + cs.digit (m (ptr + 2)) * 100 + cs.digit (m (ptr + 3)) * 10 +
    cs.digit (m (ptr + 4))

/-- The bytes of the body announced at `ptr`. -/
def bodyAt (cs : CharSign) (m : Int → UInt8) (ptr : Int) : List UInt8 :=
  cells m (ptr + 5) (lengthAt cs m ptr).toNat

/-- The number that the three check characters stand for. -/
def checkAt (cs : CharSign) (m : Int → UInt8) (ptr : Int) : Int :=
  let last := lengthAt cs m ptr + 5
  cs.digit (m (ptr + last)) * 100 + cs.digit (m (ptr + last + 1)) * 10 +
    cs.digit (m (ptr + last + 2))

/-- The check characters agree with the body. -/
def Checks (cs : CharSign) (m : Int → UInt8) (ptr : Int) : Prop :=
  checkAt cs m ptr = (cs.sum (bodyAt cs m ptr)).tmod 1000

instance (cs : CharSign) (m : Int → UInt8) (ptr : Int) : Decidable (Checks cs m ptr) := by
  unfold Checks
  infer_instance

/-- What `init` leaves when it gets as far as the check characters. -/
def decoded (cs : CharSign) (m : Int → UInt8) (ptr : Int) : Frame where
  head := frameHead
  length := lengthAt cs m ptr
  host := m (ptr + 5)
  client := m (ptr + 6)
  type := m (ptr + 7)
  cmd := m (ptr + 8)
  paras := words (cells m (ptr + 9) (lengthAt cs m ptr - 4).toNat)
  check := (cs.sum (bodyAt cs m ptr)).tmod 1000
  state := if Checks cs m ptr then .ok else .checkError

variable (cs : CharSign) (f : Frame) (m : Int → UInt8) {ptr len : Int}

@[simp] theorem init_val_of_le (h : len ≤ 0) : (init cs f ptr len).val m = f := by
  simp [init, h]

theorem initBody_val : (initBody cs ptr frameHead (lengthAt cs m ptr)).val m = decoded cs m ptr := by
  have hwords := paraLoop_val m (ptr + 9) [] [] (lengthAt cs m ptr - 4).toNat rfl (by simp)
  simp only [List.length_nil, Int.natCast_zero, Int.add_zero, List.nil_append] at hwords
  have hstate : (if checkAt cs m ptr ≠ (cs.sum (bodyAt cs m ptr)).tmod 1000 then FrameState.checkError
      else .ok) = if Checks cs m ptr then .ok else .checkError := ite_not _ _ _
  simp only [initBody, Reads.val_bind, Reads.val_read, Reads.val_pure, sumLoop_val, Int.zero_add,
    Int.add_sub_cancel, hwords, decoded, ← hstate]
  rfl

/-- `init` as a case distinction on the bytes it finds. -/
theorem init_val (h : 0 < len) : (init cs f ptr len).val m =
    if m ptr ≠ frameHead then { f with head := m ptr, state := .headError }
    else if 256 < lengthAt cs m ptr then
      { f with head := frameHead, length := lengthAt cs m ptr, state := .lengthError }
    else if len < lengthAt cs m ptr then
      { f with head := frameHead, length := lengthAt cs m ptr, state := .wait }
    else decoded cs m ptr := by
  have hlen : ¬ len ≤ 0 := not_le.mpr h
  rw [← initBody_val]
  by_cases hhead : m ptr = frameHead
  · rw [if_neg (not_not.mpr hhead), ← hhead]
    simp only [init, if_neg hlen, Reads.val_bind, Reads.val_ite, Reads.val_pure]
    exact if_neg (not_not.mpr hhead)
  · rw [if_pos hhead]
    simp only [init, if_neg hlen, Reads.val_bind, Reads.val_ite, Reads.val_pure]
    exact if_pos hhead

end Frame

end SocketMaster
