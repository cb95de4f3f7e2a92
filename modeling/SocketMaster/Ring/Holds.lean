import SocketMaster.Ring.CBuffer
import Mathlib.Tactic.SplitIfs

/-!
# What a ring holds

`Holds b xs` relates a ring to the bytes it represents. It allows the write index to
stand at `m_size`, one past the array, as long as the ring is not empty. The state that
an emptying `pop` leaves behind from there is `Stale`: the indices then span the whole
array although every byte in it has been handed out.

Each operation has one lemma about a ring that holds `xs`. The two lemmas with an extra
hypothesis (`Holds.pop`, `Holds.appendByte`) name the write index at the physical end.
-/
namespace SocketMaster.CBuffer

open Library

/-- The cell that is `j` places from the front of the array, going round once. -/
def wrap (n j : Nat) : Nat := if j < n then j else j - n

section Wrap

variable {n j k : Nat}

theorem wrap_of_lt (h : j < n) : wrap n j = j := if_pos h

theorem wrap_of_ge (h : n ≤ j) : wrap n j = j - n := if_neg (Nat.not_lt.mpr h)

theorem wrap_lt (h : j < 2 * n) : wrap n j < n := by
  unfold wrap
  split_ifs <;> omega

/-- The remainder that `pop` and `appendByte` take. -/
theorem mod_eq_wrap (h : j < 2 * n) : j % n = wrap n j := by
  rcases Nat.lt_or_ge j n with hlt | hge
  · rw [wrap_of_lt hlt, Nat.mod_eq_of_lt hlt]
  · rw [wrap_of_ge hge, Nat.mod_eq_sub_mod hge, Nat.mod_eq_of_lt (by omega)]

theorem wrap_add (h : j + k < 2 * n) : wrap n (wrap n j + k) = wrap n (j + k) := by
  rcases Nat.lt_or_ge j n with hlt | hge
  · rw [wrap_of_lt hlt]
  · have hk : n ≤ j + k := by omega
    rw [wrap_of_ge hge, wrap_of_ge hk, wrap_of_lt (by omega)]
    omega

/-- Places that are less than the size apart are different cells. -/
theorem wrap_ne (hjk : j < k) (hk : k < j + n) : wrap n j ≠ wrap n k := by
  unfold wrap
  split_ifs <;> omega

end Wrap

/-- The ring `b` holds the bytes `xs`. -/
structure Holds (b : CBuffer) (xs : List UInt8) : Prop where
  idxr : b.mIdxr < b.mSize
  short : xs.length < b.mSize
  idxw : b.mIdxw = b.mIdxr + xs.length ∧ b.mIdxr + xs.length ≤ b.mSize ∨
    b.mIdxw + b.mSize = b.mIdxr + xs.length
  cells : ∀ i (h : i < xs.length), b.mBuff (wrap b.mSize (b.mIdxr + i)) = xs[i]

/-- The indices span the whole array: what an emptying `pop` leaves when the write index
stands at the physical end. -/
def Stale (b : CBuffer) : Prop := b.mIdxr = 0 ∧ b.mIdxw = b.mSize

instance (b : CBuffer) : Decidable (Stale b) := by
  unfold Stale
  infer_instance

/-- The freshly constructed ring. -/
theorem holds_new (n : Nat) (hn : 1 < n) (hi : n < 2 ^ 31) (junk : Nat → UInt8) :
    Holds (new n hn hi junk) [] := by
  refine ⟨?_, ?_, Or.inl ?_, ?_⟩
  · simp only [new]; omega
  · simp only [new, List.length_nil]; omega
  · simp [new]
  · intro i h; simp at h

namespace Holds

variable {b : CBuffer} {xs : List UInt8}

theorem length_eq (h : Holds b xs) : b.length = xs.length := by
  have hs := b.mSize_lt
  have hr := h.idxr
  have hx := h.short
  unfold CBuffer.length
  rcases h.idxw with ⟨hw, hle⟩ | hw
  · rw [if_pos (by omega), sub32_of_le (by omega)]
    omega
  · rw [if_neg (by omega), add32_of_lt (by omega), sub32_of_le (by omega)]
    omega

theorem isEmpty_iff (h : Holds b xs) : b.isEmpty = true ↔ xs.length = 0 := by
  have hr := h.idxr
  have hx := h.short
  simp only [isEmpty, beq_iff_eq]
  rcases h.idxw with ⟨hw, _⟩ | hw <;> omega

theorem isFull_iff (h : Holds b xs) : b.isFull = true ↔ xs.length = b.mSize - 1 := by
  have hs := b.mSize_lt
  have h1 := b.one_lt_mSize
  have hr := h.idxr
  have hx := h.short
  simp only [isFull, beq_iff_eq]
  rw [add32_of_lt (by rcases h.idxw with ⟨hw, _⟩ | hw <;> omega)]
  have hnext : (b.mIdxw + 1) % b.mSize =
      if b.mIdxw + 1 < b.mSize then b.mIdxw + 1 else b.mIdxw + 1 - b.mSize := by
    split_ifs with hlt
    · exact Nat.mod_eq_of_lt hlt
    · have hle : b.mSize ≤ b.mIdxw + 1 := by omega
      rw [Nat.mod_eq_sub_mod hle]
      apply Nat.mod_eq_of_lt
      rcases h.idxw with ⟨hw, _⟩ | hw <;> omega
  rw [hnext]
  rcases h.idxw with ⟨hw, _⟩ | hw <;> split_ifs <;> omega

end Holds

/-- `peek` reads the ring from the read index on, going round once. This needs only that
the indices bound the array, so it also describes a stale ring. -/
theorem peek_eq_map (b : CBuffer) (k : Nat) (hr : b.mIdxr < b.mSize)
    (hlen : b.mIdxr ≤ b.mIdxw → b.mIdxr + b.length ≤ b.mSize) :
    b.peek k = (List.range (min k b.length)).map fun i => b.mBuff (wrap b.mSize (b.mIdxr + i)) := by
  have hs := b.mSize_lt
  have hmin : (if k ≤ b.length then k else b.length) = min k b.length := by
    split_ifs <;> omega
  unfold peek
  simp only [hmin]
  generalize hn : min k b.length = n
  have hnl : n ≤ b.length := by omega
  unfold peekSegs
  by_cases hseg : b.mIdxr ≤ b.mIdxw
  · -- one segment, which ends inside the array
    have := hlen hseg
    apply List.ext_getElem
    · simp [hseg]
    · intro i hi _
      have hin : i < n := by simpa [hseg] using hi
      have hwrap : wrap b.mSize (b.mIdxr + i) = b.mIdxr + i := wrap_of_lt (by omega)
      simp [hseg, hwrap]
  · rw [if_neg hseg, sub32_of_le (by omega)]
    by_cases hone : n ≤ b.mSize - b.mIdxr
    · -- the first segment already has all of it
      apply List.ext_getElem
      · simp [hone, sub32_of_le (Nat.le_refl n)]
      · intro i hi _
        have hin : i < n := by simpa [hone, sub32_of_le (Nat.le_refl n)] using hi
        have hwrap : wrap b.mSize (b.mIdxr + i) = b.mIdxr + i := wrap_of_lt (by omega)
        simp [hone, sub32_of_le (Nat.le_refl n), hwrap]
    · have hseg2 : sub32 n (b.mSize - b.mIdxr) = n - (b.mSize - b.mIdxr) :=
        sub32_of_le (by omega)
      have hne : n - (b.mSize - b.mIdxr) ≠ 0 := by omega
      simp only [hone, if_false, hseg2, if_pos hne]
      apply List.ext_getElem
      · simp; omega
      · intro i hi _
        have hin : i < n := by simp at hi; omega
        by_cases hfirst : i < b.mSize - b.mIdxr
        · have hwrap : wrap b.mSize (b.mIdxr + i) = b.mIdxr + i := wrap_of_lt (by omega)
          simp [hfirst, hwrap]
        · have hwrap : wrap b.mSize (b.mIdxr + i) = i - (b.mSize - b.mIdxr) := by
            rw [wrap_of_ge (by omega)]
            omega
          simp [List.getElem_append, hfirst, hwrap]

theorem Holds.peek_eq {b : CBuffer} {xs : List UInt8} (h : Holds b xs) (k : Nat) :
    b.peek k = xs.take k := by
  have hlen := h.length_eq
  have hx := h.short
  rw [peek_eq_map b k h.idxr]
  · apply List.ext_getElem
    · simp [hlen]
    · intro i hi hj
      have hix : i < xs.length := by simp at hj; omega
      simpa using h.cells i hix
  · intro hseg
    have hr := h.idxr
    rcases h.idxw with ⟨hw, hle⟩ | hw <;> omega

/-- The whole content, as the code reads it out. -/
theorem Holds.content {b : CBuffer} {xs : List UInt8} (h : Holds b xs) :
    b.peek b.length = xs := by
  rw [h.peek_eq, h.length_eq, List.take_length]

/-! ## Reading -/

@[simp] theorem pop_fst (b : CBuffer) (k : Nat) : (b.pop k).1 = b.peek k := by
  simp only [pop]
  split_ifs <;> rfl

/-- Popping from a ring that holds `xs`, unless the pop empties a ring whose write index
stands at the physical end. -/
theorem Holds.pop {b : CBuffer} {xs : List UInt8} (h : Holds b xs) (k : Nat)
    (hend : b.mIdxw = b.mSize → k < xs.length) : Holds (b.pop k).2 (xs.drop k) := by
  have hs := b.mSize_lt
  have hr := h.idxr
  have hx := h.short
  have hpeek : (b.peek k).length = min k xs.length := by rw [h.peek_eq, List.length_take]
  unfold CBuffer.pop
  by_cases hzero : min k xs.length = 0
  · have hdrop : xs.drop k = xs := by
      rcases Nat.min_eq_zero_iff.mp hzero with hk | hnil
      · rw [hk, List.drop_zero]
      · rw [List.eq_nil_of_length_eq_zero hnil, List.drop_nil]
    rw [if_neg (by simp [hpeek, hzero]), hdrop]
    exact h
  · rw [if_pos (by rw [hpeek]; exact hzero), hpeek, add32_of_lt (by omega)]
    have hnext : (b.mIdxr + min k xs.length) % b.mSize =
        wrap b.mSize (b.mIdxr + min k xs.length) := mod_eq_wrap (by omega)
    refine ⟨?_, ?_, ?_, ?_⟩
    · simpa only [hnext] using wrap_lt (by omega)
    · simp only [List.length_drop]; omega
    · simp only [hnext, List.length_drop]
      rcases Nat.lt_or_ge (b.mIdxr + min k xs.length) b.mSize with hlt | hge
      · rw [wrap_of_lt hlt]
        rcases h.idxw with ⟨hw, hle⟩ | hw <;> omega
      · rw [wrap_of_ge hge]
        rcases h.idxw with ⟨hw, hle⟩ | hw <;> omega
    · intro i hi
      simp only [List.length_drop] at hi
      have hcell := h.cells (k + i) (by omega)
      have hk : min k xs.length = k := by omega
      have hat : wrap b.mSize (wrap b.mSize (b.mIdxr + min k xs.length) + i) =
          wrap b.mSize (b.mIdxr + (k + i)) := by
        rw [hk, wrap_add (by omega), Nat.add_assoc]
      simp only [hnext, hat, List.getElem_drop]
      exact hcell

/-- The pop that `Holds.pop` leaves out makes the ring stale. -/
theorem Holds.pop_stale {b : CBuffer} {xs : List UInt8} (h : Holds b xs) (k : Nat)
    (hw : b.mIdxw = b.mSize) (hk : xs.length ≤ k) : Stale (b.pop k).2 := by
  have hs := b.mSize_lt
  have hr := h.idxr
  have hx := h.short
  have hxw : b.mIdxr + xs.length = b.mSize := by
    rcases h.idxw with ⟨hw', _⟩ | hw' <;> omega
  have hpeek : (b.peek k).length = xs.length := by rw [h.peek_eq, List.length_take]; omega
  unfold CBuffer.pop
  rw [if_pos (by rw [hpeek]; omega), hpeek, add32_of_lt (by omega), hxw, Nat.mod_self]
  exact ⟨rfl, hw⟩

/-! ## Writing -/

section Append

variable (b : CBuffer) (src : List UInt8) (hw : b.mIdxw ≤ b.mSize) (hlen : src.length < b.mSize)
  (hgap : b.mIdxw < b.mIdxr → b.mIdxw + src.length ≤ b.mSize)

include hw hlen hgap

/-- The copied bytes lie in the array one after the other, going round once. -/
theorem blits_appendSegs {i : Nat} (hi : i < src.length) :
    blits b.mBuff (b.appendSegs src) (wrap b.mSize (b.mIdxw + i)) = src[i] := by
  have hs := b.mSize_lt
  unfold appendSegs
  by_cases hseg : b.mIdxw < b.mIdxr
  · have := hgap hseg
    have hwrap : wrap b.mSize (b.mIdxw + i) = b.mIdxw + i := wrap_of_lt (by omega)
    simp only [if_pos hseg, blits_cons, blits_nil, hwrap]
    exact blit_add _ _ _ hi
  · simp only [if_neg hseg, sub32_of_le hw]
    by_cases hone : src.length ≤ b.mSize - b.mIdxw
    · have hwrap : wrap b.mSize (b.mIdxw + i) = b.mIdxw + i := wrap_of_lt (by omega)
      simp only [if_pos hone, sub32_of_le (Nat.le_refl src.length),
        Nat.sub_self, ne_eq, not_true, if_false, blits_cons, blits_nil, hwrap, List.take_length]
      exact blit_add _ _ _ hi
    · have hseg2 : sub32 src.length (b.mSize - b.mIdxw) = src.length - (b.mSize - b.mIdxw) :=
        sub32_of_le (by omega)
      have hne : src.length - (b.mSize - b.mIdxw) ≠ 0 := by omega
      simp only [if_neg hone, hseg2, if_pos hne, blits_cons, blits_nil]
      by_cases hfirst : b.mIdxw + i < b.mSize
      · have hwrap : wrap b.mSize (b.mIdxw + i) = b.mIdxw + i := wrap_of_lt (by omega)
        rw [hwrap, blit_of_ge _ _ (by simp; omega), blit_add _ _ _ (by simp; omega)]
        simp
      · have hwrap : wrap b.mSize (b.mIdxw + i) = i - (b.mSize - b.mIdxw) := by
          rw [wrap_of_ge (by omega)]
          omega
        rw [hwrap, blit_at _ _ (by omega) (by simp; omega)]
        simp only [List.getElem_drop]
        congr 1
        omega

omit hgap in
/-- Every other cell of the array keeps its byte. -/
theorem blits_appendSegs_of_ne {j : Nat} (hj : j < b.mSize)
    (hne : ∀ i < src.length, wrap b.mSize (b.mIdxw + i) ≠ j) :
    blits b.mBuff (b.appendSegs src) j = b.mBuff j := by
  have hs := b.mSize_lt
  -- the two places where `j` could lie in the copied stretch
  have hnear : b.mIdxw ≤ j → b.mIdxw + src.length ≤ j := by
    intro hle
    by_contra hlt
    have hwrap : wrap b.mSize (b.mIdxw + (j - b.mIdxw)) = j := by
      rw [wrap_of_lt (by omega)]
      omega
    exact hne (j - b.mIdxw) (by omega) hwrap
  have hfar : j < b.mIdxw → b.mIdxw + src.length ≤ j + b.mSize := by
    intro hlt
    by_contra hlt'
    have hwrap : wrap b.mSize (b.mIdxw + (j + b.mSize - b.mIdxw)) = j := by
      rw [wrap_of_ge (by omega)]
      omega
    exact hne (j + b.mSize - b.mIdxw) (by omega) hwrap
  have hkeep : ∀ (m : Nat → UInt8) (xs : List UInt8), xs.length ≤ src.length →
      blit m b.mIdxw xs j = m j := by
    intro m xs hxs
    by_cases hle : b.mIdxw ≤ j
    · exact blit_of_ge _ _ (by have := hnear hle; omega)
    · exact blit_of_lt _ _ (by omega)
  unfold appendSegs
  by_cases hseg : b.mIdxw < b.mIdxr
  · simp only [if_pos hseg, blits_cons, blits_nil]
    exact hkeep _ _ (Nat.le_refl _)
  · simp only [if_neg hseg, sub32_of_le hw]
    by_cases hone : src.length ≤ b.mSize - b.mIdxw
    · simp only [if_pos hone, sub32_of_le (Nat.le_refl src.length),
        Nat.sub_self, ne_eq, not_true, if_false, blits_cons, blits_nil, List.take_length]
      exact hkeep _ _ (Nat.le_refl _)
    · have hseg2 : sub32 src.length (b.mSize - b.mIdxw) = src.length - (b.mSize - b.mIdxw) :=
        sub32_of_le (by omega)
      have hne2 : src.length - (b.mSize - b.mIdxw) ≠ 0 := by omega
      simp only [if_neg hone, hseg2, if_pos hne2, blits_cons, blits_nil]
      rw [blit_of_ge _ _ ?_, hkeep _ _ (by rw [List.length_take]; omega)]
      simp only [List.length_drop]
      by_cases hle : b.mIdxw ≤ j
      · have := hnear hle; omega
      · have := hfar (by omega); omega

theorem appendIdxw_eq : b.appendIdxw src.length =
    if b.mIdxw + src.length ≤ b.mSize then b.mIdxw + src.length
    else b.mIdxw + src.length - b.mSize := by
  have hs := b.mSize_lt
  unfold appendIdxw
  by_cases hseg : b.mIdxw < b.mIdxr
  · rw [if_pos hseg, if_pos (hgap hseg), add32_of_lt (by omega)]
  · simp only [if_neg hseg, sub32_of_le hw]
    by_cases hone : src.length ≤ b.mSize - b.mIdxw
    · rw [if_pos hone, sub32_of_le (Nat.le_refl _), if_neg (by omega),
        add32_of_lt (by omega), if_pos (by omega)]
    · rw [if_neg hone, sub32_of_le (by omega), if_pos (by omega), if_neg (by omega)]
      omega

end Append

/-- Behind the bytes held stand the cells from the write index on. -/
theorem Holds.wrap_idxw {b : CBuffer} {xs : List UInt8} (h : Holds b xs) {i : Nat}
    (hi : xs.length + i < b.mSize) :
    wrap b.mSize (b.mIdxw + i) = wrap b.mSize (b.mIdxr + (xs.length + i)) := by
  have hr := h.idxr
  rcases h.idxw with ⟨hw, hle⟩ | hw
  · rw [hw, Nat.add_assoc]
  · have hge : b.mSize ≤ b.mIdxr + (xs.length + i) := by omega
    rw [wrap_of_ge hge, wrap_of_lt (by omega)]
    omega

/-- The free space that `append` computes. -/
theorem Holds.freebyte {b : CBuffer} {xs : List UInt8} (h : Holds b xs) :
    sub32 (sub32 b.mSize b.length) 1 = b.mSize - 1 - xs.length := by
  have hs := b.mSize_lt
  have hx := h.short
  rw [h.length_eq, sub32_of_le (Nat.le_of_lt hx), sub32_of_le (by omega)]
  omega

/-- `append` turns down what does not leave one byte free beside the reserved cell. -/
theorem Holds.append_of_ge {b : CBuffer} {xs : List UInt8} (h : Holds b xs) (src : List UInt8)
    (hfit : b.mSize - 1 ≤ xs.length + src.length) : b.append src = (0, b) := by
  have hx := h.short
  unfold append
  simp only [h.freebyte]
  rw [if_pos (by omega)]

/-- `append` on bytes that fit, with the copied-byte count resolved. -/
theorem append_of_lt {b : CBuffer} {src : List UInt8}
    (hfit : src.length < sub32 (sub32 b.mSize b.length) 1) :
    b.append src = (src.length, { b with
      mBuff := blits b.mBuff (b.appendSegs src)
      mIdxw := b.appendIdxw src.length }) := by
  simp only [append]
  rw [if_neg (by omega), if_neg (by omega), List.take_length]

theorem Holds.append {b : CBuffer} {xs : List UInt8} (h : Holds b xs) (src : List UInt8)
    (hfit : xs.length + src.length < b.mSize - 1) :
    (b.append src).1 = src.length ∧ Holds (b.append src).2 (xs ++ src) := by
  have hs := b.mSize_lt
  have hr := h.idxr
  have hx := h.short
  have hfree : src.length < sub32 (sub32 b.mSize b.length) 1 := by rw [h.freebyte]; omega
  have hw : b.mIdxw ≤ b.mSize := by rcases h.idxw with ⟨hw, hle⟩ | hw <;> omega
  have hgap : b.mIdxw < b.mIdxr → b.mIdxw + src.length ≤ b.mSize := by
    rcases h.idxw with ⟨hw', _⟩ | hw' <;> omega
  rw [append_of_lt hfree]
  refine ⟨rfl, hr, ?_, ?_, ?_⟩
  · simp only [List.length_append]; omega
  · simp only [List.length_append, appendIdxw_eq b src hw (by omega) hgap]
    rcases h.idxw with ⟨hw', hle⟩ | hw' <;> split_ifs <;> omega
  · intro i hi
    show blits b.mBuff (b.appendSegs src) (wrap b.mSize (b.mIdxr + i)) = (xs ++ src)[i]
    simp only [List.length_append] at hi
    by_cases hold : i < xs.length
    · rw [List.getElem_append_left hold, ← h.cells i hold]
      apply blits_appendSegs_of_ne b src hw (by omega) (wrap_lt (by omega))
      intro k hk
      rw [h.wrap_idxw (by omega)]
      exact (wrap_ne (by omega) (by omega)).symm
    · have hat : xs.length + (i - xs.length) = i := by omega
      rw [List.getElem_append_right (by omega),
        ← blits_appendSegs b src hw (by omega) hgap (by omega : i - xs.length < src.length),
        h.wrap_idxw (by omega), hat]

/-- `appendByte` on a ring with room, unless the write index stands at the physical end. -/
theorem Holds.appendByte {b : CBuffer} {xs : List UInt8} (h : Holds b xs) (byte : UInt8)
    (hroom : xs.length < b.mSize - 1) (hend : b.mIdxw ≠ b.mSize) :
    (b.appendByte byte).1 = 1 ∧ Holds (b.appendByte byte).2 (xs ++ [byte]) := by
  have hs := b.mSize_lt
  have hr := h.idxr
  have hx := h.short
  have hfull : ¬ b.isFull = true := by rw [h.isFull_iff]; omega
  have hw : b.mIdxw < b.mSize := by rcases h.idxw with ⟨hw, hle⟩ | hw <;> omega
  have hnext : (b.mIdxw + 1) % b.mSize = wrap b.mSize (b.mIdxw + 1) := mod_eq_wrap (by omega)
  have hat : wrap b.mSize (b.mIdxr + xs.length) = b.mIdxw := by
    rw [← wrap_of_lt hw]
    exact (h.wrap_idxw (i := 0) (by omega)).symm
  unfold CBuffer.appendByte
  rw [if_neg hfull, add32_of_lt (by omega), hnext]
  refine ⟨rfl, hr, ?_, ?_, ?_⟩
  · simp only [List.length_append, List.length_singleton]; omega
  · simp only [List.length_append, List.length_singleton, wrap]
    rcases h.idxw with ⟨hw', hle⟩ | hw' <;> split_ifs <;> omega
  · intro i hi
    simp only [List.length_append, List.length_singleton] at hi
    by_cases hold : i < xs.length
    · rw [List.getElem_append_left hold, ← h.cells i hold]
      have hne : wrap b.mSize (b.mIdxr + i) ≠ b.mIdxw := by
        rw [← hat]
        exact wrap_ne (by omega) (by omega)
      rcases Nat.lt_or_gt_of_ne hne with hlt | hgt
      · exact blit_of_lt _ _ hlt
      · exact blit_of_ge _ _ (by simpa [Nat.succ_le_iff] using hgt)
    · have hi' : i = xs.length := by omega
      subst hi'
      simp only [hat]
      rw [blit_at _ _ (Nat.le_refl _) (by simp)]
      simp

theorem Holds.appendByte_of_full {b : CBuffer} {xs : List UInt8} (h : Holds b xs) (byte : UInt8)
    (hfull : b.mSize - 1 ≤ xs.length) : b.appendByte byte = (0, b) := by
  have hx := h.short
  have : b.isFull = true := by rw [h.isFull_iff]; omega
  unfold CBuffer.appendByte
  rw [if_pos this]

/-! ## Stale rings -/

theorem Stale.length_eq {b : CBuffer} (h : Stale b) : b.length = b.mSize := by
  have hs := b.mSize_lt
  unfold CBuffer.length
  rw [h.1, h.2, if_pos (Nat.zero_le _), sub32_of_le (by omega), Nat.sub_zero]

theorem Stale.not_holds {b : CBuffer} (h : Stale b) (xs : List UInt8) : ¬ Holds b xs := by
  intro hx
  have := hx.short
  have := hx.length_eq
  rw [h.length_eq] at this
  omega

/-- A stale ring takes in anything shorter than its array, and is a good ring again. -/
theorem Stale.append {b : CBuffer} {src : List UInt8} (h : Stale b) (hne : src ≠ [])
    (hlen : src.length < b.mSize) :
    (b.append src).1 = src.length ∧ Holds (b.append src).2 src := by
  have hs := b.mSize_lt
  have hpos : 0 < src.length := List.length_pos_iff.mpr hne
  obtain ⟨hr, hw⟩ := h
  have hfree : src.length < sub32 (sub32 b.mSize b.length) 1 := by
    rw [Stale.length_eq ⟨hr, hw⟩, sub32_of_le (Nat.le_refl _)]
    rw [Nat.sub_self, sub32, if_neg (by omega)]
    omega
  have hgap : b.mIdxw < b.mIdxr → b.mIdxw + src.length ≤ b.mSize := by omega
  rw [append_of_lt hfree]
  refine ⟨rfl, ?_, hlen, ?_, ?_⟩
  · simp only; omega
  · simp only [appendIdxw_eq b src (by omega) hlen hgap]
    rw [if_neg (by omega)]
    omega
  · intro i hi
    show blits b.mBuff (b.appendSegs src) (wrap b.mSize (b.mIdxr + i)) = src[i]
    have hwrap : wrap b.mSize (b.mIdxr + i) = wrap b.mSize (b.mIdxw + i) := by
      rw [hr, hw, wrap_of_lt (by omega), wrap_of_ge (by omega)]
      omega
    rw [hwrap]
    exact blits_appendSegs b src (by omega) hlen hgap hi

end SocketMaster.CBuffer
