import SocketMaster.Ring.Holds

/-!
# Rings whose indices lie in the array

`Sound` is what every use of a ring with blocks no longer than its array keeps up. A sound
ring holds the bytes that it reads out, or it is stale. `Carries` reads a stale ring as an
empty one: that is what its user has put in and not yet taken out.
-/
namespace SocketMaster.CBuffer

open Library

/-- The read index stands on a cell, the write index on one or behind the last. -/
structure Sound (b : CBuffer) : Prop where
  idxr : b.mIdxr < b.mSize
  idxw : b.mIdxw ≤ b.mSize

/-- Everything the ring would read out. -/
def content (b : CBuffer) : List UInt8 := b.peek b.length

/-- The ring holds `xs`, or is stale and holds nothing that has not been taken out. -/
def Carries (b : CBuffer) (xs : List UInt8) : Prop := Holds b xs ∨ Stale b ∧ xs = []

theorem Holds.sound {b : CBuffer} {xs : List UInt8} (h : Holds b xs) : Sound b := by
  refine ⟨h.idxr, ?_⟩
  have hr := h.idxr
  have hx := h.short
  obtain ⟨hw, hle⟩ | hw := h.idxw <;> omega

namespace Sound

variable {b : CBuffer}

theorem length_eq (h : Sound b) : b.length =
    if b.mIdxr ≤ b.mIdxw then b.mIdxw - b.mIdxr else b.mIdxw + b.mSize - b.mIdxr := by
  have hs := b.mSize_lt
  obtain ⟨hr, hw⟩ := h
  unfold CBuffer.length
  split_ifs with hseg
  · exact sub32_of_le hseg
  · rw [add32_of_lt (by omega), sub32_of_le (by omega)]

theorem length_le (h : Sound b) : b.length ≤ b.mSize := by
  rw [h.length_eq]
  obtain ⟨hr, hw⟩ := h
  split_ifs <;> omega

theorem peek_eq (h : Sound b) (k : Nat) : b.peek k =
    (List.range (min k b.length)).map fun i => b.mBuff (wrap b.mSize (b.mIdxr + i)) := by
  refine peek_eq_map b k h.idxr fun hseg => ?_
  have hw := h.idxw
  rw [h.length_eq, if_pos hseg]
  omega

@[simp] theorem length_content (h : Sound b) : b.content.length = b.length := by
  simp [content, h.peek_eq]

/-- A sound ring that is not stale holds its content. -/
theorem holds_or_stale (h : Sound b) : Holds b b.content ∨ Stale b := by
  by_cases hstale : Stale b
  · exact .inr hstale
  · refine .inl ⟨h.idxr, ?_, ?_, ?_⟩
    · have hr := h.idxr
      have hw := h.idxw
      simp only [Stale, not_and_or] at hstale
      rw [h.length_content, h.length_eq]
      split_ifs <;> omega
    · have hr := h.idxr
      have hw := h.idxw
      rw [h.length_content, h.length_eq]
      split_ifs <;> omega
    · intro i hi
      simp [content, h.peek_eq]

theorem pop (h : Sound b) (k : Nat) : Sound (b.pop k).2 := by
  have hpos : 0 < b.mSize := Nat.lt_trans Nat.zero_lt_one b.one_lt_mSize
  unfold CBuffer.pop
  dsimp only
  split_ifs
  · exact ⟨Nat.mod_lt _ hpos, h.idxw⟩
  · exact h

/-- The gap in front of the read index is as large as `append` takes it to be. -/
theorem gap (h : Sound b) {len : Nat} (hseg : b.mIdxw < b.mIdxr)
    (hlen : len < sub32 (sub32 b.mSize b.length) 1) : b.mIdxw + len < b.mIdxr := by
  have hr := h.idxr
  have hlength := h.length_eq
  rw [if_neg (by omega)] at hlength
  have hroom : sub32 b.mSize b.length = b.mIdxr - b.mIdxw := by
    rw [sub32_of_le (by omega)]
    omega
  rw [hroom, sub32_of_le (by omega)] at hlen
  omega

theorem append (h : Sound b) {src : List UInt8} (hsrc : src.length ≤ b.mSize) :
    Sound (b.append src).2 := by
  by_cases hfit : src.length < sub32 (sub32 b.mSize b.length) 1
  · have hs := b.mSize_lt
    have hw := h.idxw
    rw [append_of_lt hfit]
    refine ⟨h.idxr, ?_⟩
    show b.appendIdxw src.length ≤ b.mSize
    unfold appendIdxw
    split_ifs with hseg
    · have := h.gap hseg hfit
      have hr := h.idxr
      rw [add32_of_lt (by omega)]
      omega
    · rw [sub32_of_le hw]
      dsimp only
      by_cases hone : src.length ≤ b.mSize - b.mIdxw
      · rw [if_pos hone, sub32_of_le (Nat.le_refl _), if_neg (by omega), add32_of_lt (by omega)]
        omega
      · rw [if_neg hone, sub32_of_le (by omega), if_pos (by omega)]
        omega
  · unfold CBuffer.append
    dsimp only
    rw [if_pos (Nat.not_lt.mp hfit)]
    exact h

end Sound

theorem Holds.pop_carries {b : CBuffer} {xs : List UInt8} (h : Holds b xs) (k : Nat) :
    Carries (b.pop k).2 (xs.drop k) := by
  by_cases hend : b.mIdxw = b.mSize → k < xs.length
  · exact .inl (h.pop k hend)
  · obtain ⟨hw, hk⟩ : b.mIdxw = b.mSize ∧ xs.length ≤ k := by simpa using hend
    exact .inr ⟨h.pop_stale k hw hk, List.drop_eq_nil_of_le hk⟩

/-- A block that fits makes a good ring of either kind. -/
theorem Carries.append {b : CBuffer} {xs : List UInt8} (h : Carries b xs) {src : List UInt8}
    (hne : src ≠ []) (hfit : xs.length + src.length < b.mSize - 1) :
    Holds (b.append src).2 (xs ++ src) := by
  obtain hx | ⟨hs, rfl⟩ := h
  · exact (hx.append src hfit).2
  · exact (hs.append hne (by simp at hfit; omega)).2

end SocketMaster.CBuffer
