import SocketMaster.Ring.Memory

/-!
# A block at once, or byte by byte

`append` keeps one place free that `appendByte` fills, and where it ends on the last cell it
leaves the write index behind it, from where `appendByte` stores outside the array. A stale
ring has no room and lets `append` through. Outside these cases the two make the same ring.
-/
namespace SocketMaster.CBuffer

open Library

/-- `appendByte` for each byte of the list. -/
def appendEach (b : CBuffer) : List UInt8 → CBuffer
  | [] => b
  | byte :: src => appendEach (b.appendByte byte).2 src

/-- Each of these calls succeeds, and stores at an index of the array. -/
def EachStored (b : CBuffer) : List UInt8 → Prop
  | [] => True
  | byte :: src =>
    (b.appendByte byte).1 = 1 ∧ (∀ i ∈ Call.cells b (.appendByte byte), i < b.mSize) ∧
      EachStored (b.appendByte byte).2 src

/-- What is asked of `append`: a block that fits is appended, as its bytes would be one by one,
and any other block changes nothing. -/
def Agrees (b : CBuffer) (src : List UInt8) : Prop :=
  if b.length + src.length ≤ b.mSize - 1 then
    (b.append src).1 = src.length ∧ EachStored b src ∧
      (b.append src).2.content = (b.appendEach src).content
  else b.append src = (0, b)

/-- Calls with lengths that a `uint32_t` can say. -/
def Call.Small : Call → Prop
  | .append src => src.length < 2 ^ 32
  | .appendByte _ => True
  | .peek len | .pop len => len < 2 ^ 32

/-- The read index stands on a cell; the write index is a `uint32_t`. -/
structure Reached (b : CBuffer) : Prop where
  idxr : b.mIdxr < b.mSize
  idxw : b.mIdxw < 2 ^ 32

variable {b : CBuffer} {src : List UInt8}

theorem sub32_lt {a c : Nat} (ha : a < 2 ^ 32) (hc : c < 2 ^ 32) : sub32 a c < 2 ^ 32 := by
  unfold sub32
  split_ifs <;> omega

theorem appendIdxw_lt (h : b.mIdxw < 2 ^ 32) {len : Nat} (hlen : len < 2 ^ 32) :
    b.appendIdxw len < 2 ^ 32 := by
  have hadd : add32 b.mIdxw len < 2 ^ 32 := Nat.mod_lt _ (by decide)
  unfold appendIdxw
  dsimp only
  split_ifs
  · exact hadd
  · exact sub32_lt hlen hlen
  · exact hadd
  · refine sub32_lt hlen (sub32_lt ?_ h)
    have hs := b.mSize_lt
    omega
  · exact hadd

theorem Reached.next (h : Reached b) {c : Call} (hc : c.Small) : Reached (c.next b) := by
  have hpos : 0 < b.mSize := Nat.lt_trans Nat.zero_lt_one b.one_lt_mSize
  have hs := b.mSize_lt
  have hmod : ∀ j : Nat, j % b.mSize < b.mSize := fun j => Nat.mod_lt j hpos
  cases c with
  | append src =>
    by_cases hfit : src.length < sub32 (sub32 b.mSize b.length) 1
    · rw [Call.next, append_of_lt hfit]
      exact ⟨h.idxr, appendIdxw_lt h.idxw hc⟩
    · rw [Call.next, append, if_pos (Nat.not_lt.mp hfit)]
      exact h
  | appendByte byte =>
    unfold Call.next CBuffer.appendByte
    dsimp only
    split_ifs
    · exact h
    · have hlt := hmod (add32 b.mIdxw 1)
      exact ⟨h.idxr, by dsimp only; omega⟩
  | peek len => exact h
  | pop len =>
    unfold Call.next CBuffer.pop
    dsimp only
    split_ifs
    · exact ⟨hmod _, h.idxw⟩
    · exact h

/-- Bytes that fit are stored one by one, and none of them outside. -/
theorem Holds.appendEach {xs : List UInt8} (h : Holds b xs) (hend : b.mIdxw < b.mSize)
    (hfit : xs.length + src.length ≤ b.mSize - 1) :
    EachStored b src ∧ Holds (b.appendEach src) (xs ++ src) := by
  induction src generalizing b xs with
  | nil => exact ⟨trivial, (List.append_nil xs).symm ▸ h⟩
  | cons byte src ih =>
    rw [List.length_cons] at hfit
    have hroom : xs.length < b.mSize - 1 := by omega
    obtain ⟨hret, hnext⟩ := h.appendByte byte hroom (by omega)
    have hnotFull : ¬ b.isFull = true := by
      rw [h.isFull_iff]
      omega
    have hidxw : (b.appendByte byte).2.mIdxw < (b.appendByte byte).2.mSize := by
      rw [appendByte_mSize, CBuffer.appendByte, if_neg hnotFull]
      exact Nat.mod_lt _ (by omega)
    have hcells : ∀ i ∈ Call.cells b (.appendByte byte), i < b.mSize := by
      intro i hi
      rw [Call.cells, if_neg hnotFull] at hi
      exact List.mem_singleton.mp hi ▸ hend
    obtain ⟨hstored, hholds⟩ := ih hnext hidxw (by
      rw [appendByte_mSize, List.length_append, List.length_singleton]
      omega)
    rw [List.append_assoc] at hholds
    exact ⟨⟨hret, hcells, hstored⟩, hholds⟩

/-- An index behind the array takes no byte: the ring is full, or it stores there. -/
theorem not_eachStored_of_outside (hout : b.mSize ≤ b.mIdxw) (hne : src ≠ []) :
    ¬ EachStored b src := by
  cases src with
  | nil => exact absurd rfl hne
  | cons byte src =>
    rintro ⟨hret, hcells, -⟩
    by_cases hfull : b.isFull = true
    · rw [CBuffer.appendByte, if_pos hfull] at hret
      exact Nat.zero_ne_one hret
    · have hlt := hcells b.mIdxw (by rw [Call.cells, if_neg hfull]; exact List.mem_singleton_self _)
      omega

/-- An empty block does nothing. -/
theorem Reached.append_nil (h : Reached b) : b.append [] = (0, b) := by
  have hzero : sub32 0 0 = 0 := by decide
  have hidxw : add32 b.mIdxw 0 = b.mIdxw := add32_of_lt h.idxw
  by_cases hfit : ([] : List UInt8).length < sub32 (sub32 b.mSize b.length) 1
  · rw [append_of_lt hfit]
    have hsegs : blits b.mBuff (b.appendSegs []) = b.mBuff := by
      unfold appendSegs
      split_ifs <;> simp [hzero]
    have hindex : b.appendIdxw 0 = b.mIdxw := by
      unfold appendIdxw
      split_ifs <;> simp [hzero, hidxw]
    rw [hsegs, List.length_nil, hindex]
  · simp only [append, if_pos (Nat.not_lt.mp hfit)]

/-- A block that leaves a place free, where the index stands on a cell. -/
theorem Reached.agrees_of_lt (h : Reached b) (hroom : b.length + src.length < b.mSize - 1)
    (hidxw : b.mIdxw < b.mSize) : (b.append src).1 = src.length ∧ EachStored b src ∧
      (b.append src).2.content = (b.appendEach src).content := by
  have hsound : Sound b := ⟨h.idxr, Nat.le_of_lt hidxw⟩
  have hholds : Holds b b.content := by
    refine hsound.holds_or_stale.resolve_right fun hstale => ?_
    have hw := hstale.2
    omega
  have hlen := hsound.length_content
  obtain ⟨hret, hblock⟩ := hholds.append src (by omega)
  have hfit : b.content.length + src.length ≤ b.mSize - 1 := by omega
  obtain ⟨hstored, heach⟩ := hholds.appendEach hidxw hfit
  exact ⟨hret, hstored, hblock.content.trans heach.content.symm⟩

/-- A block that just fits is turned down. -/
theorem append_of_exact (hfit : b.length + src.length = b.mSize - 1) : b.append src = (0, b) := by
  have hs := b.mSize_lt
  have h1 := b.one_lt_mSize
  have hfree : sub32 (sub32 b.mSize b.length) 1 = src.length := by
    rw [sub32_of_le (a := b.mSize) (by omega), sub32_of_le (by omega)]
    omega
  simp only [append, hfree, Nat.le_refl, if_true]

theorem Reached.length_lt (h : Reached b) : b.length < 2 ^ 32 := by
  have hs := b.mSize_lt
  have hr := h.idxr
  unfold CBuffer.length
  split_ifs
  · exact sub32_lt h.idxw (by omega)
  · exact sub32_lt (Nat.mod_lt _ (by decide)) (by omega)

/-- The free space is less than a block that does not fit, unless the ring is stale, or worse: it
reports as many bytes as the array has cells, and the free space wraps round. -/
theorem Reached.free_le_iff (h : Reached b) (hmore : b.mSize - 1 < b.length + src.length) :
    sub32 (sub32 b.mSize b.length) 1 ≤ src.length ↔
      b.length < b.mSize ∨ 2 ^ 32 + b.mSize ≤ b.length + src.length + 1 := by
  have hs := b.mSize_lt
  have hlen := h.length_lt
  unfold sub32
  split_ifs <;> omega

/-- The block and its bytes agree exactly in these cases: there is none; it leaves a place free,
and the index stands on a cell; it does not fit, and the ring reports less than the array has
cells, or the block is longer than the free space that has then wrapped round. -/
theorem Reached.agrees_iff (h : Reached b) :
    Agrees b src ↔ src = [] ∨
      (b.length + src.length < b.mSize - 1 ∧ b.mIdxw < b.mSize) ∨
      (b.mSize - 1 < b.length + src.length ∧
        (b.length < b.mSize ∨ 2 ^ 32 + b.mSize ≤ b.length + src.length + 1)) := by
  by_cases hnil : src = []
  · subst hnil
    refine iff_of_true ?_ (.inl rfl)
    rw [Agrees, h.append_nil]
    split_ifs
    · exact ⟨rfl, trivial, rfl⟩
    · rfl
  have hpos : 0 < src.length := List.length_pos_iff.mpr hnil
  rw [Agrees, or_iff_right hnil]
  by_cases hfits : b.length + src.length ≤ b.mSize - 1
  · rw [if_pos hfits]
    constructor
    · rintro ⟨hret, hstored, -⟩
      refine .inl ⟨Nat.lt_of_le_of_ne hfits fun hexact => ?_, ?_⟩
      · rw [append_of_exact hexact] at hret
        exact absurd hret (Nat.ne_of_lt hpos)
      · by_contra hout
        exact not_eachStored_of_outside (Nat.not_lt.mp hout) hnil hstored
    · rintro (⟨hroom, hidxw⟩ | ⟨hmore, -⟩)
      · exact h.agrees_of_lt hroom hidxw
      · omega
  · rw [if_neg hfits]
    constructor
    · intro hsame
      have hmore := Nat.not_le.mp hfits
      refine .inr ⟨hmore, (h.free_le_iff hmore).mp ?_⟩
      by_contra hwrap
      rw [append_of_lt (Nat.not_le.mp hwrap)] at hsame
      exact absurd (congrArg Prod.fst hsame) (Nat.ne_of_gt hpos)
    · rintro (⟨hroom, -⟩ | ⟨hmore, hfree⟩)
      · omega
      · simp only [append, if_pos ((h.free_le_iff hmore).mpr hfree)]

/-- In every state that the four calls reach, this says which blocks are appended as their bytes
would be one by one, or turned down as a whole. -/
theorem agrees_iff_of_run (n : Nat) (hn : 1 < n) (hi : n < 2 ^ 31) (junk : Nat → UInt8)
    (calls : List Call) (b : CBuffer)
    (run : Run (Steps Call.next fun _ c => c.Small) (new n hn hi junk) calls b)
    (src : List UInt8) :
    Agrees b src ↔ src = [] ∨
      (b.length + src.length < b.mSize - 1 ∧ b.mIdxw < b.mSize) ∨
      (b.mSize - 1 < b.length + src.length ∧
        (b.length < b.mSize ∨ 2 ^ 32 + b.mSize ≤ b.length + src.length + 1)) := by
  have start : Reached (new n hn hi junk) := ⟨show 0 < n by omega, show 0 < 2 ^ 32 by decide⟩
  have keep : ∀ (s : CBuffer) (c : Call) (t : CBuffer), Reached s →
      Steps Call.next (fun _ c => c.Small) s c t → Reached t := by
    rintro s c t hs ⟨hc, rfl⟩
    exact hs.next hc
  exact (run.invariant keep start).agrees_iff

/-- Seven bytes go into a ring of six cells and round its end, and five of them out again. -/
def roundTheEnd : List Call := [.append [1, 2, 3, 4], .pop 3, .append [5, 6, 7], .pop 2]

theorem agrees_iff_of_run_roundTheEnd :
    Agrees (roundTheEnd.foldl Call.next (new 6 (by decide) (by decide) fun _ => 0)) [8, 9] := by
  refine (agrees_iff_of_run 6 (by decide) (by decide) (fun _ => 0) roundTheEnd _ ?_ [8, 9]).mpr
    (.inr (.inl ⟨by decide, by decide⟩))
  have small : ∀ k, k < 8 → k < 2 ^ 32 := fun k hk => Nat.lt_trans hk (by decide)
  refine .cons ⟨small 4 (by decide), rfl⟩ (.cons ⟨small 3 (by decide), rfl⟩ ?_)
  exact .cons ⟨small 3 (by decide), rfl⟩ (.cons ⟨small 2 (by decide), rfl⟩ (.nil _))

/-- Three bytes, for which there is just room. -/
theorem not_agrees_exact :
    ¬ Agrees (new 4 (by decide) (by decide) fun _ => 0) [1, 2, 3] := by
  intro h
  rw [Agrees, if_pos (by decide)] at h
  exact absurd h.1 (by decide)

end SocketMaster.CBuffer
