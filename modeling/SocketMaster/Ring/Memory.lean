import SocketMaster.Library.Run
import SocketMaster.Ring.Queue
import SocketMaster.Ring.Sound

/-!
# The memory that a ring touches

Which cells the `memcpy` calls of `append`, `peek` and `pop` read and write. The natural
invariant, both indices inside the array, is not kept: `append` may leave the write index
behind the last cell, and an emptying `pop` then makes the ring stale. The free space
computed by a stale ring wraps round to almost `2 ^ 32`, and a block of any length gets
through. `Sound` survives all of that, as long as no block exceeds the array.
-/
namespace SocketMaster.CBuffer

open Library

/-- The blocks that `append` writes: none when it turns the bytes down. -/
def appendWrites (b : CBuffer) (src : List UInt8) : List (Nat × List UInt8) :=
  let freebyte := sub32 (sub32 b.mSize b.length) 1
  if freebyte ≤ src.length then [] else b.appendSegs (src.take (min freebyte src.length))

/-- The blocks that `peek` reads. -/
def peekReads (b : CBuffer) (len : Nat) : List (Nat × Nat) := b.peekSegs (min len b.length)

theorem append_mBuff (b : CBuffer) (src : List UInt8) :
    (b.append src).2.mBuff = blits b.mBuff (b.appendWrites src) := by
  unfold CBuffer.append appendWrites
  dsimp only
  split_ifs with hrej hcut
  · rfl
  · omega
  · rw [Nat.min_eq_right (by omega)]

theorem peek_eq_reads (b : CBuffer) (len : Nat) :
    b.peek len = (b.peekReads len).flatMap fun s => slice b.mBuff s.1 s.2 := by
  have hcut : (if len ≤ b.length then len else b.length) = min len b.length := by
    split_ifs <;> omega
  simp [peek, peekReads, hcut]

/-- The cells of the array that a call reads or writes, in the order of its `memcpy` calls. -/
def Call.cells (b : CBuffer) : Call → List Nat
  | .append src => (b.appendWrites src).flatMap fun s => List.range' s.1 s.2.length
  | .appendByte _ => if b.isFull then [] else [b.mIdxw]
  | .peek len | .pop len => (b.peekReads len).flatMap fun s => List.range' s.1 s.2

/-- The ring after a call. -/
def Call.next (b : CBuffer) : Call → CBuffer
  | .append src => (b.append src).2
  | .appendByte byte => (b.appendByte byte).2
  | .peek _ => b
  | .pop len => (b.pop len).2

/-- The calls the program makes: blocks no longer than the array, and no single bytes. -/
def Call.Within (n : Nat) : Call → Prop
  | .append src => src.length ≤ n
  | .appendByte _ => False
  | _ => True

@[simp] theorem Call.next_mSize (b : CBuffer) (c : Call) : (c.next b).mSize = b.mSize := by
  cases c <;> simp [Call.next]

namespace Sound

variable {b : CBuffer}

theorem peekReads_le (h : Sound b) (len : Nat) {s : Nat × Nat} (hs : s ∈ b.peekReads len) :
    s.1 + s.2 ≤ b.mSize := by
  have hr := h.idxr
  have hw := h.idxw
  have hlen := h.length_eq
  have hk : min len b.length ≤ b.length := Nat.min_le_right _ _
  unfold peekReads at hs
  generalize min len b.length = k at hs hk
  unfold peekSegs at hs
  by_cases hseg : b.mIdxr ≤ b.mIdxw
  · rw [if_pos hseg] at hs hlen
    obtain rfl := List.mem_singleton.mp hs
    dsimp only
    omega
  · rw [if_neg hseg, sub32_of_le (Nat.le_of_lt hr)] at hs
    rw [if_neg hseg] at hlen
    dsimp only at hs
    -- the first segment ends on the last cell at the latest, the second in front of `m_idxw`
    by_cases hone : k ≤ b.mSize - b.mIdxr
    · rw [if_pos hone, sub32_of_le (Nat.le_refl k), if_neg (by omega)] at hs
      obtain rfl := List.mem_singleton.mp hs
      dsimp only
      omega
    · rw [if_neg hone, sub32_of_le (by omega), if_pos (by omega)] at hs
      simp only [List.mem_cons, List.not_mem_nil, or_false] at hs
      obtain rfl | rfl := hs
      · dsimp only
        omega
      · dsimp only
        omega

theorem appendWrites_le (h : Sound b) {src : List UInt8} (hsrc : src.length ≤ b.mSize)
    {s : Nat × List UInt8} (hs : s ∈ b.appendWrites src) : s.1 + s.2.length ≤ b.mSize := by
  have hr := h.idxr
  have hw := h.idxw
  unfold appendWrites at hs
  by_cases hfit : src.length < sub32 (sub32 b.mSize b.length) 1
  · rw [if_neg (Nat.not_le.mpr hfit), Nat.min_eq_right (Nat.le_of_lt hfit),
      List.take_length] at hs
    unfold appendSegs at hs
    by_cases hseg : b.mIdxw < b.mIdxr
    · rw [if_pos hseg] at hs
      obtain rfl := List.mem_singleton.mp hs
      have hgap := h.gap hseg hfit
      dsimp only
      omega
    · rw [if_neg hseg, sub32_of_le hw] at hs
      dsimp only at hs
      -- a wrapped free space bounds nothing here: the block is cut by `seg1` and `hsrc`
      by_cases hone : src.length ≤ b.mSize - b.mIdxw
      · rw [if_pos hone, sub32_of_le (Nat.le_refl _), if_neg (by omega)] at hs
        obtain rfl := List.mem_singleton.mp hs
        rw [List.length_take]
        omega
      · rw [if_neg hone, sub32_of_le (by omega), if_pos (by omega)] at hs
        simp only [List.mem_cons, List.not_mem_nil, or_false] at hs
        obtain rfl | rfl := hs
        · rw [List.length_take]
          omega
        · rw [List.length_drop]
          omega
  · rw [if_pos (Nat.not_lt.mp hfit)] at hs
    exact absurd hs List.not_mem_nil

/-- A sound ring stays inside its array during a call. -/
theorem mem_cells_lt (h : Sound b) {c : Call} (hc : c.Within b.mSize) {i : Nat}
    (hi : i ∈ c.cells b) : i < b.mSize := by
  cases c with
  | append src =>
    obtain ⟨s, hs, hmem⟩ := List.mem_flatMap.mp hi
    have hle := h.appendWrites_le hc hs
    have hrange := List.mem_range'_1.mp hmem
    omega
  | appendByte byte => exact hc.elim
  | peek len | pop len =>
    obtain ⟨s, hs, hmem⟩ := List.mem_flatMap.mp hi
    have hle := h.peekReads_le len hs
    have hrange := List.mem_range'_1.mp hmem
    omega

/-- No call changes a cell behind the array. -/
theorem next_mBuff (h : Sound b) {c : Call} (hc : c.Within b.mSize) {i : Nat} (hi : b.mSize ≤ i) :
    (c.next b).mBuff i = b.mBuff i := by
  cases c with
  | append src =>
    rw [Call.next, append_mBuff]
    exact blits_of_ge b.mBuff fun s hs => Nat.le_trans (h.appendWrites_le hc hs) hi
  | appendByte byte => exact hc.elim
  | peek len => rfl
  | pop len =>
    rw [Call.next, CBuffer.pop]
    split <;> rfl

/-- What is handed out does not depend on the cells behind the array. -/
theorem peek_congr (h : Sound b) {m : Nat → UInt8} (hm : ∀ i < b.mSize, m i = b.mBuff i)
    (len : Nat) : peek { b with mBuff := m } len = b.peek len := by
  rw [peek_eq_reads, peek_eq_reads]
  refine List.flatMap_congr fun s hs => slice_congr fun i hi => hm _ ?_
  have hle := h.peekReads_le len hs
  omega

/-- A sound ring is sound after a call. -/
theorem next (h : Sound b) {c : Call} (hc : c.Within b.mSize) : Sound (c.next b) := by
  cases c with
  | append src => exact h.append hc
  | appendByte byte => exact hc.elim
  | peek len => exact h
  | pop len => exact h.pop len

end Sound

theorem length_peek_le (b : CBuffer) (len : Nat) (h : Sound b) : (b.peek len).length ≤ len := by
  rw [h.peek_eq, List.length_map, List.length_range]
  exact Nat.min_le_left _ _

/-- In every run of the program's calls the indices stay on the array, and the next call,
whichever it is, reads and writes cells of the array only and hands out no more than asked. What
is behind the array has stayed as it was, and what is handed out does not depend on it. -/
theorem inBounds_of_run (n : Nat) (hn : 1 < n) (hi : n < 2 ^ 31) (junk : Nat → UInt8)
    (calls : List Call) (b : CBuffer)
    (run : Run (Steps Call.next fun _ c => c.Within n) (new n hn hi junk) calls b) :
    b.mIdxr < n ∧ b.mIdxw ≤ n ∧ (∀ c : Call, c.Within n → ∀ i ∈ c.cells b, i < n) ∧
      (∀ len, (b.peek len).length ≤ len ∧ (b.pop len).1.length ≤ len) ∧
      (∀ i, n ≤ i → b.mBuff i = junk i) ∧
      ∀ m : Nat → UInt8, (∀ i < n, m i = b.mBuff i) → ∀ len,
        peek { b with mBuff := m } len = b.peek len ∧
          (pop { b with mBuff := m } len).1 = (b.pop len).1 := by
  have start : (new n hn hi junk).mSize = n ∧ Sound (new n hn hi junk) ∧
      ∀ i, n ≤ i → (new n hn hi junk).mBuff i = junk i :=
    ⟨rfl, (holds_new n hn hi junk).sound, fun _ _ => rfl⟩
  have keep : ∀ (s : CBuffer) (e : Call) (t : CBuffer),
      (s.mSize = n ∧ Sound s ∧ ∀ i, n ≤ i → s.mBuff i = junk i) →
        Steps Call.next (fun _ c => c.Within n) s e t →
          t.mSize = n ∧ Sound t ∧ ∀ i, n ≤ i → t.mBuff i = junk i := by
    rintro s e t ⟨rfl, hs, hjunk⟩ ⟨he, rfl⟩
    exact ⟨e.next_mSize s, hs.next he, fun i hle => (hs.next_mBuff he hle).trans (hjunk i hle)⟩
  obtain ⟨rfl, hb, hjunk⟩ := run.invariant keep start
  refine ⟨hb.idxr, hb.idxw, fun c hc i hmem => hb.mem_cells_lt hc hmem, fun len => ?_, hjunk,
    fun m hm len => ?_⟩
  · have hlen := b.length_peek_le len hb
    rw [pop_fst]
    exact ⟨hlen, hlen⟩
  · have hpeek := hb.peek_congr hm len
    rw [pop_fst, pop_fst]
    exact ⟨hpeek, hpeek⟩

/-- Into the state where the free space of a ring of four cells wraps round, and on with a
block of four. -/
theorem inBounds_of_run_wrapped :
    let calls : List Call := [.append [1, 2], .pop 2, .append [3, 4], .pop 2]
    let b := calls.foldl Call.next (new 4 (by decide) (by decide) fun _ => 0)
    sub32 (sub32 b.mSize b.length) 1 = 2 ^ 32 - 1 ∧
      ∀ i ∈ Call.cells b (.append [5, 6, 7, 8]), i < 4 :=
  ⟨by decide, (inBounds_of_run 4 (by decide) (by decide) (fun _ => 0)
    [.append [1, 2], .pop 2, .append [3, 4], .pop 2] _
    (.cons ⟨Nat.le_of_ble_eq_true rfl, rfl⟩ (.cons ⟨trivial, rfl⟩
      (.cons ⟨Nat.le_of_ble_eq_true rfl, rfl⟩ (.cons ⟨trivial, rfl⟩ (.nil _)))))).2.2.1 _
    (Nat.le_refl 4)⟩

end SocketMaster.CBuffer
