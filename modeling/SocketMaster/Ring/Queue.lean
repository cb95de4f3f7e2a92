import SocketMaster.Library.Run
import SocketMaster.Library.Fifo
import SocketMaster.Ring.Holds

/-!
# `CBuffer` as a FIFO queue of bytes

Whole runs of a ring from its constructor. The ring follows a bounded FIFO queue for as
long as no call meets the write index at the physical end in one of two ways: an
`appendByte`, which then stores outside the array, or a `pop` that empties the ring, which
then leaves it stale.
-/
namespace SocketMaster.CBuffer

open Library

/-- The calls a user of the ring can make. -/
inductive Call where
  | append (src : List UInt8)
  | appendByte (byte : UInt8)
  | peek (len : Nat)
  | pop (len : Nat)

/-- A ring together with the bytes it has accepted and the bytes `pop` has returned. -/
structure Trace where
  buf : CBuffer
  accepted : List UInt8
  popped : List UInt8

namespace Trace

def start (b : CBuffer) : Trace := ⟨b, [], []⟩

/-- One call. What a call has accepted is told from the number it returns. -/
def call (t : Trace) : Call → Trace
  | .append src =>
    let r := t.buf.append src
    { t with buf := r.2, accepted := t.accepted ++ src.take r.1 }
  | .appendByte byte =>
    let r := t.buf.appendByte byte
    { t with buf := r.2, accepted := t.accepted ++ [byte].take r.1 }
  | .peek _ => t
  | .pop len =>
    let r := t.buf.pop len
    { t with buf := r.2, popped := t.popped ++ r.1 }

/-- What a FIFO queue of bytes with room for `m_size - 1` of them shows to its user. -/
structure IsQueue (t : Trace) : Prop where
  content : t.popped ++ t.buf.peek t.buf.length = t.accepted
  length : t.popped.length + t.buf.length = t.accepted.length
  isEmpty : t.buf.isEmpty = true ↔ t.accepted.length = t.popped.length
  isFull : t.buf.isFull = true ↔ t.accepted.length = t.popped.length + (t.buf.mSize - 1)
  peek : ∀ len, t.buf.peek len = (t.buf.peek t.buf.length).take len
  append : ∀ src, (t.buf.append src).1 = src.length ∨ t.buf.append src = (0, t.buf)

end Trace

/-- The call does not meet the write index at the physical end of the array in one of the
two ways that lose track of the content. -/
def Clear (b : CBuffer) : Call → Prop
  | .appendByte _ => b.mIdxw = b.mSize → b.isFull = true
  | .pop len => b.mIdxw = b.mSize → len < b.length
  | _ => True

/-- The queue operation that a call stands for. -/
def Call.op : Call → Fifo.Op UInt8
  | .append src => .offer src
  | .appendByte byte => .push byte
  | .peek len => .look len
  | .pop len => .take len

/-- A traced ring and the queue it represents. -/
structure Follows (n : Nat) (t : Trace) (q : Fifo UInt8) : Prop where
  size : t.buf.mSize = n
  holds : Holds t.buf q.content
  accepted : t.accepted = q.accepted
  popped : t.popped = q.delivered

/-- One clear call is one operation of the queue. -/
theorem Follows.call {n : Nat} {t : Trace} {q : Fifo UInt8} (h : Follows n t q) (c : Call)
    (hc : Clear t.buf c) : Follows n (t.call c) (q.apply (n - 1) c.op) := by
  obtain ⟨rfl, holds, hacc, hpop⟩ := h
  have hx := holds.short
  cases c with
  | append src =>
    simp only [Trace.call, Call.op, Fifo.apply]
    split_ifs with hfit
    · obtain ⟨hret, hnew⟩ := holds.append src (by omega)
      exact ⟨append_mSize _ _, hnew, by simp [hret, hacc, Fifo.put], hpop⟩
    · have hrej := holds.append_of_ge src (by omega)
      exact ⟨by rw [hrej], by rw [hrej]; exact holds, by simp [hrej, hacc], hpop⟩
  | appendByte byte =>
    simp only [Trace.call, Call.op, Fifo.apply]
    split_ifs with hroom
    · have hend : t.buf.mIdxw ≠ t.buf.mSize := by
        intro hw
        have hfull := holds.isFull_iff.mp (hc hw)
        omega
      obtain ⟨hret, hnew⟩ := holds.appendByte byte hroom hend
      exact ⟨appendByte_mSize _ _, hnew, by simp [hret, hacc, Fifo.put], hpop⟩
    · have hrej := holds.appendByte_of_full byte (by omega)
      exact ⟨by rw [hrej], by rw [hrej]; exact holds, by simp [hrej, hacc], hpop⟩
  | peek len => exact ⟨rfl, holds, hacc, hpop⟩
  | pop len =>
    simp only [Trace.call, Call.op, Fifo.apply]
    have hend : t.buf.mIdxw = t.buf.mSize → len < q.content.length := by
      intro hw
      rw [← holds.length_eq]
      exact hc hw
    exact ⟨pop_mSize _ _, holds.pop len hend, hacc, by
      simp [hpop, holds.peek_eq, Fifo.take]⟩

theorem append_all_or_none (b : CBuffer) (src : List UInt8) :
    (b.append src).1 = src.length ∨ b.append src = (0, b) := by
  unfold append
  dsimp only
  split_ifs with hrej hcut
  · exact Or.inr rfl
  · omega
  · exact Or.inl rfl

/-- A ring that follows a queue shows one to its user. -/
theorem Follows.isQueue {n : Nat} {t : Trace} {q : Fifo UInt8} (h : Follows n t q) :
    t.IsQueue := by
  obtain ⟨rfl, holds, hacc, hpop⟩ := h
  have hsum := q.length_conserved
  have hlen := holds.length_eq
  refine ⟨?_, ?_, ?_, ?_, ?_, append_all_or_none t.buf⟩
  · rw [hacc, hpop, holds.content, q.conserved]
  · rw [hacc, hpop, hlen, hsum]
  · rw [holds.isEmpty_iff, hacc, hpop]; omega
  · rw [holds.isFull_iff, hacc, hpop]; omega
  · intro len
    rw [holds.content, holds.peek_eq]

/-- A `pop` that is not clear breaks the queue at once, whatever the ring holds. -/
theorem Follows.not_isQueue_of_pop {n : Nat} {t : Trace} {q : Fifo UInt8} (h : Follows n t q)
    (len : Nat) (hc : ¬ Clear t.buf (.pop len)) : ¬ (t.call (.pop len)).IsQueue := by
  intro hq
  obtain ⟨hw, hlen⟩ : t.buf.mIdxw = t.buf.mSize ∧ t.buf.length ≤ len := by
    simpa [Clear] using hc
  rw [h.holds.length_eq] at hlen
  have hstale := (h.holds.pop_stale len hw hlen).length_eq
  have hsum := hq.length
  have hcount := q.length_conserved
  have hx := h.holds.short
  simp only [Trace.call] at hsum
  rw [hstale, pop_fst, h.holds.peek_eq, List.length_append, List.length_take, h.popped,
    h.accepted, pop_mSize] at hsum
  omega

/-- In every run from the constructor whose calls are all clear, the ring is a FIFO queue; and a
`pop` that is not clear ends that. -/
theorem isQueue_of_run (n : Nat) (hn : 1 < n) (hi : n < 2 ^ 31) (junk : Nat → UInt8)
    (calls : List Call) (t : Trace)
    (run : Run (Steps Trace.call fun t c => Clear t.buf c) (Trace.start (new n hn hi junk)) calls
      t) :
    t.IsQueue ∧ ∀ len, ¬ Clear t.buf (.pop len) → ¬ (t.call (.pop len)).IsQueue := by
  have start : Follows n (Trace.start (new n hn hi junk)) Fifo.empty :=
    ⟨rfl, holds_new n hn hi junk, rfl, rfl⟩
  have match_call : ∀ s a e t, Follows n s a → Steps Trace.call (fun t c => Clear t.buf c) s e t →
      ∃ q, Steps (Fifo.apply (n - 1) · ·.op) (fun _ _ => True) a e q ∧ Follows n t q := by
    rintro s a e t hR ⟨hc, rfl⟩
    exact ⟨_, ⟨trivial, rfl⟩, hR.call e hc⟩
  obtain ⟨q, _, follows⟩ := run.simulates match_call start
  exact ⟨follows.isQueue, follows.not_isQueue_of_pop⟩

/-- Three bytes in, a look at two of them, one byte out. -/
theorem isQueue_of_run_small :
    (Trace.IsQueue <| [Call.append [1, 2, 3], .peek 2, .pop 1].foldl Trace.call <|
      Trace.start (new 8 (by decide) (by decide) fun _ => 0)) :=
  (isQueue_of_run 8 (by decide) (by decide) (fun _ => 0) [.append [1, 2, 3], .peek 2, .pop 1] _
    (.cons ⟨trivial, rfl⟩ (.cons ⟨trivial, rfl⟩
      (.cons ⟨fun h => absurd h (by decide), rfl⟩ (.nil _))))).1

/-- Two blocks of two bytes, each taken out at once, in a ring of four cells: the second
block ends on the last cell, and the ring then claims four bytes where it has none. -/
theorem not_isQueue_of_end_write :
    ¬ (Trace.IsQueue <| [Call.append [1, 2], .pop 2, .append [3, 4], .pop 2].foldl Trace.call <|
      Trace.start (new 4 (by decide) (by decide) fun _ => 0)) :=
  fun h => absurd h.length (by decide)

end SocketMaster.CBuffer
