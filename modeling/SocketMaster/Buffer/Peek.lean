import SocketMaster.Buffer.Queue

/-!
# Looking at what is readable

`Peek` with a pointer and a length is to store the first readable bytes in the caller's memory. It
copies from there instead, and to the front of the vector, wherever the readable bytes are. The
caller sees the bytes, and the buffer keeps them, only where both places hold them already.
-/
namespace SocketMaster.Buffer

open Library

/-- How many bytes there are to be looked at. -/
def peekLen (b : Buffer) (len : Nat) : Nat := min len b.readableBytes

/-- What a caller can tell from a sequence of calls: the bytes that came out, or that one of them
has not come back. -/
def shown (b : Buffer) (calls : List Call) : Option (List UInt8) :=
  (calls.foldlM Trace.call (Trace.start b)).map Trace.delivered

/-- `Peek` only reads the buffer. -/
structure PurePeek (b : Buffer) (dst : Nat → UInt8) (len : Nat) : Prop where
  returned : (b.peek dst len).1 = peekLen b len
  stored : slice (b.peek dst len).2.1 0 (peekLen b len) = slice b.buffer b.readPos (peekLen b len)
  beyond : ∀ i, peekLen b len ≤ i → (b.peek dst len).2.1 i = dst i
  readPos : (b.peek dst len).2.2.readPos = b.readPos
  writePos : (b.peek dst len).2.2.writePos = b.writePos
  size : (b.peek dst len).2.2.size = b.size
  storage : (b.peek dst len).2.2.buffer = b.buffer
  later : shown (b.peek dst len).2.2 = shown b

/-- The bytes to be looked at are in the caller's memory and at the front of the vector. -/
structure Mirrored (b : Buffer) (dst : Nat → UInt8) (len : Nat) : Prop where
  dst : slice dst 0 (peekLen b len) = slice b.buffer b.readPos (peekLen b len)
  front : slice b.buffer 0 (peekLen b len) = slice b.buffer b.readPos (peekLen b len)

variable {b : Buffer} {dst : Nat → UInt8} {len : Nat}

theorem peek_eq (b : Buffer) (dst : Nat → UInt8) (len : Nat) :
    b.peek dst len =
      (peekLen b len, dst, { b with buffer := blit b.buffer 0 (slice dst 0 (peekLen b len)) }) := by
  have hlen : (if b.readableBytes ≥ len then len else b.readableBytes) = peekLen b len := rfl
  unfold peek
  dsimp only
  rw [hlen]

/-- What is in the right places already is copied to where it is. -/
theorem Mirrored.peek_eq (h : Mirrored b dst len) : b.peek dst len = (peekLen b len, dst, b) := by
  rw [Buffer.peek_eq, h.dst, ← h.front, blit_slice_self]

/-- In every state, reachable or not. -/
theorem purePeek_iff (b : Buffer) (dst : Nat → UInt8) (len : Nat) :
    PurePeek b dst len ↔ Mirrored b dst len := by
  constructor
  · intro h
    have hdst : slice dst 0 (peekLen b len) = slice b.buffer b.readPos (peekLen b len) := by
      have hstored := h.stored
      rwa [peek_eq] at hstored
    refine ⟨hdst, ?_⟩
    have hstorage : blit b.buffer 0 (slice dst 0 (peekLen b len)) = b.buffer := by
      have hbuffer := h.storage
      rwa [peek_eq] at hbuffer
    calc
      slice b.buffer 0 (peekLen b len) =
          slice (blit b.buffer 0 (slice dst 0 (peekLen b len))) 0 (peekLen b len) := by
        rw [hstorage]
      _ = slice dst 0 (peekLen b len) := by
        rw [slice_blit _ _ _ (by rw [length_slice])]
        exact List.take_of_length_le (by rw [length_slice])
      _ = slice b.buffer b.readPos (peekLen b len) := hdst
  · intro h
    refine ⟨?_, ?_, fun i _ => ?_, ?_, ?_, ?_, ?_, ?_⟩ <;> rw [h.peek_eq]
    exact h.dst

/-! ## Runs -/

/-- A call that changes the buffer, or one of `Peek` with the memory that it is given. -/
inductive Event where
  | call (c : Call)
  | peek (dst : Nat → UInt8) (len : Nat)

def Event.call? : Event → Option Call
  | .call c => some c
  | .peek _ _ => none

/-- One event that comes back. -/
def EventStep (t : Trace) (e : Event) (t' : Trace) : Prop :=
  match e with
  | .call c => Step t c t'
  | .peek dst len => t' = { t with buf := (t.buf.peek dst len).2.2 }

/-- If the event is a `Peek`, it finds what it is to store. -/
def EventClear (b : Buffer) : Event → Prop
  | .call _ => True
  | .peek dst len => Mirrored b dst len

/-- In every state that is reached a `Peek` is a pure read exactly if the bytes are in both places,
and from a run in which they always are the calls of `Peek` can be left out. -/
theorem purePeek_of_run (n : Nat) :
    (∀ es t, Run EventStep (Trace.start (new n)) es t →
      ∀ dst len, PurePeek t.buf dst len ↔ Mirrored t.buf dst len) ∧
    ∀ es t, Run (fun t e t' => EventClear t.buf e ∧ EventStep t e t') (Trace.start (new n)) es t →
      Run Step (Trace.start (new n)) (es.filterMap Event.call?) t := by
  refine ⟨fun es t _ dst len => purePeek_iff t.buf dst len, fun es t run => run.erase ?_ ?_⟩
  · rintro s (c | ⟨dst, len⟩) t ⟨hclear, hstep⟩ hnone
    · cases hnone
    · have hmirrored : Mirrored s.buf dst len := hclear
      rw [hstep, hmirrored.peek_eq]
  · rintro s (c | ⟨dst, len⟩) t i ⟨-, hstep⟩ hsome
    · cases hsome
      exact hstep
    · cases hsome

/-- The bytes 1, 2 and 3 in a vector of four. -/
def threeBytes : Trace := ⟨⟨blit (fun _ => 0) 0 [1, 2, 3], 4, 0, 3⟩, [1, 2, 3], []⟩

theorem step_threeBytes : Step (Trace.start (new 4)) (.append [1, 2, 3]) threeBytes :=
  ⟨trivial, rfl⟩

/-- The caller has the first two bytes already. -/
theorem purePeek_of_run_threeBytes :
    let dst := blit (fun _ => 0) 0 [1, 2]
    PurePeek threeBytes.buf dst 2 ∧
      Run Step (Trace.start (new 4)) [.append [1, 2, 3]] threeBytes := by
  intro dst
  have hmirrored : Mirrored threeBytes.buf dst 2 := ⟨by decide, by decide⟩
  refine ⟨?_, ?_⟩
  · exact ((purePeek_of_run 4).1 [.call (.append [1, 2, 3])] threeBytes
      (.cons step_threeBytes (.nil _)) dst 2).mpr hmirrored
  · refine (purePeek_of_run 4).2 [.call (.append [1, 2, 3]), .peek dst 2] threeBytes ?_
    refine .cons ⟨trivial, step_threeBytes⟩ (.cons ⟨hmirrored, ?_⟩ (.nil _))
    show threeBytes = { threeBytes with buf := (threeBytes.buf.peek dst 2).2.2 }
    rw [hmirrored.peek_eq]

/-- With zeros in the caller's memory, the caller gets nothing and the buffer loses two bytes. -/
theorem not_purePeek :
    Run EventStep (Trace.start (new 4)) [.call (.append [1, 2, 3])] threeBytes ∧
      slice (threeBytes.buf.peek (fun _ => 0) 2).2.1 0 2 = [0, 0] ∧
      threeBytes.buf.retrieveAllToStr.map Prod.fst = some [1, 2, 3] ∧
      (threeBytes.buf.peek (fun _ => 0) 2).2.2.retrieveAllToStr.map Prod.fst = some [0, 0, 3] ∧
      ¬ PurePeek threeBytes.buf (fun _ => 0) 2 := by
  refine ⟨.cons step_threeBytes (.nil _), by decide, by decide, by decide, fun h => ?_⟩
  exact absurd ((purePeek_iff ..).mp h).dst (by decide)

end SocketMaster.Buffer
