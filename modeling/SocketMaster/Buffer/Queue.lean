import SocketMaster.Library.Run
import SocketMaster.Library.Fifo
import SocketMaster.Buffer.Basic

/-!
# `Buffer` as an unbounded queue of bytes

`Holds b xs` relates a buffer to the bytes between its positions. Whichever way room is made, by
growing or by moving the readable bytes to the front, the buffer holds the same bytes afterwards,
so every call is one operation of a queue without bound. What `makeSpace` does not look at is its
own sum: the vector refuses a size beyond `max_size`, and a request so large that the new size
leaves `size_t` makes it shorter. The string of `retrieveAllToStr` has a limit of its own.
-/
namespace SocketMaster.Buffer

open Library

/-- The bytes between the two positions. -/
def content (b : Buffer) : List UInt8 := slice b.buffer b.readPos (b.writePos - b.readPos)

/-- The buffer `b` holds the bytes `xs`. -/
structure Holds (b : Buffer) (xs : List UInt8) : Prop where
  size_pos : 0 < b.size
  size_le : b.size ≤ maxSize
  readPos_le : b.readPos ≤ b.writePos
  writePos_le : b.writePos ≤ b.size
  content : b.content = xs

/-- If the vector has to grow to make room for `len` bytes, its new size is one it can have. -/
def Fits (b : Buffer) (len : Nat) : Prop :=
  b.writableBytes + b.prependableBytes < len → b.writePos + len + 1 ≤ maxSize

/-- The bytes that do not fit into the writable part come from the stack and are appended. -/
def ReadFits (b : Buffer) (len : Nat) : Prop :=
  b.writableBytes < len → Fits { b with writePos := b.size } (len - b.writableBytes)

theorem holds_new {n : Nat} (hn : 0 < n) (hi : n < 2 ^ 31) : Holds (new n) [] := by
  refine ⟨hn, ?_, Nat.le_refl 0, Nat.zero_le n, rfl⟩
  show n ≤ 2 ^ 63 - 1
  omega

namespace Holds

variable {b : Buffer} {xs : List UInt8}

theorem size_lt (h : Holds b xs) : b.size < 2 ^ 63 := Nat.lt_of_le_sub_one (by decide) h.size_le

theorem length (h : Holds b xs) : xs.length = b.writePos - b.readPos := by
  rw [← h.content, Buffer.content, length_slice]

theorem readableBytes (h : Holds b xs) : b.readableBytes = xs.length := by
  rw [h.length]
  exact sub64_of_le h.readPos_le

theorem writableBytes (h : Holds b xs) : b.writableBytes = b.size - b.writePos :=
  sub64_of_le h.writePos_le

/-! ## Taking bytes out -/

/-- The read position moves over the first `len` bytes. -/
theorem advance (h : Holds b xs) {len : Nat} (hlen : len ≤ xs.length) :
    Holds { b with readPos := add64 b.readPos len } (xs.drop len) := by
  have hle := h.writePos_le
  have hr := h.readPos_le
  have hlt := h.size_lt
  have hx := h.length
  rw [add64_of_lt (by omega)]
  refine ⟨h.size_pos, h.size_le, ?_, hle, ?_⟩
  · show b.readPos + len ≤ b.writePos
    omega
  · show slice b.buffer (b.readPos + len) (b.writePos - (b.readPos + len)) = xs.drop len
    rw [← h.content, Buffer.content, drop_slice _ _ (by omega), Nat.sub_sub]

theorem retrieveAll (h : Holds b xs) : Holds b.retrieveAll [] :=
  ⟨h.size_pos, h.size_le, Nat.le_refl 0, Nat.zero_le _, rfl⟩

theorem retrieveAllToStr (h : Holds b xs) (fits : b.readableBytes ≤ maxString) :
    b.retrieveAllToStr = some (xs, b.retrieveAll) := by
  have hall : slice b.buffer b.readPos b.readableBytes = xs := by
    rw [h.readableBytes, h.length]
    exact h.content
  rw [Buffer.retrieveAllToStr, if_pos fits, hall]

/-! ## Making room -/

theorem resize (h : Holds b xs) {n : Nat} (hpos : 0 < n) (hn : n ≤ maxSize)
    (hw : b.writePos ≤ n) : ∃ t, b.resize n = some t ∧ Holds t xs ∧ t.size = n ∧
      t.writePos = b.writePos := by
  refine ⟨_, if_pos hn, ⟨hpos, hn, h.readPos_le, hw, ?_⟩, rfl, rfl⟩
  have hle := h.writePos_le
  rw [← h.content]
  refine slice_congr fun i (hi : i < b.writePos - b.readPos) => if_pos ?_
  show b.readPos + i < b.size
  omega

/-- The new size is computed without wrapping. -/
theorem add64_writePos {len : Nat} (hsum : b.writePos + len + 1 ≤ maxSize) :
    add64 (add64 b.writePos len) 1 = b.writePos + len + 1 := by
  have hlt : b.writePos + len + 1 < 2 ^ 64 := Nat.lt_of_le_of_lt hsum (by decide)
  rw [add64_of_lt (a := b.writePos) (by omega), add64_of_lt hlt]

theorem compact_writePos (h : Holds b xs) : b.compact.writePos = xs.length := by
  have hx := h.length
  have hle := h.writePos_le
  have hlt := h.size_lt
  show add64 0 b.readableBytes = xs.length
  rw [h.readableBytes, add64_of_lt (by omega), Nat.zero_add]

theorem compact (h : Holds b xs) : Holds b.compact xs := by
  have hx := h.length
  have hw := h.compact_writePos
  have hle := h.writePos_le
  refine ⟨h.size_pos, h.size_le, Nat.zero_le _, ?_, ?_⟩
  · rw [hw, hx]
    show b.writePos - b.readPos ≤ b.size
    omega
  · rw [Buffer.content, hw]
    show slice (blit b.buffer 0 b.content) 0 (xs.length - 0) = xs
    rw [h.content, slice_blit _ _ _ (Nat.sub_le _ _), Nat.sub_zero, List.take_length]

theorem makeSpace (h : Holds b xs) {len : Nat} (fits : Fits b len) :
    ∃ t, b.makeSpace len = some t ∧ Holds t xs ∧ t.writePos + len ≤ t.size := by
  have hr := h.readPos_le
  have hle := h.writePos_le
  have hlt := h.size_lt
  have hroom : b.writableBytes + b.prependableBytes = b.size - b.writePos + b.readPos := by
    rw [h.writableBytes, Buffer.prependableBytes]
  unfold Buffer.makeSpace
  rw [add64_of_lt (by omega)]
  split_ifs with hgrow hsame
  · -- the vector grows
    obtain ⟨t, ht, hold, hsize, hpos⟩ := h.resize (by omega) (fits hgrow) (by omega)
    rw [add64_writePos (fits hgrow)]
    exact ⟨t, ht, hold, by omega⟩
  · -- the readable bytes move to the front
    refine ⟨_, rfl, h.compact, ?_⟩
    rw [h.compact_writePos, h.length]
    show b.writePos - b.readPos + len ≤ b.size
    omega
  · exact absurd (h.readableBytes.trans h.compact.readableBytes.symm) hsame

theorem ensureWriteable (h : Holds b xs) {len : Nat} (fits : Fits b len) :
    ∃ t, b.ensureWriteable len = some t ∧ Holds t xs ∧ t.writePos + len ≤ t.size := by
  unfold Buffer.ensureWriteable
  by_cases hroom : b.writableBytes < len
  · obtain ⟨t, ht, hold, hlen⟩ := h.makeSpace fits
    refine ⟨t, ?_, hold, hlen⟩
    have hw := hold.writableBytes
    rw [if_pos hroom, ht]
    exact if_pos (by omega)
  · have hw := h.writableBytes
    have hle := h.writePos_le
    rw [if_neg hroom]
    exact ⟨b, if_pos (by omega), h, by omega⟩

/-- The condition is exact: a request that does not fit throws in `resize` or fails the assertion
of `ensureWriteable`, or it leaves the write position behind the end of the vector. -/
theorem ensureWriteable_of_not_fits (h : Holds b xs) {len : Nat} (hlen : len < 2 ^ 64)
    (hbig : ¬ Fits b len) :
    b.ensureWriteable len = none ∨
      ∃ t, b.ensureWriteable len = some t ∧ t.size < t.writePos := by
  have hr := h.readPos_le
  have hle := h.writePos_le
  have hlt := h.size_lt
  have hw := h.writableBytes
  have hp : b.prependableBytes = b.readPos := rfl
  obtain ⟨hgrow, hsum⟩ := Classical.not_imp.mp hbig
  rw [maxSize] at hsum
  unfold Buffer.ensureWriteable Buffer.makeSpace
  rw [if_pos (by omega), add64_of_lt (a := b.writableBytes) (by omega), if_pos hgrow]
  by_cases hwrap : b.writePos + len + 1 < 2 ^ 64
  · -- `std::length_error`
    left
    have hsize : ¬ add64 (add64 b.writePos len) 1 ≤ maxSize := by
      rw [add64_of_lt (a := b.writePos) (by omega), add64_of_lt hwrap, maxSize]
      omega
    rw [Buffer.resize, if_neg hsize]
    rfl
  have hsize : add64 (add64 b.writePos len) 1 = b.writePos + len + 1 - 2 ^ 64 := by
    unfold add64
    omega
  have hsmall : b.writePos + len + 1 - 2 ^ 64 ≤ maxSize := by
    rw [maxSize]
    omega
  rw [hsize, Buffer.resize, if_pos hsmall]
  by_cases hmax : len = 2 ^ 64 - 1
  · left
    refine if_neg ?_
    show ¬ len ≤ sub64 (b.writePos + len + 1 - 2 ^ 64) b.writePos
    rw [sub64_of_le (by omega)]
    omega
  · right
    refine ⟨_, if_pos ?_, ?_⟩
    · show len ≤ sub64 (b.writePos + len + 1 - 2 ^ 64) b.writePos
      rw [sub64, if_neg (by omega)]
      omega
    · show b.writePos + len + 1 - 2 ^ 64 < b.writePos
      omega

/-! ## Putting bytes in -/

/-- Bytes are stored in the writable part and the write position moves behind them. -/
theorem write (h : Holds b xs) {str : List UInt8} (hroom : b.writePos + str.length ≤ b.size) :
    Holds { b with
      buffer := blit b.buffer b.writePos str
      writePos := add64 b.writePos str.length } (xs ++ str) := by
  have hr := h.readPos_le
  have hlt := h.size_lt
  have hx := h.length
  rw [add64_of_lt (by omega)]
  refine ⟨h.size_pos, h.size_le, ?_, hroom, ?_⟩
  · show b.readPos ≤ b.writePos + str.length
    omega
  · have hstart : b.writePos = b.readPos + xs.length := by omega
    have hlen : b.writePos + str.length - b.readPos = xs.length + str.length := by omega
    have hold : slice b.buffer b.readPos xs.length = xs := by
      rw [hx]
      exact h.content
    show slice (blit b.buffer b.writePos str) b.readPos (b.writePos + str.length - b.readPos) = _
    rw [hlen, hstart, slice_blit_append, hold]

theorem append (h : Holds b xs) {str : List UInt8} (fits : Fits b str.length) :
    ∃ t, b.append str = some t ∧ Holds t (xs ++ str) := by
  obtain ⟨t, ht, hold, hlen⟩ := h.ensureWriteable fits
  unfold Buffer.append
  rw [ht]
  exact ⟨_, rfl, hold.write hlen⟩

theorem readFd (h : Holds b xs) {bytes : List UInt8} (fits : ReadFits b bytes.length) :
    ∃ t, b.readFd (.ok bytes) = some (.ok bytes.length, t) ∧ Holds t (xs ++ bytes) := by
  have hw := h.writableBytes
  have hle := h.writePos_le
  have hlt := h.size_lt
  unfold Buffer.readFd
  dsimp only
  split_ifs with hall
  · rw [List.take_of_length_le hall]
    exact ⟨_, rfl, h.write (by omega)⟩
  · -- the writable part is filled, the rest is appended
    have hfirst : (bytes.take b.writableBytes).length = b.writableBytes := by
      rw [List.length_take]
      omega
    have hroom : b.writePos + (bytes.take b.writableBytes).length ≤ b.size := by omega
    have hfull := h.write hroom
    have hend : add64 b.writePos (bytes.take b.writableBytes).length = b.size := by
      rw [hfirst, add64_of_lt (by omega)]
      omega
    rw [hend] at hfull
    have hrest : (bytes.drop b.writableBytes).length = bytes.length - b.writableBytes :=
      List.length_drop
    have hfits : Fits { b with writePos := b.size } (bytes.drop b.writableBytes).length := by
      rw [hrest]
      exact fits (by omega)
    obtain ⟨t, ht, hold⟩ := hfull.append hfits
    rw [List.append_assoc, List.take_append_drop] at hold
    refine ⟨t, ?_, hold⟩
    rw [ht]
    rfl

end Holds

/-! ## Runs -/

/-- The calls a user of the buffer can make, those that read or write with what the system
answers. -/
inductive Call where
  | append (str : List UInt8)
  | ensureWriteable (len : Nat)
  | retrieve (len : Nat)
  | retrieveAll
  | retrieveAllToStr
  | readFd (readv : Except Nat (List UInt8))
  | writeFd (write : Except Nat Nat)

/-- A buffer together with the bytes that were appended or read in and those that were retrieved
or written out. -/
structure Trace where
  buf : Buffer
  accepted : List UInt8
  delivered : List UInt8

namespace Trace

def start (b : Buffer) : Trace := ⟨b, [], []⟩

/-- One call; `none` is a failed assertion or `std::length_error`. -/
def call (t : Trace) : Call → Option Trace
  | .append str => do
    let buf ← t.buf.append str
    some { t with buf, accepted := t.accepted ++ str }
  | .ensureWriteable len => do
    let buf ← t.buf.ensureWriteable len
    some { t with buf }
  | .retrieve len => do
    let buf ← t.buf.retrieve len
    some { t with buf, delivered := t.delivered ++ t.buf.content.take len }
  | .retrieveAll =>
    some { t with buf := t.buf.retrieveAll, delivered := t.delivered ++ t.buf.content }
  | .retrieveAllToStr => do
    let r ← t.buf.retrieveAllToStr
    some { t with buf := r.2, delivered := t.delivered ++ r.1 }
  | .readFd readv => do
    let r ← t.buf.readFd readv
    some { t with buf := r.2, accepted := t.accepted ++ readv.toOption.getD [] }
  | .writeFd write =>
    let written := t.buf.content.take (write.toOption.getD 0)
    some { t with buf := (t.buf.writeFd write).2, delivered := t.delivered ++ written }

/-- What a queue of bytes without bound shows to its user. -/
structure IsQueue (t : Trace) : Prop where
  readPos_le : t.buf.readPos ≤ t.buf.writePos
  writePos_le : t.buf.writePos ≤ t.buf.size
  content : t.delivered ++ t.buf.content = t.accepted

end Trace

/-- What a caller and the system can do. -/
def Enabled (b : Buffer) : Call → Prop
  | .ensureWriteable len => len < 2 ^ 64
  | .retrieve len => len ≤ b.readableBytes
  | .readFd (.ok bytes) => bytes.length ≤ b.writableBytes + extraBytes
  | .writeFd (.ok len) => len ≤ b.readableBytes
  | _ => True

instance (b : Buffer) : ∀ c, Decidable (Enabled b c)
  | .ensureWriteable _ | .retrieve _ | .readFd (.ok _) | .writeFd (.ok _) => Nat.decLe _ _
  | .append _ | .retrieveAll | .retrieveAllToStr | .readFd (.error _) | .writeFd (.error _) =>
    .isTrue trivial

/-- The call does not make the vector grow beyond its `max_size`, nor a string. -/
def Clear (b : Buffer) : Call → Prop
  | .append str => Fits b str.length
  | .ensureWriteable len => Fits b len
  | .retrieveAllToStr => b.readableBytes ≤ maxString
  | .readFd (.ok bytes) => ReadFits b bytes.length
  | _ => True

/-- A traced buffer and the queue it represents. -/
structure Follows (t : Trace) (q : Fifo UInt8) : Prop where
  holds : Holds t.buf q.content
  accepted : t.accepted = q.accepted
  delivered : t.delivered = q.delivered

theorem Follows.isQueue {t : Trace} {q : Fifo UInt8} (h : Follows t q) : t.IsQueue := by
  refine ⟨h.holds.readPos_le, h.holds.writePos_le, ?_⟩
  rw [h.holds.content, h.accepted, h.delivered, q.conserved]

theorem Follows.put {t : Trace} {q : Fifo UInt8} (h : Follows t q) {buf : Buffer}
    {xs : List UInt8} (hold : Holds buf (q.content ++ xs)) :
    Follows { t with buf, accepted := t.accepted ++ xs } (q.put xs) :=
  ⟨hold, by rw [h.accepted]; rfl, h.delivered⟩

theorem Follows.take {t : Trace} {q : Fifo UInt8} (h : Follows t q) {buf : Buffer} {len : Nat}
    (hold : Holds buf (q.content.drop len)) :
    Follows { t with buf, delivered := t.delivered ++ t.buf.content.take len } (q.take len) :=
  ⟨hold, h.accepted, by rw [h.delivered, h.holds.content]; rfl⟩

theorem Follows.takeAll {t : Trace} {q : Fifo UInt8} (h : Follows t q) {buf : Buffer}
    (hold : Holds buf []) :
    Follows { t with buf, delivered := t.delivered ++ q.content } (q.take q.content.length) := by
  have hdrop : q.content.drop q.content.length = [] := List.drop_length
  have hall : t.buf.content.take q.content.length = q.content := by
    rw [h.holds.content, List.take_length]
  have hempty : Holds buf (q.content.drop q.content.length) := hdrop ▸ hold
  have htake := h.take hempty
  rwa [hall] at htake

/-- One clear call is one operation of the queue, fails no assertion and throws nothing. -/
theorem Follows.call {t : Trace} {q : Fifo UInt8} (h : Follows t q) {c : Call}
    (enabled : Enabled t.buf c) (clear : Clear t.buf c) :
    ∃ t' q', t.call c = some t' ∧ Follows t' q' := by
  cases c with
  | append str =>
    obtain ⟨buf, hbuf, hold⟩ := h.holds.append clear
    refine ⟨_, q.put str, ?_, h.put hold⟩
    rw [Trace.call, hbuf]
    rfl
  | ensureWriteable len =>
    obtain ⟨buf, hbuf, hold, -⟩ := h.holds.ensureWriteable clear
    refine ⟨{ t with buf }, q, ?_, hold, h.accepted, h.delivered⟩
    rw [Trace.call, hbuf]
    rfl
  | retrieve len =>
    have hlen : len ≤ q.content.length := h.holds.readableBytes ▸ enabled
    refine ⟨_, q.take len, ?_, h.take (h.holds.advance hlen)⟩
    have hret : t.buf.retrieve len = some { t.buf with readPos := add64 t.buf.readPos len } :=
      if_pos enabled
    rw [Trace.call, hret]
    rfl
  | retrieveAll =>
    refine ⟨_, q.take q.content.length, rfl, ?_⟩
    rw [h.holds.content]
    exact h.takeAll h.holds.retrieveAll
  | retrieveAllToStr =>
    refine ⟨_, q.take q.content.length, ?_, h.takeAll h.holds.retrieveAll⟩
    rw [Trace.call, h.holds.retrieveAllToStr clear]
    rfl
  | readFd readv =>
    cases readv with
    | error errno =>
      refine ⟨_, q, rfl, h.holds, ?_, h.delivered⟩
      exact (List.append_nil _).trans h.accepted
    | ok bytes =>
      obtain ⟨buf, hbuf, hold⟩ := h.holds.readFd clear
      refine ⟨_, q.put bytes, ?_, h.put hold⟩
      rw [Trace.call, hbuf]
      rfl
  | writeFd write =>
    cases write with
    | error errno =>
      refine ⟨_, q, rfl, h.holds, h.accepted, ?_⟩
      exact (List.append_nil _).trans h.delivered
    | ok len =>
      have hlen : len ≤ q.content.length := h.holds.readableBytes ▸ enabled
      exact ⟨_, q.take len, rfl, h.take (h.holds.advance hlen)⟩

/-- A request that is not clear, if it comes back at all, leaves a write position that is behind the
end of the vector. -/
theorem Follows.not_isQueue {t t' : Trace} {q : Fifo UInt8} (h : Follows t q) {len : Nat}
    (enabled : Enabled t.buf (.ensureWriteable len)) (hbig : ¬ Clear t.buf (.ensureWriteable len))
    (hcall : t.call (.ensureWriteable len) = some t') : ¬ t'.IsQueue := by
  intro hqueue
  rw [Trace.call] at hcall
  obtain hnone | ⟨buf, hbuf, hbehind⟩ := h.holds.ensureWriteable_of_not_fits enabled hbig
  · rw [hnone] at hcall
    cases hcall
  · rw [hbuf] at hcall
    cases hcall
    exact absurd hqueue.writePos_le (Nat.not_le.mpr hbehind)

/-- One call that the caller and the system can make, and that comes back. -/
def Step (t : Trace) (c : Call) (t' : Trace) : Prop := Enabled t.buf c ∧ t.call c = some t'

/-- In every run from the constructor whose calls are all clear, the buffer is a queue without
bound, a clear call fails no assertion and throws nothing, and an error of the system changes
nothing; and a request for room that is not clear does not come back or ends that. -/
theorem unbounded_of_run (n : Nat) (hn : 0 < n) (hi : n < 2 ^ 31) (calls : List Call) (t : Trace)
    (run : Run (fun t c t' => Clear t.buf c ∧ Step t c t') (Trace.start (new n)) calls t) :
    t.IsQueue ∧ (∀ c, Enabled t.buf c → Clear t.buf c → t.call c ≠ none) ∧
      (∀ errno t', t.call (.readFd (.error errno)) = some t' ∨
        t.call (.writeFd (.error errno)) = some t' → t'.buf = t.buf) ∧
      ∀ len, Enabled t.buf (.ensureWriteable len) → ¬ Clear t.buf (.ensureWriteable len) →
        ∀ t', t.call (.ensureWriteable len) = some t' → ¬ t'.IsQueue := by
  have keep : ∀ (s : Trace) (c : Call) (t : Trace), (∃ q, Follows s q) →
      Clear s.buf c ∧ Step s c t → ∃ q, Follows t q := by
    rintro s c t ⟨q, h⟩ ⟨clear, enabled, hcall⟩
    obtain ⟨t', q', ht', h'⟩ := h.call enabled clear
    cases hcall.symm.trans ht'
    exact ⟨q', h'⟩
  obtain ⟨q, h⟩ := run.invariant keep ⟨Fifo.empty, holds_new hn hi, rfl, rfl⟩
  refine ⟨h.isQueue, ?_, ?_, fun len enabled hbig t' ht' => h.not_isQueue enabled hbig ht'⟩
  · intro c enabled clear
    obtain ⟨t', q', ht', -⟩ := h.call enabled clear
    rw [ht']
    exact Option.some_ne_none t'
  · rintro errno t' (ht' | ht') <;> cases ht' <;> rfl

/-- The buffer grows, moves its bytes to the front, and reads past its end. -/
def smallRun : List Call :=
  [.append [1, 2, 3], .retrieve 2, .append [4, 5], .readFd (.ok [6, 7, 8]), .writeFd (.ok 2),
    .readFd (.error 11)]

theorem unbounded_of_run_small :
    ∃ t, smallRun.foldlM Trace.call (Trace.start (new 2)) = some t ∧
      t.IsQueue ∧ (∀ c, Enabled t.buf c → Clear t.buf c → t.call c ≠ none) ∧
        (∀ errno t', t.call (.readFd (.error errno)) = some t' ∨
          t.call (.writeFd (.error errno)) = some t' → t'.buf = t.buf) ∧
        ∀ len, Enabled t.buf (.ensureWriteable len) → ¬ Clear t.buf (.ensureWriteable len) →
          ∀ t', t.call (.ensureWriteable len) = some t' → ¬ t'.IsQueue := by
  refine ⟨_, rfl, unbounded_of_run 2 (by decide) (by decide) smallRun _ ?_⟩
  refine .cons ⟨fun _ => by decide, trivial, rfl⟩ (.cons ⟨trivial, by decide, rfl⟩ ?_)
  refine .cons ⟨fun _ => by decide, trivial, rfl⟩ (.cons ⟨fun _ _ => by decide, by decide, rfl⟩ ?_)
  exact .cons ⟨trivial, by decide, rfl⟩ (.cons ⟨trivial, trivial, rfl⟩ (.nil _))

/-- The largest request there is makes the new size wrap to zero, and the assertion fails. -/
theorem not_unbounded_of_max :
    ¬ ∀ n, 0 < n → n < 2 ^ 31 → ∀ calls t, Run Step (Trace.start (new n)) calls t →
      t.IsQueue ∧ ∀ c, Enabled t.buf c → t.call c ≠ none := by
  intro h
  have hall := (h 1 (by decide) (by decide) [] _ (.nil _)).2
  exact hall (.ensureWriteable (2 ^ 64 - 1)) (by decide) rfl

end SocketMaster.Buffer
