import SocketMaster.Library.Memory

/-!
# The ring buffer `CBuffer`

The byte ring of `CBuffer.cpp`: an array of `m_size` cells, a read index and a write
index, all of them `uint32_t`. The three ways the code wraps an index are kept as they
are: `pop` and `appendByte` take a remainder, `append` adds or restarts at the front.

A write that ends on the last cell leaves `m_idxw` at `m_size`, outside the array, until
a later write moves it. Nothing below assumes that it stays inside.
-/
namespace SocketMaster

open Library

/-- Addition of `uint32_t` values. -/
def add32 (a b : Nat) : Nat := (a + b) % 2 ^ 32

/-- Subtraction of `uint32_t` values, which wraps round below zero. -/
def sub32 (a b : Nat) : Nat := if b ≤ a then a - b else a + (2 ^ 32 - b)

theorem add32_of_lt {a b : Nat} (h : a + b < 2 ^ 32) : add32 a b = a + b := Nat.mod_eq_of_lt h

theorem sub32_of_le {a b : Nat} (h : b ≤ a) : sub32 a b = a - b := if_pos h

/-- The ring. `mBuff` is the memory from the array's first cell on; only the cells below
`mSize` belong to the array. The size is the constructor's `int`, and must exceed one. -/
structure CBuffer where
  mBuff : Nat → UInt8
  mSize : Nat
  mIdxr : Nat
  mIdxw : Nat
  one_lt_mSize : 1 < mSize
  mSize_lt : mSize < 2 ^ 31

namespace CBuffer

/-- The constructor; `junk` is what the fresh array happens to hold. -/
def new (n : Nat) (hn : 1 < n) (hi : n < 2 ^ 31) (junk : Nat → UInt8) : CBuffer :=
  ⟨junk, n, 0, 0, hn, hi⟩

def isEmpty (b : CBuffer) : Bool := b.mIdxr == b.mIdxw

def isFull (b : CBuffer) : Bool := add32 b.mIdxw 1 % b.mSize == b.mIdxr

def length (b : CBuffer) : Nat :=
  if b.mIdxr ≤ b.mIdxw then sub32 b.mIdxw b.mIdxr
  else sub32 (add32 b.mIdxw b.mSize) b.mIdxr

/-- The `memcpy` calls of `peek` for `len` bytes: where each reads in the array, and how much. -/
def peekSegs (b : CBuffer) (len : Nat) : List (Nat × Nat) :=
  if b.mIdxr ≤ b.mIdxw then [(b.mIdxr, len)]
  else
    let seg1 := sub32 b.mSize b.mIdxr
    let seg1 := if len ≤ seg1 then len else seg1
    let seg2 := sub32 len seg1
    if seg2 ≠ 0 then [(b.mIdxr, seg1), (0, seg2)] else [(b.mIdxr, seg1)]

/-- The bytes `peek` stores in the caller's array; their number is what it returns. -/
def peek (b : CBuffer) (len : Nat) : List UInt8 :=
  let total := b.length
  let len := if len ≤ total then len else total
  (b.peekSegs len).flatMap fun s => slice b.mBuff s.1 s.2

def pop (b : CBuffer) (len : Nat) : List UInt8 × CBuffer :=
  let bytes := b.peek len
  if bytes.length ≠ 0 then
    (bytes, { b with mIdxr := add32 b.mIdxr bytes.length % b.mSize })
  else (bytes, b)

/-- The `memcpy` calls of `append`: where each writes in the array, and which bytes. -/
def appendSegs (b : CBuffer) (src : List UInt8) : List (Nat × List UInt8) :=
  if b.mIdxw < b.mIdxr then [(b.mIdxw, src)]
  else
    let seg1 := sub32 b.mSize b.mIdxw
    let seg1 := if src.length ≤ seg1 then src.length else seg1
    let seg2 := sub32 src.length seg1
    if seg2 ≠ 0 then [(b.mIdxw, src.take seg1), (0, src.drop seg1)]
    else [(b.mIdxw, src.take seg1)]

/-- Where `append` leaves the write index. -/
def appendIdxw (b : CBuffer) (len : Nat) : Nat :=
  if b.mIdxw < b.mIdxr then add32 b.mIdxw len
  else
    let seg1 := sub32 b.mSize b.mIdxw
    let seg1 := if len ≤ seg1 then len else seg1
    let seg2 := sub32 len seg1
    if seg2 ≠ 0 then seg2 else add32 b.mIdxw len

/-- The value returned and the ring left behind. -/
def append (b : CBuffer) (src : List UInt8) : Nat × CBuffer :=
  let len := src.length
  let freebyte := sub32 (sub32 b.mSize b.length) 1
  if freebyte ≤ len then (0, b)
  else
    let len := if freebyte < len then freebyte else len
    (len, { b with
      mBuff := blits b.mBuff (b.appendSegs (src.take len))
      mIdxw := b.appendIdxw len })

def appendByte (b : CBuffer) (byte : UInt8) : Nat × CBuffer :=
  if b.isFull then (0, b)
  else (1, { b with
    mBuff := blit b.mBuff b.mIdxw [byte]
    mIdxw := add32 b.mIdxw 1 % b.mSize })

@[simp] theorem append_mSize (b : CBuffer) (src : List UInt8) :
    (b.append src).2.mSize = b.mSize := by
  unfold append
  dsimp only
  split <;> rfl

@[simp] theorem appendByte_mSize (b : CBuffer) (byte : UInt8) :
    (b.appendByte byte).2.mSize = b.mSize := by
  unfold appendByte
  split <;> rfl

@[simp] theorem pop_mSize (b : CBuffer) (len : Nat) : (b.pop len).2.mSize = b.mSize := by
  unfold pop
  dsimp only
  split <;> rfl

end CBuffer

end SocketMaster
