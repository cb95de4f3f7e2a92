import SocketMaster.Library.Memory

/-!
# The growing buffer `Buffer`

The byte buffer of `buffer.cpp`: a `std::vector<char>` and two positions in it, all of them
`size_t`. What lies between the positions is readable, what lies behind them is writable, and
what has been read already may be moved over or, with the vector grown, left behind.

A failed `assert` is `none`, and so is `std::length_error`, which a vector or a string throws
beyond its `max_size`. Up to there it is given whatever memory it asks for.
-/
namespace SocketMaster

open Library

/-- Addition of `size_t` values. -/
def add64 (a b : Nat) : Nat := (a + b) % 2 ^ 64

/-- Subtraction of `size_t` values, which wraps round below zero. -/
def sub64 (a b : Nat) : Nat := if b ≤ a then a - b else a + (2 ^ 64 - b)

theorem add64_of_lt {a b : Nat} (h : a + b < 2 ^ 64) : add64 a b = a + b := Nat.mod_eq_of_lt h

theorem sub64_of_le {a b : Nat} (h : b ≤ a) : sub64 a b = a - b := if_pos h

/-- The buffer. `buffer` is the memory from the vector's first element on; the elements are the
`size` cells in front. -/
structure Buffer where
  buffer : Nat → UInt8
  size : Nat
  readPos : Nat
  writePos : Nat

namespace Buffer

/-- The constructor; a vector made from a size holds zeros. -/
def new (initBuffSize : Nat) : Buffer := ⟨fun _ => 0, initBuffSize, 0, 0⟩

variable (b : Buffer)

def readableBytes : Nat := sub64 b.writePos b.readPos

def writableBytes : Nat := sub64 b.size b.writePos

def prependableBytes : Nat := b.readPos

/-- `Peek` with the caller's memory `dst`: what is returned, and both memories. `std::copy` goes
from the caller's memory to the front of the vector. -/
def peek (dst : Nat → UInt8) (len : Nat) : Nat × (Nat → UInt8) × Buffer :=
  let rl := b.readableBytes
  let rl := if rl ≥ len then len else rl
  (rl, dst, { b with buffer := blit b.buffer 0 (slice dst 0 rl) })

def retrieve (len : Nat) : Option Buffer :=
  if len ≤ b.readableBytes then some { b with readPos := add64 b.readPos len } else none

def retrieveAll : Buffer :=
  { b with
    buffer := blit b.buffer 0 (List.replicate b.size 0)
    readPos := 0
    writePos := 0 }

/-- `max_size()` of a `std::string`. -/
def maxString : Nat := 2 ^ 62 - 1

/-- The string returned and the buffer left behind. -/
def retrieveAllToStr : Option (List UInt8 × Buffer) :=
  if b.readableBytes ≤ maxString then
    some (slice b.buffer b.readPos b.readableBytes, b.retrieveAll)
  else none

def hasWritten (len : Nat) : Buffer := { b with writePos := add64 b.writePos len }

/-- `buffer_.max_size()`. -/
def maxSize : Nat := 2 ^ 63 - 1

/-- `buffer_.resize`: elements that come to the vector are zeros. -/
def resize (n : Nat) : Option Buffer :=
  if n ≤ maxSize then
    some { b with
      buffer := fun i => if i < b.size then b.buffer i else 0
      size := n }
  else none

/-- `std::copy` of what is readable to the front of the vector, going upwards. -/
def compact : Buffer :=
  { b with
    buffer := blit b.buffer 0 (slice b.buffer b.readPos (b.writePos - b.readPos))
    readPos := 0
    writePos := add64 0 b.readableBytes }

def makeSpace (len : Nat) : Option Buffer :=
  if add64 b.writableBytes b.prependableBytes < len then
    b.resize (add64 (add64 b.writePos len) 1)
  else if b.readableBytes = b.compact.readableBytes then some b.compact
  else none

def ensureWriteable (len : Nat) : Option Buffer := do
  let b ← if b.writableBytes < len then b.makeSpace len else some b
  if b.writableBytes ≥ len then some b else none

/-- The `Append` of a string or of a pointer and a length; `str` is not part of the buffer. -/
def append (str : List UInt8) : Option Buffer := do
  let b ← b.ensureWriteable str.length
  let b := { b with buffer := blit b.buffer b.writePos str }
  some (b.hasWritten str.length)

/-- The bytes that the array on the stack of `ReadFd` has room for. -/
def extraBytes : Nat := 65535

/-- `ReadFd`, given what `readv` answers: the error, or the bytes it stores in the two parts. The
result is what is returned, or the saved error, and the buffer left behind. -/
def readFd (readv : Except Nat (List UInt8)) : Option (Except Nat Nat × Buffer) := do
  let writable := b.writableBytes
  match readv with
  | .error errno => some (.error errno, b)
  | .ok bytes =>
    let b := { b with buffer := blit b.buffer b.writePos (bytes.take writable) }
    if bytes.length ≤ writable then
      some (.ok bytes.length, { b with writePos := add64 b.writePos bytes.length })
    else
      let b ← { b with writePos := b.size }.append (bytes.drop writable)
      some (.ok bytes.length, b)

/-- `WriteFd`, given what `write` answers: the error, or how many bytes it took. -/
def writeFd (write : Except Nat Nat) : Except Nat Nat × Buffer :=
  match write with
  | .error errno => (.error errno, b)
  | .ok len => (.ok len, { b with readPos := add64 b.readPos len })

end Buffer

end SocketMaster
