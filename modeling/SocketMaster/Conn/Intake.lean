import SocketMaster.Conn.Contents

/-!
# What `read_` keeps of the bytes it reads

`read_` does not look at what `append` returns: a block is put into the ring as a whole or is
gone, and counts in the returned sum either way. The ring has as many cells as the local array,
and `append` never fills the last two.
-/
namespace SocketMaster

open Library

/-- The bytes that the `read` calls made by `read_` return. -/
def ReadCalls.bytes (errno : Nat) (calls : ReadCalls) : List UInt8 :=
  (calls.chunks errno).flatMap Chunk.bytes

theorem flatMap_bytes_eq_nil {chunks : List Chunk} :
    chunks.flatMap Chunk.bytes = [] ↔ chunks = [] := by
  constructor
  · intro h
    cases chunks with
    | nil => rfl
    | cons chunk chunks =>
      rw [List.flatMap_cons, List.append_eq_nil_iff] at h
      exact absurd h.1 chunk.ne_nil
  · rintro rfl
    rfl

/-- Blocks that fit all together are all kept. -/
theorem gather_of_fits {xs : List UInt8} {chunks : List Chunk}
    (h : xs.length + (chunks.flatMap Chunk.bytes).length ≤ 254) :
    gather xs chunks = xs ++ chunks.flatMap Chunk.bytes := by
  induction chunks generalizing xs with
  | nil => exact (List.append_nil xs).symm
  | cons chunk chunks ih =>
    rw [List.flatMap_cons, List.length_append] at h
    rw [gather_cons, if_pos (by omega), ih (by rw [List.length_append]; omega),
      List.flatMap_cons, List.append_assoc]

/-- A ring that has taken in a block is not filled beyond the bound of `append`. -/
theorem gather_length (xs : List UInt8) (chunks : List Chunk) :
    gather xs chunks = xs ∨ (gather xs chunks).length ≤ 254 := by
  induction chunks generalizing xs with
  | nil => exact .inl rfl
  | cons chunk chunks ih =>
    rw [gather_cons]
    split_ifs with hfit
    · obtain h | h := ih (xs ++ chunk.bytes)
      · right
        rw [h, List.length_append]
        exact hfit
      · exact .inr h
    · exact ih xs

/-- Nothing is dropped just when the blocks fit all together. -/
theorem gather_eq_append_iff {xs : List UInt8} {chunks : List Chunk} :
    gather xs chunks = xs ++ chunks.flatMap Chunk.bytes ↔
      chunks = [] ∨ xs.length + (chunks.flatMap Chunk.bytes).length ≤ 254 := by
  constructor
  · intro h
    obtain hsame | hshort := gather_length xs chunks
    · left
      rw [hsame] at h
      exact flatMap_bytes_eq_nil.mp (List.self_eq_append_right.mp h)
    · right
      rwa [h, List.length_append] at hshort
  · rintro (rfl | h)
    · exact (List.append_nil xs).symm
    · exact gather_of_fits h

namespace AppConn

variable {c : AppConn} {errno : Nat} {calls : ReadCalls}

/-- What `read_` should do with the bytes that it reads: all of them are in the ring
afterwards, behind those that were there, and the sum returned says how much it has grown. -/
def ReadsAll (c : AppConn) (errno : Nat) (calls : ReadCalls) : Prop :=
  (c.read_ errno calls).conn.readBuff.content = c.readBuff.content ++ calls.bytes errno ∧
    (c.read_ errno calls).ret =
      ((c.read_ errno calls).conn.readBuff.length : Int) - c.readBuff.length

/-- The sum counts every byte read, kept or not. -/
theorem ret_readLoop (c : AppConn) (errno : Nat) (sum : Int) (calls : ReadCalls) :
    (c.readLoop errno sum calls).ret = sum + (calls.bytes errno).length := by
  induction calls generalizing c sum with
  | eof => exact (add_zero sum).symm
  | fail e => exact (add_zero sum).symm
  | data chunk next ih =>
    rw [readLoop, ReadCalls.bytes, ReadCalls.chunks]
    split_ifs
    · simp
    · rw [ih, ReadCalls.bytes, List.flatMap_cons, List.length_append]
      omega

theorem sound_read_ (h : c.readBuff.Sound) (errno : Nat) (calls : ReadCalls) :
    (c.read_ errno calls).conn.readBuff.Sound := by
  have keep : ∀ (c : AppConn) (chunk : Chunk), c.readBuff.Sound →
      (c.appendRead chunk.bytes).readBuff.Sound := by
    intro c chunk hc
    exact hc.append (by rw [c.readBuff_size]; exact chunk.length_le)
  exact keeps_readLoop (P := fun c => c.readBuff.Sound) keep h errno 0 calls

/-- With the content right, the sum is right too. -/
theorem readsAll_iff_content (h : c.readBuff.Sound) : ReadsAll c errno calls ↔
    (c.read_ errno calls).conn.readBuff.content = c.readBuff.content ++ calls.bytes errno := by
  refine ⟨And.left, fun hcontent => ⟨hcontent, ?_⟩⟩
  have hgrown := congrArg List.length hcontent
  rw [(sound_read_ h errno calls).length_content, List.length_append, h.length_content] at hgrown
  rw [read_, ret_readLoop, ← read_]
  omega

theorem readsAll_iff_fits (h : c.readBuff.Sound) : ReadsAll c errno calls ↔
    calls.chunks errno = [] ∨
      c.readBuff.content.length + (calls.bytes errno).length ≤ 254 := by
  rw [readsAll_iff_content h]
  have hconn : (c.read_ errno calls).conn = c.appendReads (calls.chunks errno) :=
    c.readLoop_conn errno 0 calls
  obtain hx | hstale := h.holds_or_stale
  · have hnew : (c.read_ errno calls).conn.readBuff.content =
        gather c.readBuff.content (calls.chunks errno) := by
      rw [hconn]
      exact (holds_appendReads hx _).content
    rw [hnew]
    exact gather_eq_append_iff
  · -- a stale ring already shows as many bytes as it has cells
    have hfull : c.readBuff.content.length = 256 := by
      rw [h.length_content, hstale.length_eq, c.readBuff_size]
    constructor
    · intro hcontent
      have hle := (sound_read_ h errno calls).length_le
      rw [← (sound_read_ h errno calls).length_content, hcontent, List.length_append,
        AppConn.readBuff_size] at hle
      have hnone : calls.bytes errno = [] := List.eq_nil_of_length_eq_zero (by omega)
      exact .inl (flatMap_bytes_eq_nil.mp hnone)
    · rintro (hnone | hfit)
      · rw [hconn, ReadCalls.bytes, hnone]
        exact (List.append_nil _).symm
      · omega

/-- In every reachable state `read_` keeps what it reads just when nothing is read, or all of it
fits behind the unread bytes at once. -/
theorem readsAll_iff {cs : CharSign} (h : Reachable cs c) (errno : Nat) (calls : ReadCalls) :
    ReadsAll c errno calls ↔
      calls.chunks errno = [] ∨
        c.readBuff.content.length + (calls.bytes errno).length ≤ 254 :=
  readsAll_iff_fits h.sound

/-- A block of `n` zeros, as digits. -/
def zeroDigits (n : Nat) (hpos : 0 < n) (hle : n ≤ 256) : Chunk where
  bytes := List.replicate n 48
  ne_nil := by
    rw [ne_eq, List.replicate_eq_nil_iff]
    omega
  length_le := by rwa [List.length_replicate]

theorem readsAll_zeroDigits_iff (n : Nat) (hpos : 0 < n) (hle : n ≤ 256) :
    ReadsAll (new (fun _ => 0) fun _ => 0) 0 (.data (zeroDigits n hpos hle) (.fail eagain)) ↔
      n ≤ 254 := by
  have hnew : CBuffer.Holds (new (fun _ => 0) fun _ => 0).readBuff [] := CBuffer.holds_new ..
  have hbytes : ReadCalls.bytes 0 (.data (zeroDigits n hpos hle) (.fail eagain)) =
      List.replicate n 48 ++ [] := rfl
  have hempty : (new (fun _ => 0) fun _ => 0).readBuff.content = [] := hnew.content
  rw [readsAll_iff_fits hnew.sound, hbytes, hempty, List.append_nil, List.length_replicate,
    List.length_nil, Nat.zero_add]
  exact or_iff_right (List.cons_ne_nil _ _)

/-- A block as long as a request comes into a fresh connection. -/
theorem readsAll_short :
    let c := new (fun _ => 0) fun _ => 0
    ReadsAll c 0 (.data (zeroDigits 22 (by decide) (by decide)) (.fail eagain)) := by
  have hfit : (List.replicate 22 48 ++ [] : List UInt8).length ≤ 254 := by
    rw [List.append_nil, List.length_replicate]
    omega
  exact (readsAll_iff (reachable_new .signed _ _) 0 _).mpr (.inr hfit)

/-- A block of 256 bytes, all that one `read` can return, is dropped by a fresh connection. -/
theorem not_readsAll_block :
    let c := new (fun _ => 0) fun _ => 0
    ¬ ReadsAll c 0 (.data (zeroDigits 256 (by decide) (by decide)) (.fail eagain)) := by
  intro c hreads
  have hfit := (readsAll_zeroDigits_iff 256 _ _).mp hreads
  omega

end AppConn

end SocketMaster
