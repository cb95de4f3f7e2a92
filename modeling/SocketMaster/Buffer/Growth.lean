import SocketMaster.Buffer.Queue

/-!
# How large the buffer grows

The vector grows only if the bytes would not fit even after those that have been read are gone,
and never shrinks. Its size is therefore bounded by what it has had to hold at one time, and not
by how much has gone through it; and as long as that is within a quarter of the address space, no
request asks for a size that the vector cannot have.
-/
namespace SocketMaster.Buffer

open Library

variable {b t : Buffer} {xs : List UInt8} {len bound : Nat}

/-- The bytes that a call needs the buffer to have room for, beside what has been read. -/
def demand (b : Buffer) : Call → Nat
  | .append str => b.readableBytes + str.length
  | .ensureWriteable len => b.readableBytes + len
  | .readFd (.ok bytes) => b.readableBytes + bytes.length
  | _ => 0

/-- The bytes that a call puts into the buffer. -/
def Call.input : Call → List UInt8
  | .append str => str
  | .readFd (.ok bytes) => bytes
  | _ => []

/-- A request for `len` bytes does not shrink the vector, and makes it at most twice as large as
what has to be held. -/
structure Grows (b t : Buffer) (held : Nat) : Prop where
  le : b.size ≤ t.size
  bounded : t.size ≤ max b.size (2 * held)

theorem Grows.same (h : t.size = b.size) (held : Nat) : Grows b t held :=
  ⟨Nat.le_of_eq h.symm, Nat.le_trans (Nat.le_of_eq h) (Nat.le_max_left ..)⟩

namespace Holds

theorem fits (h : Holds b xs) (hlen : 2 * (b.readableBytes + len) ≤ maxSize) : Fits b len := by
  intro hgrow
  have hx := h.length
  have hr := h.readPos_le
  have hle := h.writePos_le
  rw [h.readableBytes] at hlen
  rw [h.writableBytes, Buffer.prependableBytes] at hgrow
  omega

theorem readFits (h : Holds b xs) (hlen : 2 * (b.readableBytes + len) ≤ maxSize) :
    ReadFits b len := by
  intro hrest hgrow
  have hx := h.length
  have hr := h.readPos_le
  have hle := h.writePos_le
  rw [h.readableBytes] at hlen
  rw [h.writableBytes] at hrest hgrow ⊢
  dsimp only [Buffer.writableBytes, Buffer.prependableBytes] at hgrow ⊢
  rw [sub64_of_le le_rfl] at hgrow
  omega

/-- If what is held and what a call needs are less than a quarter of the address space, the call is
clear. -/
theorem clear (h : Holds b xs) {c : Call} (hheld : 2 * xs.length ≤ maxSize)
    (hdemand : 2 * demand b c ≤ maxSize) : Clear b c := by
  cases c with
  | append str => exact h.fits hdemand
  | ensureWriteable len => exact h.fits hdemand
  | readFd readv =>
    cases readv with
    | error errno => trivial
    | ok bytes => exact h.readFits hdemand
  | retrieveAllToStr =>
    show b.readableBytes ≤ maxString
    rw [h.readableBytes, maxString]
    rw [maxSize] at hheld
    omega
  | retrieve | retrieveAll | writeFd => trivial

theorem length_add_input_le (h : Holds b xs) (c : Call) :
    xs.length + c.input.length ≤ max xs.length (demand b c) := by
  have hx := h.readableBytes
  cases c with
  | append str =>
    have hdemand : demand b (.append str) = xs.length + str.length := by rw [demand, hx]
    exact hdemand ▸ Nat.le_max_right ..
  | readFd readv =>
    cases readv with
    | error errno => exact Nat.le_max_left ..
    | ok bytes =>
      have hdemand : demand b (.readFd (.ok bytes)) = xs.length + bytes.length := by
        rw [demand, hx]
      exact hdemand ▸ Nat.le_max_right ..
  | ensureWriteable | retrieve | retrieveAll | retrieveAllToStr | writeFd =>
    exact Nat.le_max_left ..

theorem grows_makeSpace (h : Holds b xs) (fits : Fits b len) (ht : b.makeSpace len = some t) :
    Grows b t (b.readableBytes + len) := by
  have hx := h.length
  have hr := h.readPos_le
  have hle := h.writePos_le
  have hlt := h.size_lt
  have hroom : b.writableBytes + b.prependableBytes = b.size - b.writePos + b.readPos := by
    rw [h.writableBytes, Buffer.prependableBytes]
  rw [Buffer.makeSpace, add64_of_lt (by omega)] at ht
  split_ifs at ht with hgrow hsame
  · -- what is readable and what is requested would not fit into the vector as it is
    obtain ⟨u, hu, -, hsize, -⟩ := h.resize (n := b.writePos + len + 1) (by omega) (fits hgrow)
      (by omega)
    rw [add64_writePos (fits hgrow), hu] at ht
    obtain rfl := Option.some.inj ht
    rw [hroom] at hgrow
    rw [h.readableBytes]
    constructor <;> omega
  · cases ht
    exact .same (by rfl) _

theorem grows_ensureWriteable (h : Holds b xs) (fits : Fits b len)
    (ht : b.ensureWriteable len = some t) : Grows b t (b.readableBytes + len) := by
  rw [Buffer.ensureWriteable] at ht
  by_cases hroom : b.writableBytes < len
  · obtain ⟨u, hu, -, -⟩ := h.makeSpace fits
    rw [if_pos hroom, hu] at ht
    obtain ⟨-, heq⟩ : u.writableBytes ≥ len ∧ u = t := by simpa using ht
    exact heq ▸ h.grows_makeSpace fits hu
  · rw [if_neg hroom] at ht
    obtain ⟨-, rfl⟩ : b.writableBytes ≥ len ∧ b = t := by simpa using ht
    exact .same (by rfl) _

theorem grows_append (h : Holds b xs) {str : List UInt8} (fits : Fits b str.length)
    (ht : b.append str = some t) : Grows b t (b.readableBytes + str.length) := by
  obtain ⟨u, hu, -, -⟩ := h.ensureWriteable fits
  rw [Buffer.append, hu] at ht
  cases ht
  obtain ⟨hle, hbounded⟩ := h.grows_ensureWriteable fits hu
  exact ⟨hle, hbounded⟩

/-- `readv` has filled the writable part. -/
theorem filled (h : Holds b xs) {bytes : List UInt8} (hmore : b.writableBytes < bytes.length) :
    Holds { b with
      buffer := blit b.buffer b.writePos (bytes.take b.writableBytes)
      writePos := b.size } (xs ++ bytes.take b.writableBytes) := by
  have hle := h.writePos_le
  have hlt := h.size_lt
  have hw := h.writableBytes
  have hfirst : (bytes.take b.writableBytes).length = b.writableBytes := by
    rw [List.length_take]
    omega
  have hend : add64 b.writePos (bytes.take b.writableBytes).length = b.size := by
    rw [hfirst, add64_of_lt (by omega)]
    omega
  have hroom : b.writePos + (bytes.take b.writableBytes).length ≤ b.size := by omega
  have hfull := h.write hroom
  rwa [hend] at hfull

theorem grows_readFd (h : Holds b xs) {bytes : List UInt8} (fits : ReadFits b bytes.length)
    {r : Except Nat Nat} (ht : b.readFd (.ok bytes) = some (r, t)) :
    Grows b t (b.readableBytes + bytes.length) := by
  rw [Buffer.readFd] at ht
  dsimp only at ht
  split_ifs at ht with hall
  · cases ht
    exact .same (by rfl) _
  · have hmore : b.writableBytes < bytes.length := Nat.lt_of_not_le hall
    have hfull := h.filled hmore
    have hrest : (bytes.drop b.writableBytes).length = bytes.length - b.writableBytes :=
      List.length_drop
    have hfits := fits hmore
    rw [← hrest] at hfits
    obtain ⟨u, hu, -⟩ := hfull.append hfits
    rw [hu] at ht
    cases ht
    obtain ⟨hsize, hbounded⟩ := hfull.grows_append hfits hu
    have heach : xs.length + (bytes.take b.writableBytes).length +
        (bytes.drop b.writableBytes).length = xs.length + bytes.length := by
      rw [Nat.add_assoc, ← List.length_append, List.take_append_drop]
    rw [hfull.readableBytes, List.length_append, heach, ← h.readableBytes] at hbounded
    exact ⟨hsize, hbounded⟩

end Holds

/-! ## Runs -/

theorem Trace.call_flow {s s' : Trace} {c : Call} (hcall : s.call c = some s') :
    s'.accepted = s.accepted ++ c.input ∧ s.delivered.length ≤ s'.delivered.length := by
  cases c with
  | append str =>
    obtain ⟨u, -, hs⟩ := Option.bind_eq_some_iff.mp hcall
    cases hs
    exact ⟨rfl, Nat.le_refl _⟩
  | ensureWriteable len =>
    obtain ⟨u, -, hs⟩ := Option.bind_eq_some_iff.mp hcall
    cases hs
    exact ⟨(List.append_nil _).symm, Nat.le_refl _⟩
  | retrieve | retrieveAllToStr =>
    obtain ⟨u, -, hs⟩ := Option.bind_eq_some_iff.mp hcall
    cases hs
    exact ⟨(List.append_nil _).symm, List.length_append ▸ Nat.le_add_right ..⟩
  | retrieveAll =>
    cases hcall
    exact ⟨(List.append_nil _).symm, List.length_append ▸ Nat.le_add_right ..⟩
  | readFd readv =>
    obtain ⟨u, -, hs⟩ := Option.bind_eq_some_iff.mp hcall
    cases hs
    cases readv <;> exact ⟨rfl, Nat.le_refl _⟩
  | writeFd write =>
    cases hcall
    exact ⟨(List.append_nil _).symm, List.length_append ▸ Nat.le_add_right ..⟩

/-- What goes out leaves no more behind than there was. -/
theorem Follows.length_le {s s' : Trace} {q q' : Fifo UInt8} (h : Follows s q)
    (h' : Follows s' q') {c : Call} (hcall : s.call c = some s') :
    q'.content.length ≤ q.content.length + c.input.length := by
  obtain ⟨haccepted, hdelivered⟩ := Trace.call_flow hcall
  have hq := q.length_conserved
  have hq' := q'.length_conserved
  rw [← h.accepted, ← h.delivered] at hq
  rw [← h'.accepted, ← h'.delivered, haccepted, List.length_append] at hq'
  omega

/-- One call. -/
theorem Follows.grows {s s' : Trace} {q : Fifo UInt8} (h : Follows s q) {c : Call}
    (clear : Clear s.buf c) (hcall : s.call c = some s') :
    Grows s.buf s'.buf (demand s.buf c) := by
  cases c with
  | append str =>
    obtain ⟨u, hu, -⟩ := h.holds.append clear
    rw [Trace.call, hu] at hcall
    cases hcall
    exact h.holds.grows_append clear hu
  | ensureWriteable len =>
    obtain ⟨u, hu, -, -⟩ := h.holds.ensureWriteable clear
    rw [Trace.call, hu] at hcall
    cases hcall
    exact h.holds.grows_ensureWriteable clear hu
  | retrieve len =>
    rw [Trace.call, Buffer.retrieve] at hcall
    split_ifs at hcall
    · cases hcall
      exact .same (by rfl) _
    · cases hcall
  | retrieveAll =>
    cases hcall
    exact .same (by rfl) _
  | retrieveAllToStr =>
    rw [Trace.call, h.holds.retrieveAllToStr clear] at hcall
    cases hcall
    exact .same (by rfl) _
  | readFd readv =>
    cases readv with
    | error errno =>
      cases hcall
      exact .same (by rfl) _
    | ok bytes =>
      obtain ⟨u, hu, -⟩ := h.holds.readFd clear
      rw [Trace.call, hu] at hcall
      cases hcall
      exact h.holds.grows_readFd clear hu
  | writeFd write =>
    cases hcall
    cases write <;> exact .same (by rfl) _

/-- A call that can be made and needs room for at most `bound` bytes. -/
def StepWithin (bound : Nat) (s : Trace) (c : Call) (s' : Trace) : Prop :=
  demand s.buf c ≤ bound ∧ Step s c s'

/-- The buffer, made with size `n`, is a queue that holds at most `bound` bytes, and no larger than
it had to be. -/
def Within (n bound : Nat) (s : Trace) : Prop :=
  ∃ q, Follows s q ∧ q.content.length ≤ bound ∧ n ≤ s.buf.size ∧ s.buf.size ≤ max n (2 * bound)

namespace Within

variable {n : Nat} {s s' : Trace} {c : Call}

theorem start (hn : 0 < n) (hi : n < 2 ^ 31) (bound : Nat) :
    Within n bound (Trace.start (new n)) :=
  ⟨Fifo.empty, ⟨holds_new hn hi, rfl, rfl⟩, Nat.zero_le _, Nat.le_refl n, Nat.le_max_left ..⟩

theorem call_ne_none (h : Within n bound s) (hbound : 2 * bound ≤ maxSize)
    (enabled : Enabled s.buf c) (hdemand : demand s.buf c ≤ bound) : s.call c ≠ none := by
  obtain ⟨q, h, hheld, -, -⟩ := h
  obtain ⟨u, q', hu, -⟩ := h.call enabled (h.holds.clear (by omega) (by omega))
  rw [hu]
  exact Option.some_ne_none u

theorem step (hbound : 2 * bound ≤ maxSize) (h : Within n bound s)
    (hstep : StepWithin bound s c s') : Within n bound s' := by
  obtain ⟨q, h, hheld, hlower, hupper⟩ := h
  obtain ⟨hdemand, enabled, hcall⟩ := hstep
  have clear : Clear s.buf c := h.holds.clear (by omega) (by omega)
  obtain ⟨u, q', hu, h'⟩ := h.call enabled clear
  obtain rfl := Option.some.inj (hcall.symm.trans hu)
  obtain ⟨hle, hgrown⟩ := h.grows clear hcall
  have hinput := h.holds.length_add_input_le c
  have hleft := h.length_le h' hcall
  exact ⟨q', h', by omega, by omega, by omega⟩

end Within

/-- In every run in which no call needs more than `bound` bytes at a time, which is less than a
quarter of the address space, the buffer is a queue, no assertion fails, nothing is thrown, and
the vector is never larger than it was made or twice that bound, however many bytes go through
it. -/
theorem size_le_of_run (n : Nat) (hn : 0 < n) (hi : n < 2 ^ 31) (bound : Nat)
    (hbound : 2 * bound ≤ maxSize) (calls : List Call) (s : Trace)
    (run : Run (StepWithin bound) (Trace.start (new n)) calls s) :
    s.IsQueue ∧ n ≤ s.buf.size ∧ s.buf.size ≤ max n (2 * bound) ∧
      ∀ c, Enabled s.buf c → demand s.buf c ≤ bound → s.call c ≠ none := by
  have hwithin : Within n bound s :=
    run.invariant (fun s c s' h hstep => h.step hbound hstep) (.start hn hi bound)
  have hdefined : ∀ c, Enabled s.buf c → demand s.buf c ≤ bound → s.call c ≠ none :=
    fun c => hwithin.call_ne_none hbound
  obtain ⟨q, h, -, hlower, hupper⟩ := hwithin
  exact ⟨h.isQueue, hlower, hupper, hdefined⟩

/-- Eight bytes go through a buffer that holds four of them at a time. -/
def twoRounds : List Call :=
  [.append [1, 2, 3, 4], .retrieve 4, .readFd (.ok [5, 6, 7, 8]), .writeFd (.ok 4)]

theorem size_le_of_run_twoRounds :
    ∃ s, twoRounds.foldlM Trace.call (Trace.start (new 1)) = some s ∧
      s.IsQueue ∧ 1 ≤ s.buf.size ∧ s.buf.size ≤ max 1 (2 * 4) ∧
        ∀ c, Enabled s.buf c → demand s.buf c ≤ 4 → s.call c ≠ none := by
  refine ⟨_, rfl, size_le_of_run 1 (by decide) (by decide) 4 (by decide) twoRounds _ ?_⟩
  refine .cons ⟨by decide, trivial, rfl⟩ (.cons ⟨by decide, by decide, rfl⟩ ?_)
  exact .cons ⟨by decide, by decide, rfl⟩ (.cons ⟨by decide, by decide, rfl⟩ (.nil _))

end SocketMaster.Buffer
