import SocketMaster.Buffer.Growth

/-!
# Several buffers

`RetrieveUntil` is given a pointer into the buffer, and `Append` of a buffer copies from a pointer
into that one. Between two buffers these are a retrieve and an append like any other. The pointer
for a buffer that is appended to itself is taken before room is made: it does not outlive the
growing of the vector, and where the bytes move to the front it may point to what has taken their
place.
-/
namespace SocketMaster.Buffer

open Library

section

variable (b : Buffer)

/-- `RetrieveUntil`; `last` is where `end` points to, counted from the vector's first element. -/
def retrieveUntil (last : Nat) : Option Buffer :=
  if b.readPos ≤ last then b.retrieve (sub64 last b.readPos) else none

/-- The `Append` of another buffer. -/
def appendBuffer (buff : Buffer) : Option Buffer :=
  b.append (slice buff.buffer buff.readPos buff.readableBytes)

/-- The `Append` of the buffer itself. `none` is also what need not be defined: a pointer into a
vector that has grown and may have moved, and a `std::copy` to a place inside of what it copies. -/
def appendSelf : Option Buffer := do
  let len := b.readableBytes
  let t ← b.ensureWriteable len
  if b.writableBytes < len ∧ add64 b.writableBytes b.prependableBytes < len then none
  else if b.readPos ≤ t.writePos ∧ t.writePos < b.readPos + len then none
  else
    let t := { t with buffer := blit t.buffer t.writePos (slice t.buffer b.readPos len) }
    some (t.hasWritten len)

/-- The readable bytes fit behind themselves, or they fit in front of where they are and leave
room enough there for both copies to be apart from them. -/
def Apart : Prop :=
  b.readableBytes ≤ b.writableBytes ∨
    b.readableBytes ≤ b.writableBytes + b.prependableBytes ∧
      b.readableBytes < b.prependableBytes

instance : Decidable b.Apart := inferInstanceAs (Decidable (_ ∨ _))

end

namespace Holds

variable {b buff : Buffer} {xs ys : List UInt8}

theorem retrieveUntil_eq {last : Nat} (hlast : b.readPos ≤ last) :
    b.retrieveUntil last = b.retrieve (last - b.readPos) := by
  rw [Buffer.retrieveUntil, if_pos hlast, sub64_of_le hlast]

theorem slice_readable (h : Holds buff ys) :
    slice buff.buffer buff.readPos buff.readableBytes = ys := by
  rw [h.readableBytes, h.length]
  exact h.content

theorem appendBuffer_eq (h : Holds buff ys) : b.appendBuffer buff = b.append ys := by
  rw [Buffer.appendBuffer, h.slice_readable]

theorem ensureWriteable_of_le {len : Nat} (hroom : len ≤ b.writableBytes) :
    b.ensureWriteable len = some b := by
  rw [Buffer.ensureWriteable, if_neg (Nat.not_lt.mpr hroom)]
  exact if_pos hroom

theorem ensureWriteable_of_moved (h : Holds b xs) {len : Nat} (hroom : b.writableBytes < len)
    (hmoved : len ≤ b.writableBytes + b.prependableBytes) :
    b.ensureWriteable len = some b.compact := by
  have hr := h.readPos_le
  have hle := h.writePos_le
  have hlt := h.size_lt
  have hw := h.writableBytes
  have hp : b.prependableBytes = b.readPos := rfl
  have hsum : add64 b.writableBytes b.prependableBytes =
      b.writableBytes + b.prependableBytes := add64_of_lt (by omega)
  have hsame : b.readableBytes = b.compact.readableBytes :=
    h.readableBytes.trans h.compact.readableBytes.symm
  have hspace : len ≤ b.compact.writableBytes := by
    rw [h.compact.writableBytes, h.compact_writePos, h.length]
    show len ≤ b.size - (b.writePos - b.readPos)
    omega
  rw [Buffer.ensureWriteable, if_pos hroom, Buffer.makeSpace, hsum,
    if_neg (Nat.not_lt.mpr hmoved), if_pos hsame]
  exact if_pos hspace

/-- Once the readable bytes are at the front, those of their old cells that lie behind them are
as they were. -/
theorem slice_compact (h : Holds b xs) (hapart : xs.length ≤ b.readPos) :
    slice b.compact.buffer b.readPos xs.length = xs := by
  have hsame : slice b.compact.buffer b.readPos xs.length =
      slice b.buffer b.readPos xs.length := by
    refine slice_congr fun k hk => ?_
    have hmoved : b.compact.buffer = blit b.buffer 0 b.content := rfl
    rw [hmoved, h.content, blit_of_ge _ _ (by omega)]
  rw [hsame, h.length]
  exact h.content

/-- Where it is defined, the append of the buffer itself is that of its bytes. -/
theorem appendSelf_eq (h : Holds b xs) :
    b.appendSelf = if b.Apart then b.append xs else none := by
  have hx := h.length
  have hr := h.readPos_le
  have hle := h.writePos_le
  have hlt := h.size_lt
  have hw := h.writableBytes
  have hlen := h.readableBytes
  have hp : b.prependableBytes = b.readPos := rfl
  have hsum : add64 b.writableBytes b.prependableBytes =
      b.writableBytes + b.prependableBytes := add64_of_lt (by omega)
  have hread : slice b.buffer b.readPos xs.length = xs := hlen ▸ h.slice_readable
  rw [Buffer.appendSelf, Buffer.append]
  dsimp only
  rw [hsum, hlen]
  by_cases hroom : xs.length ≤ b.writableBytes
  · have hapart : b.Apart := .inl (hlen ▸ hroom)
    rw [if_pos hapart, ensureWriteable_of_le hroom]
    simp only [Option.bind_eq_bind, Option.bind_some]
    rw [if_neg (by omega), if_neg (by omega), hread]
  by_cases hmoved : xs.length ≤ b.writableBytes + b.prependableBytes
  · rw [h.ensureWriteable_of_moved (by omega) hmoved]
    simp only [Option.bind_eq_bind, Option.bind_some]
    rw [h.compact_writePos, if_neg (by omega)]
    by_cases hbefore : xs.length < b.readPos
    · have hapart : b.Apart := .inr ⟨hlen ▸ hmoved, hlen ▸ hbefore⟩
      rw [if_pos hapart, if_neg (by omega), h.slice_compact (by omega)]
    · have hnot : ¬ b.Apart := by
        rw [Apart, hlen]
        omega
      rw [if_neg hnot, if_pos (by omega)]
  · have hnot : ¬ b.Apart := by
      rw [Apart, hlen]
      omega
    rw [if_neg hnot]
    cases b.ensureWriteable xs.length with
    | none => rfl
    | some t => exact if_pos (by omega)

end Holds

/-! ## Runs -/

/-- A call of one buffer, and the calls that take a pointer. -/
inductive Joint (ι : Type) where
  | own (i : ι) (c : Call)
  | retrieveUntil (i : ι) (last : Nat)
  | appendBuffer (i j : ι)

namespace Joint

variable {ι : Type} {n : ι → Nat} {bound : Nat} {s : ι → Trace}

section

variable [DecidableEq ι]

/-- The buffer `i` after the `Append` of the buffer `j`. -/
def append (s : ι → Trace) (i j : ι) : Option Buffer :=
  if i = j then (s i).buf.appendSelf else (s i).buf.appendBuffer (s j).buf

/-- One call; `none` is a failed assertion, `std::length_error`, or what need not be defined. -/
def call (s : ι → Trace) : Joint ι → Option (ι → Trace)
  | .own i c => do
    let t ← (s i).call c
    some (Function.update s i t)
  | .retrieveUntil i last => do
    let buf ← (s i).buf.retrieveUntil last
    let taken := (s i).buf.content.take (last - (s i).buf.readPos)
    some (Function.update s i { s i with buf, delivered := (s i).delivered ++ taken })
  | .appendBuffer i j => do
    let buf ← append s i j
    some (Function.update s i { s i with buf, accepted := (s i).accepted ++ (s j).buf.content })

end

/-- The buffer that is called, and the call without a pointer that is to be the same. -/
def plain (s : ι → Trace) : Joint ι → ι × Call
  | .own i c => (i, c)
  | .retrieveUntil i last => (i, .retrieve (last - (s i).buf.readPos))
  | .appendBuffer i j => (i, .append (s j).buf.content)

/-- What the callers and the system can do. -/
def Enabled (s : ι → Trace) : Joint ι → Prop
  | .own i c => Buffer.Enabled (s i).buf c
  | .retrieveUntil i last => (s i).buf.readPos ≤ last ∧ last ≤ (s i).buf.writePos
  | .appendBuffer _ _ => True

/-- The bytes of a buffer that is appended to itself are apart from where they go. -/
def Sound (s : ι → Trace) : Joint ι → Prop
  | .appendBuffer i j => i = j → (s i).buf.Apart
  | _ => True

def demand (s : ι → Trace) (c : Joint ι) : Nat :=
  Buffer.demand (s (c.plain s).1).buf (c.plain s).2

theorem enabled_plain (hs : ∀ i, Within (n i) bound (s i)) {c : Joint ι} (enabled : c.Enabled s) :
    Buffer.Enabled (s (c.plain s).1).buf (c.plain s).2 := by
  cases c with
  | own i c => exact enabled
  | retrieveUntil i last =>
    obtain ⟨q, h, -, -⟩ := hs i
    obtain ⟨-, hlast⟩ := enabled
    show last - (s i).buf.readPos ≤ (s i).buf.readableBytes
    rw [h.holds.readableBytes, h.holds.length]
    omega
  | appendBuffer i j => trivial

variable [DecidableEq ι]

/-- A call that can be made, is defined and needs room for at most `bound` bytes. -/
def StepWithin (bound : Nat) (s : ι → Trace) (c : Joint ι) (s' : ι → Trace) : Prop :=
  c.demand s ≤ bound ∧ c.Enabled s ∧ call s c = some s'

theorem append_eq (hs : ∀ i, Within (n i) bound (s i)) (i j : ι) :
    append s i j =
      if i = j → (s i).buf.Apart then (s i).buf.append (s j).buf.content else none := by
  obtain ⟨q, h, -, -⟩ := hs i
  obtain ⟨q', h', -, -⟩ := hs j
  rw [append, h'.holds.content]
  by_cases heq : i = j
  · subst heq
    rw [if_pos rfl, h'.holds.appendSelf_eq]
    simp only [true_imp_iff]
  · rw [if_neg heq, if_pos fun h => absurd h heq, h'.holds.appendBuffer_eq]

/-- A call that is defined is the call without a pointer, on the one buffer. -/
theorem call_eq_plain (hs : ∀ i, Within (n i) bound (s i)) {c : Joint ι} (enabled : c.Enabled s)
    (sound : c.Sound s) :
    call s c = ((s (c.plain s).1).call (c.plain s).2).map (Function.update s (c.plain s).1) := by
  cases c with
  | own i c =>
    rw [call, plain]
    cases (s i).call c <;> rfl
  | retrieveUntil i last =>
    rw [call, plain, Holds.retrieveUntil_eq enabled.1, Trace.call]
    cases (s i).buf.retrieve (last - (s i).buf.readPos) <;> rfl
  | appendBuffer i j =>
    have hdefined : i = j → (s i).buf.Apart := sound
    rw [call, plain, append_eq hs, if_pos hdefined, Trace.call]
    cases (s i).buf.append (s j).buf.content <;> rfl

theorem call_of_not_sound (hs : ∀ i, Within (n i) bound (s i)) {c : Joint ι}
    (hnot : ¬ c.Sound s) : call s c = none := by
  cases c with
  | own i c => exact absurd trivial hnot
  | retrieveUntil i last => exact absurd trivial hnot
  | appendBuffer i j =>
    have hundefined : ¬ (i = j → (s i).buf.Apart) := hnot
    rw [call, append_eq hs, if_neg hundefined]
    rfl

theorem StepWithin.within (hbound : 2 * bound ≤ maxSize) (hs : ∀ i, Within (n i) bound (s i))
    {c : Joint ι} {s' : ι → Trace} (hstep : StepWithin bound s c s') (i : ι) :
    Within (n i) bound (s' i) := by
  obtain ⟨hdemand, enabled, hcall⟩ := hstep
  have sound : c.Sound s := by
    by_contra hnot
    cases (call_of_not_sound hs hnot).symm.trans hcall
  rw [call_eq_plain hs enabled sound] at hcall
  obtain ⟨t, ht, rfl⟩ := Option.map_eq_some_iff.mp hcall
  by_cases hi : i = (c.plain s).1
  · subst hi
    rw [Function.update_self]
    exact (hs _).step hbound ⟨hdemand, enabled_plain hs enabled, ht⟩
  · rw [Function.update_of_ne hi]
    exact hs i

/-- In every run of calls of any buffers, each needing no more than `bound` bytes at a time, every
buffer is a queue of its own and no larger than it had to be; and what fails or need not be defined
is exactly the append of a buffer to itself that does not leave its bytes apart. -/
theorem within_of_run (n : ι → Nat) (hn : ∀ i, 0 < n i) (hi : ∀ i, n i < 2 ^ 31) (bound : Nat)
    (hbound : 2 * bound ≤ maxSize) (calls : List (Joint ι)) (s : ι → Trace)
    (run : Run (StepWithin bound) (fun i => Trace.start (new (n i))) calls s) :
    (∀ i, (s i).IsQueue ∧ n i ≤ (s i).buf.size ∧ (s i).buf.size ≤ max (n i) (2 * bound)) ∧
      ∀ c, c.Enabled s → c.demand s ≤ bound → (call s c ≠ none ↔ c.Sound s) := by
  have keep : ∀ (s : ι → Trace) (c : Joint ι) (s' : ι → Trace),
      (∀ i, Within (n i) bound (s i)) → StepWithin bound s c s' →
        ∀ i, Within (n i) bound (s' i) :=
    fun s c s' h hstep => hstep.within hbound h
  have hs : ∀ i, Within (n i) bound (s i) :=
    run.invariant keep fun i => .start (hn i) (hi i) bound
  refine ⟨fun i => ?_, fun c enabled hdemand => ⟨fun hsome => ?_, fun sound => ?_⟩⟩
  · obtain ⟨q, h, -, hlower, hupper⟩ := hs i
    exact ⟨h.isQueue, hlower, hupper⟩
  · by_contra hnot
    exact hsome (call_of_not_sound hs hnot)
  · rw [call_eq_plain hs enabled sound]
    have hdefined := (hs _).call_ne_none hbound (enabled_plain hs enabled) hdemand
    exact mt Option.map_eq_none_iff.mp hdefined

/-- One buffer is appended to itself and to the other, of which two bytes are retrieved. -/
def doubled : List (Joint Bool) :=
  [.own true (.append [1, 2]), .appendBuffer true true, .appendBuffer false true,
    .retrieveUntil false 2]

theorem within_of_run_doubled :
    ∃ s, doubled.foldlM call (fun _ => Trace.start (new 4)) = some s ∧
      (∀ i, (s i).IsQueue ∧ 4 ≤ (s i).buf.size ∧ (s i).buf.size ≤ max 4 (2 * 8)) ∧
        ∀ c, c.Enabled s → c.demand s ≤ 8 → (call s c ≠ none ↔ c.Sound s) := by
  refine ⟨_, rfl, within_of_run (fun _ => 4) (by decide) (by decide) 8 (by decide) doubled _ ?_⟩
  refine .cons ⟨by decide, trivial, rfl⟩ (.cons ⟨by decide, trivial, rfl⟩ ?_)
  exact .cons ⟨by decide, trivial, rfl⟩ (.cons ⟨by decide, ⟨by decide, by decide⟩, rfl⟩ (.nil _))

end Joint

end SocketMaster.Buffer
