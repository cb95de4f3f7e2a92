import SocketMaster.Conn.Bounds

/-!
# Connections that wait for ever

`init` waits for a frame of up to 256 bytes, but `append` never fills the ring beyond 254. A
connection that waits on a length of 255 or 256 has read its last: nothing it can still take
in makes the frame long enough, and `process` takes nothing out while it waits. On every other
length some continuation frees it: fill up to the announced length, and `init` decides.
-/
namespace SocketMaster

open Library

namespace Frame

variable (cs : CharSign) {m m' : Int → UInt8} {xs : List UInt8}

/-- The length is in the first five bytes. -/
theorem lengthAt_congr (hlen : 5 ≤ xs.length) (h : Shows m 0 xs) (h' : Shows m' 0 xs) :
    lengthAt cs m 0 = lengthAt cs m' 0 := by
  have hcell : ∀ i : Nat, i < 5 → m (0 + i) = m' (0 + i) := fun i hi => by
    rw [h.cell (by omega), h'.cell (by omega)]
  have h1 : m (0 + 1) = m' (0 + 1) := hcell 1 (by omega)
  have h2 : m (0 + 2) = m' (0 + 2) := hcell 2 (by omega)
  have h3 : m (0 + 3) = m' (0 + 3) := hcell 3 (by omega)
  have h4 : m (0 + 4) = m' (0 + 4) := hcell 4 (by omega)
  rw [lengthAt, lengthAt, h1, h2, h3, h4]

end Frame

/-- What lies at the front of the array. -/
theorem shows_front {xs ys : List UInt8} (h : xs <+: ys) (tail : Int → UInt8) :
    Shows (overlay ys tail) 0 xs := shows_overlay ys tail 0 (by simpa using h)

/-- The length announced in the bytes `xs`. -/
def announced (cs : CharSign) (xs : List UInt8) : Int := Frame.lengthAt cs (bare xs) 0

theorem announced_eq (cs : CharSign) {xs ys : List UInt8} (hlen : 5 ≤ xs.length) (h : xs <+: ys)
    (tail : Int → UInt8) : Frame.lengthAt cs (overlay ys tail) 0 = announced cs xs :=
  Frame.lengthAt_congr cs hlen (shows_front h tail) (shows_front (List.prefix_refl xs) _)

/-- The wait for the announced length can end: it is not known yet, or the ring has room for
that many bytes. -/
def Completable (cs : CharSign) (xs : List UInt8) : Prop := xs.length < 5 ∨ announced cs xs ≤ 254

instance (cs : CharSign) (xs : List UInt8) : Decidable (Completable cs xs) := by
  unfold Completable
  infer_instance

namespace AppConn

variable {cs : CharSign} {env : Env} {tail : Int → UInt8} {channel : List UInt8} {c c' : AppConn}
  {xs : List UInt8}

/-- One more block that the read ring takes in. -/
def Takes (c : AppConn) (chunk : Chunk) (c' : AppConn) : Prop :=
  (c.readBuff.append chunk.bytes).1 = chunk.bytes.length ∧ c' = c.appendRead chunk.bytes

/-- A call of `process` on `c` has taken at least one byte out of the read ring, or has
dispatched a frame whose handler does not return. -/
def Removes (c : AppConn) (o : Outcome) : Prop :=
  match o.result with
  | .ok p => ∃ k, 0 < k ∧ CBuffer.Carries p.conn.readBuff (c.readBuff.content.drop k)
  | .error _ => o.dispatched ≠ none

/-- Some continuation that the read ring takes in makes `process` remove something. -/
def Unstuck (cs : CharSign) (c : AppConn) : Prop :=
  ∃ chunks c', Run Takes c chunks c' ∧
    ∀ env tail channel, Removes c' (c'.process cs env tail channel)

/-! ## Waiting -/

/-- `process` leaves everything as it is while it waits. -/
theorem process_waits (env : Env) (channel : List UInt8) (hs : c.readBuff.Sound)
    (hne : c.readBuff.content ≠ [])
    (hwait : Frame.Waits cs (overlay c.readBuff.content tail) 0 c.readBuff.content.length) :
    (c.process cs env tail channel).dispatched = none ∧
      (c.process cs env tail channel).result = .ok { ret := false, conn := c, channel } := by
  have hpos := List.length_pos_iff.mpr hne
  have hstate := (Frame.stateAt_wait_iff cs _ (by omega)).mpr hwait
  have stop : ¬ Frame.Skipped cs (overlay c.readBuff.content tail) ((0 : Nat) : Int)
      (c.readBuff.content.length - 0 : Nat) := fun h => h.2 (by simpa using hstate)
  obtain ⟨hdiscard, hends⟩ := getFrameFromBuffer_stop cs _ hpos (by simp) stop
  rw [process_eq hs, if_neg hne]
  dsimp only
  cases hends with
  | nothing all => omega
  | found _ accepts => simp [hstate] at accepts
  | wait _ _ state =>
    rw [hdiscard, dispatch_of_ne (by simp [state]), Int.natCast_zero, popRead_zero]
    exact ⟨rfl, rfl⟩

/-- What a ring carries is what it reads out, unless it is stale. -/
theorem eq_of_carries {b : CBuffer} {xs ys : List UInt8} (hx : CBuffer.Holds b xs)
    (hy : CBuffer.Carries b ys) : ys = xs := by
  obtain hy | ⟨hstale, -⟩ := hy
  · exact hy.content.symm.trans hx.content
  · exact absurd hx (hstale.not_holds xs)

/-- A block that the ring takes in leaves at most 254 bytes in it. -/
theorem Takes.holds {chunk : Chunk} (h : Takes c chunk c') (hx : CBuffer.Holds c.readBuff xs) :
    CBuffer.Holds c'.readBuff (xs ++ chunk.bytes) ∧ (xs ++ chunk.bytes).length ≤ 254 := by
  obtain ⟨htaken, rfl⟩ := h
  have hpos := List.length_pos_iff.mpr chunk.ne_nil
  have hfit : xs.length + chunk.bytes.length < c.readBuff.mSize - 1 := by
    by_contra hfull
    rw [hx.append_of_ge chunk.bytes (not_lt.mp hfull)] at htaken
    exact absurd htaken (by omega)
  refine ⟨(hx.append chunk.bytes hfit).2, ?_⟩
  rw [c.readBuff_size] at hfit
  rw [List.length_append]
  omega

theorem takes_of_holds (hx : CBuffer.Holds c.readBuff xs) (chunk : Chunk)
    (hfit : xs.length + chunk.bytes.length ≤ 254) : Takes c chunk (c.appendRead chunk.bytes) :=
  ⟨(hx.append chunk.bytes (by rw [c.readBuff_size]; omega)).1, rfl⟩

/-- Whatever a connection takes in while it waits on a length beyond 254, it goes on waiting. -/
theorem waits_of_run {chunks : List Chunk} (run : Run Takes c chunks c')
    (hx : CBuffer.Holds c.readBuff xs) (hhead : Shows (overlay xs tail) 0 [frameHead])
    (hfive : 5 ≤ xs.length) (hbig : announced cs xs ≤ 256) (hfar : 254 < announced cs xs)
    (hshort : xs.length < announced cs xs) :
    ∃ ys, CBuffer.Holds c'.readBuff ys ∧ ys ≠ [] ∧
      ∀ tail, Frame.Waits cs (overlay ys tail) 0 ys.length := by
  -- what is held goes on starting with `xs`, and stays shorter than what is announced
  have keep : ∀ s chunk t,
      (∃ ys, CBuffer.Holds s.readBuff ys ∧ xs <+: ys ∧ ys.length < announced cs xs) →
      Takes s chunk t →
      ∃ ys, CBuffer.Holds t.readBuff ys ∧ xs <+: ys ∧ ys.length < announced cs xs := by
    rintro s chunk t ⟨ys, hy, hprefix, -⟩ htakes
    obtain ⟨hnext, hle⟩ := htakes.holds hy
    exact ⟨_, hnext, hprefix.trans (List.prefix_append ..), by omega⟩
  obtain ⟨ys, hy, hprefix, hlt⟩ := run.invariant keep ⟨xs, hx, List.prefix_refl xs, hshort⟩
  have hfirst : [frameHead] <+: xs := by
    rw [Shows, List.length_singleton, ← Int.natCast_zero, cells_overlay xs tail (by simp; omega),
      List.drop_zero] at hhead
    exact hhead ▸ List.take_prefix 1 xs
  have hle := hprefix.length_le
  refine ⟨ys, hy, ?_, fun tail => ?_⟩
  · rintro rfl
    simp only [List.length_nil] at hle
    omega
  · have hlen := announced_eq cs hfive hprefix tail
    have hfront := shows_front (hfirst.trans hprefix) tail
    rw [shows_cons] at hfront
    exact ⟨hfront.1, by omega, by omega⟩

/-- A waiting connection removes nothing. -/
theorem not_removes_of_waits (env : Env) (channel : List UInt8) (hx : CBuffer.Holds c.readBuff xs)
    (hne : xs ≠ []) (hwait : Frame.Waits cs (overlay xs tail) 0 xs.length) :
    ¬ Removes c (c.process cs env tail channel) := by
  have hcontent : c.readBuff.content = xs := hx.content
  obtain ⟨-, hresult⟩ := process_waits env channel hx.sound (by rwa [hcontent])
    (by rwa [hcontent])
  rw [Removes, hresult]
  rintro ⟨k, hk, hcarries⟩
  have hdrop := congrArg List.length (eq_of_carries hx hcarries)
  rw [hcontent, List.length_drop] at hdrop
  have := List.length_pos_iff.mpr hne
  omega

/-- A known length that the ring has no room for is never reached. -/
theorem not_unstuck_of_waits (hx : CBuffer.Holds c.readBuff xs)
    (hwait : Frame.Waits cs (overlay xs tail) 0 xs.length) (hfar : ¬ Completable cs xs) :
    ¬ Unstuck cs c := by
  rintro ⟨chunks, c', run, hremoves⟩
  obtain ⟨hhead, hbig, hshort⟩ := hwait
  obtain ⟨hfive, hfar⟩ := not_or.mp hfar
  rw [announced_eq cs (not_lt.mp hfive) (List.prefix_refl xs) tail] at hbig hshort
  obtain ⟨ys, hy, hne, hwaits⟩ := waits_of_run run hx
    ((shows_cons ..).mpr ⟨hhead, shows_nil ..⟩) (not_lt.mp hfive) hbig (not_le.mp hfar) hshort
  exact not_removes_of_waits printsNinetyNine [] hy hne (hwaits fun _ => 0)
    (hremoves printsNinetyNine (fun _ => 0) [])

/-! ## Getting free -/

/-- `process` removes something wherever it does not wait, unless it accepts a frame of size
zero. -/
theorem removes_of_not_waits (hx : CBuffer.Holds c.readBuff xs) (hne : xs ≠ [])
    (hwait : ¬ Frame.Waits cs (overlay xs tail) 0 xs.length)
    (hsize : Frame.lengthAt cs (overlay xs tail) 0 ≠ -9) :
    Removes c (c.process cs env tail channel) := by
  have hcontent : c.readBuff.content = xs := hx.content
  have hpos := List.length_pos_iff.mpr hne
  rw [Removes, hcontent]
  cases process_ended cs env tail channel hx hne with
  | @idle k p inside _ stop _ result _ rest =>
    rw [result]
    refine ⟨k, ?_, rest⟩
    obtain hall | ⟨_, hwaits⟩ := stop
    · omega
    · rw [Nat.pos_iff_ne_zero]
      rintro rfl
      exact hwait (by simpa using hwaits)
  | @found k _ _ _ dispatched rest _ =>
    split
    · rename_i p hp
      obtain ⟨hnonneg, hcarries⟩ := rest p hp
      refine ⟨_, ?_, hcarries⟩
      by_cases hfront : k = 0
      · subst hfront
        simp only [Frame.size, Frame.decoded, Int.natCast_zero] at hnonneg ⊢
        omega
      · omega
    · rw [dispatched]
      exact Option.some_ne_none _

theorem Unstuck.of_takes {chunk : Chunk} (h : Takes c chunk c') (hfree : Unstuck cs c') :
    Unstuck cs c := by
  obtain ⟨chunks, last, run, hremoves⟩ := hfree
  exact ⟨chunk :: chunks, last, .cons h run, hremoves⟩

/-- With the announced length there, or one that is refused, `process` does not wait. -/
theorem unstuck_of_full (hx : CBuffer.Holds c.readBuff xs) (hfive : 5 ≤ xs.length)
    (hlen : announced cs xs ≤ xs.length ∨ 256 < announced cs xs) (hsize : announced cs xs ≠ -9) :
    Unstuck cs c := by
  refine ⟨[], c, .nil c, fun env tail channel => ?_⟩
  have heq := announced_eq cs hfive (List.prefix_refl xs) tail
  refine removes_of_not_waits hx (List.ne_nil_of_length_pos (by omega)) ?_ (by rwa [heq])
  rintro ⟨-, hbig, hshort⟩
  omega

/-- A known length that the ring has room for can be filled up to. -/
theorem unstuck_of_announced (hx : CBuffer.Holds c.readBuff xs) (hfive : 5 ≤ xs.length)
    (hlen : announced cs xs ≤ 254 ∨ 256 < announced cs xs) (hsize : announced cs xs ≠ -9) :
    Unstuck cs c := by
  by_cases hfull : announced cs xs ≤ xs.length ∨ 256 < announced cs xs
  · exact unstuck_of_full hx hfive hfull hsize
  obtain ⟨hshort, hbig⟩ := not_or.mp hfull
  have hn : (announced cs xs - xs.length).toNat ≠ 0 := by omega
  let filler : Chunk :=
    ⟨List.replicate (announced cs xs - xs.length).toNat 0x30, by simpa using hn, by simp; omega⟩
  have hfiller : filler.bytes.length = (announced cs xs - xs.length).toNat := List.length_replicate ..
  have htakes : Takes c filler (c.appendRead filler.bytes) := takes_of_holds hx filler (by omega)
  obtain ⟨hnext, -⟩ := htakes.holds hx
  have hsame : announced cs (xs ++ filler.bytes) = announced cs xs :=
    announced_eq cs hfive (List.prefix_append ..) _
  have hlength : (xs ++ filler.bytes).length = (announced cs xs).toNat := by
    rw [List.length_append]
    omega
  refine .of_takes htakes (unstuck_of_full hnext (by omega) ?_ (by rwa [hsame]))
  exact .inl (by omega)

/-- Five bytes are enough for a length that is neither one of the two bad ones nor one that
makes a frame of size zero: the last digit is free. -/
theorem exists_header (cs : CharSign) (hlen : xs.length < 5) : ∃ fill : List UInt8,
    xs.length + fill.length = 5 ∧ announced cs (xs ++ fill) ≠ 255 ∧
      announced cs (xs ++ fill) ≠ 256 ∧ announced cs (xs ++ fill) ≠ -9 := by
  let ys := xs ++ List.replicate (4 - xs.length) 0x30
  have hys : ys.length = 4 := by
    simp only [ys, List.length_append, List.length_replicate]
    omega
  have hlast : ∀ b, announced cs (ys ++ [b]) =
      cs.digit (bare ys 1) * 1000 + cs.digit (bare ys 2) * 100 + cs.digit (bare ys 3) * 10 +
        cs.digit b := by
    intro b
    have hfront : Shows (bare (ys ++ [b])) 0 (ys ++ [b]) := shows_front (List.prefix_refl _) _
    have hold : Shows (bare ys) 0 ys := shows_front (List.prefix_refl _) _
    obtain ⟨hkeep, hb⟩ := (shows_append ..).mp hfront
    have hcell : ∀ i : Nat, i < 4 → bare (ys ++ [b]) (0 + i) = bare ys (0 + i) := fun i hi => by
      rw [hkeep.cell (by omega), hold.cell (by omega)]
    have h1 : bare (ys ++ [b]) (0 + 1) = bare ys (0 + 1) := hcell 1 (by omega)
    have h2 : bare (ys ++ [b]) (0 + 2) = bare ys (0 + 2) := hcell 2 (by omega)
    have h3 : bare (ys ++ [b]) (0 + 3) = bare ys (0 + 3) := hcell 3 (by omega)
    have h4 : bare (ys ++ [b]) (0 + 4) = b := by
      rw [hys] at hb
      exact ((shows_cons ..).mp hb).1
    rw [announced, Frame.lengthAt, h1, h2, h3, h4]
    rfl
  have hzero : cs.digit 0x30 = 0 := by cases cs <;> rfl
  have htwo : cs.digit 0x32 = 2 := by cases cs <;> rfl
  have hfill : ∀ b : UInt8, xs.length + (List.replicate (4 - xs.length) 0x30 ++ [b]).length = 5 := by
    intro b
    simp only [List.length_append, List.length_replicate, List.length_singleton]
    omega
  by_cases hgood : announced cs (ys ++ [0x30]) ≠ 255 ∧ announced cs (ys ++ [0x30]) ≠ 256 ∧
      announced cs (ys ++ [0x30]) ≠ -9
  · refine ⟨List.replicate (4 - xs.length) 0x30 ++ [0x30], hfill _, ?_⟩
    rwa [← List.append_assoc]
  · refine ⟨List.replicate (4 - xs.length) 0x30 ++ [0x32], hfill _, ?_⟩
    rw [← List.append_assoc]
    have hzero' := hlast 0x30
    have htwo' := hlast 0x32
    rw [hzero] at hzero'
    rw [htwo] at htwo'
    change announced cs (ys ++ [0x32]) ≠ 255 ∧ announced cs (ys ++ [0x32]) ≠ 256 ∧
      announced cs (ys ++ [0x32]) ≠ -9
    omega

/-- A waiting connection can be freed exactly if its wait is completable. -/
theorem unstuck_iff (hc : Reachable cs c)
    (hwait : Frame.Waits cs (overlay c.readBuff.content tail) 0 c.readBuff.content.length) :
    Unstuck cs c ↔ Completable cs c.readBuff.content := by
  have hs := hc.sound
  have hx : CBuffer.Holds c.readBuff c.readBuff.content := by
    obtain hx | hstale := hs.holds_or_stale
    · exact hx
    · -- a stale ring is longer than anything `init` waits for
      have hfull := hstale.length_eq
      rw [c.readBuff_size, ← hs.length_content] at hfull
      obtain ⟨-, hbig, hshort⟩ := hwait
      omega
  generalize c.readBuff.content = xs at hx hwait
  refine ⟨fun hfree => by_contra fun hfar => not_unstuck_of_waits hx hwait hfar hfree, ?_⟩
  intro hcompletable
  by_cases hfive : 5 ≤ xs.length
  · have heq := announced_eq cs hfive (List.prefix_refl xs) tail
    obtain ⟨-, -, hshort⟩ := hwait
    exact unstuck_of_announced hx hfive (.inl (hcompletable.resolve_left (by omega))) (by omega)
  · obtain ⟨fill, hfill, h255, h256, h9⟩ := exists_header cs (not_le.mp hfive)
    let header : Chunk := ⟨fill, List.ne_nil_of_length_pos (by omega), by omega⟩
    have hlength : header.bytes.length = fill.length := rfl
    have htakes : Takes c header (c.appendRead header.bytes) := takes_of_holds hx header (by omega)
    obtain ⟨hnext, -⟩ := htakes.holds hx
    refine .of_takes htakes (unstuck_of_announced hnext ?_ ?_ h9)
    · rw [List.length_append]
      omega
    · change announced cs (xs ++ fill) ≤ 254 ∨ 256 < announced cs (xs ++ fill)
      omega

/-- The first five bytes of a frame with a body of 20. -/
theorem unstuck_short_frame :
    Unstuck .signed (received ⟨[frameHead, 0x30, 0x30, 0x32, 0x30], by decide, by decide⟩) :=
  (unstuck_iff (reachable_received .signed _)
    (show Frame.Waits .signed (overlay _ fun _ => 0) 0 _ by decide)).mpr (by decide)

/-- The first five bytes of a frame with a body of 255. -/
theorem not_unstuck_long_frame :
    Reachable .signed (received ⟨[frameHead, 0x30, 0x32, 0x35, 0x35], by decide, by decide⟩) ∧
    Frame.Waits .signed
      (bare (received ⟨[frameHead, 0x30, 0x32, 0x35, 0x35], by decide, by decide⟩).readBuff.content) 0
      (received ⟨[frameHead, 0x30, 0x32, 0x35, 0x35], by decide, by decide⟩).readBuff.content.length ∧
    ¬ Unstuck .signed
      (received ⟨[frameHead, 0x30, 0x32, 0x35, 0x35], by decide, by decide⟩) := by
  have hx : CBuffer.Holds
      (received ⟨[frameHead, 0x30, 0x32, 0x35, 0x35], by decide, by decide⟩).readBuff
      [frameHead, 0x30, 0x32, 0x35, 0x35] := by
    have hnew := CBuffer.holds_new 256 (by decide) (by decide) fun _ => 0
    exact (hnew.append _ (by decide)).2
  exact ⟨reachable_received .signed _, by decide,
    not_unstuck_of_waits hx (show Frame.Waits .signed (bare _) 0 _ by decide) (by decide)⟩

end AppConn

end SocketMaster
