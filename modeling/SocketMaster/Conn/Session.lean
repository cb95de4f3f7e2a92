import SocketMaster.Conn.Life

/-!
# Requests that arrive in pieces

A connection gets a stream of requests in blocks, one for each read event, and `process` runs
once for each. `Paced` says on the lengths alone when that goes well: every block fits the
ring, the code never has to decide on a request of which it has some bytes but not the right
ones, and there are enough events, since each answers at most one request.
-/
namespace SocketMaster

open Library

/-- The bytes of requests that follow one another. -/
def stream (reqs : List Request) : List UInt8 := reqs.flatMap Request.bytes

@[simp] theorem stream_nil : stream [] = [] := rfl

@[simp] theorem stream_cons (r : Request) (reqs : List Request) :
    stream (r :: reqs) = r.bytes ++ stream reqs := rfl

/-- The handler of the request returns. -/
def Request.Parsable (env : Env) (r : Request) : Prop :=
  r.frame.type = typeAck ∨ Answerable env r.frame

theorem Request.size_frame (r : Request) : r.frame.size = (r.body.length + 9 : Nat) := by
  simp only [Frame.size, Request.frame]
  omega

/-- One read event: the block that comes in, and what surrounds it. -/
structure Delivery where
  chunk : Chunk
  env : Env
  tail : Int → UInt8
  errno : Nat

/-- A connection, the channel buffer, and the frames that `frameProcess` was given so far. -/
structure Session where
  conn : AppConn
  channel : List UInt8
  dispatched : List Frame

namespace Session

/-- `DealRead_` on a readable connection: `read_` until the socket has no more, then `process`. -/
@[irreducible] def deliver (cs : CharSign) (s : Session) (d : Delivery) : Except Fault Session :=
  let c := (s.conn.read_ d.errno (.data d.chunk (.fail eagain))).conn
  let o := c.process cs d.env d.tail s.channel
  match o.result with
  | .error e => .error e
  | .ok p => .ok ⟨p.conn, p.channel, s.dispatched ++ o.dispatched.toList⟩

def deliverAll (cs : CharSign) (s : Session) : List Delivery → Except Fault Session
  | [] => .ok s
  | d :: ds =>
    match s.deliver cs d with
    | .error e => .error e
    | .ok s => deliverAll cs s ds

/-- A connection that has just been accepted, on a fresh object. -/
def fresh (junkR junkW : Nat → UInt8) (fd : Int) (channel : List UInt8) : Session where
  conn := (AppConn.new junkR junkW).init fd
  channel := channel
  dispatched := []

end Session

/-- The pace at which the blocks of these lengths come in. `held` is how much there is of the
requests that have not been answered; it is -1 where the newline of the last one answered is
still to come. -/
def Paced (cs : CharSign) : Int → List Request → List Nat → Prop
  | _, [], _ => True
  | _, _ :: _, [] => False
  | held, r :: reqs, len :: lens =>
    max held 0 + len ≤ 254 ∧
      if r.body.length + 8 ≤ held + len then
        r.SumAgrees cs ∧ Paced cs (held + len - (r.body.length + 9)) reqs lens
      else
        (held + len ≤ 0 ∨ 5 ≤ held + len ∧ held + len < r.body.length) ∧
          Paced cs (held + len) (r :: reqs) lens

instance decidablePaced (cs : CharSign) :
    (held : Int) → (reqs : List Request) → (lens : List Nat) → Decidable (Paced cs held reqs lens)
  | _, [], [] => isTrue trivial
  | _, [], _ :: _ => isTrue trivial
  | _, _ :: _, [] => isFalse id
  | held, r :: reqs, len :: lens =>
    have := decidablePaced cs (held + len - (r.body.length + 9)) reqs lens
    have := decidablePaced cs (held + len) (r :: reqs) lens
    inferInstanceAs (Decidable (max held 0 + len ≤ 254 ∧
      if r.body.length + 8 ≤ held + len then
        r.SumAgrees cs ∧ Paced cs (held + len - (r.body.length + 9)) reqs lens
      else
        (held + len ≤ 0 ∨ 5 ≤ held + len ∧ held + len < r.body.length) ∧
          Paced cs (held + len) (r :: reqs) lens))

/-- What the ring carries, between two events, of the stream that it has `rest` still to come
of. -/
inductive Ready (b : CBuffer) (reqs : List Request) (rest : List UInt8) : Int → Prop where
  | level {xs : List UInt8} (carries : CBuffer.Carries b xs) (all : xs ++ rest = stream reqs)
      (short : xs.length < 245) : Ready b reqs rest xs.length
  | behind (carries : CBuffer.Carries b []) (all : rest = newline :: stream reqs) :
      Ready b reqs rest (-1)

/-- What the ring holds when `process` is called: perhaps a newline, then the beginning of the
stream. -/
structure Arrived (c : AppConn) (lead zs : List UInt8) (reqs : List Request)
    (rest : List UInt8) : Prop where
  lead_cases : lead = [] ∨ lead = [newline]
  holds : CBuffer.Holds c.readBuff (lead ++ zs)
  ne_nil : lead ++ zs ≠ []
  all : zs ++ rest = stream reqs

namespace AppConn

variable {cs : CharSign} {env : Env} {tail : Int → UInt8} {channel : List UInt8} {c : AppConn}
  {reqs : List Request} {rest : List UInt8} {held : Int}

/-- A block that comes in alone is appended once, whatever `errno` was left. -/
theorem read_conn (errno : Nat) (chunk : Chunk) :
    (c.read_ errno (.data chunk (.fail eagain))).conn = c.appendRead chunk.bytes := by
  simp only [read_, readLoop]
  split_ifs <;> rfl

theorem arrived {chunk : Chunk} (h : Ready c.readBuff reqs (chunk.bytes ++ rest) held)
    (hfit : max held 0 + chunk.bytes.length ≤ 254) :
    ∃ lead zs, Arrived (c.appendRead chunk.bytes) lead zs reqs rest ∧
      (zs.length : Int) = held + chunk.bytes.length := by
  have hne := chunk.ne_nil
  have hroom : ∀ xs : List UInt8, xs.length + chunk.bytes.length ≤ 254 →
      xs.length + chunk.bytes.length < c.readBuff.mSize - 1 := fun xs hxs => by
    rw [c.readBuff_size]
    omega
  cases h with
  | @level xs carries all short =>
    refine ⟨[], xs ++ chunk.bytes, ⟨.inl rfl, ?_, by simp [hne], ?_⟩, ?_⟩
    · exact carries.append hne (hroom xs (by omega))
    · rw [List.append_assoc, all]
    · rw [List.length_append]
      omega
  | behind carries all =>
    obtain ⟨b, zs, hchunk⟩ := List.exists_cons_of_ne_nil hne
    rw [hchunk, List.cons_append] at all
    obtain ⟨rfl, hzs⟩ := List.cons.inj all
    refine ⟨[newline], zs, ⟨.inr rfl, ?_, by simp, hzs⟩, ?_⟩
    · have hsplit : [newline] ++ zs = chunk.bytes := hchunk.symm
      rw [hsplit]
      exact carries.append hne (hroom [] (by rw [List.length_nil]; omega))
    · rw [hchunk, List.length_cons]
      omega

end AppConn

namespace Arrived

variable {cs : CharSign} {tail : Int → UInt8} {c : AppConn} {lead zs : List UInt8} {r : Request}
  {reqs : List Request} {rest : List UInt8}

/-- The newline in front is passed over. -/
theorem before (h : Arrived c lead zs reqs rest) (cs : CharSign) (tail : Int → UInt8) :
    ∀ j < lead.length, Frame.Skipped cs (overlay (lead ++ zs) tail) (j : Nat)
      ((lead ++ zs).length - j : Nat) := by
  intro j hj
  obtain hlead | hlead := h.lead_cases
  · subst hlead
    exact absurd hj (Nat.not_lt_zero j)
  · subst hlead
    obtain rfl : j = 0 := by simpa using hj
    rw [Frame.skipped_iff cs _ (by simp)]
    have hfirst : overlay ([newline] ++ zs) tail ((0 : Nat) : Int) = newline :=
      overlay_of_lt _ tail (by simp)
    have hno : overlay ([newline] ++ zs) tail ((0 : Nat) : Int) ≠ frameHead := by
      rw [hfirst]
      decide
    exact ⟨fun haccepts => hno haccepts.1, fun hwaits => hno hwaits.1⟩

/-- A part of the first request that has come in is where the scan comes to. -/
theorem shows (h : Arrived c lead zs (r :: reqs) rest) {xs : List UInt8} (hxs : xs <+: r.bytes)
    (hlen : xs.length ≤ zs.length) (tail : Int → UInt8) :
    Shows (overlay (lead ++ zs) tail) lead.length xs := by
  have hall := h.all
  rw [stream_cons] at hall
  refine shows_overlay _ tail _ ?_
  rw [List.drop_left]
  exact List.prefix_of_prefix_length_le (hall ▸ hxs.trans (List.prefix_append ..))
    (List.prefix_append ..) hlen

theorem prefix_lead (r : Request) : r.lead <+: r.bytes := by
  rw [Request.bytes, Request.core, List.append_assoc]
  exact List.prefix_append ..

theorem prefix_core (r : Request) : r.core <+: r.bytes := List.prefix_append ..

theorem lengthAt_eq (h : Arrived c lead zs (r :: reqs) rest) (hfive : 5 ≤ zs.length) :
    Frame.lengthAt cs (overlay (lead ++ zs) tail) lead.length = r.body.length :=
  r.lengthAt_eq cs (h.shows (prefix_lead r) (by simpa using hfive) tail)

theorem head_eq (h : Arrived c lead zs (r :: reqs) rest) (hone : 1 ≤ zs.length) :
    overlay (lead ++ zs) tail lead.length = frameHead := by
  have hfirst : [frameHead] <+: r.bytes := by
    refine List.IsPrefix.trans ?_ (prefix_lead r)
    exact ⟨_, rfl⟩
  exact ((shows_cons ..).mp (h.shows hfirst hone tail)).1

/-- There is only one place where the scan can stop. -/
theorem stop_unique {m : Int → UInt8} {n k k' : Nat} (hk : k ≤ n) (hk' : k' ≤ n)
    (before : ∀ j < k, Frame.Skipped cs m (j : Nat) (n - j : Nat))
    (stop : k = n ∨ ¬ Frame.Skipped cs m (k : Nat) (n - k : Nat))
    (before' : ∀ j < k', Frame.Skipped cs m (j : Nat) (n - j : Nat))
    (stop' : k' = n ∨ ¬ Frame.Skipped cs m (k' : Nat) (n - k' : Nat)) : k' = k := by
  obtain hlt | heq | hgt := Nat.lt_trichotomy k' k
  · obtain hend | hstop := stop'
    · omega
    · exact absurd (before k' hlt) hstop
  · exact heq
  · obtain hend | hstop := stop
    · omega
    · exact absurd (before' k hgt) hstop

/-- Of a request that is known to be incomplete, `init` waits for the rest. -/
theorem waits (h : Arrived c lead zs (r :: reqs) rest) (cs : CharSign) (tail : Int → UInt8)
    (hfive : 5 ≤ zs.length) (hshort : zs.length < r.body.length) :
    Frame.Waits cs (overlay (lead ++ zs) tail) (lead.length : Nat) zs.length := by
  have hlen := r.length_le
  refine ⟨h.head_eq (by omega), ?_, ?_⟩
  · rw [h.lengthAt_eq hfive]
    omega
  · rw [h.lengthAt_eq hfive]
    omega

/-- With nothing of the first request, or while it waits for the rest, `process` only drops
the newline in front. -/
theorem process_pause (h : Arrived c lead zs reqs rest) (env : Env) (channel : List UInt8)
    (hpause : zs = [] ∨ Frame.Waits cs (overlay (lead ++ zs) tail) (lead.length : Nat) zs.length) :
    (c.process cs env tail channel).dispatched = none ∧
      ∃ p, (c.process cs env tail channel).result = .ok p ∧
        CBuffer.Carries p.conn.readBuff zs := by
  have hle : lead.length ≤ (lead ++ zs).length := by simp
  have hleft : (lead ++ zs).length - lead.length = zs.length := by simp
  have hstop : lead.length = (lead ++ zs).length ∨ ¬ Frame.Skipped cs (overlay (lead ++ zs) tail)
      (lead.length : Nat) ((lead ++ zs).length - lead.length : Nat) := by
    rw [hleft]
    by_cases hzs : zs = []
    · exact .inl (by simp [hzs])
    · have := List.length_pos_iff.mpr hzs
      exact .inr ((hpause.resolve_left hzs).not_skipped (by omega))
  cases AppConn.process_ended cs env tail channel h.holds h.ne_nil with
  | @idle k p inside before stop dispatched result buffer rest =>
    have stop' := stop.imp_right fun h => h.2.not_skipped (by omega)
    obtain rfl : k = lead.length :=
      stop_unique hle inside (h.before cs tail) hstop before stop'
    rw [List.drop_left] at rest
    exact ⟨dispatched, p, result, rest⟩
  | @found k inside before accepts dispatched rest returns =>
    have stop' := accepts.not_skipped (by omega)
    obtain rfl : k = lead.length :=
      stop_unique hle inside.le (h.before cs tail) hstop before (.inr stop')
    obtain ⟨-, -, hfit, -⟩ := accepts
    obtain rfl | ⟨-, -, hmore⟩ := hpause
    · simp at inside
    · omega

/-- A complete request is dispatched. -/
theorem process_request (h : Arrived c lead zs (r :: reqs) rest) {env : Env} (tail : Int → UInt8)
    (channel : List UInt8) (hcomplete : r.body.length + 8 ≤ zs.length) (hsum : r.SumAgrees cs)
    (hparse : r.Parsable env) :
    (c.process cs env tail channel).dispatched = some r.frame ∧
      ∃ p, (c.process cs env tail channel).result = .ok p ∧
        CBuffer.Carries p.conn.readBuff (zs.drop (r.body.length + 9)) := by
  have hle : lead.length ≤ (lead ++ zs).length := by simp
  have hleft : (lead ++ zs).length - lead.length = zs.length := by simp
  have hlen : Frame.lengthAt cs (overlay (lead ++ zs) tail) (lead.length : Nat) = r.body.length :=
    h.lengthAt_eq (by omega)
  obtain ⟨hchecks, hdecoded⟩ :=
    r.decoded_eq cs hsum (h.shows (prefix_core r) (by simpa using hcomplete) tail)
  have haccepts : Frame.Accepts cs (overlay (lead ++ zs) tail) (lead.length : Nat)
      ((lead ++ zs).length - lead.length : Nat) := by
    have := r.length_le
    exact ⟨h.head_eq (by omega), by omega, by omega, hchecks⟩
  have hstop := haccepts.not_skipped (by omega)
  cases AppConn.process_ended cs env tail channel h.holds h.ne_nil with
  | @idle k p inside before stop dispatched result buffer rest =>
    have stop' := stop.imp_right fun h => h.2.not_skipped (by omega)
    obtain rfl : k = lead.length :=
      stop_unique hle inside (h.before cs tail) (.inr hstop) before stop'
    obtain hall | ⟨-, -, -, hmore⟩ := stop
    · omega
    · obtain ⟨-, -, hfit, -⟩ := haccepts
      omega
  | @found k inside before accepts dispatched rest returns =>
    have stop' := accepts.not_skipped (by omega)
    obtain rfl : k = lead.length :=
      stop_unique hle inside.le (h.before cs tail) (.inr hstop) before (.inr stop')
    rw [hdecoded] at dispatched rest returns
    obtain ⟨p, hp⟩ := returns hparse (by rw [r.size_frame]; omega)
    obtain ⟨-, hcarries⟩ := rest p hp
    rw [r.size_frame, Int.toNat_natCast, ← List.drop_drop, List.drop_left] at hcarries
    exact ⟨dispatched, p, hp, hcarries⟩

/-- What is left when the first request has been taken out. -/
theorem ready (h : Arrived c lead zs (r :: reqs) rest) (hcomplete : r.body.length + 8 ≤ zs.length)
    (hle : zs.length ≤ 254) {b : CBuffer}
    (hcarries : CBuffer.Carries b (zs.drop (r.body.length + 9))) :
    Ready b reqs rest (zs.length - (r.body.length + 9)) := by
  have hall := h.all
  rw [stream_cons] at hall
  by_cases hnewline : r.body.length + 9 ≤ zs.length
  · have hheld : (zs.length : Int) - (r.body.length + 9) =
        (zs.drop (r.body.length + 9)).length := by
      rw [List.length_drop]
      omega
    rw [hheld]
    have hfour := r.four_le
    refine .level hcarries ?_ (by rw [List.length_drop]; omega)
    have hdrop := congrArg (List.drop r.bytes.length) hall
    rwa [List.drop_left, r.length_bytes, List.drop_append_of_le_length hnewline] at hdrop
  · have hheld : (zs.length : Int) - (r.body.length + 9) = -1 := by omega
    have hlength : zs.length = r.core.length := by
      rw [r.length_core]
      omega
    rw [hheld]
    refine .behind ?_ ?_
    · rwa [List.drop_eq_nil_of_le (by omega)] at hcarries
    · rw [Request.bytes, List.append_assoc] at hall
      exact List.append_inj_right hall hlength

end Arrived

namespace Session

variable {cs : CharSign} {s : Session} {d : Delivery} {r : Request} {reqs : List Request}
  {rest : List UInt8} {held : Int}

theorem deliverAll_cons (s : Session) (d : Delivery) (ds : List Delivery) :
    s.deliverAll cs (d :: ds) =
      match s.deliver cs d with
      | .error e => .error e
      | .ok s => s.deliverAll cs ds := rfl

theorem deliver_eq (s : Session) (d : Delivery) : s.deliver cs d =
    match ((s.conn.appendRead d.chunk.bytes).process cs d.env d.tail s.channel).result with
    | .error e => .error e
    | .ok p => .ok ⟨p.conn, p.channel, s.dispatched ++
        ((s.conn.appendRead d.chunk.bytes).process cs d.env d.tail s.channel).dispatched.toList⟩ := by
  rw [← AppConn.read_conn d.errno]
  unfold deliver
  rfl

theorem deliver_of_ok {p : Processed}
    (h : ((s.conn.appendRead d.chunk.bytes).process cs d.env d.tail s.channel).result = .ok p) :
    s.deliver cs d = .ok ⟨p.conn, p.channel, s.dispatched ++
      ((s.conn.appendRead d.chunk.bytes).process cs d.env d.tail s.channel).dispatched.toList⟩ := by
  simp only [deliver_eq, h]

/-- An event that answers nothing. -/
theorem deliver_pause (cs : CharSign) (h : Ready s.conn.readBuff reqs (d.chunk.bytes ++ rest) held)
    (hfit : max held 0 + d.chunk.bytes.length ≤ 254)
    (hpause : held + d.chunk.bytes.length ≤ 0 ∨ ∃ r reqs', reqs = r :: reqs' ∧
      5 ≤ held + d.chunk.bytes.length ∧ held + d.chunk.bytes.length < r.body.length) :
    ∃ s', s.deliver cs d = .ok s' ∧ s'.dispatched = s.dispatched ∧
      Ready s'.conn.readBuff reqs rest (held + d.chunk.bytes.length) := by
  obtain ⟨lead, zs, harrived, hlen⟩ := AppConn.arrived h hfit
  have hwait : zs = [] ∨
      Frame.Waits cs (overlay (lead ++ zs) d.tail) (lead.length : Nat) zs.length := by
    obtain hzero | ⟨r, reqs', rfl, hfive, hshort⟩ := hpause
    · exact .inl (List.eq_nil_of_length_eq_zero (by omega))
    · exact .inr (harrived.waits cs d.tail (by omega) (by omega))
  have hsmall : zs.length < 245 := by
    obtain hzero | ⟨r, reqs', -, -, hshort⟩ := hpause
    · omega
    · have := r.length_le
      omega
  obtain ⟨hnone, p, hp, hcarries⟩ := harrived.process_pause d.env s.channel hwait
  refine ⟨_, deliver_of_ok hp, by simp [hnone], ?_⟩
  rw [← hlen]
  exact .level hcarries harrived.all hsmall

/-- An event that answers a request. -/
theorem deliver_request (h : Ready s.conn.readBuff (r :: reqs) (d.chunk.bytes ++ rest) held)
    (hfit : max held 0 + d.chunk.bytes.length ≤ 254)
    (hcomplete : r.body.length + 8 ≤ held + d.chunk.bytes.length) (hsum : r.SumAgrees cs)
    (hparse : r.Parsable d.env) :
    ∃ s', s.deliver cs d = .ok s' ∧ s'.dispatched = s.dispatched ++ [r.frame] ∧
      Ready s'.conn.readBuff reqs rest (held + d.chunk.bytes.length - (r.body.length + 9)) := by
  obtain ⟨lead, zs, harrived, hlen⟩ := AppConn.arrived h hfit
  obtain ⟨hsome, p, hp, hcarries⟩ :=
    harrived.process_request d.tail s.channel (by omega) hsum hparse
  refine ⟨_, deliver_of_ok hp, by simp [hsome], ?_⟩
  rw [← hlen]
  exact harrived.ready (by omega) (by omega) hcarries

/-- A stream that comes in at a good pace is answered in full. -/
theorem deliverAll_of_paced (ds : List Delivery) (h : Ready s.conn.readBuff reqs
      ((ds.map fun d => d.chunk.bytes).flatten) held)
    (hpaced : Paced cs held reqs (ds.map fun d => d.chunk.bytes.length))
    (hparse : ∀ d ∈ ds, ∀ r ∈ reqs, r.Parsable d.env) :
    ∃ s', s.deliverAll cs ds = .ok s' ∧ s'.dispatched = s.dispatched ++ reqs.map Request.frame := by
  induction ds generalizing s reqs held with
  | nil =>
    cases reqs with
    | nil => exact ⟨s, rfl, by simp⟩
    | cons r reqs => exact absurd hpaced id
  | cons d ds ih =>
    rw [List.map_cons, List.flatten_cons] at h
    have hparse' : ∀ d' ∈ ds, ∀ r ∈ reqs, r.Parsable d'.env :=
      fun d' hd' => hparse d' (List.mem_cons_of_mem d hd')
    cases reqs with
    | nil =>
      -- only the newline of the last request can still come in
      have hlast : held = -1 ∧ d.chunk.bytes.length = 1 := by
        have hlen := List.length_pos_iff.mpr d.chunk.ne_nil
        cases h with
        | level carries all short => simp [d.chunk.ne_nil] at all
        | behind carries all =>
          have hone := congrArg List.length all
          simp only [List.length_append, stream_nil, List.length_singleton] at hone
          exact ⟨rfl, by omega⟩
      obtain ⟨s1, hs1, hdispatched, hready⟩ := deliver_pause cs h (by omega) (.inl (by omega))
      obtain ⟨s', hs', hall⟩ := ih hready (by simp [Paced]) hparse'
      exact ⟨s', by rw [deliverAll_cons, hs1]; exact hs', by rw [hall, hdispatched]⟩
    | cons r reqs =>
      obtain ⟨hfit, hrest⟩ := hpaced
      split_ifs at hrest with hcomplete
      · obtain ⟨hsum, hpaced⟩ := hrest
        obtain ⟨s1, hs1, hdispatched, hready⟩ := deliver_request h hfit hcomplete hsum
          (hparse d List.mem_cons_self r List.mem_cons_self)
        obtain ⟨s', hs', hall⟩ := ih hready hpaced fun d' hd' r' hr' =>
          hparse' d' hd' r' (List.mem_cons_of_mem r hr')
        refine ⟨s', by rw [deliverAll_cons, hs1]; exact hs', ?_⟩
        rw [hall, hdispatched, List.append_assoc]
        rfl
      · obtain ⟨hpause, hpaced⟩ := hrest
        obtain ⟨s1, hs1, hdispatched, hready⟩ := deliver_pause cs h hfit
          (hpause.imp_right fun h => ⟨r, reqs, rfl, h⟩)
        obtain ⟨s', hs', hall⟩ := ih hready hpaced hparse'
        exact ⟨s', by rw [deliverAll_cons, hs1]; exact hs', by rw [hall, hdispatched]⟩

end Session

end SocketMaster
