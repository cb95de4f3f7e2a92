import SocketMaster.Conn.Lost
import SocketMaster.Conn.Bounds

/-!
# Cuts that lose a request

The other half of `deliverAll_of_paced`: where a stream comes in at any other pace, some content
of the array behind the received bytes makes a request get lost, and the session never gets over
it.
-/
namespace SocketMaster

open Library

/-! ## What lies behind the received bytes -/

/-- With this content of the array, nothing is taken for the request `r` that has not come in
whole. -/
def Honest (cs : CharSign) (r : Request) (ys : List UInt8) (tail : Int → UInt8) : Prop :=
  ∀ k < ys.length, Frame.Accepts cs (overlay ys tail) (k : Nat) (ys.length - k : Nat) →
    Frame.decoded cs (overlay ys tail) (k : Nat) = r.frame → k + (r.body.length + 8) ≤ ys.length

section Honest

variable {cs : CharSign} {r : Request} {ys : List UInt8} {v : UInt8} {k : Nat}

/-- A frame that is taken for `r` has its check digits. -/
theorem checkAt_of_decoded {m : Int → UInt8} (hchecks : Frame.Checks cs m (k : Nat))
    (heq : Frame.decoded cs m (k : Nat) = r.frame) :
    cs.digit (m (k + r.body.length + 5 : Nat)) * 100 + cs.digit (m (k + r.body.length + 6 : Nat)) * 10 +
      cs.digit (m (k + r.body.length + 7 : Nat)) = (byteSum r.body % 1000 : Nat) := by
  have hlen : Frame.lengthAt cs m (k : Nat) = r.body.length := congrArg Frame.length heq
  have hcheck : (cs.sum (Frame.bodyAt cs m (k : Nat))).tmod 1000 = (byteSum r.body % 1000 : Nat) :=
    congrArg Frame.check heq
  rw [Frame.Checks, hcheck, Frame.checkAt, hlen] at hchecks
  have h0 : (k : Int) + ((r.body.length : Int) + 5) = (k + r.body.length + 5 : Nat) := by omega
  have h1 : (k : Int) + ((r.body.length : Int) + 5) + 1 = (k + r.body.length + 6 : Nat) := by omega
  have h2 : (k : Int) + ((r.body.length : Int) + 5) + 2 = (k + r.body.length + 7 : Nat) := by omega
  rwa [h2, h1, h0] at hchecks

/-- The same byte all over the array is honest unless it is one of three: each is the only one
that can stand for one, two or three of the check digits. -/
theorem honest_of_ne
    (h1 : cs.digit v ≠ (byteSum r.body % 1000 : Nat) -
      cs.digit (bare ys (ys.length - 2 : Nat)) * 100 - cs.digit (bare ys (ys.length - 1 : Nat)) * 10)
    (h2 : cs.digit v * 11 ≠ (byteSum r.body % 1000 : Nat) -
      cs.digit (bare ys (ys.length - 1 : Nat)) * 100)
    (h3 : cs.digit v * 111 ≠ (byteSum r.body % 1000 : Nat)) : Honest cs r ys fun _ => v := by
  intro k hk haccepts heq
  have hcheck := checkAt_of_decoded haccepts.2.2.2 heq
  by_contra hfar
  have hin : ∀ i : Nat, i < ys.length → overlay ys (fun _ => v) i = bare ys i := fun i hi => by
    rw [bare, overlay_of_lt _ _ hi, overlay_of_lt _ _ hi]
  have hout : ∀ i : Nat, ys.length ≤ i → overlay ys (fun _ => v) i = v := fun i hi =>
    overlay_of_ge _ _ hi
  by_cases hlast : k + r.body.length + 7 = ys.length
  · rw [hin _ (by omega), hin _ (by omega), hout _ (by omega),
      show k + r.body.length + 5 = ys.length - 2 by omega,
      show k + r.body.length + 6 = ys.length - 1 by omega] at hcheck
    omega
  by_cases hmiddle : k + r.body.length + 6 = ys.length
  · rw [hin _ (by omega), hout _ (by omega), hout _ (by omega),
      show k + r.body.length + 5 = ys.length - 1 by omega] at hcheck
    omega
  · rw [hout _ (by omega), hout _ (by omega), hout _ (by omega)] at hcheck
    omega

theorem exists_honest (cs : CharSign) (r : Request) (ys : List UInt8) :
    ∃ v : UInt8, Honest cs r ys fun _ => v := by
  by_contra hnone
  rw [not_exists] at hnone
  have hbad : ∀ v : UInt8, cs.digit v = (byteSum r.body % 1000 : Nat) -
        cs.digit (bare ys (ys.length - 2 : Nat)) * 100 -
        cs.digit (bare ys (ys.length - 1 : Nat)) * 10 ∨
      cs.digit v * 11 = (byteSum r.body % 1000 : Nat) -
        cs.digit (bare ys (ys.length - 1 : Nat)) * 100 ∨
      cs.digit v * 111 = (byteSum r.body % 1000 : Nat) := by
    intro v
    by_contra hne
    obtain ⟨h1, h2, h3⟩ : _ ∧ _ ∧ _ := by simpa only [not_or] using hne
    exact hnone v (honest_of_ne h1 h2 h3)
  have hdigit : cs.digit 0 = -48 ∧ cs.digit 1 = -47 ∧ cs.digit 2 = -46 ∧ cs.digit 3 = -45 := by
    cases cs <;> decide
  obtain ⟨d0, d1, d2, d3⟩ := hdigit
  have b0 := hbad 0
  have b1 := hbad 1
  have b2 := hbad 2
  have b3 := hbad 3
  rw [d0] at b0
  rw [d1] at b1
  rw [d2] at b2
  rw [d3] at b3
  omega

/-- With too few bytes for a whole check, one byte is bad. -/
theorem honest_of_short (hys : ys.length ≤ 5) (h3 : cs.digit v * 111 ≠ (byteSum r.body % 1000 : Nat)) :
    Honest cs r ys fun _ => v := by
  intro k hk haccepts heq
  have hcheck := checkAt_of_decoded haccepts.2.2.2 heq
  have hfour := r.four_le
  rw [overlay_of_ge _ _ (by omega), overlay_of_ge _ _ (by omega),
    overlay_of_ge _ _ (by omega)] at hcheck
  omega

/-- A length of which only the first digits have come in. -/
theorem Arrived.lengthAt_short {c : AppConn} {lead zs rest : List UInt8} {reqs : List Request}
    (h : Arrived c lead zs (r :: reqs) rest) (cs : CharSign) (v : UInt8) (hpos : 1 ≤ zs.length)
    (hshort : zs.length ≤ 4) : ∃ x1 x2 x3 : Int,
      Frame.lengthAt cs (overlay (lead ++ zs) fun _ => v) (lead.length : Nat) =
        x1 * 1000 + x2 * 100 + x3 * 10 + cs.digit v ∧
      (x1 = if 2 ≤ zs.length then 0 else cs.digit v) ∧
      (x2 = if 3 ≤ zs.length then ((r.body.length / 100 : Nat) : Int) else cs.digit v) ∧
      (x3 = if 4 ≤ zs.length then ((r.body.length / 10 % 10 : Nat) : Int) else cs.digit v) := by
  have hle := r.length_le
  have hin : ∀ (i : Nat) (hi : i < r.lead.length), i < zs.length →
      overlay (lead ++ zs) (fun _ => v) ((lead.length : Nat) + (i : Nat)) = r.lead[i] := by
    intro i hi hiz
    have hprefix : r.lead.take (i + 1) <+: r.bytes := (List.take_prefix ..).trans (prefix_lead r)
    have hcell := (h.shows hprefix (by rw [List.length_take]; omega) fun _ => v).cell
      (show i < (r.lead.take (i + 1)).length by rw [List.length_take]; omega)
    rwa [List.getElem_take] at hcell
  have hout : ∀ i : Nat, zs.length ≤ i →
      overlay (lead ++ zs) (fun _ => v) ((lead.length : Nat) + (i : Nat)) = v := fun i hi => by
    have hcast : ((lead.length : Nat) : Int) + ((i : Nat) : Int) = (lead.length + i : Nat) := by omega
    rw [hcast]
    exact overlay_of_ge _ _ (by rw [List.length_append]; omega)
  have hlen : r.lead.length = 5 := r.length_lead
  have hd1 : cs.digit r.lead[1] = 0 := by
    have hzero : r.body.length / 10 / 10 / 10 % 10 = 0 := by omega
    have hdigit := digit_ofNat cs (show r.body.length / 10 / 10 / 10 % 10 < 10 by omega)
    exact hdigit.trans (congrArg Nat.cast hzero)
  have hd2 : cs.digit r.lead[2] = (r.body.length / 100 : Nat) := by
    have hhundreds : r.body.length / 10 / 10 % 10 = r.body.length / 100 := by omega
    have hdigit := digit_ofNat cs (show r.body.length / 10 / 10 % 10 < 10 by omega)
    exact hdigit.trans (congrArg Nat.cast hhundreds)
  have hd3 : cs.digit r.lead[3] = (r.body.length / 10 % 10 : Nat) :=
    digit_ofNat cs (show r.body.length / 10 % 10 < 10 by omega)
  have h4 := hout 4 hshort
  refine ⟨_, _, _, by rw [Frame.lengthAt]; exact congrArg _ (congrArg cs.digit h4), ?_, ?_, ?_⟩
  · split_ifs with hz
    · rw [← hd1, ← hin 1 (by omega) (by omega)]
      rfl
    · exact congrArg cs.digit (hout 1 (by omega))
  · split_ifs with hz
    · rw [← hd2, ← hin 2 (by omega) (by omega)]
      rfl
    · exact congrArg cs.digit (hout 2 (by omega))
  · split_ifs with hz
    · rw [← hd3, ← hin 3 (by omega) (by omega)]
      rfl
    · exact congrArg cs.digit (hout 3 (by omega))

/-- A last digit that makes the length too large, or too small, to be waited for. -/
theorem Arrived.not_waits_short {c : AppConn} {lead zs rest : List UInt8} {reqs : List Request}
    (h : Arrived c lead zs (r :: reqs) rest) (hpos : 1 ≤ zs.length) (hshort : zs.length ≤ 4)
    (hv : 24 ≤ cs.digit v ∧ (zs.length = 4 → 257 ≤ (r.body.length / 10 * 10 : Nat) + cs.digit v) ∨
      zs.length = 4 ∧ (r.body.length / 10 * 10 : Nat) + cs.digit v ≤ 4) :
    ¬ Frame.Waits cs (overlay (lead ++ zs) fun _ => v) (lead.length : Nat) zs.length := by
  obtain ⟨x1, x2, x3, hlen, h1, h2, h3⟩ := h.lengthAt_short cs v hpos hshort
  rintro ⟨-, hbig, hmore⟩
  rw [hlen] at hbig hmore
  split_ifs at h1 h2 h3 <;> omega

/-- Some byte all over the array makes `init` give up on a request of which only a part of the
length has come in. -/
theorem Arrived.exists_honest {c : AppConn} {lead zs rest : List UInt8} {reqs : List Request}
    (h : Arrived c lead zs (r :: reqs) rest) (cs : CharSign) (hpos : 1 ≤ zs.length)
    (hshort : zs.length ≤ 4) : ∃ v : UInt8, Honest cs r (lead ++ zs) (fun _ => v) ∧
      ¬ Frame.Waits cs (overlay (lead ++ zs) fun _ => v) (lead.length : Nat) zs.length := by
  have hlen : (lead ++ zs).length ≤ 5 := by
    rw [List.length_append]
    obtain rfl | rfl := h.lead_cases
    · rw [List.length_nil]
      omega
    · rw [List.length_singleton]
      omega
  have hpick : ∀ v1 v2 : UInt8, cs.digit v1 ≠ cs.digit v2 →
      ¬ Frame.Waits cs (overlay (lead ++ zs) fun _ => v1) (lead.length : Nat) zs.length →
      ¬ Frame.Waits cs (overlay (lead ++ zs) fun _ => v2) (lead.length : Nat) zs.length →
      ∃ v : UInt8, Honest cs r (lead ++ zs) (fun _ => v) ∧
        ¬ Frame.Waits cs (overlay (lead ++ zs) fun _ => v) (lead.length : Nat) zs.length := by
    intro v1 v2 hne hv1 hv2
    by_cases hbad : cs.digit v1 * 111 = (byteSum r.body % 1000 : Nat)
    · exact ⟨v2, honest_of_short hlen (by omega), hv2⟩
    · exact ⟨v1, honest_of_short hlen hbad, hv1⟩
  have h126 : cs.digit 126 = 78 ∧ cs.digit 127 = 79 := by cases cs <;> decide
  obtain ⟨d126, d127⟩ := h126
  by_cases hlarge : zs.length = 4 → 180 ≤ r.body.length
  · exact hpick 126 127 (by omega) (h.not_waits_short hpos hshort (.inl (by omega)))
      (h.not_waits_short hpos hshort (.inl (by omega)))
  obtain ⟨hfour, hsmall⟩ : zs.length = 4 ∧ r.body.length < 180 := by omega
  cases cs with
  | signed =>
    have d128 : CharSign.signed.digit 128 = -176 := by decide
    have d129 : CharSign.signed.digit 129 = -175 := by decide
    exact hpick 128 129 (by omega) (h.not_waits_short hpos hshort (.inr (by omega)))
      (h.not_waits_short hpos hshort (.inr (by omega)))
  | unsigned =>
    have d254 : CharSign.unsigned.digit 254 = 206 := by decide
    have d255 : CharSign.unsigned.digit 255 = 207 := by decide
    have d0 : CharSign.unsigned.digit 0 = -48 := by decide
    have d1 : CharSign.unsigned.digit 1 = -47 := by decide
    by_cases hsixty : 60 ≤ r.body.length
    · exact hpick 254 255 (by omega) (h.not_waits_short hpos hshort (.inl (by omega)))
        (h.not_waits_short hpos hshort (.inl (by omega)))
    · exact hpick 0 1 (by omega) (h.not_waits_short hpos hshort (.inr (by omega)))
        (h.not_waits_short hpos hshort (.inr (by omega)))

end Honest

/-! ## One event -/

variable {cs : CharSign} {env : Env} {tail : Int → UInt8} {channel : List UInt8} {c : AppConn}
  {r : Request} {reqs : List Request} {xs ys rest : List UInt8} {k : Nat}

/-- What `process` can do to a stream that is lost from the byte `k` on, if it neither waits for
the first request before that nor takes anything for it: nothing makes up for the loss. -/
theorem process_lost (hx : CBuffer.Holds c.readBuff ys) (hne : ys ≠ [])
    (hhonest : Honest cs r ys tail) (hk : k ≤ ys.length)
    (hpassed : ∀ j < k, ¬ Frame.Waits cs (overlay ys tail) (j : Nat) (ys.length - j : Nat) ∧
      (Frame.Accepts cs (overlay ys tail) (j : Nat) (ys.length - j : Nat) →
        Frame.decoded cs (overlay ys tail) (j : Nat) ≠ r.frame))
    (hlost : Lost (r :: reqs) (ys.drop k ++ rest)) {p : Processed}
    (hp : (c.process cs env tail channel).result = .ok p) :
    ((c.process cs env tail channel).dispatched = none ∧
        ∃ xs, CBuffer.Carries p.conn.readBuff xs ∧ Lost (r :: reqs) (xs ++ rest)) ∨
      ((c.process cs env tail channel).dispatched = some r.frame ∧
        ∃ xs, CBuffer.Carries p.conn.readBuff xs ∧ Lost reqs (xs ++ rest)) ∨
      ∃ f, (c.process cs env tail channel).dispatched = some f ∧ f ≠ r.frame := by
  cases AppConn.process_ended cs env tail channel hx hne with
  | @idle k' p' inside _ stop dispatched result _ hcarries =>
    obtain rfl : p' = p := by
      rw [result] at hp
      exact Except.ok.inj hp
    refine .inl ⟨dispatched, _, hcarries, hlost.sublist (List.Sublist.append_right ?_ rest)⟩
    have hle : k ≤ k' := by
      by_contra hlt
      obtain hall | ⟨-, hwaits⟩ := stop
      · omega
      · exact (hpassed k' (by omega)).1 hwaits
    exact List.drop_sublist_drop_left ys hle
  | @found k' inside _ accepts dispatched hrest _ =>
    by_cases hframe : Frame.decoded cs (overlay ys tail) (k' : Nat) = r.frame
    swap
    · exact .inr (.inr ⟨_, dispatched, hframe⟩)
    have hle : k ≤ k' := by
      by_contra hlt
      exact (hpassed k' (by omega)).2 accepts hframe
    have hwhole := hhonest k' inside accepts hframe
    rw [hframe] at dispatched hrest
    obtain ⟨-, hcarries⟩ := hrest p hp
    rw [r.size_frame, Int.toNat_natCast] at hcarries
    refine .inr (.inl ⟨dispatched, _, hcarries, ?_⟩)
    have hhead : (ys.drop k ++ rest)[k' - k]? = some frameHead := by
      have hfirst := accepts.1
      rw [overlay_of_lt ys tail inside] at hfirst
      rw [List.getElem?_append_left (by rw [List.length_drop]; omega), List.getElem?_drop,
        Nat.add_sub_cancel' hle, List.getElem?_eq_getElem inside, hfirst]
    have hleft := hlost.dispatch (by rw [List.length_append, List.length_drop]; omega) hhead
    rw [List.drop_append_of_le_length (by rw [List.length_drop]; omega), List.drop_drop] at hleft
    exact hleft.sublist (List.Sublist.append_right (List.drop_sublist_drop_left ys (by omega)) rest)

/-- What a block that comes in leaves in the ring: the block is taken in, or nothing of it. -/
theorem append_cases (hcarries : CBuffer.Carries c.readBuff xs) {chunk : Chunk}
    (hsize : chunk.bytes.length ≤ 254) :
    ∃ ys, CBuffer.Holds (c.appendRead chunk.bytes).readBuff ys ∧ ys ≠ [] ∧
      (xs.length + chunk.bytes.length ≤ 254 ∧ ys = xs ++ chunk.bytes ∨
        255 ≤ xs.length + chunk.bytes.length ∧ ys = xs) := by
  have hne := chunk.ne_nil
  by_cases hfit : xs.length + chunk.bytes.length < c.readBuff.mSize - 1
  · refine ⟨_, hcarries.append hne hfit, by simp [hne], .inl ⟨?_, rfl⟩⟩
    rw [c.readBuff_size] at hfit
    omega
  · rw [c.readBuff_size] at hfit
    have hxs : xs ≠ [] := by
      rintro rfl
      rw [List.length_nil] at hfit
      omega
    have hx : CBuffer.Holds c.readBuff xs := hcarries.resolve_right fun h => hxs h.2
    refine ⟨xs, ?_, hxs, .inr ⟨by omega, rfl⟩⟩
    rwa [AppConn.appendRead_readBuff, hx.append_of_ge _ (by rw [c.readBuff_size]; omega)]

/-- A request whose body could be there is not waited for. -/
theorem Arrived.not_waits {lead zs : List UInt8} (h : Arrived c lead zs (r :: reqs) rest)
    (hfive : 5 ≤ zs.length) (hlong : r.body.length ≤ zs.length) :
    ¬ Frame.Waits cs (overlay (lead ++ zs) tail) (lead.length : Nat) zs.length := by
  rintro ⟨-, -, hmore⟩
  rw [h.lengthAt_eq hfive] at hmore
  omega

namespace Session

/-- Some content of the array makes the session get the requests wrong. -/
def Spoiled (cs : CharSign) (env : Env) (s : Session) (reqs : List Request)
    (chunks : List Chunk) : Prop :=
  ∃ ds : List Delivery, ds.map Delivery.chunk = chunks ∧ (∀ d ∈ ds, d.env = env) ∧
    ∀ s', s.deliverAll cs ds = .ok s' → s'.dispatched ≠ s.dispatched ++ reqs.map Request.frame

variable {s s' : Session} {d : Delivery} {chunks : List Chunk}

/-- What has been dispatched stays so. -/
theorem prefix_dispatched {ds : List Delivery} (h : s.deliverAll cs ds = .ok s') :
    s.dispatched <+: s'.dispatched := by
  induction ds generalizing s with
  | nil =>
    cases h
    exact List.prefix_refl _
  | cons d ds ih =>
    rw [deliverAll_cons] at h
    split at h
    · cases h
    · rename_i s1 hs1
      refine List.IsPrefix.trans ?_ (ih h)
      rw [deliver_eq] at hs1
      split at hs1
      · cases hs1
      · cases hs1
        exact List.prefix_append ..

/-- An event spoils the session if it dispatches something else than the first request, or if
the session it leaves is spoiled. -/
theorem spoiled_of_deliver (henv : d.env = env)
    (h : ∀ s1, s.deliver cs d = .ok s1 →
      (s1.dispatched = s.dispatched ∧ Spoiled cs env s1 (r :: reqs) chunks) ∨
      (s1.dispatched = s.dispatched ++ [r.frame] ∧ Spoiled cs env s1 reqs chunks) ∨
      ∃ f, s1.dispatched = s.dispatched ++ [f] ∧ f ≠ r.frame) :
    Spoiled cs env s (r :: reqs) (d.chunk :: chunks) := by
  have hmem : ∀ ds : List Delivery, (∀ d' ∈ ds, d'.env = env) → ∀ d' ∈ d :: ds, d'.env = env := by
    intro ds hds d' hd'
    obtain rfl | hd' := List.mem_cons.mp hd'
    · exact henv
    · exact hds d' hd'
  let quiet : List Delivery := chunks.map fun chunk => ⟨chunk, env, fun _ => 0, 0⟩
  have hquiet : quiet.map Delivery.chunk = chunks := by simp [quiet, Function.comp_def]
  have hquietEnv : ∀ d' ∈ quiet, d'.env = env := by simp [quiet]
  cases hs1 : s.deliver cs d with
  | error e =>
    refine ⟨d :: quiet, by rw [List.map_cons, hquiet], hmem quiet hquietEnv, fun s' hs' => ?_⟩
    rw [deliverAll_cons, hs1] at hs'
    cases hs'
  | ok s1 =>
    obtain ⟨hsame, ds, hds, hdsEnv, hwrong⟩ | ⟨hnext, ds, hds, hdsEnv, hwrong⟩ | ⟨f, hother, hf⟩ :=
      h s1 hs1
    · refine ⟨d :: ds, by rw [List.map_cons, hds], hmem ds hdsEnv, fun s' hs' => ?_⟩
      rw [deliverAll_cons, hs1] at hs'
      rw [← hsame]
      exact hwrong s' hs'
    · refine ⟨d :: ds, by rw [List.map_cons, hds], hmem ds hdsEnv, fun s' hs' => ?_⟩
      rw [deliverAll_cons, hs1] at hs'
      have := hwrong s' hs'
      rwa [hnext, List.append_assoc] at this
    · refine ⟨d :: quiet, by rw [List.map_cons, hquiet], hmem quiet hquietEnv, fun s' hs' heq => ?_⟩
      rw [deliverAll_cons, hs1] at hs'
      have hprefix := prefix_dispatched hs'
      rw [heq, hother, List.prefix_append_right_inj, List.map_cons] at hprefix
      exact hf (by simpa using hprefix)

/-- An event after which the stream has lost something, if every session like that is spoiled. -/
theorem spoiled_of_process {chunk : Chunk}
    (hx : CBuffer.Holds (s.conn.appendRead chunk.bytes).readBuff ys) (hne : ys ≠ [])
    (hhonest : Honest cs r ys tail) (hk : k ≤ ys.length)
    (hpassed : ∀ j < k, ¬ Frame.Waits cs (overlay ys tail) (j : Nat) (ys.length - j : Nat) ∧
      (Frame.Accepts cs (overlay ys tail) (j : Nat) (ys.length - j : Nat) →
        Frame.decoded cs (overlay ys tail) (j : Nat) ≠ r.frame))
    (hlost : Lost (r :: reqs) (ys.drop k ++ rest))
    (hnext : ∀ s1 reqs xs, CBuffer.Carries s1.conn.readBuff xs → Lost reqs (xs ++ rest) →
      Spoiled cs env s1 reqs chunks) :
    Spoiled cs env s (r :: reqs) (chunk :: chunks) := by
  refine spoiled_of_deliver (d := ⟨chunk, env, tail, 0⟩) rfl fun s1 hs1 => ?_
  simp only [deliver_eq] at hs1
  split at hs1
  · cases hs1
  · rename_i p hp
    cases hs1
    obtain ⟨hnone, xs, hcarries, hlost⟩ | ⟨hsome, xs, hcarries, hlost⟩ | ⟨f, hsome, hf⟩ :=
      process_lost hx hne hhonest hk hpassed hlost hp
    · exact .inl ⟨by simp [hnone], hnext _ _ xs hcarries hlost⟩
    · exact .inr (.inl ⟨by simp [hsome], hnext _ _ xs hcarries hlost⟩)
    · exact .inr (.inr ⟨f, by simp [hsome], hf⟩)

/-- Once something is lost, the session stays spoiled whatever else comes in. -/
theorem spoiled_of_lost (hsize : ∀ chunk ∈ chunks, chunk.bytes.length ≤ 254)
    (hcarries : CBuffer.Carries s.conn.readBuff xs)
    (hlost : Lost reqs (xs ++ (chunks.map Chunk.bytes).flatten)) :
    Spoiled cs env s reqs chunks := by
  induction chunks generalizing s reqs xs with
  | nil =>
    refine ⟨[], rfl, by simp, fun s' hs' heq => hlost.ne_nil ?_⟩
    cases hs'
    simpa using heq
  | cons chunk chunks ih =>
    obtain ⟨r, reqs, rfl⟩ := List.exists_cons_of_ne_nil hlost.ne_nil
    obtain ⟨ys, hx, hne, hys⟩ := append_cases hcarries (hsize chunk List.mem_cons_self)
    obtain ⟨v, hhonest⟩ := exists_honest cs r ys
    refine spoiled_of_process hx hne hhonest (Nat.zero_le _) (by simp) (hlost.sublist ?_)
      fun s1 reqs xs => ih fun chunk' hchunk' => hsize chunk' (List.mem_cons_of_mem chunk hchunk')
    rw [List.drop_zero, List.map_cons, List.flatten_cons, ← List.append_assoc]
    refine List.Sublist.append_right ?_ _
    obtain ⟨-, rfl⟩ | ⟨-, rfl⟩ := hys
    · exact List.Sublist.refl _
    · exact List.sublist_append_left ..

/-! ## The ways to lose the pace -/

/-- The head of the first request is passed over. -/
theorem spoiled_of_passed {chunk : Chunk} {lead zs : List UInt8}
    (hsize : ∀ chunk ∈ chunks, chunk.bytes.length ≤ 254)
    (h : Arrived (s.conn.appendRead chunk.bytes) lead zs (r :: reqs)
      (chunks.map Chunk.bytes).flatten) (hpos : 1 ≤ zs.length)
    (hhonest : Honest cs r (lead ++ zs) tail)
    (hwait : ¬ Frame.Waits cs (overlay (lead ++ zs) tail) (lead.length : Nat) zs.length)
    (haccept : Frame.Accepts cs (overlay (lead ++ zs) tail) (lead.length : Nat) zs.length →
      Frame.decoded cs (overlay (lead ++ zs) tail) (lead.length : Nat) ≠ r.frame) :
    Spoiled cs env s (r :: reqs) (chunk :: chunks) := by
  have hleft : (lead ++ zs).length - lead.length = zs.length := by simp
  refine spoiled_of_process (k := lead.length + 1) h.holds h.ne_nil hhonest ?_ ?_ ?_
    fun s1 reqs xs => spoiled_of_lost hsize
  · rw [List.length_append]
    omega
  · intro j hj
    by_cases hlead : j < lead.length
    · have hskip := h.before cs tail j hlead
      rw [Frame.skipped_iff cs _ (by rw [List.length_append]; omega)] at hskip
      exact ⟨hskip.2, fun haccepts => absurd haccepts hskip.1⟩
    · obtain rfl : j = lead.length := by omega
      rw [hleft]
      exact ⟨hwait, haccept⟩
  · rw [List.drop_length_add_append, ← List.drop_append_of_le_length hpos, h.all]
    exact .head (List.Sublist.refl _)

/-- A block is turned down. -/
theorem spoiled_of_overflow {chunk : Chunk} (hsize : ∀ chunk' ∈ chunk :: chunks,
      chunk'.bytes.length ≤ 254) (hcarries : CBuffer.Carries s.conn.readBuff xs)
    (hall : xs ++ (chunk.bytes ++ (chunks.map Chunk.bytes).flatten) = stream (r :: reqs))
    (hshort : xs.length < 245) (hfull : 255 ≤ xs.length + chunk.bytes.length) :
    Spoiled cs env s (r :: reqs) (chunk :: chunks) := by
  obtain ⟨ys, hx, hne, ⟨hfits, -⟩ | ⟨-, rfl⟩⟩ :=
    append_cases hcarries (hsize chunk List.mem_cons_self)
  · omega
  obtain ⟨v, hhonest⟩ := exists_honest cs r ys
  refine spoiled_of_process hx hne hhonest (Nat.zero_le _) (by simp) ?_ fun s1 reqs xs =>
    spoiled_of_lost fun chunk' hchunk' => hsize chunk' (List.mem_cons_of_mem chunk hchunk')
  have hlength := congrArg List.length hall
  rw [List.length_append, List.length_append] at hlength
  refine .gap (a := ys.length) (by omega) (List.Sublist.cons _ ?_)
  rw [← hall, List.take_left, List.drop_length_add_append, List.drop_zero,
    List.drop_append_of_le_length (by omega)]
  exact List.Sublist.append_left (List.sublist_append_right ..) ys

/-- Where the pace is lost, so is a request. -/
theorem spoiled_of_not_paced {held : Int} (hsize : ∀ chunk ∈ chunks, chunk.bytes.length ≤ 254)
    (hparse : ∀ r ∈ reqs, r.Parsable env)
    (h : Ready s.conn.readBuff reqs (chunks.map Chunk.bytes).flatten held)
    (hpaced : ¬ Paced cs held reqs (chunks.map fun chunk => chunk.bytes.length)) :
    Spoiled cs env s reqs chunks := by
  induction chunks generalizing s reqs held with
  | nil =>
    cases reqs with
    | nil => exact absurd (by simp [Paced]) hpaced
    | cons r reqs =>
      refine ⟨[], rfl, by simp, fun s' hs' heq => ?_⟩
      cases hs'
      simp at heq
  | cons chunk chunks ih =>
    cases reqs with
    | nil => exact absurd (by simp [Paced]) hpaced
    | cons r reqs =>
      have hsize' : ∀ chunk' ∈ chunks, chunk'.bytes.length ≤ 254 :=
        fun chunk' hchunk' => hsize chunk' (List.mem_cons_of_mem chunk hchunk')
      rw [List.map_cons, List.flatten_cons] at h
      by_cases hfit : max held 0 + chunk.bytes.length ≤ 254
      swap
      · cases h with
        | level carries all short =>
          exact spoiled_of_overflow hsize carries all short (by omega)
        | behind carries all =>
          have := hsize chunk List.mem_cons_self
          omega
      rw [List.map_cons, Paced, not_and] at hpaced
      replace hpaced := hpaced hfit
      have hevent := AppConn.arrived h hfit
      obtain ⟨lead, zs, harrived, hlen⟩ := hevent
      let d : Delivery := ⟨chunk, env, fun _ => 0, 0⟩
      split_ifs at hpaced with hcomplete
      · by_cases hsum : r.SumAgrees cs
        · obtain ⟨s1, hs1, hdispatched, hready⟩ := deliver_request (d := d) h hfit hcomplete hsum
            (hparse r List.mem_cons_self)
          refine spoiled_of_deliver (d := d) rfl fun s1' hs1' => .inr (.inl ?_)
          obtain rfl : s1 = s1' := Except.ok.inj (hs1.symm.trans hs1')
          refine ⟨hdispatched, ih hsize' (fun r' hr' => hparse r' (List.mem_cons_of_mem r hr'))
            hready fun hpaced' => hpaced ⟨hsum, hpaced'⟩⟩
        · -- the check digits are there, and are wrong for the server
          obtain ⟨v, hhonest⟩ := exists_honest cs r (lead ++ zs)
          refine spoiled_of_passed hsize' harrived (by omega) hhonest ?_ fun haccepts => ?_
          · exact harrived.not_waits (by omega) (by omega)
          · have hshows := harrived.shows (Arrived.prefix_core r) (by rw [r.length_core]; omega) fun _ => v
            exact absurd ((r.checks_iff cs hshows).mp haccepts.2.2.2) hsum
      · by_cases hpause : held + chunk.bytes.length ≤ 0 ∨
            5 ≤ held + chunk.bytes.length ∧ held + chunk.bytes.length < r.body.length
        · obtain ⟨s1, hs1, hdispatched, hready⟩ := deliver_pause cs (d := d) h hfit
            (hpause.imp_right fun h => ⟨r, reqs, rfl, h⟩)
          refine spoiled_of_deliver (d := d) rfl fun s1' hs1' => .inl ?_
          obtain rfl : s1 = s1' := Except.ok.inj (hs1.symm.trans hs1')
          exact ⟨hdispatched, ih hsize' hparse hready fun hpaced' => hpaced ⟨hpause, hpaced'⟩⟩
        · -- there is enough of the request to decide on it, and not enough to be right
          obtain ⟨v, hhonest, hwait⟩ : ∃ v : UInt8, Honest cs r (lead ++ zs) (fun _ => v) ∧
              ¬ Frame.Waits cs (overlay (lead ++ zs) fun _ => v) (lead.length : Nat) zs.length := by
            by_cases hfive : 5 ≤ zs.length
            · obtain ⟨v, hhonest⟩ := exists_honest cs r (lead ++ zs)
              exact ⟨v, hhonest, harrived.not_waits hfive (by omega)⟩
            · exact harrived.exists_honest cs (by omega) (by omega)
          refine spoiled_of_passed hsize' harrived (by omega) hhonest hwait fun haccepts heq => ?_
          have hlength : (lead ++ zs).length = lead.length + zs.length := List.length_append
          have hwhole := hhonest lead.length (by omega)
            (by rwa [hlength, Nat.add_sub_cancel_left]) heq
          omega

end Session

/-! ## Any cut -/

/-- Requests that come in as these blocks are all given to `frameProcess`, in order and each
once, whatever the array and the stack hold, as long as the handlers return. -/
def Delivered (cs : CharSign) (reqs : List Request) (chunks : List Chunk) : Prop :=
  ∀ (junkR junkW : Nat → UInt8) (fd : Int) (channel : List UInt8) (ds : List Delivery),
    ds.map Delivery.chunk = chunks → (∀ d ∈ ds, ∀ r ∈ reqs, r.Parsable d.env) →
    ∃ s, (Session.fresh junkR junkW fd channel).deliverAll cs ds = .ok s ∧
      s.dispatched = reqs.map Request.frame

/-- The requests are delivered exactly if the blocks come in at a good pace. -/
theorem delivered_iff_paced (cs : CharSign) (env : Env) {reqs : List Request}
    {chunks : List Chunk} (hparse : ∀ r ∈ reqs, r.Parsable env)
    (hcut : (chunks.map Chunk.bytes).flatten = stream reqs)
    (hsize : ∀ chunk ∈ chunks, chunk.bytes.length ≤ 254) :
    Delivered cs reqs chunks ↔
      Paced cs 0 reqs (chunks.map fun chunk => chunk.bytes.length) := by
  have hready : ∀ junkR junkW fd channel, Ready (Session.fresh junkR junkW fd channel).conn.readBuff
      reqs (chunks.map Chunk.bytes).flatten 0 := fun junkR junkW fd channel =>
    .level (.inl (CBuffer.holds_new 256 (by decide) (by decide) junkR)) hcut (by decide)
  constructor
  · intro hdelivered
    by_contra hpaced
    obtain ⟨ds, hds, henv, hwrong⟩ := Session.spoiled_of_not_paced hsize hparse
      (hready (fun _ => 0) (fun _ => 0) 0 []) hpaced
    obtain ⟨s, hs, hall⟩ := hdelivered (fun _ => 0) (fun _ => 0) 0 [] ds hds
      fun d hd r hr => henv d hd ▸ hparse r hr
    exact hwrong s hs hall
  · rintro hpaced junkR junkW fd channel ds rfl hparse
    rw [List.map_map] at hpaced
    have hfresh := hready junkR junkW fd channel
    rw [List.map_map] at hfresh
    exact Session.deliverAll_of_paced ds hfresh hpaced hparse

theorem testRequest_parsable (env : Env) : testRequest.Parsable env :=
  .inr ⟨fun h => absurd h (by decide), fun h => absurd h (by decide)⟩

/-- A request whose newline comes in late. -/
theorem delivered_late_newline :
    Delivered .signed [testRequest] [⟨testRequest.core, by decide, by decide⟩,
      ⟨[newline], by decide, by decide⟩] :=
  (delivered_iff_paced .signed printsNinetyNine
    (fun r hr => List.mem_singleton.mp hr ▸ testRequest_parsable _)
    (show _ = stream [testRequest] by decide) (by decide)).mpr (by decide)

/-- Two requests that come in at once: the second is left lying. -/
theorem not_delivered_at_once :
    (∀ env, testRequest.Parsable env) ∧
    (stream [testRequest, testRequest]).length ≤ 254 ∧
    ¬ Delivered .signed [testRequest, testRequest]
      [⟨stream [testRequest, testRequest], by decide, by decide⟩] := by
  refine ⟨testRequest_parsable, by decide, fun hdelivered => ?_⟩
  obtain ⟨s, hs, hall⟩ := hdelivered (fun _ => 0) (fun _ => 0) 5 []
    [⟨⟨stream [testRequest, testRequest], by decide, by decide⟩, printsNinetyNine, fun _ => 0, 0⟩]
    rfl fun d _ r hr => by
      obtain rfl : r = testRequest := by simpa using hr
      exact testRequest_parsable _
  have hone : ((Session.fresh (fun _ => 0) (fun _ => 0) 5 []).deliverAll .signed
      [⟨⟨stream [testRequest, testRequest], by decide, by decide⟩, printsNinetyNine,
        fun _ => 0, 0⟩]).toOption.map (fun s => s.dispatched.length) = some 1 := by
    decide +kernel
  rw [hs] at hone
  have htwo := congrArg List.length hall
  simp only [Except.toOption, Option.map_some, Option.some.injEq] at hone
  simp only [List.length_map, List.length_cons, List.length_nil] at htwo
  omega

end SocketMaster
