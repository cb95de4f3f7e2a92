import SocketMaster.Conn.Session

/-!
# Streams with bytes missing

Once a byte of the stream is gone that the next request cannot do without, what is left can only
be found to contain fewer requests: no digit is a head, so a request that starts late ends late,
and the delay is carried on to the end of the stream.
-/
namespace SocketMaster

open Library

/-- An element that is not in the first part is found in the second. -/
theorem sublist_of_not_mem {β : Type} {x : β} {zs ps qs : List β} (h : (x :: zs).Sublist (ps ++ qs))
    (hx : x ∉ ps) : (x :: zs).Sublist qs := by
  induction ps with
  | nil => exact h
  | cons p ps ih =>
    obtain ⟨hp, hps⟩ := not_or.mp (mt List.mem_cons.mpr hx)
    exact ih (List.Sublist.of_cons_of_ne hp h) hps

theorem frameHead_not_mem_digits (k v : Nat) : frameHead ∉ digits k v := by
  induction k generalizing v with
  | zero => simp [digits]
  | succ k ih =>
    rw [digits, List.mem_append, List.mem_singleton, not_or]
    refine ⟨ih _, fun h => ?_⟩
    have htoNat := congrArg UInt8.toNat h
    have hbyte : (UInt8.ofNat (48 + v % 10)).toNat = 48 + v % 10 :=
      UInt8.toNat_ofNat_of_lt (show 48 + v % 10 < 256 by omega)
    have hhead : frameHead.toNat = 83 := rfl
    omega

/-- What follows the length of a request. -/
def Request.trail (r : Request) : List UInt8 :=
  r.body ++ digits 3 (byteSum r.body % 1000) ++ [newline]

theorem Request.length_trail (r : Request) : r.trail.length = r.body.length + 4 := by
  simp [trail]

theorem stream_eq (r : Request) (reqs : List Request) :
    stream (r :: reqs) = frameHead :: (digits 4 r.body.length ++ (r.trail ++ stream reqs)) := by
  simp [Request.bytes, Request.core, Request.lead, Request.trail]

theorem length_stream_cons (r : Request) (reqs : List Request) :
    (stream (r :: reqs)).length = r.body.length + 9 + (stream reqs).length := by
  simp

/-- Behind the first request. -/
theorem drop_stream_cons (r : Request) (reqs : List Request) (i : Nat) :
    (stream (r :: reqs)).drop (r.body.length + 9 + i) = (stream reqs).drop i := by
  rw [stream_cons, ← r.length_bytes, List.drop_length_add_append]

/-- Behind everything of the first request but its newline. -/
theorem drop_core (r : Request) (reqs : List Request) :
    (stream (r :: reqs)).drop (r.body.length + 8) = newline :: stream reqs := by
  rw [stream_cons, Request.bytes, List.append_assoc, ← r.length_core, List.drop_left]
  rfl

/-- What is still there or still to come of a stream of requests, where it cannot contain all
of them: the first head is missing, or two bytes are missing somewhere. The newline of the
request before may be there. -/
inductive Lost : List Request → List UInt8 → Prop where
  | head {r : Request} {reqs : List Request} {ys : List UInt8}
      (h : ys.Sublist ((stream (r :: reqs)).drop 1)) : Lost (r :: reqs) ys
  | gap {r : Request} {reqs : List Request} {ys : List UInt8} {a : Nat}
      (inside : a + 2 ≤ (stream (r :: reqs)).length)
      (h : ys.Sublist (newline ::
        ((stream (r :: reqs)).take a ++ (stream (r :: reqs)).drop (a + 2)))) : Lost (r :: reqs) ys

namespace Lost

variable {r : Request} {reqs : List Request} {ys zs : List UInt8}

theorem sublist (h : Lost reqs ys) (hsub : zs.Sublist ys) : Lost reqs zs := by
  cases h with
  | head h => exact .head (hsub.trans h)
  | gap inside h => exact .gap inside (hsub.trans h)

theorem ne_nil (h : Lost reqs ys) : reqs ≠ [] := by
  cases h with
  | head | gap => exact List.cons_ne_nil _ _

/-- The first head is missing: the next one that could be taken for it is in the body. -/
theorem dispatch_head (h : (frameHead :: zs).Sublist ((stream (r :: reqs)).drop 1))
    (hlen : r.body.length + 8 ≤ (frameHead :: zs).length) :
    Lost reqs ((frameHead :: zs).drop (r.body.length + 8)) := by
  rw [stream_eq, List.drop_succ_cons, List.drop_zero] at h
  have hlate := sublist_of_not_mem h (frameHead_not_mem_digits 4 r.body.length)
  cases reqs with
  | nil =>
    have hshort := hlate.length_le
    simp only [stream_nil, List.append_nil, r.length_trail] at hshort
    omega
  | cons r' reqs =>
    have hdrop := hlate.drop (r.body.length + 8)
    have hfour : r.body.length + 8 = r.trail.length + 4 := by
      rw [r.length_trail]
    rw [hfour, List.drop_length_add_append] at hdrop
    rw [hfour]
    refine .head (hdrop.trans ?_)
    rw [show 4 = 1 + 3 from rfl, ← List.drop_drop]
    exact List.drop_sublist ..

/-- Two bytes are missing in the first request, or further on. -/
theorem dispatch_gap {a : Nat} (inside : a + 2 ≤ (stream (r :: reqs)).length)
    (h : (frameHead :: zs).Sublist
      ((stream (r :: reqs)).take a ++ (stream (r :: reqs)).drop (a + 2)))
    (hlen : r.body.length + 8 ≤ (frameHead :: zs).length) :
    Lost reqs ((frameHead :: zs).drop (r.body.length + 8)) := by
  have hlength := length_stream_cons r reqs
  have hdrop := h.drop (r.body.length + 8)
  have hshort := h.length_le
  simp only [List.length_append, List.length_take, List.length_drop] at hshort
  rw [List.drop_append, List.length_take, Nat.min_eq_left (by omega), List.drop_drop] at hdrop
  cases reqs with
  | nil =>
    rw [stream_nil, List.length_nil] at hlength
    omega
  | cons r' reqs =>
    by_cases hfirst : a ≤ r.body.length + 8
    · refine .head (hdrop.trans ?_)
      rw [List.drop_eq_nil_of_le (by simp; omega), List.nil_append,
        show a + 2 + (r.body.length + 8 - a) = r.body.length + 9 + 1 by omega, drop_stream_cons]
    · obtain ⟨b, rfl⟩ : ∃ b, a = r.body.length + 9 + b := ⟨a - (r.body.length + 9), by omega⟩
      have hlate : r.body.length + 9 + b + 2 + (r.body.length + 8 - (r.body.length + 9 + b)) =
          r.body.length + 9 + (b + 2) := by omega
      have hleft : r.body.length + 9 + b - (r.body.length + 8) = b + 1 := by omega
      rw [List.drop_take, drop_core, hleft, List.take_succ_cons, hlate, drop_stream_cons] at hdrop
      exact .gap (by omega) hdrop

/-- Whatever is found in the rest and taken for the first request, the next ones cannot all be
found behind it. -/
theorem dispatch (h : Lost (r :: reqs) ys) {k : Nat} (hk : k + (r.body.length + 8) ≤ ys.length)
    (hhead : ys[k]? = some frameHead) : Lost reqs (ys.drop (k + (r.body.length + 8))) := by
  have hcons : ys.drop k = frameHead :: ys.drop (k + 1) := by
    rw [List.drop_eq_getElem?_toList_append, hhead]
    rfl
  have hsub := List.drop_sublist k ys
  have hlen : r.body.length + 8 ≤ (ys.drop k).length := by
    rw [List.length_drop]
    omega
  rw [← List.drop_drop]
  rw [hcons] at hsub hlen ⊢
  cases h with
  | head h => exact dispatch_head (hsub.trans h) hlen
  | gap inside h =>
    exact dispatch_gap inside (List.Sublist.of_cons_of_ne (by decide) (hsub.trans h)) hlen

end Lost

end SocketMaster
