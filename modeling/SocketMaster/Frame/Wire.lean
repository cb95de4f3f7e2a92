import SocketMaster.Frame.Encode

/-!
# Well-formed requests on the wire

A request as a client sends it: the head, the length of the body in four digits, the body,
the sum of its bytes modulo 1000 in three digits, and a newline. `init` needs all of it but
the newline to accept it, and knows that it has to wait as soon as it has the length.
-/
namespace SocketMaster

open Library

/-- The last `k` decimal digits of `v`. -/
def digits : Nat → Nat → List UInt8
  | 0, _ => []
  | k + 1, v => digits k (v / 10) ++ [UInt8.ofNat (48 + v % 10)]

@[simp] theorem length_digits (k v : Nat) : (digits k v).length = k := by
  induction k generalizing v with
  | zero => rfl
  | succ k ih => simp [digits, ih]

def byteSum (xs : List UInt8) : Nat := (xs.map UInt8.toNat).sum

/-- The body of a well-formed request of at most 254 bytes. -/
structure Request where
  body : List UInt8
  four_le : 4 ≤ body.length
  length_le : body.length ≤ 245

namespace Request

/-- The head and the length. -/
def lead (r : Request) : List UInt8 := frameHead :: digits 4 r.body.length

/-- Everything but the newline. -/
def core (r : Request) : List UInt8 :=
  r.lead ++ (r.body ++ digits 3 (byteSum r.body % 1000))

def bytes (r : Request) : List UInt8 := r.core ++ [newline]

/-- The frame that the request stands for. -/
def frame (r : Request) : Frame :=
  have := r.four_le
  { head := frameHead
    length := r.body.length
    host := r.body[0]
    client := r.body[1]
    type := r.body[2]
    cmd := r.body[3]
    paras := words (r.body.drop 4)
    check := (byteSum r.body % 1000 : Nat)
    state := .ok }

/-- The check digits are what the server computes, too: its chars add up to the byte sum. -/
def SumAgrees (cs : CharSign) (r : Request) : Prop :=
  (cs.sum r.body).tmod 1000 = (byteSum r.body % 1000 : Nat)

instance (cs : CharSign) (r : Request) : Decidable (r.SumAgrees cs) := by
  unfold SumAgrees
  infer_instance

@[simp] theorem length_lead (r : Request) : r.lead.length = 5 := by simp [lead]

@[simp] theorem length_core (r : Request) : r.core.length = r.body.length + 8 := by
  simp only [core, List.length_append, length_lead, length_digits]
  omega

@[simp] theorem length_bytes (r : Request) : r.bytes.length = r.body.length + 9 := by
  simp [bytes]

end Request

/-- Three decimal digits, read as `init` reads them. -/
theorem digits_three (cs : CharSign) {m : Int → UInt8} {a : Int} {v : Nat} (hv : v < 1000)
    (h : Shows m a (digits 3 v)) :
    cs.digit (m a) * 100 + cs.digit (m (a + 1)) * 10 + cs.digit (m (a + 1 + 1)) = v := by
  simp only [digits, List.nil_append, List.cons_append, shows_cons] at h
  obtain ⟨h0, h1, h2, -⟩ := h
  rw [h0, h1, h2, digit_ofNat cs (by omega), digit_ofNat cs (by omega), digit_ofNat cs (by omega)]
  omega

namespace Frame

variable (cs : CharSign) {m : Int → UInt8} {ptr : Int} {n : Nat}

theorem lengthAt_of_shows (hn : n < 10000) (h : Shows m ptr (frameHead :: digits 4 n)) :
    lengthAt cs m ptr = n := by
  simp only [digits, List.nil_append, List.cons_append, shows_cons, Int.add_assoc,
    Int.reduceAdd] at h
  obtain ⟨-, h0, h1, h2, h3, -⟩ := h
  rw [lengthAt, h0, h1, h2, h3, digit_ofNat cs (by omega), digit_ofNat cs (by omega),
    digit_ofNat cs (by omega), digit_ofNat cs (by omega)]
  omega

end Frame

namespace Request

variable (cs : CharSign) {m : Int → UInt8} {ptr : Int} (r : Request)

theorem lengthAt_eq (h : Shows m ptr r.lead) : Frame.lengthAt cs m ptr = r.body.length :=
  Frame.lengthAt_of_shows cs (by have := r.length_le; omega) h

theorem head_eq (h : Shows m ptr r.lead) : m ptr = frameHead := ((shows_cons ..).mp h).1

/-- What `init` finds where the core of a request is. -/
theorem bodyAt_eq (h : Shows m ptr r.core) : Frame.bodyAt cs m ptr = r.body := by
  obtain ⟨hlead, hrest⟩ := (shows_append ..).mp h
  obtain ⟨hbody, -⟩ := (shows_append ..).mp hrest
  rw [Frame.bodyAt, r.lengthAt_eq cs hlead]
  rwa [length_lead] at hbody

theorem checkAt_eq (h : Shows m ptr r.core) :
    Frame.checkAt cs m ptr = (byteSum r.body % 1000 : Nat) := by
  obtain ⟨hlead, hrest⟩ := (shows_append ..).mp h
  obtain ⟨-, hdigits⟩ := (shows_append ..).mp hrest
  have hat : ptr + (r.lead.length : Int) + (r.body.length : Int) = ptr + (r.body.length + 5) := by
    rw [length_lead]
    omega
  have hthree := digits_three cs (by omega) hdigits
  rw [hat] at hthree
  simpa only [Frame.checkAt, r.lengthAt_eq cs hlead, Int.add_assoc, Int.reduceAdd] using hthree

/-- The check digits are right if the server's chars add up to the byte sum. -/
theorem checks_iff (h : Shows m ptr r.core) : Frame.Checks cs m ptr ↔ r.SumAgrees cs := by
  rw [Frame.Checks, checkAt_eq cs r h, bodyAt_eq cs r h]
  exact eq_comm

/-- Once the core of a request is there, `init` decodes it. -/
theorem decoded_eq (hsum : r.SumAgrees cs) (h : Shows m ptr r.core) :
    Frame.Checks cs m ptr ∧ Frame.decoded cs m ptr = r.frame := by
  have hchecks := (checks_iff cs r h).mpr hsum
  have hbodyAt := bodyAt_eq cs r h
  obtain ⟨hlead, hrest⟩ := (shows_append ..).mp h
  obtain ⟨hbody, -⟩ := (shows_append ..).mp hrest
  have hfive : ((5 : Nat) : Int) = 5 := rfl
  rw [length_lead, hfive] at hbody
  have hlen := r.lengthAt_eq cs hlead
  refine ⟨hchecks, ?_⟩
  have hfour := r.four_le
  have hcell : ∀ (i : Nat) (hi : i < r.body.length) (a : Int), a = ptr + 5 + i → m a = r.body[i] := by
    rintro i hi a rfl
    exact hbody.cell hi
  have hwords : cells m (ptr + 9) ((r.body.length : Int) - 4).toNat = r.body.drop 4 := by
    have hat : ptr + 5 + ((4 : Nat) : Int) = ptr + 9 := by omega
    have hdrop := hbody.drop hfour
    rw [hat, Shows, List.length_drop] at hdrop
    rwa [show ((r.body.length : Int) - 4).toNat = r.body.length - 4 by omega]
  have hcheck' : (cs.sum r.body).tmod 1000 = (byteSum r.body % 1000 : Nat) := hsum
  simp only [Frame.decoded, if_pos hchecks, hlen, hwords, hbodyAt, frame, hcheck',
    hcell 0 (by omega) (ptr + 5) (by omega), hcell 1 (by omega) (ptr + 6) (by omega),
    hcell 2 (by omega) (ptr + 7) (by omega), hcell 3 (by omega) (ptr + 8) (by omega)]

end Request

/-- A `TEST` request, the shortest there is. -/
def testRequest : Request := ⟨[0x31, 0x33, 0x30, 0x30], by decide, by decide⟩

end SocketMaster
