import SocketMaster.Frame.Wire

/-!
# Frames with any body

A packet is a head, the length of its body in four digits, the body, three check characters and a
newline; what the check characters say is left open. `init` decodes a packet whose check
characters stand for the sum of the body's chars, whatever follows it. The characters that `make`
would write do, also where chars are negative and these characters are no digits.
-/
namespace SocketMaster

open Library

/-- The words of `xs` up to its first newline that are not empty and that a space ends. -/
def spaceWords (xs : List UInt8) : List (List UInt8) :=
  ((xs.takeWhile (· ≠ newline)).splitOn space).dropLast.filter (· ≠ [])

theorem wordsFrom_eq (cur xs : List UInt8) :
    wordsFrom cur xs = (List.splitOnPPrepend (· == space) (xs.takeWhile (· ≠ newline))
      cur.reverse).dropLast.filter (· ≠ []) := by
  induction xs generalizing cur with
  | nil => simp [wordsFrom]
  | cons c xs ih =>
    have hsplit := List.splitOnP_ne_nil (· == space) (xs.takeWhile (· ≠ newline))
    have hrest : wordsFrom [] xs = (List.splitOnP (· == space)
        (xs.takeWhile (· ≠ newline))).dropLast.filter (· ≠ []) := ih []
    rw [wordsFrom, List.takeWhile_cons]
    by_cases hnl : c = newline
    · simp [hnl]
    by_cases hs : c = space
    · have hbeq : (c == space) = true := beq_iff_eq.mpr hs
      rw [if_neg hnl, if_pos hs, if_pos (decide_eq_true hnl),
        List.splitOnPPrepend_cons_pos (p := (· == space)) hbeq,
        List.dropLast_cons_of_ne_nil hsplit, List.reverse_reverse, hrest]
      by_cases hcur : cur = [] <;> simp [hcur]
    · have hbeq : (c == space) = false := beq_eq_false_iff_ne.mpr hs
      rw [if_neg hnl, if_neg hs, if_pos (decide_eq_true hnl),
        List.splitOnPPrepend_cons_neg (p := (· == space)) hbeq, ih, List.reverse_append,
        List.reverse_singleton, List.singleton_append]

theorem words_eq_spaceWords (xs : List UInt8) : words xs = spaceWords xs := by
  rw [words, wordsFrom_eq]
  rfl

/-- Three check characters, read as `init` reads them. -/
def CharSign.checkValue (cs : CharSign) (check : List UInt8) : Int :=
  check.foldl (fun v c => v * 10 + cs.digit c) 0

/-- A frame whose check characters can be any. -/
structure Packet where
  body : List UInt8
  check : List UInt8
  four_le : 4 ≤ body.length
  length_le : body.length ≤ 256
  length_check : check.length = 3

namespace Packet

/-- The head and the length. -/
def lead (p : Packet) : List UInt8 := frameHead :: digits 4 p.body.length

def bytes (p : Packet) : List UInt8 := p.lead ++ (p.body ++ (p.check ++ [newline]))

@[simp] theorem length_lead (p : Packet) : p.lead.length = 5 := by simp [lead]

@[simp] theorem length_bytes (p : Packet) : p.bytes.length = p.body.length + 9 := by
  simp only [bytes, List.length_append, length_lead, p.length_check, List.length_singleton]
  omega

/-- What `init` makes of the packet when it likes the check characters. -/
def frame (cs : CharSign) (p : Packet) : Frame :=
  have := p.four_le
  { head := frameHead
    length := p.body.length
    host := p.body[0]
    client := p.body[1]
    type := p.body[2]
    cmd := p.body[3]
    paras := spaceWords (p.body.drop 4)
    check := (cs.sum p.body).tmod 1000
    state := .ok }

variable (cs : CharSign) {m : Int → UInt8} {ptr len : Int} (p : Packet)

theorem ctrl_frame :
    [(p.frame cs).host, (p.frame cs).client, (p.frame cs).type, (p.frame cs).cmd] =
      p.body.take 4 := by
  obtain ⟨body, check, hfour, hbig, hcheck⟩ := p
  match body, hfour with
  | a :: b :: c :: d :: tail, _ => rfl

theorem size_frame : (p.frame cs).size = p.bytes.length := by
  have hsize : (p.frame cs).size = (p.body.length : Int) + 5 + 4 := rfl
  rw [hsize, length_bytes]
  omega

theorem lengthAt_eq (h : Shows m ptr p.lead) : Frame.lengthAt cs m ptr = p.body.length := by
  have hle := p.length_le
  exact Frame.lengthAt_of_shows cs (by omega) h

/-- What `init` finds where a packet is: a head, the length, the body and the check characters. -/
theorem found (h : Shows m ptr p.bytes) :
    m ptr = frameHead ∧ Frame.lengthAt cs m ptr = p.body.length ∧
      Frame.bodyAt cs m ptr = p.body ∧ Frame.checkAt cs m ptr = cs.checkValue p.check := by
  obtain ⟨hlead, hrest⟩ := (shows_append ..).mp h
  obtain ⟨hbody, hrest⟩ := (shows_append ..).mp hrest
  obtain ⟨hcheck, -⟩ := (shows_append ..).mp hrest
  have hlen := p.lengthAt_eq cs hlead
  have hfive : ((p.lead.length : Nat) : Int) = 5 := by rw [length_lead]; rfl
  rw [hfive] at hbody hcheck
  refine ⟨((shows_cons ..).mp hlead).1, hlen, ?_, ?_⟩
  · rw [Frame.bodyAt, hlen]
    exact hbody
  · have hat : ptr + 5 + (p.body.length : Int) = ptr + (p.body.length + 5) := by omega
    obtain ⟨c0, c1, c2, hthree⟩ := List.length_eq_three.mp p.length_check
    simp only [hthree, shows_cons, shows_nil, and_true, hat] at hcheck
    obtain ⟨h0, h1, h2⟩ := hcheck
    have htwo : ptr + (p.body.length + 5) + 2 = ptr + ((p.body.length : Int) + 5) + 1 + 1 := by
      omega
    simp only [Frame.checkAt, hlen, htwo, h0, h1, h2, hthree, CharSign.checkValue, List.foldl_cons,
      List.foldl_nil]
    omega

/-- Where a packet is, the body can be read cell by cell. -/
theorem cell_body (h : Shows m ptr p.bytes) {i : Nat} (hi : i < p.body.length) {a : Int}
    (ha : a = ptr + 5 + i) : m a = p.body[i] := by
  obtain ⟨-, hrest⟩ := (shows_append ..).mp h
  obtain ⟨hbody, -⟩ := (shows_append ..).mp hrest
  rw [length_lead] at hbody
  rw [ha]
  exact hbody.cell hi

/-- The parameters are cut out of what follows the control bytes. -/
theorem cells_paras (h : Shows m ptr p.bytes) :
    cells m (ptr + 9) ((p.body.length : Int) - 4).toNat = p.body.drop 4 := by
  have hfour := p.four_le
  apply List.ext_getElem
  · rw [length_cells, List.length_drop]
    omega
  · intro i hi hi'
    rw [List.length_drop] at hi'
    rw [getElem_cells, List.getElem_drop]
    exact p.cell_body h (by omega) (by omega)

theorem decoded_eq (hsum : cs.checkValue p.check = (cs.sum p.body).tmod 1000)
    (h : Shows m ptr p.bytes) : Frame.decoded cs m ptr = p.frame cs := by
  obtain ⟨-, hlen, hbody, hcheck⟩ := p.found cs h
  have hfour := p.four_le
  have hchecks : Frame.Checks cs m ptr := by rw [Frame.Checks, hcheck, hbody, hsum]
  simp only [Frame.decoded, if_pos hchecks, hlen, hbody, p.cells_paras h, words_eq_spaceWords,
    p.cell_body h (i := 0) (a := ptr + 5) (by omega) (by omega),
    p.cell_body h (i := 1) (a := ptr + 6) (by omega) (by omega),
    p.cell_body h (i := 2) (a := ptr + 7) (by omega) (by omega),
    p.cell_body h (i := 3) (a := ptr + 8) (by omega) (by omega)]
  rfl

/-- `init` on a packet and at least its body's length of bytes. -/
theorem init_eq (f : Frame) (hsum : cs.checkValue p.check = (cs.sum p.body).tmod 1000)
    (h : Shows m ptr p.bytes) (hlen : p.body.length ≤ len) :
    (Frame.init cs f ptr len).val m = p.frame cs := by
  obtain ⟨hhead, hlength, -, -⟩ := p.found cs h
  have hfour := p.four_le
  have hbig := p.length_le
  have hpos : 0 < len := by omega
  rw [Frame.init_val cs f m hpos, hlength, if_neg (not_not.mpr hhead), if_neg (by omega),
    if_neg (by omega)]
  exact p.decoded_eq cs hsum h

end Packet

/-! ## The check characters that `make` writes -/

/-- The last digit has the sign of the number. -/
theorem tmod_ten (v : Int) : v.tmod 10 + 10 * v.tdiv 10 = v ∧
    (0 ≤ v → 0 ≤ v.tmod 10 ∧ v.tmod 10 ≤ 9) ∧ (v ≤ 0 → -9 ≤ v.tmod 10 ∧ v.tmod 10 ≤ 0) := by
  have hlo := Int.lt_tmod_of_pos v (show 0 < (10 : Int) by decide)
  have hhi := Int.tmod_lt_of_pos v (show 0 < (10 : Int) by decide)
  refine ⟨Int.tmod_add_mul_tdiv v 10, fun hv => ⟨Int.tmod_nonneg 10 hv, by omega⟩, fun hv => ?_⟩
  have hneg := Int.tmod_nonneg 10 (show 0 ≤ -v by omega)
  rw [Int.neg_tmod] at hneg
  exact ⟨by omega, by omega⟩

/-- Also a negative number of three digits is read back from its digit characters. -/
theorem checkValue_digitChars (cs : CharSign) {v : Int} (hlo : -1000 < v) (hhi : v < 1000) :
    cs.checkValue (digitChars v 3) = v := by
  have hdigit : ∀ x : Int, cs.digit (toChar (x.tmod 10 + 48)) = x.tmod 10 := by
    intro x
    obtain ⟨-, hpos, hneg⟩ := tmod_ten x
    exact digit_toChar cs (by omega) (by omega)
  obtain ⟨hv, hpos, hneg⟩ := tmod_ten v
  obtain ⟨hv', hpos', hneg'⟩ := tmod_ten (v.tdiv 10)
  obtain ⟨hv'', hpos'', hneg''⟩ := tmod_ten ((v.tdiv 10).tdiv 10)
  simp only [digitChars, List.nil_append, List.cons_append, CharSign.checkValue, List.foldl_cons,
    List.foldl_nil, hdigit]
  omega

theorem tmod_thousand (v : Int) : -1000 < v.tmod 1000 ∧ v.tmod 1000 < 1000 :=
  ⟨Int.lt_tmod_of_pos v (by decide), Int.tmod_lt_of_pos v (by decide)⟩

/-- The packet that a body makes with the check characters of `make`. -/
def Packet.ofBody (cs : CharSign) (body : List UInt8) (hfour : 4 ≤ body.length)
    (hbig : body.length ≤ 256) : Packet :=
  ⟨body, digitChars ((cs.sum body).tmod 1000) 3, hfour, hbig, length_digitChars _ 3⟩

namespace Frame

/-- `init` decodes every packet with these check characters, whatever is in the frame before and
whatever follows the packet. -/
theorem init_ofBody (cs : CharSign) (f : Frame) (body rest : List UInt8) (hfour : 4 ≤ body.length)
    (hbig : body.length ≤ 256) (m : Int → UInt8) (ptr : Int)
    (h : Shows m ptr ((Packet.ofBody cs body hfour hbig).bytes ++ rest)) :
    let bytes := (Packet.ofBody cs body hfour hbig).bytes
    let r := (init cs f ptr (bytes ++ rest).length).val m
    r.state = .ok ∧ [r.host, r.client, r.type, r.cmd] = body.take 4 ∧
      r.paras = spaceWords (body.drop 4) ∧ r.size = bytes.length := by
  intro bytes r
  obtain ⟨hbytes, -⟩ := (shows_append ..).mp h
  have hsum : cs.checkValue (Packet.ofBody cs body hfour hbig).check = (cs.sum body).tmod 1000 := by
    obtain ⟨hlo, hhi⟩ := tmod_thousand (cs.sum body)
    exact checkValue_digitChars cs hlo hhi
  have hlen : ((Packet.ofBody cs body hfour hbig).body.length : Int) ≤
      ((bytes ++ rest).length : Nat) := by
    rw [List.length_append, Packet.length_bytes]
    omega
  have hr : r = (Packet.ofBody cs body hfour hbig).frame cs :=
    Packet.init_eq cs _ f hsum hbytes hlen
  rw [hr]
  exact ⟨rfl, Packet.ctrl_frame cs _, rfl, Packet.size_frame cs _⟩

/-- Four chars of the value -128, on a target where `char` is signed. The check characters are
`,`, `/` and `.`, which stand in front of `'0'`. -/
theorem init_ofBody_negative :
    let body : List UInt8 := [0x80, 0x80, 0x80, 0x80]
    let bytes := (Packet.ofBody .signed body (by decide) (by decide)).bytes
    let r := (init .signed {} 0 (bytes ++ [0x58]).length).val (overlay (bytes ++ [0x58]) fun _ => 0)
    r.state = .ok ∧ [r.host, r.client, r.type, r.cmd] = body.take 4 ∧
      r.paras = spaceWords (body.drop 4) ∧ r.size = bytes.length :=
  init_ofBody .signed {} [0x80, 0x80, 0x80, 0x80] [0x58] (by decide) (by decide) _ 0
    (shows_overlay _ _ 0 List.prefix_rfl)

end Frame

/-- A well-formed request is one of them. -/
def Request.packet (r : Request) : Packet where
  body := r.body
  check := digits 3 (byteSum r.body % 1000)
  four_le := r.four_le
  length_le := Nat.le_trans r.length_le (by decide)
  length_check := length_digits 3 _

/-- The test request. -/
def testPacket : Packet := testRequest.packet

end SocketMaster
