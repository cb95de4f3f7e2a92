import SocketMaster.Library.Numerals
import SocketMaster.Frame.Wire

/-!
# The grammar of frames, and what `init` accepts

A frame of the grammar has decimal digits where digits belong, a body of 4 to 256 bytes, the
sum of these bytes modulo 1000 and a newline, all of it within the bytes received. `init`
subtracts `'0'` from whatever stands in the place of a digit, compares the announced length
alone with the bytes received, adds up chars rather than bytes, and never looks at the
newline.
-/
namespace SocketMaster

open Library

/-- The decimal number `n`, written with `k` digits. -/
structure Decimal (k n : Nat) (ds : List UInt8) : Prop where
  length : ds.length = k
  digits : ∀ c ∈ ds, isDigit c = true
  value : natOf 10 ds = n

theorem digit_of_isDigit (cs : CharSign) {c : UInt8} (h : isDigit c = true) :
    cs.digit c = hexValue c := by
  have hrange : 48 ≤ c.toNat ∧ c.toNat ≤ 57 := by
    simpa [isDigit, UInt8.le_iff_toNat_le] using h
  have hvalue : hexValue c = c.toNat - 48 := if_pos h
  rw [hvalue, digit_of_lt cs (by omega)]
  omega

namespace Frame

/-- What the first bytes at `ptr` are to be, within the `len` bytes there: a head, the length of
the body in four digits, the body, the sum of its bytes in three digits, and a newline. -/
def Grammatical (m : Int → UInt8) (ptr len : Int) : Prop :=
  ∃ size body check, Decimal 4 body.length size ∧ 4 ≤ body.length ∧ body.length ≤ 256 ∧
    Decimal 3 (byteSum body % 1000) check ∧
    Shows m ptr (frameHead :: (size ++ (body ++ (check ++ [newline])))) ∧
    (body.length : Int) + 9 ≤ len

section

variable (cs : CharSign) (m : Int → UInt8) (ptr len : Int)

/-- The bytes at `ptr` have the shape of a frame of the grammar; the check digits may be wrong. -/
structure Shaped : Prop where
  sizeDigits : ∀ c ∈ cells m (ptr + 1) 4, isDigit c = true
  four_le : 4 ≤ lengthAt cs m ptr
  inside : lengthAt cs m ptr + 9 ≤ len
  checkDigits : ∀ c ∈ cells m (ptr + (lengthAt cs m ptr + 5)) 3, isDigit c = true
  terminated : m (ptr + (lengthAt cs m ptr + 8)) = newline

/-- `init` gets as far as the check digits. -/
structure Passes : Prop where
  pos : 0 < len
  head : m ptr = frameHead
  short : lengthAt cs m ptr ≤ 256
  there : lengthAt cs m ptr ≤ len

/-- The sums that `init` and the grammar ask for. -/
def charSum : Int := (cs.sum (bodyAt cs m ptr)).tmod 1000

def bodySum : Int := (byteSum (bodyAt cs m ptr) % 1000 : Nat)

/-- The bytes at `ptr` do not mislead `init`. In a frame of the right shape the two sums are
the same, or the check digits are neither; in anything else the characters in the place of the
check digits do not happen to agree with the chars in front of them. -/
structure Telling : Prop where
  shaped : Shaped cs m ptr len → charSum cs m ptr = bodySum cs m ptr ∨
    checkAt cs m ptr ≠ charSum cs m ptr ∧ checkAt cs m ptr ≠ bodySum cs m ptr
  other : ¬ Shaped cs m ptr len → checkAt cs m ptr ≠ charSum cs m ptr

variable {cs m ptr len}

theorem lengthAt_of_digits (h : ∀ c ∈ cells m (ptr + 1) 4, isDigit c = true) :
    lengthAt cs m ptr = natOf 10 (cells m (ptr + 1) 4) := by
  simp only [cells_succ, cells_zero, Int.add_assoc, Int.reduceAdd, List.mem_cons,
    List.not_mem_nil, or_false, forall_eq_or_imp, forall_eq] at h ⊢
  obtain ⟨h1, h2, h3, h4⟩ := h
  simp only [lengthAt, digit_of_isDigit cs, h1, h2, h3, h4, natOf, List.foldl_cons,
    List.foldl_nil]
  omega

theorem checkAt_of_digits
    (h : ∀ c ∈ cells m (ptr + (lengthAt cs m ptr + 5)) 3, isDigit c = true) :
    checkAt cs m ptr = natOf 10 (cells m (ptr + (lengthAt cs m ptr + 5)) 3) := by
  simp only [cells_succ, cells_zero, Int.add_assoc, Int.reduceAdd, List.mem_cons,
    List.not_mem_nil, or_false, forall_eq_or_imp, forall_eq] at h ⊢
  obtain ⟨h1, h2, h3⟩ := h
  simp only [checkAt, Int.add_assoc, Int.reduceAdd, digit_of_isDigit cs, h1, h2, h3, natOf,
    List.foldl_cons, List.foldl_nil]
  omega

/-- The grammar in the terms of `init`. -/
theorem grammatical_iff (cs : CharSign) : Grammatical m ptr len ↔
    Passes cs m ptr len ∧ Shaped cs m ptr len ∧ checkAt cs m ptr = bodySum cs m ptr := by
  constructor
  · rintro ⟨size, body, check, hsize, hfour, hbig, hcheck, hshows, hinside⟩
    obtain ⟨hhead, hrest⟩ := (shows_cons ..).mp hshows
    obtain ⟨hsizeAt, hrest⟩ := (shows_append ..).mp hrest
    obtain ⟨hbodyAt, hrest⟩ := (shows_append ..).mp hrest
    obtain ⟨hcheckAt, hend⟩ := (shows_append ..).mp hrest
    simp only [Shows, hsize.length, hcheck.length] at hsizeAt hbodyAt hcheckAt hend
    have hdigits : ∀ c ∈ cells m (ptr + 1) 4, isDigit c = true := hsizeAt ▸ hsize.digits
    have hlen : lengthAt cs m ptr = body.length := by
      rw [lengthAt_of_digits hdigits, hsizeAt, hsize.value]
    have hbody : bodyAt cs m ptr = body := by
      rw [bodyAt, hlen, Int.toNat_natCast]
      rwa [show ptr + 1 + ((4 : Nat) : Int) = ptr + 5 by omega] at hbodyAt
    have hcheckCells : cells m (ptr + (lengthAt cs m ptr + 5)) 3 = check := by
      rwa [hlen, show ptr + ((body.length : Int) + 5) =
        ptr + 1 + ((4 : Nat) : Int) + (body.length : Int) by omega]
    have hcheckDigits : ∀ c ∈ cells m (ptr + (lengthAt cs m ptr + 5)) 3, isDigit c = true :=
      hcheckCells ▸ hcheck.digits
    refine ⟨⟨by omega, hhead, by omega, by omega⟩,
      ⟨hdigits, by omega, by omega, hcheckDigits, ?_⟩, ?_⟩
    · rw [hlen, show ptr + ((body.length : Int) + 8) =
        ptr + 1 + ((4 : Nat) : Int) + (body.length : Int) + ((3 : Nat) : Int) by omega]
      simpa [cells_succ] using hend
    · rw [checkAt_of_digits hcheckDigits, hcheckCells, hcheck.value, bodySum, hbody]
  · rintro ⟨passes, shaped, hsum⟩
    obtain ⟨n, hn⟩ := Int.eq_ofNat_of_zero_le (show 0 ≤ lengthAt cs m ptr by
      have := shaped.four_le
      omega)
    have hfour := shaped.four_le
    have hshort := passes.short
    have hinside := shaped.inside
    have hsizeDigits := shaped.sizeDigits
    have hcheckDigits := shaped.checkDigits
    have hterminated := shaped.terminated
    have hsize : lengthAt cs m ptr = natOf 10 (cells m (ptr + 1) 4) :=
      lengthAt_of_digits hsizeDigits
    have hcheck := checkAt_of_digits hcheckDigits
    rw [hsum] at hcheck
    have hbody : bodyAt cs m ptr = cells m (ptr + 5) n := by
      rw [bodyAt, hn, Int.toNat_natCast]
    rw [bodySum, hbody] at hcheck
    rw [hn] at hfour hshort hinside hsize hcheck hcheckDigits hterminated
    refine ⟨cells m (ptr + 1) 4, cells m (ptr + 5) n, cells m (ptr + (n + 5)) 3,
      ⟨length_cells .., hsizeDigits, ?_⟩, ?_, ?_, ⟨length_cells .., hcheckDigits, ?_⟩, ?_, ?_⟩
    · rw [length_cells]
      omega
    · rw [length_cells]
      omega
    · rw [length_cells]
      omega
    · omega
    · rw [shows_cons, shows_append, shows_append, shows_append, length_cells, length_cells,
        length_cells]
      refine ⟨passes.head, ?_, ?_, ?_, ?_⟩
      · rw [Shows, length_cells]
      · rw [Shows, length_cells, show ptr + 1 + ((4 : Nat) : Int) = ptr + 5 by omega]
      · rw [Shows, length_cells, show ptr + 1 + ((4 : Nat) : Int) + (n : Int) =
          ptr + ((n : Int) + 5) by omega]
      · rw [shows_cons, show ptr + 1 + ((4 : Nat) : Int) + (n : Int) + ((3 : Nat) : Int) =
          ptr + ((n : Int) + 8) by omega]
        exact ⟨hterminated, shows_nil _ _⟩
    · rw [length_cells]
      exact hinside

theorem init_ok_iff {f : Frame} (hf : f.state ≠ .ok) :
    ((init cs f ptr len).val m).state = .ok ↔ Passes cs m ptr len ∧ Checks cs m ptr := by
  by_cases hlen : 0 < len
  · rw [init_val _ _ _ hlen]
    split_ifs with hhead hbig hwait
    · exact iff_of_false (by simp) fun h => hhead h.1.head
    · exact iff_of_false (by simp) fun h => absurd h.1.short (not_le.mpr hbig)
    · exact iff_of_false (by simp) fun h => absurd h.1.there (not_le.mpr hwait)
    · rw [and_iff_right ⟨hlen, not_not.mp hhead, not_lt.mp hbig, not_lt.mp hwait⟩]
      simp [decoded]
  · rw [init_val_of_le _ _ _ (not_lt.mp hlen)]
    exact iff_of_false hf fun h => hlen h.1.pos

/-- `init` accepts the frames of the grammar and nothing else, on just those bytes that it does
not get as far into as the check digits, or that do not mislead it. -/
theorem init_ok_iff_grammatical_iff {f : Frame} (hf : f.state ≠ .ok) :
    (((init cs f ptr len).val m).state = .ok ↔ Grammatical m ptr len) ↔
      (Passes cs m ptr len → Telling cs m ptr len) := by
  rw [init_ok_iff hf, grammatical_iff cs]
  have hchecks : Checks cs m ptr ↔ checkAt cs m ptr = charSum cs m ptr := Iff.rfl
  rw [hchecks]
  constructor
  · intro h passes
    rw [and_iff_right passes, and_iff_right passes] at h
    refine ⟨fun shaped => ?_, fun other hcheck => other (h.mp hcheck).1⟩
    rw [and_iff_right shaped] at h
    by_cases hcheck : checkAt cs m ptr = charSum cs m ptr
    · exact .inl (hcheck.symm.trans (h.mp hcheck))
    · exact .inr ⟨hcheck, fun hsum => hcheck (h.mpr hsum)⟩
  · intro h
    refine ⟨fun ⟨passes, hcheck⟩ => ?_, fun ⟨passes, shaped, hsum⟩ => ?_⟩
    · by_cases shaped : Shaped cs m ptr len
      · obtain heq | ⟨hno, -⟩ := (h passes).shaped shaped
        · exact ⟨passes, shaped, hcheck.trans heq⟩
        · exact absurd hcheck hno
      · exact absurd hcheck ((h passes).other shaped)
    · obtain heq | ⟨-, hno⟩ := (h passes).shaped shaped
      · exact ⟨passes, hsum.trans heq.symm⟩
      · exact absurd hsum hno

end

/-- The test request, whole. -/
theorem init_ok_iff_grammatical_testRequest :
    let m := overlay testRequest.bytes fun _ => 0
    ((init .signed {} 0 13).val m).state = .ok ↔ Grammatical m 0 13 :=
  (init_ok_iff_grammatical_iff (by decide)).mpr fun _ => ⟨fun _ => .inl (by decide),
    fun other => absurd ⟨List.all_eq_true.mp (by decide), by decide, by decide,
      List.all_eq_true.mp (by decide), by decide⟩ other⟩

/-- The test request with an `X` in the place of the newline. -/
def unterminated : List UInt8 := testRequest.core ++ [0x58]

theorem not_grammatical_unterminated :
    let m := overlay unterminated fun _ => 0
    ¬ (((init .signed {} 0 13).val m).state = .ok ↔ Grammatical m 0 13) := by
  intro m h
  obtain ⟨-, shaped, -⟩ := (grammatical_iff .signed).mp (h.mp (by decide))
  exact absurd shaped.terminated (by decide)

end Frame

end SocketMaster
