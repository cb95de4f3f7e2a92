import SocketMaster.Library.Numerals

/-!
# The order of texts that consist of fields

Two texts whose first fields have one length are compared by these, and by the rest only where they
are the same. Numerals of one length are compared as the numbers are. So texts that put numerals of
fixed widths side by side are in the order of the tuples of their numbers.
-/
namespace Library

theorem append_lt_append_iff {α : Type*} [LT α] {xs ys : List α} (h : xs.length = ys.length)
    (s t : List α) : xs ++ s < ys ++ t ↔ xs < ys ∨ xs = ys ∧ s < t := by
  induction xs generalizing ys with
  | nil =>
    obtain rfl := List.eq_nil_of_length_eq_zero h.symm
    simp
  | cons x xs ih =>
    cases ys with
    | nil => cases h
    | cons y ys =>
      have hrest : xs.length = ys.length := Nat.succ.inj h
      rw [List.cons_append, List.cons_append, List.cons_lt_cons_iff, List.cons_lt_cons_iff,
        ih hrest, List.cons.injEq]
      tauto

/-! ## Numerals -/

theorem decimal_of_lt_ten {n : Nat} (h : n < 10) : decimal n = [UInt8.ofNat (48 + n)] := by
  rw [decimal, Nat.toDigits_of_lt_base h]
  revert n
  decide

theorem decimal_of_ten_le {n : Nat} (h : 10 ≤ n) :
    decimal n = decimal (n / 10) ++ decimal (n % 10) := by
  rw [decimal, decimal, decimal, Nat.toDigits_of_base_le (by decide) h, List.map_append,
    Nat.toDigits_of_lt_base (Nat.mod_lt n (by decide))]

theorem decimal_lt_decimal_iff {a b : Nat} (ha : a < 10) (hb : b < 10) :
    decimal a < decimal b ↔ a < b := by
  rw [decimal_of_lt_ten ha, decimal_of_lt_ten hb, List.cons_lt_cons_iff, UInt8.lt_iff_toNat_lt,
    UInt8.toNat_ofNat', UInt8.toNat_ofNat']
  simp only [List.not_lt_nil, and_false, or_false]
  omega

theorem digit_of_mem_padded {width n : Nat} {c : UInt8} (h : c ∈ padded width n) :
    48 ≤ c.toNat ∧ c.toNat ≤ 57 := by
  obtain hzero | hdigit := List.mem_append.mp h
  · rw [List.eq_of_mem_replicate hzero]
    decide
  · obtain ⟨d, hd, rfl⟩ := List.mem_map.mp hdigit
    have hrange := Nat.isDigit_of_mem_toDigits (by decide) (by decide) hd
    simp only [Char.isDigit, Bool.and_eq_true, decide_eq_true_eq, ge_iff_le, UInt32.le_iff_toNat_le]
      at hrange
    have hlo : 48 ≤ d.toNat := hrange.1
    have hhi : d.toNat ≤ 57 := hrange.2
    rw [UInt8.toNat_ofNat']
    omega

/-- The last digit stands behind the numeral of the digits before it. -/
theorem padded_succ {width : Nat} (hw : 0 < width) (n : Nat) :
    padded (width + 1) n = padded width (n / 10) ++ decimal (n % 10) := by
  by_cases hn : n < 10
  · have hsplit : width = width - 1 + 1 := by omega
    have hzero : padded width 0 = List.replicate width 48 := by
      rw [padded, hsplit, List.replicate_succ']
      rfl
    rw [Nat.div_eq_of_lt hn, Nat.mod_eq_of_lt hn, hzero, padded, decimal_of_lt_ten hn]
    rfl
  · have hten : 10 ≤ n := Nat.le_of_not_lt hn
    have hdigit : (decimal (n % 10)).length = 1 := by
      rw [decimal_of_lt_ten (Nat.mod_lt n (by decide))]
      rfl
    rw [padded, padded, decimal_of_ten_le hten, List.length_append, hdigit, Nat.add_sub_add_right,
      List.append_assoc]

theorem length_padded {width n : Nat} (hw : 0 < width) (hn : n < 10 ^ width) :
    (padded width n).length = width := by
  have hle := length_decimal_le hw hn
  rw [padded, List.length_append, List.length_replicate]
  omega

/-- Induction on the width: the numeral in front of the last digit is that of the quotient. -/
theorem padded_lt_padded {width a b : Nat} (hw : 0 < width) (hb : b < 10 ^ width) (hab : a < b) :
    padded width a < padded width b := by
  induction width, hw using Nat.le_induction generalizing a b with
  | base =>
    have hone : ∀ n, n < 10 → padded (0 + 1) n = decimal n := by
      intro n hn
      rw [padded, decimal_of_lt_ten hn]
      rfl
    rw [hone a (by omega), hone b hb]
    exact (decimal_lt_decimal_iff (by omega) hb).mpr hab
  | succ width hw ih =>
    rw [Nat.pow_succ] at hb
    have hqa : a / 10 < 10 ^ width := by omega
    have hqb : b / 10 < 10 ^ width := by omega
    have hlen : (padded width (a / 10)).length = (padded width (b / 10)).length :=
      (length_padded hw hqa).trans (length_padded hw hqb).symm
    rw [padded_succ hw, padded_succ hw, append_lt_append_iff hlen]
    obtain hlt | ⟨heq, hmod⟩ : a / 10 < b / 10 ∨ a / 10 = b / 10 ∧ a % 10 < b % 10 := by omega
    · exact .inl (ih hqb hlt)
    · refine .inr ⟨by rw [heq], ?_⟩
      exact (decimal_lt_decimal_iff (by omega) (Nat.mod_lt b (by decide))).mpr hmod

theorem padded_inj {width a b : Nat} (hw : 0 < width) (ha : a < 10 ^ width)
    (hb : b < 10 ^ width) : padded width a = padded width b ↔ a = b := by
  refine ⟨fun heq => ?_, fun heq => by rw [heq]⟩
  obtain hlt | hsame | hlt := Nat.lt_trichotomy a b
  · exact absurd (heq ▸ padded_lt_padded hw hb hlt) (List.lt_irrefl _)
  · exact hsame
  · exact absurd (heq ▸ padded_lt_padded hw ha hlt) (List.lt_irrefl _)

theorem padded_lt_padded_iff {width a b : Nat} (hw : 0 < width) (ha : a < 10 ^ width)
    (hb : b < 10 ^ width) : padded width a < padded width b ↔ a < b := by
  refine ⟨fun h => ?_, padded_lt_padded hw hb⟩
  by_contra hnot
  obtain rfl | hlt := Nat.eq_or_lt_of_le (Nat.le_of_not_lt hnot)
  · exact List.lt_irrefl _ h
  · exact List.lt_asymm h (padded_lt_padded hw ha hlt)

/-- A field that is a numeral, and what stands behind it. -/
theorem padded_append_lt_iff {width a b : Nat} (hw : 0 < width) (ha : a < 10 ^ width)
    (hb : b < 10 ^ width) (s t : List UInt8) :
    padded width a ++ s < padded width b ++ t ↔ a < b ∨ a = b ∧ s < t := by
  have hlen := (length_padded hw ha).trans (length_padded hw hb).symm
  rw [append_lt_append_iff hlen, padded_lt_padded_iff hw ha hb, padded_inj hw ha hb]

end Library
