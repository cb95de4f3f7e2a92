import SocketMaster.Frame.Grammar

/-!
# The frames that `make` makes

Every byte that `make` stores, with what the two numbers in the frame are worth. The check
digits are about chars: they agree with the bytes as long as no byte is a negative char.
-/
namespace SocketMaster

open Library

theorem isDigit_toChar {d : Nat} (h : d < 10) :
    isDigit (toChar (d + 48)) = true ∧ hexValue (toChar (d + 48)) = d := by
  have hnat : (toChar ((d : Int) + 48)).toNat = d + 48 := by
    rw [toChar, UInt8.toNat_ofNat']
    omega
  have hdigit : isDigit (toChar ((d : Int) + 48)) = true := by
    simp only [isDigit, Bool.and_eq_true, decide_eq_true_eq, UInt8.le_iff_toNat_le, hnat]
    exact ⟨show 48 ≤ d + 48 by omega, show d + 48 ≤ 57 by omega⟩
  have hvalue : hexValue (toChar ((d : Int) + 48)) = (toChar ((d : Int) + 48)).toNat - 48 :=
    if_pos hdigit
  refine ⟨hdigit, ?_⟩
  rw [hvalue, hnat]
  omega

/-- The digit characters of a number that has no more digits. -/
theorem decimal_digitChars {k v : Nat} (h : v < 10 ^ k) : Decimal k v (digitChars v k) := by
  induction k generalizing v with
  | zero =>
    rw [Nat.lt_one_iff.mp h]
    exact ⟨rfl, fun c hc => absurd hc List.not_mem_nil, rfl⟩
  | succ k ih =>
    have hfront := ih (v := v / 10) (by rw [Nat.pow_succ] at h; omega)
    obtain ⟨hdigit, hvalue⟩ := isDigit_toChar (d := v % 10) (by omega)
    have hsplit : digitChars v (k + 1) =
        digitChars (v / 10 : Nat) k ++ [toChar (((v % 10 : Nat) : Int) + 48)] := by
      rw [digitChars]
      rfl
    rw [hsplit]
    refine ⟨length_digitChars v (k + 1) ▸ hsplit ▸ rfl, ?_, ?_⟩
    · intro c hc
      obtain hc | hc := List.mem_append.mp hc
      · exact hfront.digits c hc
      · exact List.mem_singleton.mp hc ▸ hdigit
    · have hnat := hfront.value
      rw [natOf] at hnat ⊢
      rw [List.foldl_append, hnat, List.foldl_cons, List.foldl_nil, hvalue]
      omega

/-- The chars of these bytes are the bytes themselves. -/
theorem sum_eq_byteSum (cs : CharSign) {xs : List UInt8}
    (h : cs = .unsigned ∨ ∀ c ∈ xs, c.toNat < 128) : cs.sum xs = byteSum xs := by
  induction xs with
  | nil => rfl
  | cons x xs ih =>
    have hx : cs.val x = x.toNat := by
      cases cs with
      | unsigned => rfl
      | signed =>
        have hlt := (h.resolve_left (by decide)) x List.mem_cons_self
        exact if_pos hlt
    have hrest := ih (h.imp_right fun hall c hc => hall c (List.mem_cons_of_mem _ hc))
    rw [CharSign.sum_cons, hx, hrest]
    simp [byteSum]

namespace Frame

/-- The frame that `make` leaves in a destination that is large enough. -/
theorem make_shape (cs : CharSign) (dst : Int → UInt8) (host client type cmd : UInt8)
    (paras : List (List UInt8)) (hlen : parasLength paras + 9 ≤ 9999)
    (hsum : 0 ≤ cs.sum (checked host client type cmd paras)) :
    let made := make cs dst host client type cmd paras
    let bytes := checked host client type cmd paras
    (∀ i, i ∈ made.1.log ↔ 0 ≤ i ∧ i < made.2) ∧
      ∃ size check, Decimal 4 (made.2 - 4).toNat size ∧
        Decimal 3 (cs.sum bytes % 1000).toNat check ∧
        ((cs = .unsigned ∨ ∀ c ∈ bytes, c.toNat < 128) → Decimal 3 (byteSum bytes % 1000) check) ∧
        Shows made.1.mem 0 (frameHead :: (size ++ (bytes ++ (check ++ [newline])))) ∧
        made.2 = (frameHead :: (size ++ (bytes ++ (check ++ [newline])))).length := by
  intro made bytes
  have hret : made.2 = parasLength paras + 13 := make_ret ..
  have hlog := mem_log_make cs dst host client type cmd paras
  have hshows := shows_make cs dst host client type cmd paras
  obtain ⟨sum, hnat⟩ := Int.eq_ofNat_of_zero_le hsum
  have hmod : (cs.sum (checked host client type cmd paras)).tmod 1000 = (sum % 1000 : Nat) := by
    rw [hnat]
    rfl
  have hcheck : Decimal 3 (sum % 1000) (digitChars (sum % 1000 : Nat) 3) :=
    decimal_digitChars (by omega)
  rw [hmod] at hshows
  refine ⟨fun i => by rw [hret]; exact hlog i, _, _, ?_, ?_, ?_, hshows, ?_⟩
  · have hsize : ((parasLength paras : Int) + 13 - 4).toNat = parasLength paras + 9 := by omega
    rw [hret, hsize]
    exact decimal_digitChars (by omega)
  · have hnatMod : ((sum : Int) % 1000).toNat = sum % 1000 := by omega
    rw [hnat, hnatMod]
    exact hcheck
  · intro hchars
    have hbytes : (sum : Int) = byteSum bytes := hnat.symm.trans (sum_eq_byteSum cs hchars)
    rw [← Int.ofNat_inj.mp hbytes]
    exact hcheck
  · rw [hret]
    have hbytes : bytes.length = parasLength paras + 4 := by simp [bytes, checked]
    simp only [List.length_cons, List.length_append, length_digitChars, hbytes, List.length_nil]
    omega

/-- An acknowledgement with a parameter of two bytes and one of three. -/
theorem make_shape_ack :
    let paras : List (List UInt8) := [[49, 50], [51, 52, 53]]
    let made := make .signed (fun _ => 0) nanoId appId typeAck Cmd.test paras
    let bytes := checked nanoId appId typeAck Cmd.test paras
    (∀ i, i ∈ made.1.log ↔ 0 ≤ i ∧ i < made.2) ∧
      ∃ size check, Decimal 4 (made.2 - 4).toNat size ∧
        Decimal 3 (CharSign.signed.sum bytes % 1000).toNat check ∧
        ((CharSign.signed = .unsigned ∨ ∀ c ∈ bytes, c.toNat < 128) →
          Decimal 3 (byteSum bytes % 1000) check) ∧
        Shows made.1.mem 0 (frameHead :: (size ++ (bytes ++ (check ++ [newline])))) ∧
        made.2 = (frameHead :: (size ++ (bytes ++ (check ++ [newline])))).length :=
  make_shape .signed (fun _ => 0) nanoId appId typeAck Cmd.test [[49, 50], [51, 52, 53]]
    (by decide) (by decide)

/-- A parameter of one byte that is 128 and a char that is -128: the check digits are 101, and the
bytes add up to 357. -/
theorem check_ne_byteSum_high :
    parasLength [[0x80]] + 9 ≤ 9999 ∧
      0 ≤ CharSign.signed.sum (checked nanoId appId typeAck Cmd.test [[0x80]]) ∧
      ¬ ∃ check, Decimal 3 (byteSum (checked nanoId appId typeAck Cmd.test [[0x80]]) % 1000) check ∧
        Shows (make .signed (fun _ => 0) nanoId appId typeAck Cmd.test [[0x80]]).1.mem 11 check := by
  refine ⟨by decide, by decide, ?_⟩
  rintro ⟨check, hcheck, hshows⟩
  have hcells : check = [0x31, 0x30, 0x31] := by
    rw [Shows, hcheck.length] at hshows
    rw [← hshows]
    decide
  have hvalue := hcheck.value
  rw [hcells] at hvalue
  exact absurd hvalue (by decide)

end Frame

end SocketMaster
