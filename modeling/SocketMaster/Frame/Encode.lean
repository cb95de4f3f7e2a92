import SocketMaster.Frame.Decode

/-!
# What `Frame::make` stores

The value `make` returns and the addresses it stores, in closed form, and the length digits
it leaves. From the digits it follows that `init` never gives back the size `make` returned:
the digits count the five head bytes, which `init` adds once more.
-/
namespace SocketMaster

open Library

/-- The bytes that the parameters take, each with the space behind it. -/
def parasLength (paras : List (List UInt8)) : Nat := (paras.map fun p => p.length + 1).sum

/-- The parameters as they stand in a frame. -/
def parasBytes (paras : List (List UInt8)) : List UInt8 := paras.flatMap fun p => p ++ [space]

@[simp] theorem parasLength_nil : parasLength [] = 0 := rfl

@[simp] theorem parasLength_cons (p : List UInt8) (paras : List (List UInt8)) :
    parasLength (p :: paras) = p.length + 1 + parasLength paras := by
  simp [parasLength]

@[simp] theorem length_parasBytes (paras : List (List UInt8)) :
    (parasBytes paras).length = parasLength paras := by
  simp [parasBytes, parasLength, List.length_flatMap]

/-- Both kinds of `char` agree on the lower half. -/
theorem digit_of_lt (cs : CharSign) {c : UInt8} (h : c.toNat < 128) :
    cs.digit c = (c.toNat : Int) - 48 := by
  cases cs
  · simp only [CharSign.digit, CharSign.val, if_pos h]
  · rfl

/-- The value of a digit character. -/
theorem digit_ofNat (cs : CharSign) {d : Nat} (h : d < 10) :
    cs.digit (UInt8.ofNat (48 + d)) = d := by
  have hd : (UInt8.ofNat (48 + d)).toNat = 48 + d := by
    rw [UInt8.toNat_ofNat']
    omega
  rw [digit_of_lt cs (by omega), hd]
  omega

/-- A digit character written by `make` and read by `init`. The digits of a negative number are
negative, and their characters stand in front of `'0'`. -/
theorem digit_toChar (cs : CharSign) {x : Int} (hlo : -9 ≤ x) (hhi : x ≤ 9) :
    cs.digit (toChar (x + 48)) = x := by
  have hnat : ((toChar (x + 48)).toNat : Int) = x + 48 := by
    rw [toChar, UInt8.toNat_ofNat']
    omega
  rw [digit_of_lt cs (by omega), hnat]
  omega

section Stores

variable (d : Stores UInt8) (i : Int)

theorem putParas_idx (pdst num : Int) (paras : List (List UInt8)) :
    (putParas d pdst num paras).2 = (pdst + parasLength paras, num + parasLength paras) := by
  induction paras generalizing d pdst num with
  | nil => simp [putParas]
  | cons p paras ih =>
    simp only [putParas, ih, parasLength_cons, Prod.mk.injEq]
    omega

theorem mem_log_putParas (pdst num : Int) (paras : List (List UInt8)) :
    i ∈ (putParas d pdst num paras).1.log ↔
      i ∈ d.log ∨ pdst ≤ i ∧ i < pdst + parasLength paras := by
  induction paras generalizing d pdst num with
  | nil =>
    have hno : ¬ (pdst ≤ i ∧ i < pdst + ((parasLength [] : Nat) : Int)) := by
      rw [parasLength_nil]; omega
    simp only [putParas, hno, or_false]
  | cons p paras ih =>
    simp only [putParas, ih, Stores.log_put, List.mem_append, List.mem_singleton,
      Stores.mem_log_puts, parasLength_cons, or_assoc]
    refine or_congr_right ⟨?_, ?_⟩ <;> omega

theorem mem_log_putDigits (v : Int) (k : Nat) :
    i ∈ (putDigits d a v k).log ↔ i ∈ d.log ∨ a - k < i ∧ i ≤ a := by
  induction k generalizing d a v with
  | zero =>
    have hno : ¬ (a - ((0 : Nat) : Int) < i ∧ i ≤ a) := by omega
    simp only [putDigits, hno, or_false]
  | succ k ih =>
    simp only [putDigits, ih, Stores.log_put, List.mem_append, List.mem_singleton, or_assoc]
    refine or_congr_right ⟨?_, ?_⟩ <;> omega

@[simp] theorem length_digitChars (v : Int) (k : Nat) : (digitChars v k).length = k := by
  induction k generalizing v with
  | zero => rfl
  | succ k ih => simp [digitChars, ih]

/-- Four length digits, read back. -/
theorem lengthAt_putDigits (cs : CharSign) {v : Int} (hv : 0 ≤ v) :
    Frame.lengthAt cs (putDigits d 4 v 4).mem 0 = v % 10000 := by
  have hdigit : ∀ x : Int, 0 ≤ x → cs.digit (toChar (x.tmod 10 + 48)) = x % 10 := by
    intro x hx
    rw [Int.tmod_eq_emod_of_nonneg hx]
    exact digit_toChar cs (by omega) (by omega)
  have hdiv : ∀ x : Int, 0 ≤ x → x.tdiv 10 = x / 10 := fun x hx => Int.tdiv_eq_ediv_of_nonneg hx
  simp only [Frame.lengthAt, putDigits, Stores.mem_put, Function.update_apply]
  simp only [Int.reduceAdd, Int.reduceSub, Int.reduceEq, if_true, if_false]
  rw [hdiv v hv, hdiv (v / 10) (by omega), hdiv (v / 10 / 10) (by omega), hdigit v hv,
    hdigit (v / 10) (by omega), hdigit (v / 10 / 10) (by omega),
    hdigit (v / 10 / 10 / 10) (by omega)]
  omega

theorem mem_putParas_of_lt {d : Stores UInt8} {i pdst num : Int} {paras : List (List UInt8)}
    (h : i < pdst) : (putParas d pdst num paras).1.mem i = d.mem i := by
  induction paras generalizing d pdst num with
  | nil => rfl
  | cons p paras ih =>
    rw [putParas, ih (by omega), Stores.mem_put, Function.update_of_ne (by omega),
      Stores.mem_puts_of_outside _ (.inl h)]

theorem mem_putDigits_of_outside {d : Stores UInt8} {i a v : Int} {k : Nat}
    (h : i ≤ a - k ∨ a < i) : (putDigits d a v k).mem i = d.mem i := by
  induction k generalizing d a v with
  | zero => rfl
  | succ k ih =>
    rw [putDigits, ih (by omega), Stores.mem_put, Function.update_of_ne (by omega)]

theorem shows_putParas (pdst num : Int) (paras : List (List UInt8)) :
    Shows (putParas d pdst num paras).1.mem pdst (parasBytes paras) := by
  induction paras generalizing d pdst num with
  | nil => exact shows_nil _ _
  | cons p paras ih =>
    have hrest := ih ((d.puts pdst p).put (pdst + p.length) space) (pdst + p.length + 1)
      (num + p.length + 1)
    have hpara : Shows ((d.puts pdst p).put (pdst + p.length) space).mem pdst (p ++ [space]) := by
      refine (shows_append ..).mpr ⟨(d.shows_puts pdst p).congr fun i _ hi => ?_, ?_⟩
      · rw [Stores.mem_put, Function.update_of_ne (by omega)]
      · simp
    rw [parasBytes, List.flatMap_cons, shows_append, putParas]
    refine ⟨hpara.congr fun i _ hi => mem_putParas_of_lt ?_, ?_⟩
    · rw [List.length_append, List.length_singleton] at hi
      omega
    · rw [List.length_append, List.length_singleton, Int.natCast_add, ← Int.add_assoc]
      exact hrest

/-- The digits end up in the order in which `digitChars` has them. -/
theorem shows_putDigits (i v : Int) (k : Nat) :
    Shows (putDigits d i v k).mem (i - k + 1) (digitChars v k) := by
  induction k generalizing d i v with
  | zero => exact shows_nil _ _
  | succ k ih =>
    have hat : i - (k + 1 : Nat) + 1 = i - 1 - (k : Int) + 1 := by omega
    have hlast : i - 1 - (k : Int) + 1 + (digitChars (v.tdiv 10) k).length = i := by
      rw [length_digitChars]
      omega
    rw [digitChars, shows_append, hat, hlast, putDigits]
    refine ⟨ih _ _ _, ?_⟩
    rw [shows_cons, mem_putDigits_of_outside (.inr (by omega)), Stores.mem_put,
      Function.update_self]
    exact ⟨rfl, shows_nil _ _⟩

/-- What is stored does not depend on what was there. -/
theorem agree_putParas {d d' : Stores UInt8} (h : Stores.Agree d d') (pdst num : Int)
    (paras : List (List UInt8)) :
    Stores.Agree (putParas d pdst num paras).1 (putParas d' pdst num paras).1 := by
  induction paras generalizing d d' pdst num with
  | nil => exact h
  | cons p paras ih => exact ih ((h.puts _ _).put _ _) _ _

theorem agree_putDigits {d d' : Stores UInt8} (h : Stores.Agree d d') (a v : Int) (k : Nat) :
    Stores.Agree (putDigits d a v k) (putDigits d' a v k) := by
  induction k generalizing d d' a v with
  | zero => exact h
  | succ k ih => exact ih (h.put _ _) _ _

end Stores

namespace Frame

variable (cs : CharSign) (dst : Int → UInt8) (host client type cmd : UInt8)
  (paras : List (List UInt8))

@[simp] theorem make_ret :
    (make cs dst host client type cmd paras).2 = parasLength paras + 13 := by
  simp only [make, putParas_idx]
  omega

/-- `make` stores the addresses below the size it returns, and no others. -/
theorem mem_log_make (i : Int) :
    i ∈ (make cs dst host client type cmd paras).1.log ↔ 0 ≤ i ∧ i < parasLength paras + 13 := by
  simp only [make, mem_log_putDigits, Stores.log_put, Stores.mem_log_puts, putParas_idx,
    mem_log_putParas, Stores.log_fresh, List.mem_append, List.mem_singleton, length_digitChars]
  constructor
  · intro h; simp at h; omega
  · intro h; simp; omega

/-- The bytes that the check characters are about. -/
def checked (host client type cmd : UInt8) (paras : List (List UInt8)) : List UInt8 :=
  host :: client :: type :: cmd :: parasBytes paras

/-- The control bytes and the parameters, before the check characters are made. -/
theorem shows_checked {d : Stores UInt8} (h : Shows d.mem 5 [host, client, type, cmd]) :
    Shows (putParas d 9 9 paras).1.mem 5 (checked host client type cmd paras) := by
  have hparas := shows_putParas d 9 9 paras
  have hctrl : Shows (putParas d 9 9 paras).1.mem 5 [host, client, type, cmd] :=
    h.congr fun i _ hi => mem_putParas_of_lt hi
  exact (shows_append _ _ [host, client, type, cmd] _).mpr ⟨hctrl, hparas⟩

/-- What stands in the array, byte by byte. -/
theorem shows_make :
    Shows (make cs dst host client type cmd paras).1.mem 0
      (frameHead :: (digitChars (parasLength paras + 9) 4 ++ (checked host client type cmd paras ++
        (digitChars ((cs.sum (checked host client type cmd paras)).tmod 1000) 3 ++ [newline])))) := by
  simp only [make, putParas_idx, sumLoop_val, Int.zero_add]
  set d := (((((Stores.fresh dst).put 0 frameHead).put 5 host).put 6 client).put 7 type).put 8 cmd
    with hd
  have hhead : d.mem 0 = frameHead := by simp [hd]
  have hctrl : Shows d.mem 5 [host, client, type, cmd] := by simp [hd]
  have hchecked := shows_checked host client type cmd paras hctrl
  have hlen : (checked host client type cmd paras).length = parasLength paras + 4 := by
    simp [checked]
  have hsum : cells (putParas d 9 9 paras).1.mem 5 (9 + (parasLength paras : Int) - 5).toNat =
      checked host client type cmd paras := by
    have hcount : (9 + (parasLength paras : Int) - 5).toNat = parasLength paras + 4 := by omega
    rw [hcount, ← hlen]
    exact hchecked
  rw [hsum]
  generalize (cs.sum (checked host client type cmd paras)).tmod 1000 = sum
  have hput := (putDigits (putParas d 9 9 paras).1 (9 + parasLength paras + 2) sum 3).shows_puts
    (9 + (parasLength paras : Int)) (digitChars sum 3)
  -- in front of the check characters, and behind the length, nothing is stored after the parameters
  have hkeep : ∀ i v : Int, i ≤ 0 ∨ 5 ≤ i → i < 9 + (parasLength paras : Int) →
      (putDigits (((putDigits (putParas d 9 9 paras).1 (9 + parasLength paras + 2) sum 3).puts
        (9 + (parasLength paras : Int)) (digitChars sum 3)).put (9 + (parasLength paras : Int) + 3)
          newline) 4 v 4).mem i = (putParas d 9 9 paras).1.mem i := by
    intro i v hi hi'
    rw [mem_putDigits_of_outside (by omega), Stores.mem_put, Function.update_of_ne (by omega),
      Stores.mem_puts_of_outside _ (.inl hi'), mem_putDigits_of_outside (.inl (by omega))]
  have hcheckAt : (0 + 1 + (4 : Nat) + (parasLength paras + 4 : Nat) : Int) =
      9 + parasLength paras := by omega
  rw [shows_cons, shows_append, shows_append, shows_append, length_digitChars, length_digitChars,
    hlen, hcheckAt]
  refine ⟨?_, ?_, ?_, ?_, ?_⟩
  · rw [hkeep 0 _ (.inl (by omega)) (by omega), mem_putParas_of_lt (by omega), hhead]
  · rw [Int.add_comm (parasLength paras : Int)]
    exact shows_putDigits _ 4 _ 4
  · exact hchecked.congr fun i hi hi' => hkeep i _ (.inr (by omega)) (by omega)
  · refine hput.congr fun i hi hi' => ?_
    rw [length_digitChars] at hi'
    rw [mem_putDigits_of_outside (.inr (by omega)), Stores.mem_put,
      Function.update_of_ne (by omega)]
  · have hlast : (9 + parasLength paras + (3 : Nat) : Int) = 9 + parasLength paras + 3 := rfl
    rw [hlast, shows_cons, mem_putDigits_of_outside (.inr (by omega)), Stores.mem_put,
      Function.update_self]
    exact ⟨rfl, shows_nil _ _⟩

/-- The four control bytes are the arguments, and nothing is stored over them. -/
theorem cells_ctrl_make :
    cells (make cs dst host client type cmd paras).1.mem 5 4 = [host, client, type, cmd] := by
  obtain ⟨-, h⟩ := (shows_cons ..).mp (shows_make cs dst host client type cmd paras)
  obtain ⟨-, h⟩ := (shows_append ..).mp h
  obtain ⟨h, -⟩ := (shows_append ..).mp h
  rw [length_digitChars] at h
  exact ((shows_append _ _ [host, client, type, cmd] _).mp h).1

/-- What `make` stores does not depend on what was in the array. -/
theorem agree_make (dst' : Int → UInt8) :
    Stores.Agree (make cs dst host client type cmd paras).1
      (make cs dst' host client type cmd paras).1 := by
  have hhead : Stores.Agree
      ((((((Stores.fresh dst).put 0 frameHead).put 5 host).put 6 client).put 7 type).put 8 cmd)
      ((((((Stores.fresh dst').put 0 frameHead).put 5 host).put 6 client).put 7 type).put 8 cmd) :=
    (((((Stores.Agree.fresh dst dst').put _ _).put _ _).put _ _).put _ _).put _ _
  have hparas := agree_putParas hhead 9 9 paras
  simp only [make, putParas_idx, sumLoop_val]
  have hcells := hparas.cells_eq (a := 5) (n := (9 + (parasLength paras : Int) - 5).toNat)
    fun i hi hi' => by
      rw [mem_log_putParas]
      by_cases hparam : 9 ≤ i
      · exact .inr ⟨hparam, by omega⟩
      · have : i = 5 ∨ i = 6 ∨ i = 7 ∨ i = 8 := by omega
        obtain rfl | rfl | rfl | rfl := this <;> simp
  rw [hcells]
  exact agree_putDigits (((agree_putDigits hparas _ _ 3).puts _ _).put _ _) _ _ 4

/-- The length digits that `make` leaves, read as `init` reads them. -/
theorem lengthAt_make :
    lengthAt cs (make cs dst host client type cmd paras).1.mem 0 =
      (parasLength paras + 9 : Int) % 10000 := by
  simp only [make, putParas_idx]
  rw [lengthAt_putDigits _ cs (by omega), Int.add_comm]

/-- What is asked of `make` and `init` together: decoding gives back what was encoded. -/
def RoundTrip : Prop :=
  let r := make cs dst host client type cmd paras
  let f := (init cs {} 0 r.2).val r.1.mem
  f.state = .ok ∧ f.host = host ∧ f.client = client ∧ f.type = type ∧ f.cmd = cmd ∧
    f.paras = paras ∧ f.size = r.2

instance : Decidable (RoundTrip cs dst host client type cmd paras) := by
  unfold RoundTrip
  infer_instance

/-- No frame makes the round trip: where `init` accepts it at all, it computes a size that is
five bytes more than `make` returned. -/
theorem not_roundTrip : ¬ RoundTrip cs dst host client type cmd paras := by
  rintro ⟨hok, -, -, -, -, -, hsize⟩
  have hlen := lengthAt_make cs dst host client type cmd paras
  rw [init_val _ _ _ (by rw [make_ret]; omega)] at hok hsize
  split_ifs at hok hsize with hhead hbig hwait
  simp only [Frame.size, decoded, hlen, make_ret] at hsize
  omega

/-- The acknowledgement of a test request. -/
theorem not_roundTrip_test :
    ¬ RoundTrip .signed (fun _ => 0) nanoId appId typeAck Cmd.test [[0x30]] := by
  decide

end Frame

end SocketMaster
