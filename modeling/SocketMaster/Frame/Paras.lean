import SocketMaster.Library.Run
import SocketMaster.Frame.Packet

/-!
# The parameter loop, turn by turn

The loop of `init` that cuts out the parameters has two pointers and a countdown. Between the
pointers there is never a space, so a space at the first of them is at both, and every turn moves
the second pointer by one byte, whichever of its branches it takes.
-/
namespace SocketMaster

open Library

/-- The variables of the loop. -/
structure ParaScan where
  startPtr : Int
  endPtr : Int
  paras : List (List UInt8)
  paraLen : Nat

namespace ParaScan

/-- One turn of the loop; `none` if its condition fails. -/
def turn (m : Int → UInt8) (s : ParaScan) : Option ParaScan :=
  if m s.endPtr ≠ newline ∧ 0 < s.paraLen then
    let s := { s with paraLen := s.paraLen - 1 }
    if m s.startPtr = space then
      some { s with startPtr := s.startPtr + 1, endPtr := s.startPtr + 1 }
    else if m s.endPtr ≠ space then some { s with endPtr := s.endPtr + 1 }
    else if s.startPtr < s.endPtr then
      some { s with
        paras := s.paras ++ [cells m s.startPtr (s.endPtr - s.startPtr).toNat]
        endPtr := s.endPtr + 1
        startPtr := s.endPtr + 1 }
    else some s
  else none

/-- The variables before the first turn, where `init` has found `length` at `ptr`. -/
def start (ptr length : Int) : ParaScan := ⟨ptr + 9, ptr + 9, [], (length - 4).toNat⟩

/-- Some turns of the loop. -/
def Turns (m : Int → UInt8) (s : ParaScan) (turns : List Unit) (t : ParaScan) : Prop :=
  Run (fun s _ t => turn m s = some t) s turns t

/-- What the loop leaves when it goes on from here. -/
def result (m : Int → UInt8) (s : ParaScan) : List (List UInt8) :=
  (paraLoop s.startPtr s.endPtr s.paras s.paraLen).val m

/-- The second pointer has come to `endPos - paraLen`, and no space is between the two. -/
structure Inv (m : Int → UInt8) (endPos : Int) (s : ParaScan) : Prop where
  startPtr_le : s.startPtr ≤ s.endPtr
  endPtr_add : s.endPtr + s.paraLen = endPos
  ne_space : ∀ a, s.startPtr ≤ a → a < s.endPtr → m a ≠ space

variable {m : Int → UInt8} {endPos : Int} {s t : ParaScan}

theorem inv_start (m : Int → UInt8) (ptr : Int) {length : Int} (h : 4 ≤ length) :
    Inv m (ptr + length + 5) (start ptr length) := by
  refine ⟨Int.le_refl _, ?_, fun a hlo hhi => absurd hlo (not_le.mpr hhi)⟩
  show ptr + 9 + ((length - 4).toNat : Int) = ptr + length + 5
  omega

/-- The branches of a turn. The one that would leave both pointers where they are is not among
them. -/
inductive Turn (m : Int → UInt8) : ParaScan → ParaScan → Prop where
  | space {p : Int} {paras : List (List UInt8)} {n : Nat} : m p = space →
      Turn m ⟨p, p, paras, n + 1⟩ ⟨p + 1, p + 1, paras, n⟩
  | char {p q : Int} {paras : List (List UInt8)} {n : Nat} : m q ≠ newline → m q ≠ space →
      Turn m ⟨p, q, paras, n + 1⟩ ⟨p, q + 1, paras, n⟩
  | para {p q : Int} {paras : List (List UInt8)} {n : Nat} : m q = space → p < q →
      Turn m ⟨p, q, paras, n + 1⟩ ⟨q + 1, q + 1, paras ++ [cells m p (q - p).toNat], n⟩

/-- The loop takes a turn only if a byte is left. -/
theorem exists_paraLen (hturn : s.turn m = some t) : ∃ n, s.paraLen = n + 1 := by
  refine Nat.exists_eq_succ_of_ne_zero fun hzero => ?_
  have hnone : s.turn m = none := if_neg (by omega)
  cases hnone.symm.trans hturn

theorem Inv.turn (h : Inv m endPos s) (hturn : s.turn m = some t) : Turn m s t := by
  obtain ⟨n, hn⟩ := exists_paraLen hturn
  obtain ⟨p, q, paras, k⟩ := s
  subst hn
  unfold ParaScan.turn at hturn
  dsimp only at hturn
  split_ifs at hturn with hcond hstart hend hlt
  · -- a space at the first pointer is at the second
    have hpq : p = q := by
      by_contra hne
      exact h.ne_space p (Int.le_refl p) (lt_of_le_of_ne h.startPtr_le hne) hstart
    cases hturn
    subst hpq
    exact .space hstart
  · cases hturn
    exact .char hcond.1 hend
  · cases hturn
    exact .para (not_not.mp hend) hlt
  · -- the pointers are at one byte, which is a space and is none
    have hpq : p = q := le_antisymm h.startPtr_le (not_lt.mp hlt)
    exact absurd (hpq ▸ not_not.mp hend) hstart

/-- A turn consumes one byte. -/
theorem Turn.consumes (h : Turn m s t) : t.endPtr = s.endPtr + 1 ∧ s.paraLen = t.paraLen + 1 := by
  cases h with
  | space _ => exact ⟨rfl, rfl⟩
  | char _ _ => exact ⟨rfl, rfl⟩
  | para _ _ => exact ⟨rfl, rfl⟩

theorem Inv.step (h : Inv m endPos s) (hturn : Turn m s t) : Inv m endPos t := by
  obtain ⟨hle, hadd, hne⟩ := h
  cases hturn with
  | space hs =>
    dsimp only at hadd
    exact ⟨Int.le_refl _, by dsimp only; omega, fun a hlo hhi => absurd hlo (not_le.mpr hhi)⟩
  | @char p q paras n hnl hs =>
    dsimp only at hle hadd hne
    refine ⟨by dsimp only; omega, by dsimp only; omega, fun a hlo hhi => ?_⟩
    dsimp only at hlo hhi
    by_cases haq : a = q
    · rw [haq]
      exact hs
    · exact hne a hlo (by omega)
  | para hs hlt =>
    dsimp only at hadd
    exact ⟨Int.le_refl _, by dsimp only; omega, fun a hlo hhi => absurd hlo (not_le.mpr hhi)⟩

/-- The loop goes on with the next turn, and what it leaves does not change. -/
theorem result_turn (hturn : s.turn m = some t) : s.result m = t.result m := by
  obtain ⟨n, hn⟩ := exists_paraLen hturn
  obtain ⟨p, q, paras, k⟩ := s
  subst hn
  unfold ParaScan.turn at hturn
  dsimp only at hturn
  show (paraLoop p q paras (n + 1)).val m = t.result m
  rw [paraLoop_val_succ]
  by_cases hnl : m q = newline
  · rw [if_neg fun hcond => hcond.1 hnl] at hturn
    cases hturn
  · rw [if_neg hnl]
    rw [if_pos ⟨hnl, Nat.succ_pos n⟩] at hturn
    split_ifs at hturn ⊢ <;> cases hturn <;> rfl

/-- When the condition of the loop fails, the parameters are those found so far. -/
theorem result_of_none (hturn : s.turn m = none) : s.result m = s.paras := by
  obtain ⟨p, q, paras, n⟩ := s
  unfold ParaScan.turn at hturn
  dsimp only at hturn
  cases n with
  | zero => rfl
  | succ n =>
    show (paraLoop p q paras (n + 1)).val m = paras
    rw [paraLoop_val_succ]
    by_cases hnl : m q = newline
    · exact if_pos hnl
    · rw [if_pos ⟨hnl, Nat.succ_pos n⟩] at hturn
      split_ifs at hturn

/-- What the loop leaves, by its next turn. -/
theorem result_eq (m : Int → UInt8) (s : ParaScan) :
    s.result m = (s.turn m).elim s.paras (result m) := by
  cases hturn : s.turn m with
  | none => exact result_of_none hturn
  | some t => exact result_turn hturn

/-! ## The whole loop -/

/-- After some turns the second pointer is that many bytes further. -/
theorem Inv.turns (h : Inv m endPos s) {turns : List Unit} (run : Turns m s turns t) :
    Inv m endPos t ∧ t.endPtr = s.endPtr + turns.length ∧ s.paraLen = t.paraLen + turns.length ∧
      s.result m = t.result m := by
  induction run with
  | nil s => exact ⟨h, (Int.add_zero _).symm, rfl, rfl⟩
  | @cons s u t e turns hturn _ ih =>
    obtain ⟨hend, hlen⟩ := (h.turn hturn).consumes
    obtain ⟨hinv, hend', hlen', hresult⟩ := ih (h.step (h.turn hturn))
    refine ⟨hinv, ?_, ?_, (result_turn hturn).trans hresult⟩
    · rw [hend', hend, List.length_cons]
      omega
    · rw [hlen, hlen', List.length_cons]
      omega

/-- The loop comes to an end, since each turn leaves it one byte less. -/
theorem Inv.exists_stop (h : Inv m endPos s) : ∃ turns t, Turns m s turns t ∧ t.turn m = none := by
  induction hn : s.paraLen generalizing s with
  | zero =>
    refine ⟨[], s, .nil s, if_neg ?_⟩
    rintro ⟨-, hpos⟩
    omega
  | succ n ih =>
    cases hturn : s.turn m with
    | none => exact ⟨[], s, .nil s, hturn⟩
    | some u =>
      have hstep := h.turn hturn
      obtain ⟨turns, t, run, hstop⟩ := ih (h.step hstep) (by have := hstep.consumes.2; omega)
      exact ⟨() :: turns, t, .cons hturn run, hstop⟩

theorem result_start (m : Int → UInt8) (ptr length : Int) :
    (start ptr length).result m = spaceWords (cells m (ptr + 9) (length - 4).toNat) := by
  have hloop := paraLoop_val m (ptr + 9) [] [] (length - 4).toNat rfl (by simp)
  simp only [List.length_nil, Int.natCast_zero, Int.add_zero, List.nil_append] at hloop
  rw [← words_eq_spaceWords]
  exact hloop

/-- The loop of `init` on any bytes, with any length it can be entered with: it goes on turn by
turn; its pointers after each turn, its end and the parameters it leaves, and the bytes it looks
at. -/
theorem paras_of_four_le (m : Int → UInt8) (ptr length : Int) (h : 4 ≤ length) :
    let paras := spaceWords (cells m (ptr + 9) (length - 4).toNat)
    (∀ s : ParaScan, (paraLoop s.startPtr s.endPtr s.paras s.paraLen).val m =
      (s.turn m).elim s.paras fun t =>
        (paraLoop t.startPtr t.endPtr t.paras t.paraLen).val m) ∧
    (∀ turns s, Turns m (start ptr length) turns s →
      s.startPtr ≤ s.endPtr ∧ s.endPtr = ptr + 9 + turns.length ∧
        s.paraLen + turns.length = (length - 4).toNat) ∧
    (∃ turns s, Turns m (start ptr length) turns s ∧ s.turn m = none ∧ s.paras = paras) ∧
    (paraLoop (ptr + 9) (ptr + 9) [] (length - 4).toNat).val m = paras ∧
    Reads.Within (fun a => ptr + 9 ≤ a ∧ a ≤ ptr + length + 5)
      (paraLoop (ptr + 9) (ptr + 9) [] (length - 4).toNat) m ∧
    ∀ (cs : CharSign) (f : Frame) (len : Int), m ptr = frameHead →
      Frame.lengthAt cs m ptr = length → length ≤ 256 → length ≤ len →
        ((Frame.init cs f ptr len).val m).paras = paras := by
  intro paras
  have hinv := inv_start m ptr h
  refine ⟨result_eq m, ?_, ?_, result_start m ptr length, ?_, ?_⟩
  · intro turns s run
    obtain ⟨hs, hend, hlen, -⟩ := hinv.turns run
    exact ⟨hs.startPtr_le, hend, hlen.symm⟩
  · obtain ⟨turns, s, run, hstop⟩ := hinv.exists_stop
    obtain ⟨-, -, -, hresult⟩ := hinv.turns run
    refine ⟨turns, s, run, hstop, ?_⟩
    rw [← result_of_none hstop, ← hresult]
    exact result_start m ptr length
  · refine paraLoop_within m (ptr + 9) (ptr + 9) [] _ (Int.le_refl _) fun a hlo hhi => ⟨hlo, ?_⟩
    omega
  · intro cs f len hhead hlength hbig hle
    rw [Frame.init_val cs f m (by omega), hlength, if_neg (not_not.mpr hhead), if_neg (by omega),
      if_neg (by omega)]
    show words (cells m (ptr + 9) (Frame.lengthAt cs m ptr - 4).toNat) = paras
    rw [hlength, words_eq_spaceWords]

/-- A frame of length 12 up to its body, with the parameters ` ab  c x`: two separators in a row,
and none behind the last word. -/
def mixedBytes : List UInt8 :=
  [0x53, 48, 48, 49, 50, 49, 49, 49, 49, 32, 97, 98, 32, 32, 99, 32, 120]

theorem paras_of_four_le_mixed :
    let m := overlay mixedBytes fun _ => 0
    (∃ turns s, Turns m (start 0 12) turns s ∧ s.turn m = none ∧ s.paras = [[97, 98], [99]]) ∧
      ((Frame.init .signed {} 0 12).val m).paras = [[97, 98], [99]] := by
  intro m
  have hwords : spaceWords (cells m (0 + 9) ((12 : Int) - 4).toNat) = [[97, 98], [99]] := by
    decide +kernel
  obtain ⟨-, -, hstop, -, -, hinit⟩ := paras_of_four_le m 0 12 (by decide)
  rw [hwords] at hstop hinit
  exact ⟨hstop, hinit .signed {} 12 (by decide) (by decide) (by decide) (by decide)⟩

end ParaScan

end SocketMaster
