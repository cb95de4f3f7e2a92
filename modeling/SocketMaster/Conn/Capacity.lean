import SocketMaster.Frame.Grammar
import SocketMaster.Conn.Handlers
import Mathlib.Tactic.FieldSimp
import Mathlib.Tactic.Ring

/-!
# The storage figure of a `STATE` reply

The figure is the share of the used megabytes in the sum of the used and the free ones, rounded to
a whole percentage. Two calls of `statvfs` tell the counts, and either of them may fail. The reply
gives the percentage in three digits: a number of two digits gets a zero in front, and so does a
number of one digit.
-/
namespace SocketMaster

open Library

/-- The megabytes that a call finds free; none if it fails. -/
def freeMB (stat : Option StatVfs) : Nat := stat.elim 0 fun s => s.frsize * s.bavail / 1048576

/-- The megabytes that a call finds used; none if it fails. -/
def usedMB (stat : Option StatVfs) : Nat :=
  stat.elim 0 fun s => s.frsize * (s.blocks - s.bavail) / 1048576

/-- What a call of `statvfs` can tell: no more is free than there is, the file system has a size in
64 bits, and its counts of megabytes are `int`s. -/
structure StatFits (stat : Option StatVfs) : Prop where
  bavail_le : ∀ s ∈ stat, s.bavail ≤ s.blocks
  product_lt : ∀ s ∈ stat, s.frsize * s.blocks < 2 ^ 64
  free_lt : freeMB stat < 2 ^ 31
  used_lt : usedMB stat < 2 ^ 31

namespace AppConn

/-- The figure of a reply: a quotient that exists, a percentage, and three digits for it. -/
structure Figure (env : Env) : Prop where
  divisor : int32 (getStorageMB env.statFree .free) + int32 (getStorageMB env.statUsed .used) ≠ 0
  percentage : 0 ≤ togetCapacity env ∧ togetCapacity env ≤ 100
  digits : Decimal 3 (togetCapacity env).toNat (capacityText env)

/-- The figure is one whatever the operations that the language leaves undefined come to. -/
def FigureDefined (env : Env) : Prop := ∀ wild, Figure { env with wild }

/-! ## The counts of megabytes -/

section

variable {stat : Option StatVfs}

theorem getStorageMB_free (h : StatFits stat) : getStorageMB stat .free = freeMB stat := by
  cases stat with
  | none => rfl
  | some s =>
    have hle : s.frsize * s.bavail ≤ s.frsize * s.blocks :=
      Nat.mul_le_mul_left _ (h.bavail_le s rfl)
    have hlt := h.product_lt s rfl
    have hmb : s.frsize * s.bavail / 1048576 < 2 ^ 31 := h.free_lt
    show s.frsize * s.bavail % 18446744073709551616 / 1024 / 1024 % 4294967296 =
      s.frsize * s.bavail / 1048576
    omega

theorem getStorageMB_used (h : StatFits stat) : getStorageMB stat .used = usedMB stat := by
  cases stat with
  | none => rfl
  | some s =>
    have hle : s.frsize * s.bavail ≤ s.frsize * s.blocks :=
      Nat.mul_le_mul_left _ (h.bavail_le s rfl)
    have hlt := h.product_lt s rfl
    have hmb : s.frsize * (s.blocks - s.bavail) / 1048576 < 2 ^ 31 := h.used_lt
    show (s.blocks * s.frsize % 18446744073709551616 +
      (18446744073709551616 - s.frsize * s.bavail % 18446744073709551616)) %
        18446744073709551616 / 1024 / 1024 % 4294967296 =
      s.frsize * (s.blocks - s.bavail) / 1048576
    rw [Nat.mul_comm s.blocks]
    rw [Nat.mul_sub] at hmb ⊢
    omega

end

/-! ## The percentage -/

/-- `100 * used / (free + used)`, rounded. -/
def percent (free used : Nat) : Nat := (200 * used + (free + used)) / (2 * (free + used))

variable {free used : Nat}

theorem percent_le (h : 0 < free + used) : percent free used ≤ 100 := by
  refine Nat.lt_succ_iff.mp ((Nat.div_lt_iff_lt_mul (by omega)).mpr ?_)
  omega

theorem ten_le_percent_iff (h : 0 < free + used) :
    10 ≤ percent free used ↔ 19 * (free + used) ≤ 200 * used := by
  rw [percent, Nat.le_div_iff_mul_le (by omega)]
  omega

theorem floor_quotient (h : 0 < free + used) :
    ⌊((used : Int) : Rat) / (((free : Int) + (used : Int) : Int) : Rat) * 100 + 1 / 2⌋ =
      percent free used := by
  have hpos : ((free : Rat) + used) ≠ 0 := by
    have hne : ((free + used : Nat) : Rat) ≠ 0 := Nat.cast_ne_zero.mpr (by omega)
    rwa [Nat.cast_add] at hne
  have hquot : ((used : Int) : Rat) / (((free : Int) + (used : Int) : Int) : Rat) * 100 + 1 / 2 =
      ((200 * used + (free + used) : Nat) : Rat) / ((2 * (free + used) : Nat) : Rat) := by
    push_cast
    field_simp
    ring
  rw [hquot, Rat.floor_natCast_div_natCast]
  rfl

/-- The sum that the figure is divided by. -/
theorem sum_eq {env : Env} (hfree : StatFits env.statFree) (hused : StatFits env.statUsed) :
    int32 (getStorageMB env.statFree .free) + int32 (getStorageMB env.statUsed .used) =
      (freeMB env.statFree + usedMB env.statUsed : Nat) := by
  rw [getStorageMB_free hfree, getStorageMB_used hused, int32_of_lt hfree.free_lt,
    int32_of_lt hused.used_lt, Nat.cast_add]

/-- Where the sum of the counts is a divisor and an `int`, the figure is the percentage. -/
theorem togetCapacity_eq (env : Env) (hfree : StatFits env.statFree) (hused : StatFits env.statUsed)
    (hpos : 0 < freeMB env.statFree + usedMB env.statUsed)
    (hlt : freeMB env.statFree + usedMB env.statUsed < 2 ^ 31) :
    togetCapacity env = percent (freeMB env.statFree) (usedMB env.statUsed) := by
  have hle := percent_le hpos
  have hquot : (0 : Rat) ≤ ((usedMB env.statUsed : Int) : Rat) /
      (((freeMB env.statFree : Int) + (usedMB env.statUsed : Int) : Int) : Rat) * 100 := by
    rw [← Int.cast_natCast]
    positivity
  unfold togetCapacity
  rw [getStorageMB_free hfree, getStorageMB_used hused, int32_of_lt (by omega),
    int32_of_lt (by omega)]
  dsimp only
  rw [if_neg (by omega), if_pos hquot, floor_quotient hpos]
  exact if_pos (by omega)

/-- Where it is no `int`, the figure is undefined. -/
theorem togetCapacity_of_overflow (env : Env) (hfree : StatFits env.statFree)
    (hused : StatFits env.statUsed)
    (hover : 2 ^ 31 ≤ freeMB env.statFree + usedMB env.statUsed) :
    togetCapacity env = env.wild := by
  unfold togetCapacity
  dsimp only
  rw [sum_eq hfree hused]
  exact if_pos (by omega)

/-! ## The text -/

/-- A number of two or three digits is cut to three digits. -/
theorem decimal_cutText {n : Nat} (hlo : 10 ≤ n) (hhi : n ≤ 100) :
    Decimal 3 n (cutText (toString10 n)) := by
  have hall : ∀ n : Nat, n < 101 → 10 ≤ n → (cutText (toString10 n)).length = 3 ∧
      (cutText (toString10 n)).all isDigit ∧ natOf 10 (cutText (toString10 n)) = n := by
    decide +kernel
  obtain ⟨hlen, hdigit, hvalue⟩ := hall n (by omega) hlo
  exact ⟨hlen, List.all_eq_true.mp hdigit, hvalue⟩

/-- A number of one digit is not. -/
theorem length_cutText_of_lt {n : Nat} (h : n < 10) : (cutText (toString10 n)).length = 2 := by
  have hall : ∀ n : Nat, n < 10 → (cutText (toString10 n)).length = 2 := by decide +kernel
  exact hall n h

/-- The figure is well defined exactly if a megabyte is counted, the counts add up to an `int`, and
the percentage has at least two digits. -/
theorem figureDefined_iff (env : Env) (hfree : StatFits env.statFree)
    (hused : StatFits env.statUsed) :
    FigureDefined env ↔
      0 < freeMB env.statFree + usedMB env.statUsed ∧
        freeMB env.statFree + usedMB env.statUsed < 2 ^ 31 ∧
        19 * (freeMB env.statFree + usedMB env.statUsed) ≤ 200 * usedMB env.statUsed := by
  have hsum := sum_eq hfree hused
  have hvalue : ∀ wild : Int, 0 < freeMB env.statFree + usedMB env.statUsed →
      freeMB env.statFree + usedMB env.statUsed < 2 ^ 31 →
      togetCapacity { env with wild } = percent (freeMB env.statFree) (usedMB env.statUsed) :=
    fun wild => togetCapacity_eq { env with wild } hfree hused
  constructor
  · intro h
    have hpos : 0 < freeMB env.statFree + usedMB env.statUsed := by
      have hdiv := (h 0).divisor
      rw [hsum] at hdiv
      omega
    have hlt : freeMB env.statFree + usedMB env.statUsed < 2 ^ 31 := by
      by_contra hover
      have hwild : togetCapacity { env with wild := 101 } = 101 :=
        togetCapacity_of_overflow { env with wild := 101 } hfree hused (not_lt.mp hover)
      have hhundred := (h 101).percentage.2
      rw [hwild] at hhundred
      omega
    refine ⟨hpos, hlt, (ten_le_percent_iff hpos).mp ?_⟩
    by_contra hsmall
    have hlen := (h 0).digits.length
    rw [capacityText, hvalue 0 hpos hlt, length_cutText_of_lt (not_le.mp hsmall)] at hlen
    cases hlen
  · rintro ⟨hpos, hlt, hten⟩ wild
    have heq := hvalue wild hpos hlt
    have hle := percent_le hpos
    have hge := (ten_le_percent_iff hpos).mpr hten
    refine ⟨?_, ?_, ?_⟩
    · show int32 (getStorageMB env.statFree .free) + int32 (getStorageMB env.statUsed .used) ≠ 0
      rw [hsum]
      omega
    · rw [heq]
      omega
    · rw [capacityText, heq, Int.toNat_natCast]
      exact decimal_cutText hge hle

/-- A system on which the two calls of `statvfs` answer `stat`. -/
def onFileSystem (stat : Option StatVfs) : Env where
  arr := fun _ => 0
  wild := 0
  popen := none
  clock := fun _ => none
  statFree := stat
  statUsed := stat
  system := fun _ => 0

/-- A hundred megabytes, of which `avail` are free. -/
def hundredMB (avail : Nat) : Option StatVfs := some ⟨1048576, 100, avail⟩

theorem statFits_hundredMB {avail : Nat} (h : avail ≤ 100) : StatFits (hundredMB avail) := by
  refine ⟨?_, ?_, ?_, ?_⟩
  · rintro s ⟨⟩
    exact h
  · rintro s ⟨⟩
    show 1048576 * 100 < 2 ^ 64
    decide
  · show 1048576 * avail / 1048576 < 2 ^ 31
    omega
  · show 1048576 * (100 - avail) / 1048576 < 2 ^ 31
    omega

theorem statFits_none : StatFits none := by
  refine ⟨?_, ?_, by decide, by decide⟩
  · rintro s ⟨⟩
  · rintro s ⟨⟩

/-- At 40 percent the text is `040`. -/
theorem figureDefined_iff_forty :
    FigureDefined (onFileSystem (hundredMB 60)) ↔
      0 < freeMB (hundredMB 60) + usedMB (hundredMB 60) ∧
        freeMB (hundredMB 60) + usedMB (hundredMB 60) < 2 ^ 31 ∧
        19 * (freeMB (hundredMB 60) + usedMB (hundredMB 60)) ≤ 200 * usedMB (hundredMB 60) :=
  figureDefined_iff (onFileSystem (hundredMB 60)) (statFits_hundredMB (by decide))
    (statFits_hundredMB (by decide))

/-- If both calls fail, zero is divided by zero, and 5 percent are written `05`. -/
theorem not_figureDefined :
    (StatFits none ∧ ¬ FigureDefined (onFileSystem none)) ∧
      StatFits (hundredMB 95) ∧ capacityText (onFileSystem (hundredMB 95)) = [0x30, 0x35] ∧
        ¬ FigureDefined (onFileSystem (hundredMB 95)) := by
  have hfive : capacityText (onFileSystem (hundredMB 95)) = [0x30, 0x35] := by decide +kernel
  refine ⟨⟨statFits_none, fun h => (h 0).divisor rfl⟩, statFits_hundredMB (by decide), hfive, ?_⟩
  intro h
  have hlen := (h 0).digits.length
  have htext : capacityText { onFileSystem (hundredMB 95) with wild := 0 } = [0x30, 0x35] := hfive
  rw [htext] at hlen
  cases hlen

end AppConn

end SocketMaster
