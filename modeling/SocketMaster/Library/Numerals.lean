import Mathlib.Data.Nat.Digits.Defs
import Mathlib.Data.Nat.Log

/-!
# Numbers in text: `stoi`, `stod`, `to_string`

The C++ conversions between byte strings and numbers, in the `"C"` locale. `stoi` and `stod`
read the longest prefix that is a number and ignore what follows; they throw where there is
no such prefix or where the number does not fit.

`stod` rounds to the nearest `double`, ties to even. A number that overflows counts as out of
range, and so does one that is not zero and loses digits below the normal range; whether it is
below that range is judged after it has been rounded to 53 bits, as on x86.
-/
namespace Library

inductive ParseError where
  | invalidArgument | outOfRange
  deriving DecidableEq, Repr

def isSpace (c : UInt8) : Bool := c == 32 || (9 ≤ c && c ≤ 13)

def isDigit (c : UInt8) : Bool := 48 ≤ c && c ≤ 57

/-- The value of a hexadecimal digit, and 16 for any other character. -/
def hexValue (c : UInt8) : Nat :=
  if 48 ≤ c && c ≤ 57 then c.toNat - 48
  else if 97 ≤ c && c ≤ 102 then c.toNat - 87
  else if 65 ≤ c && c ≤ 70 then c.toNat - 55
  else 16

def isHexDigit (c : UInt8) : Bool := hexValue c < 16

/-- An optional sign, and whether it is a minus. -/
def takeSign (s : List UInt8) : Bool × List UInt8 :=
  match s with
  | [] => (false, [])
  | c :: t => if c = 43 then (false, t) else if c = 45 then (true, t) else (false, c :: t)

def natOf (base : Nat) (ds : List UInt8) : Nat := ds.foldl (fun n c => base * n + hexValue c) 0

def signed (neg : Bool) (n : Nat) : Int := if neg then -n else n

/-- `std::stoi` in base ten. -/
def stoi (s : List UInt8) : Except ParseError Int :=
  let (neg, s) := takeSign (s.dropWhile isSpace)
  let ds := s.takeWhile isDigit
  if ds = [] then .error .invalidArgument
  else
    let v := signed neg (natOf 10 ds)
    if v < -2 ^ 31 ∨ 2 ^ 31 ≤ v then .error .outOfRange else .ok v

/-- A `double`: sign, significand and binary exponent, or not finite. -/
inductive Double where
  | finite (neg : Bool) (mant : Nat) (exp : Int)
  | inf (neg : Bool)
  | nan
  deriving DecidableEq, Repr

/-- The numerator and denominator of `n / d / 2 ^ e`. -/
def scale (n d : Nat) (e : Int) : Nat × Nat :=
  if 0 ≤ e then (n, d * 2 ^ e.toNat) else (n * 2 ^ (-e).toNat, d)

/-- The exponent at which `n / d`, both positive, has 53 bits before the point. -/
def exponentOf (n d : Nat) : Int :=
  let e : Int := (Nat.log 2 n : Int) - Nat.log 2 d - 52
  let (a, b) := scale n d e
  if a < b * 2 ^ 52 then e - 1 else e

/-- The multiple of `2 ^ e` nearest to `n / d`, without its power, and whether it is exact. -/
def roundAt (n d : Nat) (e : Int) : Nat × Bool :=
  let (a, b) := scale n d e
  let q := a / b
  let r := a % b
  (if 2 * r < b ∨ 2 * r = b ∧ q % 2 = 0 then q else q + 1, r == 0)

/-- Rounded to 53 bits, with no least exponent, `n / d` stays below the normal range. -/
def tiny (n d : Nat) : Bool :=
  let e := exponentOf n d
  e < -1074 && !(e == -1075 && (roundAt n d e).1 == 2 ^ 53)

/-- The `double` nearest to `n / d`. The significand keeps 53 bits, or fewer at the least
exponent. -/
def toDouble (neg : Bool) (n d : Nat) : Except ParseError Double :=
  let e := max (exponentOf n d) (-1074)
  let (q, exact) := roundAt n d e
  if 971 < e ∨ e = 971 ∧ 2 ^ 53 ≤ q then .error .outOfRange
  else if tiny n d ∧ exact = false then .error .outOfRange
  else .ok (.finite neg q e)

/-- An optional exponent, introduced by the letter `c` in either case. -/
def takeExponent (c : UInt8) (s : List UInt8) : Int :=
  match s with
  | [] => 0
  | x :: t =>
    if x = c ∨ x + 32 = c then
      let (neg, t) := takeSign t
      signed neg (natOf 10 (t.takeWhile isDigit))
    else 0

/-- The digits before and after an optional point, and the rest. -/
def takeFraction (digit : UInt8 → Bool) (s : List UInt8) : List UInt8 × List UInt8 × List UInt8 :=
  let ip := s.takeWhile digit
  match s.dropWhile digit with
  | [] => (ip, [], [])
  | x :: t => if x = 46 then (ip, t.takeWhile digit, t.dropWhile digit) else (ip, [], x :: t)

/-- `m * 10 ^ e`; exponents far out of range are not raised. -/
def decimalDouble (neg : Bool) (m : Nat) (e : Int) : Except ParseError Double :=
  if m = 0 then .ok (.finite neg 0 0)
  else
    let top := e + (Nat.toDigits 10 m).length
    if top < -400 ∨ 400 < top then .error .outOfRange
    else if 0 ≤ e then toDouble neg (m * 10 ^ e.toNat) 1
    else toDouble neg m (10 ^ (-e).toNat)

/-- `m * 2 ^ e`; exponents far out of range are not raised. -/
def binaryDouble (neg : Bool) (m : Nat) (e : Int) : Except ParseError Double :=
  if m = 0 then .ok (.finite neg 0 0)
  else
    let top := e + Nat.log 2 m
    if top < -1200 ∨ 1200 < top then .error .outOfRange
    else if 0 ≤ e then toDouble neg (m * 2 ^ e.toNat) 1
    else toDouble neg m (2 ^ (-e).toNat)

def lower (c : UInt8) : UInt8 := if 65 ≤ c && c ≤ 90 then c + 32 else c

def stodDecimal (neg : Bool) (s : List UInt8) : Except ParseError Double :=
  let (ip, fp, rest) := takeFraction isDigit s
  if ip = [] ∧ fp = [] then .error .invalidArgument
  else decimalDouble neg (natOf 10 (ip ++ fp)) (takeExponent 101 rest - fp.length)

/-- `std::stod`. -/
def stod (s : List UInt8) : Except ParseError Double :=
  let (neg, s) := takeSign (s.dropWhile isSpace)
  -- "inf", "nan" and the prefix "0x", in either case
  if (s.take 3).map lower = [105, 110, 102] then .ok (.inf neg)
  else if (s.take 3).map lower = [110, 97, 110] then .ok .nan
  else if (s.take 2).map lower = [48, 120] then
    let (ip, fp, rest) := takeFraction isHexDigit (s.drop 2)
    if ip = [] ∧ fp = [] then stodDecimal neg s
    else binaryDouble neg (natOf 16 (ip ++ fp)) (takeExponent 112 rest - 4 * fp.length)
  else stodDecimal neg s

/-- Conversion to `int`, which drops the fraction; undefined where the result does not fit. -/
def Double.toInt? : Double → Option Int
  | .finite neg m e =>
    let v := signed neg (if 0 ≤ e then m * 2 ^ e.toNat else m / 2 ^ (-e).toNat)
    if v < -2 ^ 31 ∨ 2 ^ 31 ≤ v then none else some v
  | .inf _ => none
  | .nan => none

/-- The decimal digits of a natural number, as characters. -/
def decimal (n : Nat) : List UInt8 := (Nat.toDigits 10 n).map fun c => UInt8.ofNat c.toNat

/-- At least `width` decimal digits, with zeros in front. -/
def padded (width n : Nat) : List UInt8 :=
  List.replicate (width - (decimal n).length) 48 ++ decimal n

/-- `std::to_string(int)`. -/
def toString10 (x : Int) : List UInt8 := if x < 0 then 45 :: decimal x.natAbs else decimal x.natAbs

theorem length_decimal_le {n e : Nat} (he : 0 < e) (h : n < 10 ^ e) : (decimal n).length ≤ e := by
  rw [decimal, List.length_map]
  exact Nat.toDigits_length 10 n e he h

/-- An `int` takes at most eleven characters. -/
theorem length_toString10_le {x : Int} (hlo : -2 ^ 31 ≤ x) (hhi : x < 2 ^ 31) :
    (toString10 x).length ≤ 11 := by
  have habs : (decimal x.natAbs).length ≤ 10 := length_decimal_le (by omega) (by omega)
  unfold toString10
  split
  · rw [List.length_cons]
    omega
  · omega

end Library
