/-!
# TemplateMigration.Binary64

Numbers of expressions, as 64-bit patterns of the IEEE 754 binary64 format.  Everything is exact
integer arithmetic on the pattern: reading a decimal (`ofDecimal`), recognising a small natural
number (`toNat?`), the distance of two numbers (`distance`), and equality up to two units in the
last place (`near`).
-/

namespace TemplateMigration

/-- A number given by the bits of its binary64 form. -/
structure Binary64 where
  bits : UInt64
  deriving DecidableEq, Repr

namespace Binary64

/-! ## Fields of the pattern -/

/-- Whether the sign bit is set. -/
def isNegative (x : Binary64) : Bool := x.bits.toNat / Nat.pow 2 63 == 1

/-- The eleven bits of the biased exponent. -/
def biasedExponent (x : Binary64) : Nat := x.bits.toNat / Nat.pow 2 52 % Nat.pow 2 11

/-- The fifty-two bits of the fraction. -/
def fraction (x : Binary64) : Nat := x.bits.toNat % Nat.pow 2 52

/-- Whether the pattern stands for no number. -/
def isNaN (x : Binary64) : Bool := x.biasedExponent == 2047 && x.fraction != 0

/-- Whether the pattern is one of the two zeros. -/
def isZero (x : Binary64) : Bool := x.bits.toNat % Nat.pow 2 63 == 0

/-- Whether the pattern is one of the two infinities. -/
def isInfinite (x : Binary64) : Bool := x.biasedExponent == 2047 && x.fraction == 0

/-- Positive zero. -/
def zero : Binary64 := ⟨0⟩

/-- Positive infinity. -/
def infinity : Binary64 := ⟨0x7ff0000000000000⟩

/-- The pattern given where there is no number. -/
def nan : Binary64 := ⟨0x7ff8000000000000⟩

/-! ## Reading a decimal -/

/-- `num / den` to the nearest integer, a half going to the even neighbour. -/
def roundHalfEven (num den : Nat) : Nat :=
  let q := num / den
  let r := num % den
  if 2 * r < den then q
  else if den < 2 * r then q + 1
  else q + q % 2

/-- The largest `k` with `2 ^ k ≤ num / den`, for positive `num` and `den`. -/
def floorLog2 (num den : Nat) : Int :=
  let k : Int := (num.log2 : Int) - (den.log2 : Int)
  let fits : Bool :=
    if 0 ≤ k then decide (den * Nat.pow 2 k.toNat ≤ num)
    else decide (den ≤ num * Nat.pow 2 (-k).toNat)
  if fits then k else k - 1

/-- The binary64 nearest to the positive fraction `num / den`, ties to even; fractions too large
for the format give infinity. -/
def ofFraction (num den : Nat) : Binary64 :=
  let q : Int := max (floorLog2 num den - 52) (-1074)
  let m :=
    if 0 ≤ q then roundHalfEven num (den * Nat.pow 2 q.toNat)
    else roundHalfEven (num * Nat.pow 2 (-q).toNat) den
  let pattern :=
    if m < Nat.pow 2 52 then m else (q + 1075).toNat * Nat.pow 2 52 + (m - Nat.pow 2 52)
  if pattern < infinity.bits.toNat then ⟨pattern.toUInt64⟩ else infinity

/-- The binary64 nearest to `digits * 10 ^ exponent`, ties to even.  Exponents that settle the
answer alone (beyond the largest number, or below half of the smallest) are answered first. -/
def ofDecimal (digits : Nat) (exponent : Int) : Binary64 :=
  if digits = 0 then ⟨0⟩
  else
    let places : Int := (Nat.toDigits 10 digits).length
    if 310 < places + exponent then infinity
    else if places + exponent < -325 then ⟨0⟩
    else if 0 ≤ exponent then ofFraction (digits * Nat.pow 10 exponent.toNat) 1
    else ofFraction digits (Nat.pow 10 (-exponent).toNat)

/-! ## Natural numbers -/

/-- The natural number that a pattern denotes exactly, if it denotes one; either zero is zero. -/
def toNat? (x : Binary64) : Option Nat :=
  if x.isZero then some 0
  else if x.isNegative || x.biasedExponent == 2047 || x.biasedExponent == 0 then none
  else
    let m := Nat.pow 2 52 + x.fraction
    if 1075 ≤ x.biasedExponent then some (m * Nat.pow 2 (x.biasedExponent - 1075))
    else
      let d := Nat.pow 2 (1075 - x.biasedExponent)
      if m % d = 0 then some (m / d) else none

/-! ## Distance -/

/-- The magnitude of a finite number, counted in the smallest positive number `2 ^ -1074`. -/
def magnitude (x : Binary64) : Nat :=
  if x.biasedExponent = 0 then x.fraction
  else (Nat.pow 2 52 + x.fraction) * Nat.pow 2 (x.biasedExponent - 1)

/-- A finite number, counted in the smallest positive number. -/
def units (x : Binary64) : Int :=
  if x.isNegative then -(x.magnitude : Int) else x.magnitude

/-- The absolute value of the difference of two numbers, rounded to a number.  An infinity has no
difference to itself, and a NaN to nothing. -/
def distance (x y : Binary64) : Binary64 :=
  if x.isNaN || y.isNaN then nan
  else if x.isInfinite || y.isInfinite then if x.bits == y.bits then nan else infinity
  else ofFraction (x.units - y.units).natAbs (Nat.pow 2 1074)

/-! ## Order and equality -/

/-- Equality of the denoted numbers: no NaN equals anything, and the two zeros are equal. -/
def sameNumber (x y : Binary64) : Bool :=
  !x.isNaN && !y.isNaN && (x.bits == y.bits || x.isZero && y.isZero)

/-- The key that orders patterns as their numbers: the complement when the sign bit is set, else
the sign bit flipped. -/
def orderKey (x : Binary64) : UInt64 :=
  if x.isNegative then ~~~x.bits else x.bits ^^^ 0x8000000000000000

/-- The order of the denoted numbers: no NaN is at most anything, and the two zeros are equal. -/
def isAtMost (x y : Binary64) : Bool :=
  !x.isNaN && !y.isNaN && (decide (x.orderKey ≤ y.orderKey) || x.isZero && y.isZero)

/-- The distance of two patterns in units in the last place: the wrapped difference of their
keys, read as a signed word, without its sign; the word that has no positive counterpart gives
the largest signed word. -/
def ulps (x y : Binary64) : Nat :=
  let d := x.orderKey - y.orderKey
  if d.toNat < Nat.pow 2 63 then d.toNat
  else if d.toNat = Nat.pow 2 63 then Nat.pow 2 63 - 1
  else Nat.pow 2 64 - d.toNat

/-- Two numbers count as equal when they are the same number, when their distance is zero, or when
they are at most two units in the last place apart. -/
def near (x y : Binary64) : Bool :=
  x.sameNumber y || (x.distance y).isAtMost zero || decide (x.ulps y ≤ 2)

end Binary64

end TemplateMigration
