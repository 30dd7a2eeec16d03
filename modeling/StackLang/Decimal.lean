import StackLang.Text.Numeral

/-!
# Decimals and floating-point numbers

A floating-point number is written with the fewest digits that are read back as
it, and a decimal is read as the nearest floating-point number. Both go by way
of exact fractions.
-/
namespace StackLang

/-!
## Decimals and fractions

A decimal is a whole coefficient times a power of ten, and as such a fraction. A
finite floating-point number is a whole significand times a power of two, and so
a fraction too. Values are compared and rounded as fractions of whole numbers;
nothing here is approximate.
-/

structure Decimal where
  coefficient : Nat
  exponent : Int
  deriving Repr, DecidableEq

/-- A nonnegative fraction. -/
structure Ratio where
  numerator : Nat
  denominator : Nat
  deriving Repr, DecidableEq

namespace Ratio

/-- A whole number times a power of two. -/
def ofBinary (significand : Nat) (exponent : Int) : Ratio :=
  match exponent with
  | .ofNat e => ⟨significand <<< e, 1⟩
  | .negSucc e => ⟨significand, 1 <<< (e + 1)⟩

/-- The exact absolute value of a finite floating-point number. -/
def ofFloat (x : Float) : Ratio :=
  let bits := x.toBits.toNat
  let fraction := bits % (1 <<< 52)
  let power := (bits >>> 52) % (1 <<< 11)
  if power = 0 then ofBinary fraction (-1074)
  else ofBinary (fraction + 1 <<< 52) ((power : Int) - 1075)

/-- The fraction divided by a power of ten. -/
def scaled (r : Ratio) (exponent : Int) : Ratio :=
  match exponent with
  | .ofNat e => ⟨r.numerator, r.denominator * Nat.pow 10 e⟩
  | .negSucc e => ⟨r.numerator * Nat.pow 10 (e + 1), r.denominator⟩

/-- The fraction divided by a power of two. -/
def halved (r : Ratio) (exponent : Int) : Ratio :=
  match exponent with
  | .ofNat e => ⟨r.numerator, r.denominator <<< e⟩
  | .negSucc e => ⟨r.numerator <<< (e + 1), r.denominator⟩

/-- The power of ten that a positive fraction is below, while it reaches the next lower one. -/
def point (r : Ratio) : Int :=
  let digits := fun n : Nat => ((Text.decimal n).length : Int)
  if r.denominator ≤ r.numerator then digits (r.numerator / r.denominator)
  else 1 - digits ((r.denominator - 1) / r.numerator)

/-- The power of two that a positive fraction reaches, while it is below the next higher one. -/
def magnitude (r : Ratio) : Int :=
  if r.denominator ≤ r.numerator then (r.numerator / r.denominator).log2
  else -(((r.denominator - 1) / r.numerator).log2 + 1)

/-- The nearest whole number, the even one of two that are equally near. -/
def round (r : Ratio) : Nat :=
  let below := r.numerator / r.denominator
  let rest := 2 * (r.numerator % r.denominator)
  if rest < r.denominator ∨ rest = r.denominator ∧ below % 2 = 0 then below else below + 1

/-- Rounding moves a fraction by at most one half. -/
theorem round_near (r : Ratio) (positive : 0 < r.denominator) :
    2 * (r.denominator * r.round) ≤ 2 * r.numerator + r.denominator ∧
      2 * r.numerator ≤ 2 * (r.denominator * r.round) + r.denominator := by
  have parts := Nat.div_add_mod r.numerator r.denominator
  have small := Nat.mod_lt r.numerator positive
  rw [round]
  split
  · omega
  · rw [Nat.mul_add]
    omega

/-- A whole number is not moved. -/
theorem round_mul (whole denominator : Nat) (positive : 0 < denominator) :
    round ⟨whole * denominator, denominator⟩ = whole := by
  simp [round, Nat.mul_div_cancel _ positive, positive]

end Ratio

namespace Decimal

/-- How many digits the coefficient has. -/
def length (d : Decimal) : Nat :=
  (Text.decimal d.coefficient).length

def ratio (d : Decimal) : Ratio :=
  (⟨d.coefficient, 1⟩ : Ratio).scaled (-d.exponent)

end Decimal

/-!
## The nearest floating-point number

A fraction is rounded to the nearest floating-point number, the one with the
even significand if two are equally near, and to infinity from half a step above
the largest on. The bits of nonnegative floating-point numbers, read as whole
numbers, are in the order of their values. So a significand that is rounded up
to the next power of two carries into the exponent by itself.
-/

def infinityBits : Nat :=
  0x7FF <<< 52

/-- The bits of the floating-point number nearest to a positive fraction. -/
def Ratio.nearestBits (r : Ratio) : Nat :=
  let exponent := max (r.magnitude - 52) (-1074)
  min ((exponent + 1074).toNat <<< 52 + (r.halved exponent).round) infinityBits

namespace Decimal

def infinity : Float :=
  Float.ofBits 0x7FF0000000000000

def nan : Float :=
  Float.ofBits 0x7FF8000000000000

/--
The bits of the nearest floating-point number. From ten to the 309 on every decimal rounds to
infinity, and below ten to the minus 330 to zero, so only the powers between them are computed.
-/
def nearestBits (d : Decimal) : Nat :=
  if d.coefficient = 0 then 0
  else if 309 < d.length + d.exponent then infinityBits
  else if d.length + d.exponent < -330 then 0
  else d.ratio.nearestBits

def toFloat (d : Decimal) : Float :=
  Float.ofBits (UInt64.ofNat d.nearestBits)

end Decimal

/-- No fraction is rounded beyond infinity. -/
theorem Ratio.nearestBits_le (r : Ratio) : r.nearestBits ≤ infinityBits :=
  Nat.min_le_right _ _

theorem Decimal.nearestBits_le (d : Decimal) : d.nearestBits ≤ infinityBits := by
  rw [nearestBits]
  split
  · exact Nat.zero_le _
  · split
    · exact Nat.le_refl _
    · split
      · exact Nat.zero_le _
      · exact d.ratio.nearestBits_le

/-!
## The shortest decimal of a floating-point number

A positive finite number is shown with the fewest digits that are read back as
it. Among those of that length the nearest is taken, the greater one on a tie.
Seventeen digits are enough for every number; the exact value, which is read
back without rounding, stands behind them.
-/

namespace Decimal

/-- The two neighbours of the value among the multiples of a power of ten, the nearer one first. -/
def neighbours (r : Ratio) (exponent : Int) : List Decimal :=
  let scaled := r.scaled exponent
  let below := scaled.numerator / scaled.denominator
  let rest := scaled.numerator % scaled.denominator
  if rest = 0 then [⟨below, exponent⟩]
  else if 2 * rest < scaled.denominator then [⟨below, exponent⟩, ⟨below + 1, exponent⟩]
  else [⟨below + 1, exponent⟩, ⟨below, exponent⟩]

/-- A decimal with the given number of digits that is read back as the number. -/
def ofLength? (x : Float) (digits : Nat) : Option Decimal :=
  let r := Ratio.ofFloat x
  (neighbours r (r.point - digits)).find? fun d => d.nearestBits = x.toBits.toNat

/-- The exact value: a fraction whose denominator is a power of two. -/
def exact (r : Ratio) : Decimal :=
  let places := r.denominator.log2
  ⟨r.numerator * Nat.pow 5 places, -places⟩

/-- The shortest decimal of a positive finite number. -/
def shortest (x : Float) : Decimal :=
  ((List.range 17).findSome? fun n => ofLength? x (n + 1)).getD (exact (Ratio.ofFloat x))

end Decimal

/-!
## Floating-point numbers as text

Two layouts are in use. Output is always positional and leaves a whole number
without a fraction. A literal shows that it is no integer: it ends a whole
number in `.0` and takes an exponent where the number is below a ten-thousandth
or from ten to the sixteenth on. Both are read by one grammar.
-/

namespace Decimal

structure Layout where
  /-- Written behind a whole number. -/
  wholeMark : List Char
  /-- Whether digits before this power of ten are written in their places. -/
  positional : Int → Bool

def output : Layout :=
  ⟨[], fun _ => true⟩

def literal : Layout :=
  ⟨['.', '0'], fun point => -4 < point && point ≤ 16⟩

def zeros (n : Nat) : List Char :=
  List.replicate n '0'

/-- The significant digits and the power of ten that the point stands at. -/
def significant (d : Decimal) : List Char × Int :=
  let digits := Text.decimal d.coefficient
  ((digits.reverse.dropWhile (· == '0')).reverse, digits.length + d.exponent)

/-- Digits with a point in its place: before them, behind them or between them. -/
def placePoint (wholeMark digits : List Char) (point : Int) : List Char :=
  match point with
  | .negSucc n => ['0', '.'] ++ zeros (n + 1) ++ digits
  | .ofNat 0 => ['0', '.'] ++ digits
  | .ofNat n =>
    if digits.length ≤ n then digits ++ zeros (n - digits.length) ++ wholeMark
    else digits.take n ++ '.' :: digits.drop n

/-- Digits with a point after the first of them, and an exponent. -/
def withExponent (digits : List Char) (point : Int) : List Char :=
  let fraction := match digits.drop 1 with
    | [] => []
    | rest => '.' :: rest
  digits.take 1 ++ fraction ++ 'e' :: Text.signedDecimal (point - 1)

def Layout.writeMagnitude (layout : Layout) (x : Float) : List Char :=
  if x == 0 then '0' :: layout.wholeMark
  else
    let (digits, point) := significant (shortest x)
    if layout.positional point then placePoint layout.wholeMark digits point
    else withExponent digits point

/-- A number that is not a number has no sign. -/
def Layout.write (layout : Layout) (x : Float) : List Char :=
  if x.isNaN then "NaN".toList
  else
    let magnitude := if x.isInf then "inf".toList else layout.writeMagnitude x.abs
    if x.toBits >>> 63 = 0 then magnitude else '-' :: magnitude

/-- The exponent part of a number: nothing, or a letter, an optional sign and digits. -/
def readExponent? : List Char → Option Int
  | [] => some 0
  | letter :: rest =>
    if letter = 'e' || letter = 'E' then
      match rest with
      | '+' :: digits => (Text.readDigits? digits).map Int.ofNat
      | '-' :: digits => (Text.readDigits? digits).map fun n => -Int.ofNat n
      | digits => (Text.readDigits? digits).map Int.ofNat
    else none

/-- Digits with an optional point, before, behind or between them, and an optional exponent. -/
def readUnsigned? (text : List Char) : Option Decimal :=
  let whole := text.takeWhile Text.isDigit
  let rest := text.dropWhile Text.isDigit
  let (fraction, rest) := match rest with
    | '.' :: rest => (rest.takeWhile Text.isDigit, rest.dropWhile Text.isDigit)
    | rest => ([], rest)
  if whole.isEmpty && fraction.isEmpty then none
  else
    (readExponent? rest).map fun exponent =>
      ⟨Text.digitsValue (whole ++ fraction), exponent - fraction.length⟩

def readMagnitude? (text : List Char) : Option Float :=
  let lower := text.map Char.toLower
  if lower = "inf".toList || lower = "infinity".toList then some infinity
  else if lower = "nan".toList then some nan
  else (readUnsigned? text).map toFloat

def read? (text : List Char) : Option Float :=
  match text with
  | '+' :: rest => readMagnitude? rest
  | '-' :: rest => (readMagnitude? rest).map (- ·)
  | rest => readMagnitude? rest

end Decimal

end StackLang
