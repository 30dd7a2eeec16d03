/-!
# Whole numbers in decimal

Writing uses no leading zeros. Reading takes any number of them and an optional
sign; a number without sign takes `+` only. A text whose value does not fit the
range of the number read is refused, never reduced.
-/
namespace StackLang.Text

def isDigit (c : Char) : Bool :=
  '0' ≤ c && c ≤ '9'

def digitValue (c : Char) : Nat :=
  c.toNat - '0'.toNat

def digit (n : Nat) : Char :=
  Char.ofNat ('0'.toNat + n % 10)

/-- The value of a row of digits, the first of them the most significant. -/
def digitsValue (digits : List Char) : Nat :=
  digits.foldl (fun value c => 10 * value + digitValue c) 0

/-- The decimal digits of a number. -/
def decimal (n : Nat) : List Char :=
  if n < 10 then [digit n] else decimal (n / 10) ++ [digit n]

/-- The decimal digits of an integer after its sign. -/
def signedDecimal (n : Int) : List Char :=
  match n with
  | .ofNat n => decimal n
  | .negSucc n => '-' :: decimal (n + 1)

/-- A number written with at least one digit and nothing else. -/
def readDigits? (text : List Char) : Option Nat :=
  if !text.isEmpty && text.all isDigit then some (digitsValue text) else none

/-- A number below `limit`, with an optional plus sign. -/
def readBelow? (limit : Nat) (text : List Char) : Option Nat :=
  let digits := match text with
    | '+' :: digits => digits
    | digits => digits
  (readDigits? digits).filter (· < limit)

def readLabel? (text : List Char) : Option UInt32 :=
  (readBelow? UInt32.size text).map UInt32.ofNat

def readCount? (text : List Char) : Option Nat :=
  readBelow? UInt64.size text

/-- An integer of 64 bits in two's complement, with an optional sign. -/
def readInt64? (text : List Char) : Option Int64 :=
  let value := match text with
    | '+' :: digits => (readDigits? digits).map Int.ofNat
    | '-' :: digits => (readDigits? digits).map fun n => -Int.ofNat n
    | digits => (readDigits? digits).map Int.ofNat
  (value.filter fun n => Int64.minValue.toInt ≤ n && n ≤ Int64.maxValue.toInt).map Int64.ofInt

theorem digitValue_digit (n : Nat) : digitValue (digit n) = n % 10 := by
  have values : ∀ m < 10, digitValue (Char.ofNat ('0'.toNat + m)) = m := by decide
  exact values _ (Nat.mod_lt _ (by decide))

theorem isDigit_digit (n : Nat) : isDigit (digit n) = true := by
  have digits : ∀ m < 10, isDigit (Char.ofNat ('0'.toNat + m)) = true := by decide
  exact digits _ (Nat.mod_lt _ (by decide))

theorem digitsValue_concat (digits : List Char) (c : Char) :
    digitsValue (digits ++ [c]) = 10 * digitsValue digits + digitValue c := by
  simp [digitsValue]

theorem digitsValue_decimal (n : Nat) : digitsValue (decimal n) = n := by
  fun_induction decimal n with
  | case1 n small =>
    simp only [digitsValue, List.foldl_cons, List.foldl_nil, digitValue_digit]
    omega
  | case2 n large ih =>
    rw [digitsValue_concat, ih, digitValue_digit]
    omega

theorem isDigit_of_mem_decimal {n : Nat} {c : Char} (h : c ∈ decimal n) : isDigit c = true := by
  fun_induction decimal n with
  | case1 n small =>
    rw [List.mem_singleton] at h
    rw [h]
    exact isDigit_digit n
  | case2 n large ih =>
    rcases List.mem_append.mp h with earlier | last
    · exact ih earlier
    · rw [List.mem_singleton] at last
      rw [last]
      exact isDigit_digit n

theorem decimal_ne_nil (n : Nat) : decimal n ≠ [] := by
  rw [decimal]
  split <;> simp

theorem readDigits?_decimal (n : Nat) : readDigits? (decimal n) = some n := by
  have digits : (decimal n).all isDigit = true := by
    rw [List.all_eq_true]
    exact fun c member => isDigit_of_mem_decimal member
  simp [readDigits?, decimal_ne_nil, digits, digitsValue_decimal]

/-- The first character of a numeral is a digit. -/
theorem decimal_ne_cons {n : Nat} {c : Char} (sign : isDigit c = false) (rest : List Char) :
    decimal n ≠ c :: rest := by
  intro h
  have digit : isDigit c = true := isDigit_of_mem_decimal (n := n) (by simp [h])
  rw [sign] at digit
  cases digit

theorem readBelow?_decimal {n limit : Nat} (h : n < limit) :
    readBelow? limit (decimal n) = some n := by
  rw [readBelow?]
  · simp [readDigits?_decimal, h]
  · exact fun rest plus => decimal_ne_cons (by decide) rest plus

theorem readInt64?_signedDecimal (n : Int64) :
    readInt64? (signedDecimal n.toInt) = some n := by
  have inRange : (decide (Int64.minValue.toInt ≤ n.toInt) &&
      decide (n.toInt ≤ Int64.maxValue.toInt)) = true := by
    rw [Bool.and_eq_true, decide_eq_true_eq, decide_eq_true_eq]
    exact ⟨n.minValue_le_toInt, n.toInt_le⟩
  have same := Int64.ofInt_toInt n
  generalize n.toInt = value at inRange same
  cases value with
  | ofNat m =>
    rw [signedDecimal, readInt64?]
    · rw [readDigits?_decimal, Option.map_some, Option.filter_some, if_pos inRange,
        Option.map_some, same]
    · exact fun rest plus => decimal_ne_cons (by decide) rest plus
    · exact fun rest minus => decimal_ne_cons (by decide) rest minus
  | negSucc m =>
    have negated : -Int.ofNat (m + 1) = Int.negSucc m := rfl
    rw [signedDecimal, readInt64?, readDigits?_decimal, Option.map_some, negated,
      Option.filter_some, if_pos inRange, Option.map_some, same]

end StackLang.Text
