import StackLang.Decimal
import StackLang.Proofs.FloatBits
import StackLang.Proofs.NearestFloat

/-!
# Floats read back

A float is read back from every layout it is written in. The digits of its
shortest decimal lose the zeros at their end and get others to reach the point;
neither changes what they are rounded to.
-/
namespace StackLang

namespace Text

theorem foldl_digits (digits : List Char) (start : Nat) :
    digits.foldl (fun value c => 10 * value + digitValue c) start =
      start * 10 ^ digits.length + digitsValue digits := by
  induction digits generalizing start with
  | nil => simp [digitsValue]
  | cons c rest ih =>
    rw [digitsValue, List.foldl_cons, List.foldl_cons, ih, ih (10 * 0 + digitValue c),
      List.length_cons, Nat.pow_succ, Nat.add_mul, Nat.add_mul]
    rw [Nat.mul_comm 10 start, Nat.mul_assoc, Nat.mul_comm 10]
    omega

theorem digitsValue_append (digits more : List Char) :
    digitsValue (digits ++ more) = digitsValue digits * 10 ^ more.length + digitsValue more := by
  rw [digitsValue, List.foldl_append]
  exact foldl_digits more _

theorem digitsValue_zeros (n : Nat) : digitsValue (List.replicate n '0') = 0 := by
  induction n with
  | zero => rfl
  | succ n ih =>
    rw [List.replicate_succ', digitsValue_concat, ih]
    rfl

theorem digitsValue_append_zeros (digits : List Char) (n : Nat) :
    digitsValue (digits ++ List.replicate n '0') = digitsValue digits * 10 ^ n := by
  rw [digitsValue_append, digitsValue_zeros, List.length_replicate, Nat.add_zero]

theorem digitsValue_zeros_append (n : Nat) (digits : List Char) :
    digitsValue (List.replicate n '0' ++ digits) = digitsValue digits := by
  rw [digitsValue_append, digitsValue_zeros, Nat.zero_mul, Nat.zero_add]

/-- The text consists of digits. -/
def AreDigits (text : List Char) : Prop :=
  ∀ c ∈ text, isDigit c = true

namespace AreDigits

variable {text more : List Char}

theorem append (first : AreDigits text) (second : AreDigits more) : AreDigits (text ++ more) :=
  List.forall_mem_append.mpr ⟨first, second⟩

theorem zeros (n : Nat) : AreDigits (List.replicate n '0') := by
  intro c member
  rw [List.eq_of_mem_replicate member]
  rfl

theorem readDigits? (digits : AreDigits text) (nonempty : text ≠ []) :
    readDigits? text = some (digitsValue text) := by
  have all : text.all isDigit = true := List.all_eq_true.mpr digits
  simp [Text.readDigits?, nonempty, all]

theorem takeWhile (digits : AreDigits text) {rest : List Char}
    (ends : ∀ c, rest.head? = some c → isDigit c = false) :
    (text ++ rest).takeWhile isDigit = text := by
  rw [List.takeWhile_append_of_pos digits]
  cases rest with
  | nil => simp
  | cons c rest => simp [ends c rfl]

theorem dropWhile (digits : AreDigits text) {rest : List Char}
    (ends : ∀ c, rest.head? = some c → isDigit c = false) :
    (text ++ rest).dropWhile isDigit = rest := by
  rw [List.dropWhile_append_of_pos digits]
  cases rest with
  | nil => simp
  | cons c rest => simp [ends c rfl]

end AreDigits

end Text

namespace Decimal

open Text

/-- An exponent part, or none. -/
def IsExponent (text : List Char) (exponent : Int) : Prop :=
  readExponent? text = some exponent ∧ ∀ c, text.head? = some c → isDigit c = false ∧ c ≠ '.'

theorem readExponent?_signedDecimal (exponent : Int) :
    readExponent? ('e' :: signedDecimal exponent) = some exponent := by
  cases exponent with
  | ofNat n =>
    rw [signedDecimal, readExponent?, if_pos (by decide)]
    · rw [readDigits?_decimal]
      rfl
    · exact fun rest plus => decimal_ne_cons (by decide) rest plus
    · exact fun rest minus => decimal_ne_cons (by decide) rest minus
  | negSucc n =>
    rw [signedDecimal, readExponent?, if_pos (by decide), readDigits?_decimal]
    rfl

theorem isExponent_nil : IsExponent [] 0 :=
  ⟨rfl, nofun⟩

theorem isExponent_signedDecimal (exponent : Int) :
    IsExponent ('e' :: signedDecimal exponent) exponent := by
  refine ⟨readExponent?_signedDecimal exponent, fun c first => ?_⟩
  cases first
  decide

section Reading

variable {whole fraction rest : List Char} {exponent : Int}

theorem readUnsigned?_point (wholeDigits : AreDigits whole) (digits : AreDigits fraction)
    (nonempty : whole ++ fraction ≠ []) (power : IsExponent rest exponent) :
    readUnsigned? (whole ++ '.' :: (fraction ++ rest)) =
      some ⟨digitsValue (whole ++ fraction), exponent - fraction.length⟩ := by
  have point : ∀ c, ('.' :: (fraction ++ rest)).head? = some c → isDigit c = false := by
    intro c first
    cases first
    rfl
  have ends := fun c first => (power.2 c first).1
  rw [readUnsigned?, wholeDigits.takeWhile point, wholeDigits.dropWhile point]
  simp only [digits.takeWhile ends, digits.dropWhile ends, power.1]
  rw [if_neg]
  · rfl
  · rwa [Bool.and_eq_true, List.isEmpty_iff, List.isEmpty_iff, ← List.append_eq_nil_iff]

theorem readUnsigned?_whole (wholeDigits : AreDigits whole) (nonempty : whole ≠ [])
    (power : IsExponent rest exponent) :
    readUnsigned? (whole ++ rest) = some ⟨digitsValue whole, exponent⟩ := by
  have ends := fun c first => (power.2 c first).1
  rw [readUnsigned?, wholeDigits.takeWhile ends, wholeDigits.dropWhile ends]
  dsimp only
  split
  next later => exact absurd rfl (power.2 '.' rfl).2
  next => simp [nonempty, power.1]

/-- What is read as a decimal begins with a digit or with a point. -/
theorem exists_head {text : List Char} {d : Decimal} (read : readUnsigned? text = some d) :
    ∃ c rest, text = c :: rest ∧ (isDigit c = true ∨ c = '.') := by
  cases text with
  | nil => cases read
  | cons c rest =>
    refine ⟨c, rest, rfl, ?_⟩
    by_cases digit : isDigit c = true
    · exact .inl digit
    · refine .inr ?_
      rw [readUnsigned?, List.takeWhile_cons_of_neg digit, List.dropWhile_cons_of_neg digit] at read
      dsimp only at read
      split at read
      next found =>
        cases found
        rfl
      next => cases read

theorem toNat_lt_of_isDigit {c : Char} (start : isDigit c = true ∨ c = '.') : c.toNat < 65 := by
  rcases start with digit | rfl
  · rw [isDigit, Bool.and_eq_true, decide_eq_true_eq, decide_eq_true_eq] at digit
    have most : c.toNat ≤ 57 := digit.2
    omega
  · decide

/-- A decimal is no word that stands for a float, and has no sign. -/
theorem readMagnitude?_of_readUnsigned? {text : List Char} {d : Decimal}
    (read : readUnsigned? text = some d) :
    readMagnitude? text = some d.toFloat ∧ read? text = some d.toFloat := by
  obtain ⟨c, rest, rfl, start⟩ := exists_head read
  have small := toNat_lt_of_isDigit start
  have lower : c.toLower = c := by
    unfold Char.toLower
    split
    next upper =>
      have least : 65 ≤ c.toNat := upper.1
      omega
    · rfl
  have differs : ∀ other : Char, 65 ≤ other.toNat → c ≠ other := by
    rintro other large rfl
    omega
  have magnitude : readMagnitude? (c :: rest) = some d.toFloat := by
    rw [readMagnitude?, List.map_cons, lower, if_neg, if_neg, read]
    · rfl
    · exact fun word => differs 'n' (by decide) (List.cons.inj word).1
    · rw [Bool.or_eq_true, decide_eq_true_eq, decide_eq_true_eq]
      rintro (word | word)
      · exact differs 'i' (by decide) (List.cons.inj word).1
      · exact differs 'i' (by decide) (List.cons.inj word).1
  refine ⟨magnitude, ?_⟩
  rw [read?, magnitude]
  · rintro _ same
    cases same
    revert start
    decide
  · rintro _ same
    cases same
    revert start
    decide

end Reading

section Placing

variable {digits : List Char} (areDigits : AreDigits digits) (nonempty : digits ≠ [])

include areDigits nonempty

theorem readUnsigned?_withExponent (point : Int) :
    readUnsigned? (withExponent digits point) =
      some ⟨digitsValue digits, point - digits.length⟩ := by
  obtain ⟨first, rest, rfl⟩ := List.exists_cons_of_ne_nil nonempty
  obtain ⟨head, later⟩ := List.forall_mem_cons.mp areDigits
  have whole : AreDigits [first] := List.forall_mem_singleton.mpr head
  have power := isExponent_signedDecimal (point - 1)
  cases rest with
  | nil =>
    have exponent : point - 1 = point - ([first] : List Char).length := rfl
    rw [← exponent]
    exact readUnsigned?_whole whole (List.cons_ne_nil _ _) power
  | cons second rest =>
    have exponent : point - (first :: second :: rest : List Char).length =
        point - 1 - (second :: rest : List Char).length := by
      rw [List.length_cons]
      omega
    have read := readUnsigned?_point whole later (List.cons_ne_nil _ _) power
    rw [exponent]
    simpa [withExponent] using read

theorem readUnsigned?_placePoint {mark : List Char} (known : mark = [] ∨ mark = ['.', '0'])
    (point : Int) :
    ∃ d, readUnsigned? (placePoint mark digits point) = some d ∧
      d.nearestBits = nearestBits ⟨digitsValue digits, point - digits.length⟩ := by
  have zero : AreDigits ['0'] := AreDigits.zeros 1
  unfold placePoint
  split
  next n =>
    have read := readUnsigned?_point zero ((AreDigits.zeros (n + 1)).append areDigits)
      (List.cons_ne_nil _ _) isExponent_nil
    have value : digitsValue (['0'] ++ (List.replicate (n + 1) '0' ++ digits)) =
        digitsValue digits := by
      rw [← List.append_assoc]
      exact digitsValue_zeros_append (n + 2) digits
    rw [value, List.append_nil, List.length_append, List.length_replicate] at read
    refine ⟨_, read, ?_⟩
    congr 2
    omega
  next =>
    have read := readUnsigned?_point zero areDigits (List.cons_ne_nil _ _) isExponent_nil
    have value : digitsValue (['0'] ++ digits) = digitsValue digits :=
      digitsValue_zeros_append 1 digits
    rw [value, List.append_nil] at read
    exact ⟨_, read, rfl⟩
  next n _ =>
    split
    next short =>
      have wholeDigits := areDigits.append (.zeros (n - digits.length))
      have some : digits ++ List.replicate (n - digits.length) '0' ≠ [] := by simp [nonempty]
      have exponent : (0 : Int) + (n - digits.length : Nat) = .ofNat n - digits.length := by
        rw [Int.ofNat_eq_natCast]
        omega
      rcases known with rfl | rfl
      · have read := readUnsigned?_whole wholeDigits some isExponent_nil
        refine ⟨_, read, ?_⟩
        rw [digitsValue_append_zeros, nearestBits_zeros, exponent]
      · have read := readUnsigned?_point wholeDigits zero
          (List.append_ne_nil_of_left_ne_nil some _) isExponent_nil
        refine ⟨_, read, ?_⟩
        have value : digitsValue (digits ++ List.replicate (n - digits.length) '0' ++ ['0']) =
            digitsValue digits * 10 ^ (n - digits.length + 1) := by
          rw [List.append_assoc, ← List.replicate_succ', digitsValue_append_zeros]
        rw [value, nearestBits_zeros]
        congr 2
        rw [List.length_singleton]
        omega
    next long =>
      have before : AreDigits (digits.take n) :=
        fun c member => areDigits c (List.mem_of_mem_take member)
      have behind : AreDigits (digits.drop n) :=
        fun c member => areDigits c (List.mem_of_mem_drop member)
      have read := readUnsigned?_point before behind (by simp [nonempty]) isExponent_nil
      rw [List.take_append_drop, List.append_nil] at read
      refine ⟨_, read, ?_⟩
      rw [List.length_drop, Int.ofNat_eq_natCast]
      congr 2
      omega

end Placing

/-- A numeral is its significant digits and the zeros behind them. -/
theorem exists_zeros (d : Decimal) :
    ∃ k, Text.decimal d.coefficient = (significant d).1 ++ List.replicate k '0' := by
  have parts := List.takeWhile_append_dropWhile
    (p := (· == '0')) (l := (Text.decimal d.coefficient).reverse)
  generalize same : (Text.decimal d.coefficient).reverse.takeWhile (· == '0') = ends at parts
  have zeros : ends = List.replicate ends.length '0' := by
    rw [List.eq_replicate_iff]
    refine ⟨rfl, fun c member => ?_⟩
    rw [← same] at member
    simpa using List.all_eq_true.mp List.all_takeWhile c member
  refine ⟨ends.length, ?_⟩
  rw [← List.reverse_replicate, ← zeros, significant, ← List.reverse_append, parts,
    List.reverse_reverse]

/-- The significant digits at their place are rounded as the decimal is. -/
theorem nearestBits_significant {d : Decimal} (positive : 0 < d.coefficient) :
    AreDigits (significant d).1 ∧ (significant d).1 ≠ [] ∧
      nearestBits ⟨digitsValue (significant d).1, (significant d).2 - (significant d).1.length⟩ =
        d.nearestBits := by
  obtain ⟨k, whole⟩ := exists_zeros d
  have value : d.coefficient = digitsValue (significant d).1 * 10 ^ k := by
    rw [← digitsValue_append_zeros, ← whole, digitsValue_decimal]
  have point : (significant d).2 - (significant d).1.length = d.exponent + k := by
    have length : (significant d).2 = (Text.decimal d.coefficient).length + d.exponent := rfl
    rw [length, whole, List.length_append, List.length_replicate]
    omega
  refine ⟨fun c member => ?_, fun empty => ?_, ?_⟩
  · refine isDigit_of_mem_decimal (n := d.coefficient) ?_
    rw [whole]
    exact List.mem_append_left _ member
  · rw [empty] at value
    have none : digitsValue [] * 10 ^ k = 0 := Nat.zero_mul _
    omega
  · rw [point, ← nearestBits_zeros, ← value]

section Layouts

variable {layout : Layout} (known : layout.wholeMark = [] ∨ layout.wholeMark = ['.', '0'])

include known

theorem readUnsigned?_zero :
    ∃ d, readUnsigned? ('0' :: layout.wholeMark) = some d ∧ d.nearestBits = 0 := by
  rcases known with mark | mark
  · exact ⟨⟨0, 0⟩, by rw [mark]; rfl, rfl⟩
  · exact ⟨⟨0, -1⟩, by rw [mark]; rfl, rfl⟩

theorem readUnsigned?_magnitude {d : Decimal} (positive : 0 < d.coefficient) :
    ∃ read, readUnsigned? (if layout.positional (significant d).2 then
        placePoint layout.wholeMark (significant d).1 (significant d).2
      else withExponent (significant d).1 (significant d).2) = some read ∧
      read.nearestBits = d.nearestBits := by
  obtain ⟨digits, nonempty, value⟩ := nearestBits_significant positive
  split
  · obtain ⟨read, known, same⟩ := readUnsigned?_placePoint digits nonempty known (significant d).2
    exact ⟨read, known, same.trans value⟩
  · exact ⟨_, readUnsigned?_withExponent digits nonempty _, value⟩

/-- A finite float without sign is written as a decimal that is rounded to it. -/
theorem readUnsigned?_writeMagnitude {x : Float} (finite : x.toBits.toNat < infinityBits)
    (zero : (x == 0) = true ↔ x.toBits.toNat = 0) :
    ∃ d, readUnsigned? (layout.writeMagnitude x) = some d ∧ d.nearestBits = x.toBits.toNat := by
  rw [Layout.writeMagnitude]
  split
  next null =>
    rw [zero.mp null]
    exact readUnsigned?_zero known
  next some =>
    have positive : 0 < x.toBits.toNat := Nat.pos_of_ne_zero fun none => some (zero.mpr none)
    have rounds := nearestBits_shortest positive finite
    have nonzero : 0 < (shortest x).coefficient := Nat.pos_of_ne_zero fun none => by
      rw [nearestBits, if_pos none] at rounds
      omega
    rw [← rounds]
    exact readUnsigned?_magnitude known nonzero

theorem readMagnitude?_writeMagnitude {x : Float} (finite : x.toBits.toNat < infinityBits)
    (zero : (x == 0) = true ↔ x.toBits.toNat = 0) :
    readMagnitude? (layout.writeMagnitude x) = some x ∧
      read? (layout.writeMagnitude x) = some x := by
  obtain ⟨d, read, same⟩ := readUnsigned?_writeMagnitude known finite zero
  have back : d.toFloat = x := by
    rw [toFloat, same, UInt64.ofNat_toNat, Float.ofBits_toBits]
  rw [← back] at read ⊢
  exact readMagnitude?_of_readUnsigned? read

/-- What is written of a number after its sign is read back without the sign. -/
theorem readMagnitude?_ofFields {exponent : BitVec 11} {fraction : BitVec 52}
    (number : exponent = -1#11 → fraction = 0#52) {x : Float}
    (unsigned : x = ofFields .positive exponent fraction) :
    readMagnitude? (if x.isInf then "inf".toList else layout.writeMagnitude x) = some x ∧
      read? (if x.isInf then "inf".toList else layout.writeMagnitude x) = some x := by
  have infinite : x.isInf = true ↔ exponent = -1#11 := by
    rw [unsigned]
    exact isInf_ofFields number
  by_cases ones : exponent = -1#11
  · have zeros := number ones
    have same : x = infinity := by
      rw [unsigned, ones, zeros]
      exact congrArg Float.ofBits (by decide)
    rw [if_pos (infinite.mpr ones), same]
    exact ⟨rfl, rfl⟩
  · rw [if_neg fun inf => ones (infinite.mp inf)]
    have bits : x.toBits.toNat = exponent.toNat * 2 ^ 52 + fraction.toNat := by
      rw [unsigned]
      exact toNat_toBits_ofFields number
    have less : exponent.toNat ≠ 2047 := fun all => ones (BitVec.eq_of_toNat_eq all)
    have largest : infinityBits = 2047 * 2 ^ 52 := rfl
    refine readMagnitude?_writeMagnitude known (by omega) ?_
    have zero : (x == 0) = true ↔ exponent = 0#11 ∧ fraction = 0#52 := by
      rw [unsigned]
      exact beq_zero_ofFields number
    rw [zero, ← BitVec.toNat_inj, ← BitVec.toNat_inj, BitVec.toNat_ofNat, BitVec.toNat_ofNat]
    omega

/-- Every float is read back from the text it is written as. -/
theorem read?_write (x : Float) : read? (layout.write x) = some x := by
  rcases eq_nan_or_ofFields x with rfl | ⟨sign, exponent, fraction, number, rfl⟩
  · rw [Layout.write, if_pos isNaN_nan]
    rfl
  · have isNumber : ¬ (ofFields sign exponent fraction).isNaN = true := by
      rw [isNaN_ofFields number]
      exact Bool.false_ne_true
    have infinite : (ofFields sign exponent fraction).isInf =
        (ofFields .positive exponent fraction).isInf := by
      rw [Bool.eq_iff_iff, isInf_ofFields number, isInf_ofFields number]
    obtain ⟨magnitude, unsigned⟩ := readMagnitude?_ofFields known number rfl
    rw [Layout.write, if_neg isNumber, abs_ofFields number, infinite]
    cases sign with
    | positive =>
      rw [if_pos ((sign_ofFields number).mpr rfl)]
      exact unsigned
    | negative =>
      have minus : ¬ (ofFields .negative exponent fraction).toBits >>> 63 = 0 := by
        rw [sign_ofFields number]
        exact nofun
      dsimp only
      rw [if_neg minus, read?, magnitude]
      exact congrArg some (neg_ofFields number)

end Layouts

end Decimal

end StackLang
