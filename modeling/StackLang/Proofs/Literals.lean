import StackLang.Proofs.FloatText
import StackLang.Proofs.StringLiteral

/-!
# Literals

What a text means as a number, a truth value or a value of a given type, each by
rules for its parts and not by a reader. The readers find a meaning exactly where
there is one. Floats are compared with the decimal they are written as; how a
decimal is rounded is not said here.
-/
namespace StackLang

namespace Text

/-- The texts differ at most in the case of their ASCII letters. -/
def SameLetters (text other : List Char) : Prop :=
  text.map Char.toLower = other.map Char.toLower

def IsDecimalDigit (d : Char) (value : Nat) : Prop :=
  "0123456789".toList[value]? = some d

/-- Digits, at least one of them, and their value. -/
structure IsNumeral (digits : List Char) (n : Nat) : Prop where
  nonempty : digits ≠ []
  row : Row 10 IsDecimalDigit digits n

/-- A numeral with a plus sign or without. -/
inductive IsNatural : List Char → Nat → Prop
  | plain {digits : List Char} {n : Nat} (numeral : IsNumeral digits n) : IsNatural digits n
  | plus {digits : List Char} {n : Nat} (numeral : IsNumeral digits n) :
    IsNatural ('+' :: digits) n

/-- A numeral with a sign or without. -/
inductive IsInteger : List Char → Int → Prop
  | natural {text : List Char} {n : Nat} (natural : IsNatural text n) : IsInteger text n
  | minus {digits : List Char} {n : Nat} (numeral : IsNumeral digits n) :
    IsInteger ('-' :: digits) (-n)

section Letters

variable {text other : List Char}

theorem SameLetters.toUpper (same : SameLetters text other) :
    text.map Char.toUpper = other.map Char.toUpper := by
  have raised := congrArg (List.map Char.toUpper) same
  simpa [Function.comp_def] using raised

theorem sameLetters_of_toUpper (same : text.map Char.toUpper = other.map Char.toUpper) :
    SameLetters text other := by
  have lowered := congrArg (List.map Char.toLower) same
  simpa [SameLetters, Function.comp_def] using lowered

/-- Texts that differ in more than the case of their first letters differ. -/
theorem SameLetters.ne_cons {c d : Char} {word : List Char} (same : SameLetters text (c :: word))
    (differs : d.toLower ≠ c.toLower) (rest : List Char) : text ≠ d :: rest := by
  rintro rfl
  exact differs (List.cons.inj same).1

end Letters

section Naturals

variable {digits text : List Char} {n : Nat}

theorem isDecimalDigit_iff {d : Char} {value : Nat} :
    IsDecimalDigit d value ↔ isDigit d = true ∧ digitValue d = value := by
  constructor
  · intro entry
    have table : ∀ v < 10, ("0123456789".toList[v]?).all fun c =>
        isDigit c && digitValue c == v := by decide
    have held := table value (List.getElem?_eq_some_iff.mp entry).1
    rw [IsDecimalDigit] at entry
    rwa [entry, Option.all_some, Bool.and_eq_true, beq_iff_eq] at held
  · rintro ⟨digit, rfl⟩
    have back : ∀ n < 58, isDigit (Char.ofNat n) = true →
        "0123456789".toList[digitValue (Char.ofNat n)]? = some (Char.ofNat n) := by decide
    have small : d.toNat < 58 := by
      rw [isDigit, Bool.and_eq_true, decide_eq_true_eq, decide_eq_true_eq] at digit
      have most : d.toNat ≤ 57 := digit.2
      omega
    have entry := back d.toNat small
    rw [Char.ofNat_toNat] at entry
    exact entry digit

theorem row_iff : Row 10 IsDecimalDigit digits n ↔ AreDigits digits ∧ digitsValue digits = n := by
  constructor
  · intro row
    induction row with
    | none => exact ⟨List.forall_mem_nil _, rfl⟩
    | digit row last ih =>
      obtain ⟨areDigits, rfl⟩ := ih
      obtain ⟨digit, rfl⟩ := isDecimalDigit_iff.mp last
      exact ⟨areDigits.append (List.forall_mem_singleton.mpr digit), digitsValue_concat _ _⟩
  · rintro ⟨areDigits, rfl⟩
    induction digits using List.reverseRecOn with
    | nil => exact .none
    | append_singleton digits d ih =>
      obtain ⟨before, last⟩ := List.forall_mem_append.mp areDigits
      rw [digitsValue_concat]
      exact .digit (ih before) (isDecimalDigit_iff.mpr ⟨last d (List.mem_singleton_self d), rfl⟩)

theorem readDigits?_eq_some_iff : readDigits? digits = some n ↔ IsNumeral digits n := by
  constructor
  · intro read
    rw [readDigits?] at read
    split at read
    next both =>
      rw [Bool.and_eq_true, List.all_eq_true] at both
      refine ⟨fun empty => ?_, row_iff.mpr ⟨both.2, Option.some.inj read⟩⟩
      rw [empty] at both
      cases both.1
    next => cases read
  · rintro ⟨nonempty, row⟩
    obtain ⟨areDigits, rfl⟩ := row_iff.mp row
    exact areDigits.readDigits? nonempty

/-- A numeral does not begin with what is no digit. -/
theorem IsNumeral.ne_cons (numeral : IsNumeral digits n) {c : Char} (sign : isDigit c = false)
    (rest : List Char) : digits ≠ c :: rest := by
  rintro rfl
  have digit := (row_iff.mp numeral.row).1 c List.mem_cons_self
  rw [sign] at digit
  cases digit

theorem readBelow?_eq_some_iff {limit : Nat} :
    readBelow? limit text = some n ↔ IsNatural text n ∧ n < limit := by
  unfold readBelow?
  rw [Option.filter_eq_some_iff, decide_eq_true_eq]
  refine and_congr_left fun small => ?_
  split
  next digits =>
    rw [readDigits?_eq_some_iff]
    refine ⟨.plus, fun natural => ?_⟩
    cases natural with
    | plain numeral => exact absurd rfl (numeral.ne_cons (by decide) digits)
    | plus numeral => exact numeral
  next unsigned =>
    rw [readDigits?_eq_some_iff]
    refine ⟨.plain, fun natural => ?_⟩
    cases natural with
    | plain numeral => exact numeral
    | plus numeral => exact absurd rfl (unsigned _)

theorem readLabel?_eq_some_iff {l : UInt32} :
    readLabel? text = some l ↔ IsNatural text l.toNat := by
  rw [readLabel?, Option.map_eq_some_iff]
  constructor
  · rintro ⟨n, read, rfl⟩
    obtain ⟨natural, small⟩ := readBelow?_eq_some_iff.mp read
    rwa [UInt32.toNat_ofNat_of_lt' small]
  · intro natural
    exact ⟨l.toNat, readBelow?_eq_some_iff.mpr ⟨natural, l.toNat_lt⟩, UInt32.ofNat_toNat⟩

end Naturals

section Integers

variable {text : List Char}

/-- Digits with a sign or without, as they stand in integers and exponents. -/
def readSigned? (text : List Char) : Option Int :=
  match text with
  | '+' :: digits => (readDigits? digits).map Int.ofNat
  | '-' :: digits => (readDigits? digits).map fun n => -Int.ofNat n
  | digits => (readDigits? digits).map Int.ofNat

theorem readSigned?_eq_some_iff {n : Int} : readSigned? text = some n ↔ IsInteger text n := by
  unfold readSigned?
  split
  next digits =>
    rw [Option.map_eq_some_iff]
    constructor
    · rintro ⟨m, read, rfl⟩
      exact .natural (.plus (readDigits?_eq_some_iff.mp read))
    · intro integer
      cases integer with
      | natural natural =>
        cases natural with
        | plain numeral => exact absurd rfl (numeral.ne_cons (by decide) digits)
        | plus numeral => exact ⟨_, readDigits?_eq_some_iff.mpr numeral, rfl⟩
  next digits =>
    rw [Option.map_eq_some_iff]
    constructor
    · rintro ⟨m, read, rfl⟩
      exact .minus (readDigits?_eq_some_iff.mp read)
    · intro integer
      cases integer with
      | natural natural =>
        cases natural with
        | plain numeral => exact absurd rfl (numeral.ne_cons (by decide) digits)
      | minus numeral => exact ⟨_, readDigits?_eq_some_iff.mpr numeral, rfl⟩
  next noPlus noMinus =>
    rw [Option.map_eq_some_iff]
    constructor
    · rintro ⟨m, read, rfl⟩
      exact .natural (.plain (readDigits?_eq_some_iff.mp read))
    · intro integer
      cases integer with
      | natural natural =>
        cases natural with
        | plain numeral => exact ⟨_, readDigits?_eq_some_iff.mpr numeral, rfl⟩
        | plus numeral => exact absurd rfl (noPlus _)
      | minus numeral => exact absurd rfl (noMinus _)

theorem readInt64?_eq_some_iff {n : Int64} : readInt64? text = some n ↔ IsInteger text n.toInt := by
  have parts : readInt64? text = ((readSigned? text).filter fun n =>
      Int64.minValue.toInt ≤ n && n ≤ Int64.maxValue.toInt).map Int64.ofInt := rfl
  rw [parts, Option.map_eq_some_iff]
  constructor
  · rintro ⟨m, kept, rfl⟩
    obtain ⟨read, inRange⟩ := Option.filter_eq_some_iff.mp kept
    rw [Bool.and_eq_true, decide_eq_true_eq, decide_eq_true_eq] at inRange
    rw [Int64.toInt_ofInt_of_le inRange.1 (Int.lt_add_one_of_le inRange.2)]
    exact readSigned?_eq_some_iff.mp read
  · intro integer
    refine ⟨n.toInt, ?_, Int64.ofInt_toInt n⟩
    rw [Option.filter_eq_some_iff, Bool.and_eq_true, decide_eq_true_eq, decide_eq_true_eq]
    exact ⟨readSigned?_eq_some_iff.mpr integer, n.minValue_le_toInt, n.toInt_le⟩

end Integers

end Text

open Text

namespace Decimal

/-- The exponent of a decimal, or nothing. -/
inductive IsExponentPart : List Char → Int → Prop
  | none : IsExponentPart [] 0
  | some {letter : Char} {text : List Char} {n : Int} (mark : letter = 'e' ∨ letter = 'E')
    (integer : IsInteger text n) : IsExponentPart (letter :: text) n

/-- Digits, a point anywhere among them or none, and the exponent. -/
inductive IsDecimal : List Char → Decimal → Prop
  | whole {digits power : List Char} {n : Nat} {exponent : Int} (numeral : IsNumeral digits n)
    (isPower : IsExponentPart power exponent) : IsDecimal (digits ++ power) ⟨n, exponent⟩
  | point {before behind power : List Char} {n : Nat} {exponent : Int}
    (numeral : IsNumeral (before ++ behind) n) (isPower : IsExponentPart power exponent) :
    IsDecimal (before ++ '.' :: (behind ++ power)) ⟨n, exponent - behind.length⟩

inductive IsMagnitude : List Char → Float → Prop
  | infinity {text : List Char}
    (word : SameLetters text "inf".toList ∨ SameLetters text "infinity".toList) :
    IsMagnitude text infinity
  | nan {text : List Char} (word : SameLetters text "nan".toList) : IsMagnitude text nan
  | decimal {text : List Char} {d : Decimal} (isDecimal : IsDecimal text d) :
    IsMagnitude text d.toFloat

inductive IsFloat : List Char → Float → Prop
  | unsigned {text : List Char} {x : Float} (magnitude : IsMagnitude text x) : IsFloat text x
  | plus {text : List Char} {x : Float} (magnitude : IsMagnitude text x) : IsFloat ('+' :: text) x
  | minus {text : List Char} {x : Float} (magnitude : IsMagnitude text x) :
    IsFloat ('-' :: text) (-x)

section Reading

variable {text : List Char}

theorem readExponent?_eq_some_iff {exponent : Int} :
    readExponent? text = some exponent ↔ IsExponentPart text exponent := by
  cases text with
  | nil =>
    constructor
    · rintro ⟨⟩
      exact .none
    · rintro ⟨⟩
      rfl
  | cons letter rest =>
    have parts : readExponent? (letter :: rest) =
        if letter = 'e' || letter = 'E' then readSigned? rest else none := rfl
    rw [parts]
    split
    next mark =>
      rw [Bool.or_eq_true, decide_eq_true_eq, decide_eq_true_eq] at mark
      rw [readSigned?_eq_some_iff]
      refine ⟨.some mark, fun isPower => ?_⟩
      cases isPower with
      | some _ integer => exact integer
    next noMark =>
      refine ⟨fun read => (by cases read), fun isPower => ?_⟩
      cases isPower with
      | some mark _ => exact absurd (by simpa using mark) noMark

theorem IsExponentPart.isExponent {exponent : Int} (isPower : IsExponentPart text exponent) :
    IsExponent text exponent := by
  refine ⟨readExponent?_eq_some_iff.mpr isPower, ?_⟩
  cases isPower with
  | none => exact fun _ first => by cases first
  | some mark _ =>
    rintro _ ⟨⟩
    rcases mark with rfl | rfl
    · exact ⟨rfl, by decide⟩
    · exact ⟨rfl, by decide⟩

theorem IsDecimal.readUnsigned? {d : Decimal} (isDecimal : IsDecimal text d) :
    readUnsigned? text = some d := by
  cases isDecimal with
  | whole numeral isPower =>
    obtain ⟨digits, rfl⟩ := row_iff.mp numeral.row
    exact readUnsigned?_whole digits numeral.nonempty isPower.isExponent
  | point numeral isPower =>
    obtain ⟨digits, rfl⟩ := row_iff.mp numeral.row
    obtain ⟨before, behind⟩ := List.forall_mem_append.mp digits
    exact readUnsigned?_point before behind numeral.nonempty isPower.isExponent

/-- What is read of the digits and of what follows them. -/
theorem exists_exponentPart {before behind power : List Char} {d : Decimal}
    (areDigits : AreDigits (before ++ behind))
    (read : (if (before.isEmpty && behind.isEmpty) = true then none
      else (readExponent? power).map fun exponent =>
        (⟨digitsValue (before ++ behind), exponent - behind.length⟩ : Decimal)) = some d) :
    ∃ n exponent, IsNumeral (before ++ behind) n ∧ IsExponentPart power exponent ∧
      ⟨n, exponent - behind.length⟩ = d := by
  split at read
  next => cases read
  next some =>
    obtain ⟨exponent, isPower, same⟩ := Option.map_eq_some_iff.mp read
    rw [Bool.and_eq_true, List.isEmpty_iff, List.isEmpty_iff, ← List.append_eq_nil_iff] at some
    exact ⟨_, exponent, ⟨some, row_iff.mpr ⟨areDigits, rfl⟩⟩,
      readExponent?_eq_some_iff.mp isPower, same⟩

theorem readUnsigned?_eq_some_iff {d : Decimal} :
    readUnsigned? text = some d ↔ IsDecimal text d := by
  refine ⟨fun read => ?_, IsDecimal.readUnsigned?⟩
  have areDigits : ∀ text : List Char, AreDigits (text.takeWhile isDigit) :=
    fun text => List.all_eq_true.mp List.all_takeWhile
  have cut := List.takeWhile_append_dropWhile (p := isDigit) (l := text)
  unfold Decimal.readUnsigned? at read
  dsimp only at read
  split at read
  next later point =>
    obtain ⟨n, exponent, numeral, isPower, rfl⟩ :=
      exists_exponentPart ((areDigits text).append (areDigits later)) read
    rw [point, ← List.takeWhile_append_dropWhile (p := isDigit) (l := later)] at cut
    rw [← cut]
    exact .point numeral isPower
  next =>
    obtain ⟨n, exponent, numeral, isPower, rfl⟩ :=
      exists_exponentPart ((areDigits text).append (List.forall_mem_nil _)) read
    rw [List.append_nil] at numeral
    rw [← cut, List.length_nil, Int.natCast_zero, Int.sub_zero]
    exact .whole numeral isPower

theorem readMagnitude?_eq_some_iff {x : Float} :
    readMagnitude? text = some x ↔ IsMagnitude text x := by
  have inf : SameLetters text "inf".toList ↔ text.map Char.toLower = "inf".toList := Iff.rfl
  have long : SameLetters text "infinity".toList ↔ text.map Char.toLower = "infinity".toList :=
    Iff.rfl
  have nan : SameLetters text "nan".toList ↔ text.map Char.toLower = "nan".toList := Iff.rfl
  constructor
  · intro read
    rw [readMagnitude?] at read
    split at read
    next word =>
      cases read
      rw [Bool.or_eq_true, decide_eq_true_eq, decide_eq_true_eq] at word
      exact .infinity (word.imp inf.mpr long.mpr)
    next =>
      split at read
      next word =>
        cases read
        exact .nan (nan.mpr word)
      next =>
        obtain ⟨d, known, rfl⟩ := Option.map_eq_some_iff.mp read
        exact .decimal (readUnsigned?_eq_some_iff.mp known)
  · intro magnitude
    cases magnitude with
    | infinity word =>
      rw [readMagnitude?, if_pos]
      rw [Bool.or_eq_true, decide_eq_true_eq, decide_eq_true_eq]
      exact word.imp inf.mp long.mp
    | nan word =>
      rw [readMagnitude?, nan.mp word]
      rfl
    | decimal isDecimal => exact (readMagnitude?_of_readUnsigned? isDecimal.readUnsigned?).1

/-- A word that stands for a float has no sign. -/
theorem read?_word {c : Char} {word : List Char} (same : SameLetters text (c :: word))
    (plus : '+'.toLower ≠ c.toLower) (minus : '-'.toLower ≠ c.toLower) :
    read? text = readMagnitude? text := by
  rw [read?]
  · exact same.ne_cons plus
  · exact same.ne_cons minus

theorem IsMagnitude.read? {x : Float} (magnitude : IsMagnitude text x) : read? text = some x := by
  have read := readMagnitude?_eq_some_iff.mpr magnitude
  cases magnitude with
  | infinity word =>
    rcases word with short | long
    · exact (read?_word (c := 'i') short (by decide) (by decide)).trans read
    · exact (read?_word (c := 'i') long (by decide) (by decide)).trans read
  | nan word => exact (read?_word (c := 'n') word (by decide) (by decide)).trans read
  | decimal isDecimal => exact (readMagnitude?_of_readUnsigned? isDecimal.readUnsigned?).2

theorem read?_eq_some_iff {x : Float} : read? text = some x ↔ IsFloat text x := by
  constructor
  · intro read
    unfold Decimal.read? at read
    split at read
    next => exact .plus (readMagnitude?_eq_some_iff.mp read)
    next =>
      obtain ⟨y, known, rfl⟩ := Option.map_eq_some_iff.mp read
      exact .minus (readMagnitude?_eq_some_iff.mp known)
    next => exact .unsigned (readMagnitude?_eq_some_iff.mp read)
  · intro isFloat
    cases isFloat with
    | unsigned magnitude => exact magnitude.read?
    | plus magnitude => exact readMagnitude?_eq_some_iff.mpr magnitude
    | minus magnitude =>
      rw [Decimal.read?, readMagnitude?_eq_some_iff.mpr magnitude]
      rfl

end Reading

end Decimal

/-- A text and a value it means. -/
inductive Denotes : List Char → Value → Prop
  | int {text : List Char} {n : Int64} (integer : IsInteger text n.toInt) : Denotes text (.int n)
  | float {text : List Char} {x : Float} (isFloat : Decimal.IsFloat text x) :
    Denotes text (.float x)
  | bool {text : List Char} {b : Bool} (word : SameLetters text (Value.boolText b).toList) :
    Denotes text (.bool b)
  | string {text meant : List Char} (denotes : DenotesString text meant) :
    Denotes text (.string (String.ofList meant))

/-- What is wrong with a text that means no value of a type. -/
inductive LiteralFault : TypeTag → List Char → ReadError → Prop
  | malformed {tag : TypeTag} {text : List Char} (unquoted : tag ≠ .string)
    (none : ∀ value : Value, value.tag = tag → ¬ Denotes text value) :
    LiteralFault tag text (.malformedLiteral tag (String.ofList text))
  | string {text : List Char} {e : QuoteError} (fault : StringFault text e) :
    LiteralFault .string text (.ofQuoteError e)

namespace Value

variable {text : List Char}

theorem readBool?_eq_some_iff {b : Bool} :
    readBool? text = some b ↔ SameLetters text (boolText b).toList := by
  have yes : SameLetters text (boolText true).toList ↔ text.map Char.toLower = "true".toList :=
    Iff.rfl
  have no : SameLetters text (boolText false).toList ↔ text.map Char.toLower = "false".toList :=
    Iff.rfl
  constructor
  · intro read
    rw [readBool?] at read
    split at read
    next word =>
      cases read
      exact yes.mpr word
    next =>
      split at read
      next word =>
        cases read
        exact no.mpr word
      next => cases read
  · intro word
    cases b with
    | true => rw [readBool?, if_pos (yes.mp word)]
    | false =>
      rw [readBool?, no.mp word]
      rfl

theorem read_of_denotes {value : Value} (denotes : Denotes text value) :
    Value.read value.tag text = .ok value := by
  cases denotes with
  | int integer =>
    rw [tag, Value.read, readInt64?_eq_some_iff.mpr integer]
    rfl
  | float isFloat =>
    rw [tag, Value.read, Decimal.read?_eq_some_iff.mpr isFloat]
    rfl
  | bool word =>
    rw [tag, Value.read, readBool?_eq_some_iff.mpr word]
    rfl
  | string denotes => rw [tag, Value.read, unquote_eq_ok_iff.mpr denotes]

theorem read_of_fault {tag : TypeTag} {e : ReadError} (fault : LiteralFault tag text e) :
    Value.read tag text = .error e := by
  cases fault with
  | string fault => rw [Value.read, unquote_eq_error_iff.mpr fault]
  | malformed unquoted none =>
    cases tag with
    | int =>
      cases known : readInt64? text with
      | none =>
        rw [Value.read, known]
        rfl
      | some n => exact absurd (.int (readInt64?_eq_some_iff.mp known)) (none (.int n) rfl)
    | float =>
      cases known : Decimal.read? text with
      | none =>
        rw [Value.read, known]
        rfl
      | some x =>
        exact absurd (.float (Decimal.read?_eq_some_iff.mp known)) (none (.float x) rfl)
    | bool =>
      cases known : readBool? text with
      | none =>
        rw [Value.read, known]
        rfl
      | some b => exact absurd (.bool (readBool?_eq_some_iff.mp known)) (none (.bool b) rfl)
    | string => exact absurd rfl unquoted

/-- Every text means a value of a type, or something is wrong with it. -/
theorem denotes_or_fault (tag : TypeTag) (text : List Char) :
    (∃ value : Value, value.tag = tag ∧ Denotes text value) ∨ ∃ e, LiteralFault tag text e := by
  by_cases known : ∃ value : Value, value.tag = tag ∧ Denotes text value
  · exact .inl known
  · refine .inr ?_
    by_cases isString : tag = .string
    · subst isString
      rcases Text.denotes_or_fault text with ⟨meant, denotes⟩ | ⟨e, fault⟩
      · exact absurd ⟨_, rfl, .string denotes⟩ known
      · exact ⟨_, .string fault⟩
    · refine ⟨_, .malformed isString fun value same denotes => ?_⟩
      exact known ⟨value, same, denotes⟩

end Value

end StackLang
