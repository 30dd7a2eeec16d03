import StackLang.Instruction.Written
import StackLang.Proofs.Blanks
import StackLang.Proofs.FloatText

/-!
# Words in a written instruction

The parts of an instruction are separated by one space each. All of them are
words, texts without blanks, but for the literal of a string: a quoted string
has no blanks other than spaces, and they stand between its quotes. So a line is
no longer than it seems, and trimming it or its literal changes nothing.
-/
namespace StackLang

namespace Text

/-- A text that stands on one line, and between blanks that are not taken for a part of it. -/
structure IsLiteral (text : List Char) : Prop where
  nonempty : text ≠ []
  first : ∀ c, text.head? = some c → isBlank c = false
  last : ∀ c, text.getLast? = some c → isBlank c = false
  spaces : ∀ c ∈ text, isBlank c = true → c = ' '

theorem IsWord.isLiteral {text : List Char} (word : IsWord text) : IsLiteral text := by
  refine ⟨word.nonempty, fun c first => ?_, fun c last => ?_, fun c member blank => ?_⟩
  · exact word.noBlank c (List.mem_of_head? first)
  · exact word.noBlank c (List.mem_of_getLast? last)
  · rw [word.noBlank c member] at blank
    cases blank

namespace IsLiteral

variable {text more : List Char}

theorem trimStart (literal : IsLiteral text) : trimStart text = text :=
  dropWhile_of_head? literal.first

theorem trim (literal : IsLiteral text) : trim text = text :=
  TrimsTo.trim ⟨⟨[], [], allBlank_nil, allBlank_nil, by simp⟩, literal.first, literal.last⟩

/-- Two literals with a space between them are one. -/
theorem append (first : IsLiteral text) (second : IsLiteral more) :
    IsLiteral (text ++ ' ' :: more) := by
  refine ⟨List.append_ne_nil_of_left_ne_nil first.nonempty _, fun c start => ?_, fun c ends => ?_,
    fun c member blank => ?_⟩
  · refine first.first c ?_
    rw [← start, List.head?_append]
    cases known : text.head? with
    | none => exact absurd (List.head?_eq_none_iff.mp known) first.nonempty
    | some d => rfl
  · refine second.last c ?_
    rw [← ends, List.getLast?_append, List.getLast?_cons]
    cases known : more.getLast? with
    | none => exact absurd (List.getLast?_eq_none_iff.mp known) second.nonempty
    | some d => rfl
  · rcases List.mem_append.mp member with before | after
    · exact first.spaces c before blank
    · rcases List.mem_cons.mp after with rfl | inside
      · rfl
      · exact second.spaces c inside blank

theorem append_all (first : IsLiteral text) {texts : List (List Char)}
    (each : ∀ next ∈ texts, IsLiteral next) : IsLiteral (text ++ texts.flatMap (' ' :: ·)) := by
  induction texts generalizing text with
  | nil => rwa [List.flatMap_nil, List.append_nil]
  | cons next rest ih =>
    obtain ⟨second, others⟩ := List.forall_mem_cons.mp each
    rw [List.flatMap_cons, ← List.append_assoc]
    exact ih (first.append second) others

/-- A literal stands on one line. -/
theorem noLineEnd (literal : IsLiteral text) : ∀ c ∈ text, c ≠ '\n' ∧ c ≠ '\r' := by
  intro c member
  constructor
  · rintro rfl
    exact absurd (literal.spaces _ member (by decide)) (by decide)
  · rintro rfl
    exact absurd (literal.spaces _ member (by decide)) (by decide)

end IsLiteral

theorem isBlank_of_isDigit {c : Char} (digit : isDigit c = true) : isBlank c = false := by
  rw [isDigit, Bool.and_eq_true, decide_eq_true_eq, decide_eq_true_eq] at digit
  have least : 48 ≤ c.toNat := digit.1
  have most : c.toNat ≤ 57 := digit.2
  simp only [isBlank, Bool.or_eq_false_iff, Bool.and_eq_false_iff, decide_eq_false_iff_not,
    beq_eq_false_iff_ne, ne_eq]
  omega

theorem AreDigits.noBlank {digits : List Char} (areDigits : AreDigits digits) : NoBlank digits :=
  fun c member => isBlank_of_isDigit (areDigits c member)

theorem isWord_decimal (n : Nat) : IsWord (decimal n) :=
  ⟨decimal_ne_nil n, AreDigits.noBlank fun _ member => isDigit_of_mem_decimal member⟩

theorem isWord_signedDecimal (n : Int) : IsWord (signedDecimal n) := by
  cases n with
  | ofNat n => exact isWord_decimal n
  | negSucc n => exact ⟨List.cons_ne_nil _ _, (isWord_decimal (n + 1)).noBlank.cons (by decide)⟩

theorem isBlank_hexDigit (n : Nat) : isBlank (hexDigit n) = false := by
  have digits : ∀ m < 16, isBlank (hexDigit m) = false := by decide
  have small := digits _ (Nat.mod_lt n (by decide))
  rwa [hexDigit, Nat.mod_mod, ← hexDigit] at small

theorem noBlank_hexadecimal (n : Nat) : NoBlank (hexadecimal n) := by
  fun_induction hexadecimal n with
  | case1 n small => exact List.forall_mem_singleton.mpr (isBlank_hexDigit n)
  | case2 n large ih => exact ih.append (List.forall_mem_singleton.mpr (isBlank_hexDigit n))

/-- No blank but the space stands for itself in a quoted string. -/
theorem spaces_escape (c : Char) : ∀ d ∈ escape c, isBlank d = true → d = ' ' := by
  have words : ∀ {text : List Char}, NoBlank text → ∀ d ∈ text, isBlank d = true → d = ' ' := by
    intro text noBlank d member blank
    rw [noBlank d member] at blank
    cases blank
  unfold escape
  split
  · exact words (by decide)
  · exact words (by decide)
  · exact words (by decide)
  · exact words (by decide)
  · exact words (by decide)
  · split
    next needs =>
      have braced : NoBlank (hexadecimal c.toNat ++ ['\x7d']) :=
        (noBlank_hexadecimal _).append (by decide)
      exact words (.cons (by decide) (.cons (by decide) (.cons (by decide) braced)))
    next plain =>
      intro d member blank
      rw [List.mem_singleton] at member
      subst member
      by_cases space : d = ' '
      · exact space
      · simp [needsCodePoint, blank, space] at plain

theorem isLiteral_quote (text : List Char) : IsLiteral (quote text) := by
  refine ⟨List.cons_ne_nil _ _, fun c first => ?_, fun c last => ?_, fun c member blank => ?_⟩
  · cases first
    decide
  · rw [quote, List.getLast?_concat] at last
    cases last
    decide
  · have quotes : isBlank '"' = false := by decide
    rcases List.mem_append.mp member with before | closing
    · rcases List.mem_cons.mp before with rfl | inside
      · rw [quotes] at blank
        cases blank
      · obtain ⟨d, _, inside⟩ := List.mem_flatMap.mp inside
        exact spaces_escape d c inside blank
    · rw [List.mem_singleton.mp closing, quotes] at blank
      cases blank

end Text

namespace Decimal

open Text

theorem noBlank_placePoint {mark digits : List Char} (noMark : NoBlank mark)
    (noBlank : NoBlank digits) (point : Int) : NoBlank (placePoint mark digits point) := by
  have zeros : ∀ n, NoBlank (zeros n) := fun n => (AreDigits.zeros n).noBlank
  unfold placePoint
  split
  · exact (NoBlank.append (by decide) (zeros _)).append noBlank
  · exact NoBlank.append (by decide) noBlank
  · split
    · exact (noBlank.append (zeros _)).append noMark
    · refine NoBlank.append (fun c member => noBlank c (List.mem_of_mem_take member)) ?_
      exact .cons (by decide) fun c member => noBlank c (List.mem_of_mem_drop member)

theorem noBlank_withExponent {digits : List Char} (noBlank : NoBlank digits) (point : Int) :
    NoBlank (withExponent digits point) := by
  have fraction : NoBlank (digits.drop 1) := fun c member => noBlank c (List.mem_of_mem_drop member)
  have exponent : NoBlank ('e' :: signedDecimal (point - 1)) :=
    .cons (by decide) (isWord_signedDecimal _).noBlank
  have whole : NoBlank (digits.take 1) := fun c member => noBlank c (List.mem_of_mem_take member)
  unfold withExponent
  dsimp only
  split
  · exact (whole.append (List.forall_mem_nil _)).append exponent
  · exact (whole.append (.cons (by decide) fraction)).append exponent

section Layouts

variable {layout : Layout} (known : layout.wholeMark = [] ∨ layout.wholeMark = ['.', '0'])

include known

theorem noBlank_writeMagnitude (x : Float) : NoBlank (layout.writeMagnitude x) := by
  have mark : NoBlank layout.wholeMark := by
    rcases known with mark | mark
    · rw [mark]
      decide
    · rw [mark]
      decide
  have digits : NoBlank (significant (shortest x)).1 := fun c member => by
    obtain ⟨k, whole⟩ := exists_zeros (shortest x)
    refine (isWord_decimal (shortest x).coefficient).noBlank c ?_
    rw [whole]
    exact List.mem_append_left _ member
  rw [Layout.writeMagnitude]
  split
  · exact mark.cons (by decide)
  · dsimp only
    split
    · exact noBlank_placePoint mark digits _
    · exact noBlank_withExponent digits _

theorem isWord_write (x : Float) : IsWord (layout.write x) := by
  refine ⟨fun empty => ?_, ?_⟩
  · -- An empty text is read as no float.
    have read := read?_write known x
    rw [empty] at read
    cases read
  · rw [Layout.write]
    split
    · decide
    · have magnitude : NoBlank (if x.isInf then "inf".toList else layout.writeMagnitude x.abs) := by
        split
        · decide
        · exact noBlank_writeMagnitude known _
      dsimp only
      split
      · exact magnitude
      · exact magnitude.cons (by decide)

end Layouts

end Decimal

open Text

namespace Value

theorem known_literal : Decimal.literal.wholeMark = [] ∨ Decimal.literal.wholeMark = ['.', '0'] :=
  .inr rfl

theorem isLiteral_literal (value : Value) : IsLiteral value.literal.toList := by
  cases value with
  | int n =>
    rw [literal, String.toList_ofList]
    exact (isWord_signedDecimal _).isLiteral
  | float x =>
    rw [literal, String.toList_ofList]
    exact (Decimal.isWord_write known_literal x).isLiteral
  | bool b =>
    have word : IsWord (boolText b).toList := by
      cases b with
      | true => exact ⟨by decide, by decide⟩
      | false => exact ⟨by decide, by decide⟩
    exact word.isLiteral
  | string s =>
    rw [literal, String.toList_ofList]
    exact isLiteral_quote _

end Value

end StackLang
