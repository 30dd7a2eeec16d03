import StackLang.Instruction.Written
import StackLang.Proofs.Blanks

/-!
# String literals

What a text means as a string, without a scanner: a quoted text is a row of
pieces, each of which stands for one character, between two quotes. A text that
is no literal has a fault behind the pieces that are in order, and it has only
one. Reading agrees with both.
-/
namespace StackLang

/-- Where one of two relations always holds and each of them tells the result, both are exact. -/
theorem exact_of_total {ε α : Type} {result : Except ε α} {Good : α → Prop} {Bad : ε → Prop}
    (good : ∀ a, Good a → result = .ok a) (bad : ∀ e, Bad e → result = .error e)
    (total : (∃ a, Good a) ∨ ∃ e, Bad e) :
    (∀ a, result = .ok a ↔ Good a) ∧ ∀ e, result = .error e ↔ Bad e := by
  rcases total with ⟨a, holds⟩ | ⟨e, holds⟩
  · have known := good a holds
    refine ⟨fun other => ⟨fun same => ?_, good other⟩, fun other => ⟨fun same => ?_, bad other⟩⟩
    · rw [known] at same
      cases same
      exact holds
    · rw [known] at same
      cases same
  · have known := bad e holds
    refine ⟨fun other => ⟨fun same => ?_, good other⟩, fun other => ⟨fun same => ?_, bad other⟩⟩
    · rw [known] at same
      cases same
    · rw [known] at same
      cases same
      exact holds

namespace Text

/-- A hexadecimal digit of either case and its value. -/
def IsHexDigit (d : Char) (value : Nat) : Prop :=
  "0123456789abcdef".toList[value]? = some d ∨ "0123456789ABCDEF".toList[value]? = some d

/-- A row of digits, the first of them the most significant, and its value. -/
inductive Row (base : Nat) (IsDigit : Char → Nat → Prop) : List Char → Nat → Prop
  | none : Row base IsDigit [] 0
  | digit {digits : List Char} {n : Nat} {d : Char} {value : Nat}
    (row : Row base IsDigit digits n) (last : IsDigit d value) :
    Row base IsDigit (digits ++ [d]) (base * n + value)

/-- One to six hexadecimal digits that are the number of a character. -/
structure IsCodePoint (digits : List Char) (c : Char) : Prop where
  nonempty : digits ≠ []
  short : digits.length ≤ 6
  number : Row 16 IsHexDigit digits c.toNat

/-- A piece of a quoted string and the character it stands for. -/
inductive Piece : List Char → Char → Prop
  | plain {c : Char} (noQuote : c ≠ '"') (noSlash : c ≠ '\\') : Piece [c] c
  | quote : Piece ['\\', '"'] '"'
  | slash : Piece ['\\', '\\'] '\\'
  | newline : Piece ['\\', 'n'] '\n'
  | tab : Piece ['\\', 't'] '\t'
  | carriageReturn : Piece ['\\', 'r'] '\r'
  | codePoint {digits : List Char} {c : Char} (isCodePoint : IsCodePoint digits c) :
    Piece ('\\' :: 'u' :: '\x7b' :: digits ++ ['\x7d']) c

/-- Pieces one after the other, and what they stand for. -/
inductive Pieces : List Char → List Char → Prop
  | none : Pieces [] []
  | piece {source later : List Char} {c : Char} {text : List Char} (first : Piece source c)
    (others : Pieces later text) : Pieces (source ++ later) (c :: text)

/-- A text and the string it means. -/
inductive DenotesString : List Char → List Char → Prop
  | verbatim {text : List Char} (unquoted : text.head? ≠ some '"') : DenotesString text text
  | quoted {source text behind : List Char} (pieces : Pieces source text)
    (blank : AllBlank behind) : DenotesString ('"' :: source ++ '"' :: behind) text

/-- A text that goes on with no piece and is not closed with nothing but blanks behind. -/
inductive Breaks : List Char → QuoteError → Prop
  | atEnd : Breaks [] .unterminated
  | behindSlash : Breaks ['\\'] .unterminated
  | trailing {behind core : List Char} (trims : TrimsTo behind core) (some : core ≠ []) :
    Breaks ('"' :: behind) (.trailing core)
  | unknown {c : Char} {later : List Char} (noEscape : c ∉ ['"', '\\', 'n', 't', 'r', 'u']) :
    Breaks ('\\' :: c :: later) (.invalidEscape c)
  | noCodePoint {later : List Char} (none : ∀ digits c rest, IsCodePoint digits c →
      later ≠ '\x7b' :: digits ++ '\x7d' :: rest) :
    Breaks ('\\' :: 'u' :: later) (.invalidEscape 'u')

/-- A text that means no string, and what is wrong with it. -/
inductive StringFault : List Char → QuoteError → Prop
  | behind {source text later : List Char} {e : QuoteError} (pieces : Pieces source text)
    (breaks : Breaks later e) : StringFault ('"' :: source ++ later) e

section CodePoints

theorem toNat_lt_of_hexValue? {d : Char} {value : Nat} (known : hexValue? d = some value) :
    d.toNat < 128 := by
  unfold hexValue? at known
  simp only [Bool.and_eq_true, decide_eq_true_eq] at known
  split at known
  next range =>
    have most : d.toNat ≤ 57 := range.2
    omega
  next =>
    split at known
    next range =>
      have most : d.toNat ≤ 102 := range.2
      omega
    next =>
      split at known
      next range =>
        have most : d.toNat ≤ 70 := range.2
        omega
      next => cases known

theorem hexValue?_eq_some_iff {d : Char} {value : Nat} :
    hexValue? d = some value ↔ IsHexDigit d value := by
  constructor
  · intro known
    have table : ∀ n < 128, ∀ v ∈ hexValue? (Char.ofNat n), IsHexDigit (Char.ofNat n) v := by
      unfold IsHexDigit
      decide
    have held := table d.toNat (toNat_lt_of_hexValue? known)
    rw [Char.ofNat_toNat] at held
    exact held value known
  · have lower : ∀ v < 16, ("0123456789abcdef".toList[v]?).all (hexValue? · == some v) := by decide
    have upper : ∀ v < 16, ("0123456789ABCDEF".toList[v]?).all (hexValue? · == some v) := by decide
    rintro (entry | entry)
    · have held := lower value (List.getElem?_eq_some_iff.mp entry).1
      rwa [entry, Option.all_some, beq_iff_eq] at held
    · have held := upper value (List.getElem?_eq_some_iff.mp entry).1
      rwa [entry, Option.all_some, beq_iff_eq] at held

/-- A closing brace is no digit. -/
theorem IsHexDigit.ne_brace {d : Char} {value : Nat} (digit : IsHexDigit d value) :
    d ≠ '\x7d' := by
  rintro rfl
  have known := hexValue?_eq_some_iff.mpr digit
  cases known

theorem scanQuoted_digit {d : Char} {value : Nat} (digit : IsHexDigit d value) (n digits : Nat)
    (room : digits < 6) (rest : List Char) :
    scanQuoted (.codePoint n digits) (d :: rest) =
      scanQuoted (.codePoint (16 * n + value) (digits + 1)) rest := by
  rw [scanQuoted, if_neg digit.ne_brace, hexValue?_eq_some_iff.mpr digit]
  exact if_pos room

theorem scanQuoted_number {digits : List Char} {n : Nat} (number : Row 16 IsHexDigit digits n)
    (short : digits.length ≤ 6) (rest : List Char) :
    scanQuoted (.codePoint 0 0) (digits ++ rest) =
      scanQuoted (.codePoint n digits.length) rest := by
  induction number generalizing rest with
  | none => rfl
  | digit row last ih =>
    rw [List.length_append, List.length_singleton] at short ⊢
    rw [List.append_assoc, ih (by omega), List.singleton_append,
      scanQuoted_digit last _ _ (by omega)]

theorem scanQuoted_brace {digits : List Char} {c : Char} (isCodePoint : IsCodePoint digits c)
    (rest : List Char) :
    scanQuoted (.codePoint c.toNat digits.length) ('\x7d' :: rest) =
      (scanQuoted .plain rest).map (c :: ·) := by
  have some : 0 < digits.length := List.length_pos_iff.mpr isCodePoint.nonempty
  rw [scanQuoted, if_pos rfl, if_pos, Char.ofNat_toNat]
  rw [Bool.and_eq_true, decide_eq_true_eq, decide_eq_true_eq]
  exact ⟨some, c.valid⟩

theorem toNat_ofNat {n : Nat} (valid : n.isValidChar) : (Char.ofNat n).toNat = n := by
  rw [Char.ofNat, dif_pos valid]
  rfl

/-- Where no code point stands between the braces, its escape is at fault. -/
theorem scanQuoted_noCodePoint {row text : List Char} {n : Nat} (number : Row 16 IsHexDigit row n)
    (short : row.length ≤ 6)
    (none : ∀ digits c rest, IsCodePoint (row ++ digits) c → text ≠ digits ++ '\x7d' :: rest) :
    scanQuoted (.codePoint n row.length) text = .error (.invalidEscape 'u') := by
  -- The scanner's state is the value and the length of the row of digits behind it.
  induction text generalizing row n with
  | nil => rw [scanQuoted]
  | cons d rest ih =>
    rw [scanQuoted]
    split
    next brace =>
      refine if_neg fun holds => ?_
      obtain ⟨some, valid⟩ := Bool.and_eq_true_iff.mp holds
      have number : Row 16 IsHexDigit (row ++ []) (Char.ofNat n).toNat := by
        rwa [List.append_nil, toNat_ofNat (of_decide_eq_true valid)]
      refine none [] (Char.ofNat n) rest ⟨?_, ?_, number⟩ (by rw [brace]; rfl)
      · rw [List.append_nil]
        exact List.length_pos_iff.mp (of_decide_eq_true some)
      · rwa [List.append_nil]
    next =>
      cases known : hexValue? d with
      | none => rfl
      | some value =>
        dsimp only
        split
        next room =>
          have digit := hexValue?_eq_some_iff.mp known
          have length : (row ++ [d]).length = row.length + 1 := List.length_append
          rw [← length]
          refine ih (.digit number digit) (by omega) fun digits c later isCodePoint same => ?_
          rw [List.append_assoc] at isCodePoint
          exact none ([d] ++ digits) c later isCodePoint (by rw [same]; rfl)
        next => rfl

end CodePoints

section Scanning

theorem Piece.scanQuoted {source : List Char} {c : Char} (piece : Piece source c)
    (rest : List Char) :
    scanQuoted .plain (source ++ rest) = (scanQuoted .plain rest).map (c :: ·) := by
  cases piece with
  | plain noQuote noSlash =>
    rw [List.singleton_append, Text.scanQuoted, if_neg noQuote, if_neg noSlash]
  | quote | slash | newline | tab | carriageReturn => simp [Text.scanQuoted]
  | @codePoint digits _ isCodePoint =>
    have braced : '\\' :: 'u' :: '\x7b' :: digits ++ ['\x7d'] ++ rest =
        '\\' :: 'u' :: '\x7b' :: (digits ++ '\x7d' :: rest) := by simp
    rw [braced, Text.scanQuoted, if_neg (by decide), if_pos rfl, Text.scanQuoted, Text.scanQuoted,
      if_pos rfl, scanQuoted_number isCodePoint.number isCodePoint.short,
      scanQuoted_brace isCodePoint]

theorem Pieces.scanQuoted {source text : List Char} (pieces : Pieces source text)
    (rest : List Char) :
    scanQuoted .plain (source ++ rest) = (scanQuoted .plain rest).map (text ++ ·) := by
  induction pieces with
  | none =>
    rw [List.nil_append]
    cases Text.scanQuoted .plain rest <;> rfl
  | piece first others ih =>
    rw [List.append_assoc, first.scanQuoted, ih]
    cases Text.scanQuoted .plain rest <;> rfl

theorem AllBlank.scanQuoted {behind : List Char} (blank : AllBlank behind) :
    scanQuoted .plain ('"' :: behind) = .ok [] := by
  rw [Text.scanQuoted, if_pos rfl, blank.trim]
  rfl

theorem Breaks.scanQuoted {text : List Char} {e : QuoteError} (breaks : Breaks text e) :
    scanQuoted .plain text = .error e := by
  cases breaks with
  | atEnd => rfl
  | behindSlash => rfl
  | trailing trims some =>
    rw [Text.scanQuoted, if_pos rfl, trims.trim, if_neg]
    simpa using some
  | unknown noEscape =>
    simp only [List.mem_cons, List.not_mem_nil, or_false, not_or] at noEscape
    rw [Text.scanQuoted, if_neg (by decide), if_pos rfl, Text.scanQuoted]
    · exact noEscape.2.2.1
    · exact noEscape.2.2.2.1
    · exact noEscape.2.2.2.2.1
    · exact noEscape.1
    · exact noEscape.2.1
    · exact noEscape.2.2.2.2.2
  | @noCodePoint later none =>
    rw [Text.scanQuoted, if_neg (by decide), if_pos rfl, Text.scanQuoted]
    cases later with
    | nil => rfl
    | cons c rest =>
      rw [Text.scanQuoted]
      split
      next brace =>
        refine scanQuoted_noCodePoint .none (Nat.zero_le _) fun digits c later names same => ?_
        exact none digits c later names (by rw [brace, same]; rfl)
      next => rfl

end Scanning

section Literals

/-- A text goes on with a piece, or it is closed, or it breaks. -/
theorem piece_or_closed_or_breaks (text : List Char) :
    (∃ source c later, Piece source c ∧ text = source ++ later) ∨
      (∃ behind, AllBlank behind ∧ text = '"' :: behind) ∨ ∃ e, Breaks text e := by
  cases text with
  | nil => exact .inr (.inr ⟨_, .atEnd⟩)
  | cons c rest =>
    by_cases quote : c = '"'
    · subst quote
      by_cases blank : AllBlank rest
      · exact .inr (.inl ⟨rest, blank, rfl⟩)
      · exact .inr (.inr ⟨_, .trailing (trimsTo_trim rest) (blank ∘ allBlank_of_trim)⟩)
    by_cases slash : c = '\\'
    · subst slash
      cases rest with
      | nil => exact .inr (.inr ⟨_, .behindSlash⟩)
      | cons d later =>
        by_cases known : d ∈ ['"', '\\', 'n', 't', 'r', 'u']
        · simp only [List.mem_cons, List.not_mem_nil, or_false] at known
          rcases known with rfl | rfl | rfl | rfl | rfl | rfl
          · exact .inl ⟨_, _, later, .quote, rfl⟩
          · exact .inl ⟨_, _, later, .slash, rfl⟩
          · exact .inl ⟨_, _, later, .newline, rfl⟩
          · exact .inl ⟨_, _, later, .tab, rfl⟩
          · exact .inl ⟨_, _, later, .carriageReturn, rfl⟩
          · by_cases named : ∃ digits c rest, IsCodePoint digits c ∧
                later = '\x7b' :: digits ++ '\x7d' :: rest
            · obtain ⟨digits, c, rest, isCodePoint, rfl⟩ := named
              exact .inl ⟨_, c, rest, .codePoint isCodePoint, by simp⟩
            · refine .inr (.inr ⟨_, .noCodePoint fun digits c rest isCodePoint same => ?_⟩)
              exact named ⟨digits, c, rest, isCodePoint, same⟩
        · exact .inr (.inr ⟨_, .unknown known⟩)
    · exact .inl ⟨_, c, rest, .plain quote slash, rfl⟩

theorem Piece.ne_nil {source : List Char} {c : Char} (piece : Piece source c) : source ≠ [] := by
  cases piece <;> exact List.cons_ne_nil _ _

theorem closed_or_breaks (text : List Char) :
    (∃ source meant behind, Pieces source meant ∧ AllBlank behind ∧
      text = source ++ '"' :: behind) ∨
      ∃ source meant later e, Pieces source meant ∧ Breaks later e ∧ text = source ++ later := by
  rcases piece_or_closed_or_breaks text with
    ⟨source, c, later, piece, rfl⟩ | ⟨behind, blank, rfl⟩ | ⟨e, breaks⟩
  · -- No piece is empty, so what is behind it is shorter.
    have shorter : later.length < (source ++ later).length := by
      have some := List.length_pos_iff.mpr piece.ne_nil
      rw [List.length_append]
      omega
    rcases closed_or_breaks later with
      ⟨others, meant, behind, pieces, blank, rfl⟩ | ⟨others, meant, rest, e, pieces, breaks, rfl⟩
    · exact .inl ⟨source ++ others, c :: meant, behind, .piece piece pieces, blank, by simp⟩
    · exact .inr ⟨source ++ others, c :: meant, rest, e, .piece piece pieces, breaks, by simp⟩
  · exact .inl ⟨[], [], behind, .none, blank, rfl⟩
  · exact .inr ⟨[], [], text, e, .none, breaks, rfl⟩
termination_by text.length

variable {text meant : List Char} {e : QuoteError}

theorem unquote_of_head? (unquoted : text.head? ≠ some '"') : unquote text = .ok text := by
  rw [unquote]
  rintro body rfl
  exact unquoted rfl

theorem DenotesString.unquote (denotes : DenotesString text meant) :
    unquote text = .ok meant := by
  cases denotes with
  | verbatim unquoted => exact unquote_of_head? unquoted
  | quoted pieces blank =>
    rw [List.cons_append, Text.unquote, pieces.scanQuoted, blank.scanQuoted, Except.map,
      List.append_nil]

theorem StringFault.unquote (fault : StringFault text e) : unquote text = .error e := by
  obtain ⟨pieces, breaks⟩ := fault
  rw [List.cons_append, Text.unquote, pieces.scanQuoted, breaks.scanQuoted, Except.map]

/-- Every text means a string or has a fault. -/
theorem denotes_or_fault (text : List Char) :
    (∃ meant, DenotesString text meant) ∨ ∃ e, StringFault text e := by
  by_cases quoted : text.head? = some '"'
  · obtain ⟨body, rfl⟩ := List.head?_eq_some_iff.mp quoted
    rcases closed_or_breaks body with
      ⟨source, meant, behind, pieces, blank, rfl⟩ | ⟨source, meant, later, e, pieces, breaks, rfl⟩
    · exact .inl ⟨meant, .quoted pieces blank⟩
    · exact .inr ⟨e, .behind pieces breaks⟩
  · exact .inl ⟨text, .verbatim quoted⟩

theorem unquote_eq_ok_iff : unquote text = .ok meant ↔ DenotesString text meant :=
  (exact_of_total (fun _ => DenotesString.unquote) (fun _ => StringFault.unquote)
    (denotes_or_fault text)).1 meant

theorem unquote_eq_error_iff : unquote text = .error e ↔ StringFault text e :=
  (exact_of_total (fun _ => DenotesString.unquote) (fun _ => StringFault.unquote)
    (denotes_or_fault text)).2 e

end Literals

end Text

open Text

/--
A text is read as a string exactly if it means that string: as it stands if it does not begin with
a quote, otherwise as what the pieces between its quotes stand for. It is refused exactly for its
fault, which is the first from the left.
-/
theorem Value.read_string (text : List Char) :
    (∀ value, Value.read .string text = .ok value ↔
      ∃ meant, DenotesString text meant ∧ value = .string (String.ofList meant)) ∧
    ∀ error, Value.read .string text = .error error ↔
      ∃ e, StringFault text e ∧ error = .ofQuoteError e := by
  simp only [← unquote_eq_ok_iff, ← unquote_eq_error_iff, Value.read]
  cases unquote text with
  | ok meant => simp [eq_comm]
  | error e => simp [eq_comm]

-- The number of a surrogate is the number of no character.
example : Value.read .string "\"\\u\x7bd800\x7d\"".toList = .error (.invalidEscape 'u') := by rfl

end StackLang
