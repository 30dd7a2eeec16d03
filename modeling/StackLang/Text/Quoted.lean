import StackLang.Text.Basic

/-!
# Quoted strings

Writing puts a string between double quotes and escapes what could end the
literal or the line it stands on. Reading takes a text that does not start with
a quote as it stands. After a quote it accepts the escapes that writing uses and
code points of one to six hexadecimal digits; the first fault from the left is
the one reported.
-/
namespace StackLang.Text

inductive QuoteError where
  | unterminated
  | invalidEscape (c : Char)
  | trailing (rest : List Char)
  deriving Repr, DecidableEq

def hexDigit (n : Nat) : Char :=
  if n % 16 < 10 then Char.ofNat ('0'.toNat + n % 16) else Char.ofNat ('a'.toNat + (n % 16 - 10))

def hexadecimal (n : Nat) : List Char :=
  if n < 16 then [hexDigit n] else hexadecimal (n / 16) ++ [hexDigit n]

def hexValue? (c : Char) : Option Nat :=
  if '0' ≤ c && c ≤ '9' then some (c.toNat - '0'.toNat)
  else if 'a' ≤ c && c ≤ 'f' then some (c.toNat - 'a'.toNat + 10)
  else if 'A' ≤ c && c ≤ 'F' then some (c.toNat - 'A'.toNat + 10)
  else none

/-- Controls and blanks other than the space are written as code points. -/
def needsCodePoint (c : Char) : Bool :=
  isControl c || (isBlank c && c != ' ')

def escape (c : Char) : List Char :=
  match c with
  | '"' => ['\\', '"']
  | '\\' => ['\\', '\\']
  | '\n' => ['\\', 'n']
  | '\t' => ['\\', 't']
  | '\r' => ['\\', 'r']
  | c => if needsCodePoint c then '\\' :: 'u' :: '\x7b' :: hexadecimal c.toNat ++ ['\x7d'] else [c]

def quote (text : List Char) : List Char :=
  '"' :: text.flatMap escape ++ ['"']

/-- Where a reader stands inside a quoted string. -/
inductive QuoteState where
  | plain
  | escaped
  | openBrace
  | codePoint (value digits : Nat)
  deriving Repr, DecidableEq

def scanQuoted : QuoteState → List Char → Except QuoteError (List Char)
  | .plain, [] => .error .unterminated
  | .escaped, [] => .error .unterminated
  | .openBrace, [] => .error (.invalidEscape 'u')
  | .codePoint _ _, [] => .error (.invalidEscape 'u')
  | .plain, c :: rest =>
    if c = '"' then
      if (trim rest).isEmpty then .ok [] else .error (.trailing (trim rest))
    else if c = '\\' then scanQuoted .escaped rest
    else (scanQuoted .plain rest).map (c :: ·)
  | .escaped, c :: rest =>
    match c with
    | 'n' => (scanQuoted .plain rest).map ('\n' :: ·)
    | 't' => (scanQuoted .plain rest).map ('\t' :: ·)
    | 'r' => (scanQuoted .plain rest).map ('\r' :: ·)
    | '"' => (scanQuoted .plain rest).map ('"' :: ·)
    | '\\' => (scanQuoted .plain rest).map ('\\' :: ·)
    | 'u' => scanQuoted .openBrace rest
    | c => .error (.invalidEscape c)
  | .openBrace, c :: rest =>
    if c = '\x7b' then scanQuoted (.codePoint 0 0) rest else .error (.invalidEscape 'u')
  | .codePoint value digits, c :: rest =>
    if c = '\x7d' then
      if 0 < digits && value.isValidChar then
        (scanQuoted .plain rest).map (Char.ofNat value :: ·)
      else .error (.invalidEscape 'u')
    else
      match hexValue? c with
      | some d =>
        if digits < 6 then scanQuoted (.codePoint (16 * value + d) (digits + 1)) rest
        else .error (.invalidEscape 'u')
      | none => .error (.invalidEscape 'u')

/-- The string that a text denotes. -/
def unquote : List Char → Except QuoteError (List Char)
  | '"' :: body => scanQuoted .plain body
  | text => .ok text

theorem hexValue?_hexDigit (n : Nat) : hexValue? (hexDigit n) = some (n % 16) := by
  have values : ∀ m < 16, hexValue? (hexDigit m) = some m := by decide
  have small := values _ (Nat.mod_lt n (by decide))
  rwa [hexDigit, Nat.mod_mod, ← hexDigit] at small

theorem hexDigit_ne_brace (n : Nat) : hexDigit n ≠ '\x7d' := by
  have others : ∀ m < 16, hexDigit m ≠ '\x7d' := by decide
  have small := others _ (Nat.mod_lt n (by decide))
  rwa [hexDigit, Nat.mod_mod, ← hexDigit] at small

theorem scanQuoted_hexDigit (n digits value : Nat) (rest : List Char) (room : digits < 6) :
    scanQuoted (.codePoint value digits) (hexDigit n :: rest) =
      scanQuoted (.codePoint (16 * value + n % 16) (digits + 1)) rest := by
  simp [scanQuoted, hexDigit_ne_brace, hexValue?_hexDigit, room]

/-- Digits are taken up to a value as they are written. -/
theorem scanQuoted_hexadecimal (n : Nat) (rest : List Char)
    (room : (hexadecimal n).length ≤ 6) :
    scanQuoted (.codePoint 0 0) (hexadecimal n ++ rest) =
      scanQuoted (.codePoint n (hexadecimal n).length) rest := by
  fun_induction hexadecimal n generalizing rest with
  | case1 n small =>
    rw [List.singleton_append, scanQuoted_hexDigit _ _ _ _ (by decide)]
    simp [Nat.mod_eq_of_lt small]
  | case2 n large ih =>
    rw [List.length_append, List.length_singleton] at room
    rw [List.append_assoc, ih _ (by omega), List.singleton_append,
      scanQuoted_hexDigit _ _ _ _ (by omega), List.length_append, List.length_singleton]
    have whole : 16 * (n / 16) + n % 16 = n := by omega
    rw [whole]

theorem length_hexadecimal_le {n : Nat} (h : n < 0x1000000) : (hexadecimal n).length ≤ 6 := by
  have bound : ∀ (digits n : Nat), n < 16 <<< (4 * digits) → (hexadecimal n).length ≤ digits + 1 := by
    intro digits
    induction digits with
    | zero =>
      intro n small
      have single : n < 16 := small
      rw [hexadecimal]
      simp [single]
    | succ digits ih =>
      intro n small
      rw [hexadecimal]
      split
      · simp
      · rw [List.length_append, List.length_singleton]
        have earlier : n / 16 < 16 <<< (4 * digits) := by
          rw [Nat.shiftLeft_eq] at small ⊢
          rw [Nat.mul_add, Nat.pow_add] at small
          omega
        have := ih _ earlier
        omega
  exact bound 5 n (by simpa using h)

theorem length_hexadecimal_pos (n : Nat) : 0 < (hexadecimal n).length := by
  rw [hexadecimal]
  split <;> simp

/-- What escaping puts in place of a character is read back as that character. -/
theorem scanQuoted_escape (c : Char) (rest : List Char) :
    scanQuoted .plain (escape c ++ rest) = (scanQuoted .plain rest).map (c :: ·) := by
  unfold escape
  split
  · simp [scanQuoted]
  · simp [scanQuoted]
  · simp [scanQuoted]
  · simp [scanQuoted]
  · simp [scanQuoted]
  next plain slash _ _ _ =>
    split
    · have size : c.toNat < 0x1000000 := by
        have valid := c.valid
        simp only [UInt32.isValidChar, Nat.isValidChar] at valid
        change c.val.toNat < _
        omega
      have digits := length_hexadecimal_le size
      simp only [List.cons_append, List.append_assoc, List.nil_append]
      rw [scanQuoted, if_neg (by decide), if_pos rfl, scanQuoted, scanQuoted, if_pos rfl,
        scanQuoted_hexadecimal _ _ digits, scanQuoted, if_pos rfl, if_pos, Char.ofNat_toNat]
      rw [Bool.and_eq_true, decide_eq_true_eq, decide_eq_true_eq]
      exact ⟨length_hexadecimal_pos _, c.valid⟩
    · rw [List.singleton_append, scanQuoted, if_neg, if_neg]
      · exact slash
      · exact plain

theorem scanQuoted_flatMap_escape (text rest : List Char) :
    scanQuoted .plain (text.flatMap escape ++ rest) =
      (scanQuoted .plain rest).map (text ++ ·) := by
  induction text with
  | nil =>
    rw [List.flatMap_nil, List.nil_append]
    cases scanQuoted .plain rest <;> rfl
  | cons c text ih =>
    rw [List.flatMap_cons, List.append_assoc, scanQuoted_escape, ih]
    cases scanQuoted .plain rest <;> rfl

/-- Every string is read back from its quoted form. -/
theorem unquote_quote (text : List Char) : unquote (quote text) = .ok text := by
  rw [quote, List.cons_append, unquote, scanQuoted_flatMap_escape]
  simp [scanQuoted, trim, trimStart, trimEnd, Except.map]

end StackLang.Text
