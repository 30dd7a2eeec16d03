/-!
# Texts

Texts are lists of characters. The module fixes which of them are blank, how a
text is trimmed and divided into words and lines, and how it is told in bytes.
-/
namespace StackLang.Text

/-!
## White space, words and trimming

A blank is a character with the Unicode property `White_Space`; a control is a
character of category `Cc`. Both classes are fixed by their tables, and trimming
and the division into words are derived from the first. Line ends are blanks
like any other here.
-/

/-- The Unicode property `White_Space`. -/
def isBlank (c : Char) : Bool :=
  let code := c.toNat
  (9 ≤ code && code ≤ 13) || code == 0x20 || code == 0x85 || code == 0xA0 || code == 0x1680 ||
    (0x2000 ≤ code && code ≤ 0x200A) || code == 0x2028 || code == 0x2029 || code == 0x202F ||
    code == 0x205F || code == 0x3000

theorem isBlank_of_isWhitespace {c : Char} (h : c.isWhitespace = true) : isBlank c = true := by
  simp only [Char.isWhitespace, Bool.or_eq_true, decide_eq_true_eq] at h
  rcases h with ((h | h) | h) | h <;> subst h <;> decide

/-- The general category `Cc`. -/
def isControl (c : Char) : Bool :=
  c.toNat < 0x20 || (0x7F ≤ c.toNat && c.toNat ≤ 0x9F)

def trimStart (text : List Char) : List Char :=
  text.dropWhile isBlank

def trimEnd (text : List Char) : List Char :=
  (text.reverse.dropWhile isBlank).reverse

def trim (text : List Char) : List Char :=
  trimEnd (trimStart text)

/-- The text before the first blank and the text after it; nothing if the text has no blank. -/
def cutAtBlank (text : List Char) : Option (List Char × List Char) :=
  match text.dropWhile (!isBlank ·) with
  | [] => none
  | _ :: after => some (text.takeWhile (!isBlank ·), after)

/-- The characters up to the first blank, and the words of the text after them. -/
def headAndWords : List Char → List Char × List (List Char)
  | [] => ([], [])
  | c :: rest =>
    let (head, later) := headAndWords rest
    if isBlank c then ([], if head.isEmpty then later else head :: later) else (c :: head, later)

/-- The maximal runs of characters that are not blank, in order. -/
def words (text : List Char) : List (List Char) :=
  let (head, later) := headAndWords text
  if head.isEmpty then later else head :: later

/-!
## Lines

A text is divided at its line feeds. A carriage return directly before a line
feed belongs to the line end; any other carriage return belongs to its line.
A line feed at the very end closes the last line and opens no further one.
-/

def lines : List Char → List (List Char)
  | [] => []
  | '\n' :: rest => [] :: lines rest
  | '\r' :: '\n' :: rest => [] :: lines rest
  | c :: rest =>
    match lines rest with
    | [] => [[c]]
    | line :: later => (c :: line) :: later

/-- The text without the run of line feeds and carriage returns at its end. -/
def dropLineEnd (text : List Char) : List Char :=
  (text.reverse.dropWhile fun c => c == '\n' || c == '\r').reverse

/-- A line without line feed or carriage return, closed by a line feed, is read back as itself. -/
theorem lines_append_newline (line rest : List Char)
    (plain : ∀ c ∈ line, c ≠ '\n' ∧ c ≠ '\r') :
    lines (line ++ '\n' :: rest) = line :: lines rest := by
  induction line with
  | nil => simp [lines]
  | cons c line ih =>
    have here := plain c (by simp)
    have later := ih fun d member => plain d (by simp [member])
    rw [List.cons_append, lines]
    · simp [later]
    · exact here.1
    · intro _ return_ _
      exact here.2 return_

/-!
## Bytes and characters

A text is stored as its UTF-8 bytes. Bytes that come from outside may be no
UTF-8 at all: `decode?` refuses them, and `decodeLossy` shows each longest
start of a character that does not go on as one replacement character.
-/

def encode (text : String) : List UInt8 :=
  text.toUTF8.data.toList

def decode? (bytes : List UInt8) : Option String :=
  String.fromUTF8? ⟨bytes.toArray⟩

def replacement : Char :=
  Char.ofNat 0xFFFD

/-- The start of a character: the bits so far, how many bytes are due, and the range of the next. -/
structure Pending where
  value : Nat
  due : Nat
  low : Nat
  high : Nat
  deriving Repr, DecidableEq

/-- What a byte outside any character completes and what it begins. -/
def beginCharacter (byte : UInt8) : List Char × Option Pending :=
  let n := byte.toNat
  if n < 0x80 then ([Char.ofNat n], none)
  else if n < 0xC2 then ([replacement], none)
  else if n < 0xE0 then ([], some ⟨n % 0x20, 1, 0x80, 0xBF⟩)
  else if n < 0xF0 then
    ([], some ⟨n % 0x10, 2, if n == 0xE0 then 0xA0 else 0x80, if n == 0xED then 0x9F else 0xBF⟩)
  else if n < 0xF5 then
    ([], some ⟨n % 0x08, 3, if n == 0xF0 then 0x90 else 0x80, if n == 0xF4 then 0x8F else 0xBF⟩)
  else ([replacement], none)

def decodeFrom : Option Pending → List UInt8 → List Char
  | none, [] => []
  | some _, [] => [replacement]
  | none, byte :: rest =>
    let (done, next) := beginCharacter byte
    done ++ decodeFrom next rest
  | some start, byte :: rest =>
    if start.low ≤ byte.toNat && byte.toNat ≤ start.high then
      let value := 0x40 * start.value + byte.toNat % 0x40
      if start.due = 1 then Char.ofNat value :: decodeFrom none rest
      else decodeFrom (some ⟨value, start.due - 1, 0x80, 0xBF⟩) rest
    else
      let (done, next) := beginCharacter byte
      replacement :: done ++ decodeFrom next rest

def decodeLossy (bytes : List UInt8) : String :=
  String.ofList (decodeFrom none bytes)

/-- Every text is read back from its own bytes. -/
theorem decode?_encode (text : String) : decode? (encode text) = some text := by
  simp [decode?, encode, String.fromUTF8?, String.fromUTF8, text.isValidUTF8]

end StackLang.Text
