import StackLang.Instruction.Basic
import StackLang.Text.Quoted
import StackLang.Text.Style

/-!
# The text of instructions

How an instruction is written on a line, and how a line is read as one.
-/
namespace StackLang

/-!
## The written form of instructions

An instruction is its opcode followed by its operands, with one space between
them. A float literal shows that it is no integer, and a string literal is
quoted. On a terminal every part has the colour of its kind.
-/

/-- The text a value is written as in an instruction. -/
def Value.literal : Value → String
  | .int n => String.ofList (Text.signedDecimal n.toInt)
  | .float x => String.ofList (Decimal.literal.write x)
  | .bool b => Value.boolText b
  | .string s => String.ofList (Text.quote s.toList)

namespace Instruction

open Text (Style)

/-- The operands in order, each with its colour. -/
def operands : Instruction → List (Style × String)
  | .push value => [(.yellow, value.tag.text), (.magenta, value.literal)]
  | .load name | .save name => [(.white, name)]
  | .arithmetic _ tag | .negate tag | .ordering _ tag => [(.yellow, tag.toTag.text)]
  | .equal tag | .read tag => [(.yellow, tag.text)]
  | .label l => [(.brightRed, natText l.toNat)]
  | .jump l | .jumpIfFalse l => [(.blue, natText l.toNat)]
  | .print count | .appendFile count => [(.magenta, natText count)]
  | .pop | .modulo | .concat | .widen | .and | .or | .not | .openFile => []

def opcodeStyle : Instruction → Style
  | .label _ => .brightRed
  | _ => .cyan

/-- The parts of an instruction in order, each with its colour. -/
def parts (i : Instruction) : List (Style × String) :=
  (i.opcodeStyle, i.opcode.text) :: i.operands

/-- The instruction for a terminal, or in plain text where colours are off. -/
def display (colours : Bool) (i : Instruction) : String :=
  " ".intercalate (i.parts.map fun (style, text) => style.paint colours text)

def text (i : Instruction) : String :=
  " ".intercalate (i.parts.map Prod.snd)

theorem display_false (i : Instruction) : i.display false = i.text := by
  simp [display, text, Text.paint_without_colours]

end Instruction

/-!
## Reading instructions

One instruction stands on a line. Its first word is the opcode; the others are
its operands, except that the literal of a `push` is all that follows its tag.
The first check to fail decides the error: the opcode, then the number of
operands, then the operand itself.
-/

inductive ReadError where
  | unknownInstruction (word : String)
  | operandCount (opcode : Opcode) (expected found : Nat)
  | invalidTypeTag (opcode : Opcode) (tag : String)
  | malformedLiteral (tag : TypeTag) (text : String)
  | invalidCount (text : String)
  | invalidLabel (text : String)
  | unterminatedString
  | invalidEscape (c : Char)
  | trailingInput (rest : String)
  deriving Repr, DecidableEq

namespace ReadError

def ofQuoteError : Text.QuoteError → ReadError
  | .unterminated => .unterminatedString
  | .invalidEscape c => .invalidEscape c
  | .trailing rest => .trailingInput (String.ofList rest)

def message : ReadError → String
  | .unknownInstruction word => s!"unknown instruction '{word}'"
  | .operandCount opcode expected found =>
    s!"'{opcode.text}' expects {natText expected} operand(s), found {natText found}"
  | .invalidTypeTag opcode tag => s!"invalid type tag '{tag}' for '{opcode.text}'"
  | .malformedLiteral tag text => s!"malformed {tag.text} literal '{text}'"
  | .invalidCount text => s!"invalid count '{text}'"
  | .invalidLabel text => s!"invalid label '{text}'"
  | .unterminatedString => "unterminated string literal"
  | .invalidEscape c => "invalid escape sequence '\\" ++ String.singleton c ++ "'"
  | .trailingInput rest => s!"unexpected input after literal: '{rest}'"

end ReadError

/-- The value of a type that a text denotes. -/
def Value.read (tag : TypeTag) (text : List Char) : Except ReadError Value :=
  let malformed := ReadError.malformedLiteral tag (String.ofList text)
  match tag with
  | .int => ((Text.readInt64? text).map Value.int).elim (.error malformed) .ok
  | .float => ((Decimal.read? text).map Value.float).elim (.error malformed) .ok
  | .bool => ((Value.readBool? text).map Value.bool).elim (.error malformed) .ok
  | .string =>
    match Text.unquote text with
    | .ok s => .ok (.string (String.ofList s))
    | .error e => .error (.ofQuoteError e)

namespace Instruction

/-- The instruction, if no operand follows its opcode. -/
def readBare (opcode : Opcode) (rest : List Char) (i : Instruction) :
    Except ReadError Instruction :=
  match Text.words rest with
  | [] => .ok i
  | operands => .error (.operandCount opcode 0 operands.length)

/-- The one operand that follows an opcode. -/
def readOperand (opcode : Opcode) (rest : List Char) : Except ReadError (List Char) :=
  match Text.words rest with
  | [operand] => .ok operand
  | operands => .error (.operandCount opcode 1 operands.length)

def readTag (opcode : Opcode) (text : List Char) : Except ReadError TypeTag :=
  match TypeTag.ofText? text with
  | some tag => .ok tag
  | none => .error (.invalidTypeTag opcode (String.ofList text))

def readNumericTag (opcode : Opcode) (text : List Char) : Except ReadError NumericTag :=
  match (TypeTag.ofText? text).bind NumericTag.ofTag? with
  | some tag => .ok tag
  | none => .error (.invalidTypeTag opcode (String.ofList text))

def readLabel (text : List Char) : Except ReadError Label :=
  match Text.readLabel? text with
  | some l => .ok l
  | none => .error (.invalidLabel (String.ofList text))

def readCount (text : List Char) : Except ReadError Nat :=
  match Text.readCount? text with
  | some count => .ok count
  | none => .error (.invalidCount (String.ofList text))

/-- The tag and the literal of a `push`. -/
def readPush (rest : List Char) : Except ReadError Instruction :=
  let rest := Text.trimStart rest
  match Text.cutAtBlank rest with
  | none => .error (.operandCount .push 2 (if rest.isEmpty then 0 else 1))
  | some (tag, literal) => do
    let tag ← readTag .push tag
    return .push (← Value.read tag (Text.trim literal))

/-- The instruction with a given opcode and what follows it on the line. -/
def readAs (opcode : Opcode) (rest : List Char) : Except ReadError Instruction :=
  let bare := readBare opcode rest
  let name := (String.ofList ·) <$> readOperand opcode rest
  let tag := do readTag opcode (← readOperand opcode rest)
  let numericTag := do readNumericTag opcode (← readOperand opcode rest)
  let label := do readLabel (← readOperand opcode rest)
  let count := do readCount (← readOperand opcode rest)
  match opcode with
  | .push => readPush rest
  | .pop => bare .pop
  | .load => .load <$> name
  | .save => .save <$> name
  | .add => .arithmetic .add <$> numericTag
  | .sub => .arithmetic .sub <$> numericTag
  | .mul => .arithmetic .mul <$> numericTag
  | .div => .arithmetic .div <$> numericTag
  | .mod => bare .modulo
  | .uminus => .negate <$> numericTag
  | .concat => bare .concat
  | .itof => bare .widen
  | .lt => .ordering .less <$> numericTag
  | .gt => .ordering .greater <$> numericTag
  | .eq => .equal <$> tag
  | .and => bare .and
  | .or => bare .or
  | .not => bare .not
  | .label => .label <$> label
  | .jmp => .jump <$> label
  | .fjmp => .jumpIfFalse <$> label
  | .print => .print <$> count
  | .read => .read <$> tag
  | .fopen => bare .openFile
  | .fappend => .appendFile <$> count

/-- The instruction that a line holds. -/
def ofText (line : List Char) : Except ReadError Instruction :=
  let line := Text.trim line
  let (word, rest) := (Text.cutAtBlank line).getD (line, [])
  match Opcode.ofText? word with
  | some opcode => readAs opcode rest
  | none => .error (.unknownInstruction (String.ofList word))

end Instruction

end StackLang
