import StackLang.Value

/-!
# Instructions

The instruction set of the stack machine. Every instruction takes a fixed number
of slots from the stack and leaves a fixed number on it. Control moves by labels,
which a `label` instruction defines and the two jumps use.
-/
namespace StackLang

abbrev Label := UInt32

/-- The operand types of arithmetic and of ordering. -/
inductive NumericTag where
  | int
  | float
  deriving Repr, DecidableEq

namespace NumericTag

/-- Float for floats, otherwise int; meant for numeric types. -/
def ofStatic (type : StaticType) : NumericTag :=
  if type = .float then .float else .int

def toTag : NumericTag → TypeTag
  | .int => .int
  | .float => .float

def ofTag? : TypeTag → Option NumericTag
  | .int => some .int
  | .float => some .float
  | .string | .bool => none

end NumericTag

inductive ArithmeticOperator where
  | add
  | sub
  | mul
  | div
  deriving Repr, DecidableEq

inductive OrderingOperator where
  | less
  | greater
  deriving Repr, DecidableEq

inductive Instruction where
  | push (value : Value)
  | pop
  | load (name : String)
  | save (name : String)
  | arithmetic (operator : ArithmeticOperator) (tag : NumericTag)
  /-- The remainder of integer division. -/
  | modulo
  | negate (tag : NumericTag)
  | concat
  /-- Turns the int on the top of the stack into a float. -/
  | widen
  | ordering (operator : OrderingOperator) (tag : NumericTag)
  | equal (tag : TypeTag)
  | and
  | or
  | not
  | label (label : Label)
  | jump (label : Label)
  | jumpIfFalse (label : Label)
  /-- Prints the topmost values in the order they were pushed. -/
  | print (count : Nat)
  | read (tag : TypeTag)
  /-- Takes a file name, creates the file and leaves a handle to it. -/
  | openFile
  /-- Takes values and the handle below them, appends the values and leaves the handle. -/
  | appendFile (count : Nat)
  deriving DecidableEq, BEq

/-- The word an instruction begins with. -/
inductive Opcode where
  | push
  | pop
  | load
  | save
  | add
  | sub
  | mul
  | div
  | mod
  | uminus
  | concat
  | itof
  | lt
  | gt
  | eq
  | and
  | or
  | not
  | label
  | jmp
  | fjmp
  | print
  | read
  | fopen
  | fappend
  deriving Repr, DecidableEq

namespace Opcode

def all : List Opcode :=
  [.push, .pop, .load, .save, .add, .sub, .mul, .div, .mod, .uminus, .concat, .itof, .lt, .gt, .eq,
    .and, .or, .not, .label, .jmp, .fjmp, .print, .read, .fopen, .fappend]

def text : Opcode → String
  | .push => "push"
  | .pop => "pop"
  | .load => "load"
  | .save => "save"
  | .add => "add"
  | .sub => "sub"
  | .mul => "mul"
  | .div => "div"
  | .mod => "mod"
  | .uminus => "uminus"
  | .concat => "concat"
  | .itof => "itof"
  | .lt => "lt"
  | .gt => "gt"
  | .eq => "eq"
  | .and => "and"
  | .or => "or"
  | .not => "not"
  | .label => "label"
  | .jmp => "jmp"
  | .fjmp => "fjmp"
  | .print => "print"
  | .read => "read"
  | .fopen => "fopen"
  | .fappend => "fappend"

/-- The words an opcode is read from besides its own. -/
def aliases : Opcode → List String
  | .jmp => ["jump"]
  | .fjmp => ["jump-if-false"]
  | _ => []

/-- Letters of either case are accepted. -/
def ofText? (text : List Char) : Option Opcode :=
  let word := String.ofList (text.map Char.toLower)
  all.find? fun opcode => word = opcode.text || opcode.aliases.contains word

end Opcode

namespace Instruction

def opcode : Instruction → Opcode
  | .push _ => .push
  | .pop => .pop
  | .load _ => .load
  | .save _ => .save
  | .arithmetic .add _ => .add
  | .arithmetic .sub _ => .sub
  | .arithmetic .mul _ => .mul
  | .arithmetic .div _ => .div
  | .modulo => .mod
  | .negate _ => .uminus
  | .concat => .concat
  | .widen => .itof
  | .ordering .less _ => .lt
  | .ordering .greater _ => .gt
  | .equal _ => .eq
  | .and => .and
  | .or => .or
  | .not => .not
  | .label _ => .label
  | .jump _ => .jmp
  | .jumpIfFalse _ => .fjmp
  | .print _ => .print
  | .read _ => .read
  | .openFile => .fopen
  | .appendFile _ => .fappend

/-- How many slots an instruction takes. -/
def pops : Instruction → Nat
  | .push _ | .load _ | .read _ | .label _ | .jump _ => 0
  | .pop | .save _ | .jumpIfFalse _ | .negate _ | .widen | .not | .openFile => 1
  | .arithmetic _ _ | .modulo | .concat | .ordering _ _ | .equal _ | .and | .or => 2
  | .print count => count
  | .appendFile count => count + 1

/-- How many slots an instruction leaves in place of those it takes. -/
def pushes : Instruction → Nat
  | .pop | .save _ | .jumpIfFalse _ | .label _ | .jump _ | .print _ => 0
  | .push _ | .load _ | .read _ | .arithmetic _ _ | .modulo | .concat | .ordering _ _ | .equal _
  | .and | .or | .negate _ | .widen | .not | .openFile | .appendFile _ => 1

/-- The label that control may move to. -/
def target? : Instruction → Option Label
  | .jump l | .jumpIfFalse l => some l
  | _ => none

/-- The label that an instruction defines. -/
def definedLabel? : Instruction → Option Label
  | .label l => some l
  | _ => none

end Instruction

end StackLang
