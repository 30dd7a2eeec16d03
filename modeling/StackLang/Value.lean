import StackLang.Decimal
import StackLang.Text.Numeral

/-!
# Positions, values and types

What trees and instructions have in common: where a thing stands in a source,
the plain values, and the types of expressions and variables.
-/
namespace StackLang

/-!
## Source positions

A line and a column. Every node of a tree and every name in it carries one, and
every diagnostic points at one.
-/

structure Position where
  line : Nat
  column : Nat
  deriving Repr, DecidableEq

/-- The decimal text of a count, an index or a label. -/
def natText (n : Nat) : String :=
  String.ofList (Text.decimal n)

def Position.text (position : Position) : String :=
  natText position.line ++ ":" ++ natText position.column

/-!
## Plain values

The values a program computes with: integers of 64 bits, binary floating-point
numbers, truth values and strings. The same values stand in trees as literals
and in instructions as constants. A value has two written forms, the text it is
printed as and the literal it is written as in an instruction.
-/

/-- Equality (`==`) compares floats as numbers, so a float that is not a number differs from all. -/
inductive Value where
  | int (n : Int64)
  | float (x : Float)
  | bool (b : Bool)
  | string (s : String)
  deriving DecidableEq, BEq

/-- The types that have literals. -/
inductive TypeTag where
  | int
  | float
  | string
  | bool
  deriving Repr, DecidableEq

namespace TypeTag

def text : TypeTag → String
  | .int => "I"
  | .float => "F"
  | .string => "S"
  | .bool => "B"

/-- A tag is one letter of either case. -/
def ofText? (text : List Char) : Option TypeTag :=
  match text.map Char.toUpper with
  | ['I'] => some .int
  | ['F'] => some .float
  | ['S'] => some .string
  | ['B'] => some .bool
  | _ => none

end TypeTag

namespace Value

def tag : Value → TypeTag
  | .int _ => .int
  | .float _ => .float
  | .bool _ => .bool
  | .string _ => .string

/-- The value every variable of a type starts with. -/
def zero : TypeTag → Value
  | .int => .int 0
  | .float => .float 0
  | .string => .string ""
  | .bool => .bool false

def kind : Value → String
  | .int _ => "int"
  | .float _ => "float"
  | .bool _ => "bool"
  | .string _ => "string"

def boolText (b : Bool) : String :=
  if b then "true" else "false"

/-- The text a value is printed as. -/
def text : Value → String
  | .int n => String.ofList (Text.signedDecimal n.toInt)
  | .float x => String.ofList (Decimal.output.write x)
  | .bool b => boolText b
  | .string s => s

/-- A truth value in letters of any case. -/
def readBool? (text : List Char) : Option Bool :=
  let lower := text.map Char.toLower
  if lower = "true".toList then some true
  else if lower = "false".toList then some false
  else none

end Value

/-!
## Static types

A declaration names one of five primitive types. Expressions have one more, the
error type: it stands where an earlier report leaves no type to go on with. The
only conversion is from int to float. It is applied to the int of a mixed pair
of operands and to an int stored in a float variable.
-/

inductive PrimitiveType where
  | int
  | float
  | bool
  | string
  | file
  deriving Repr, DecidableEq

inductive StaticType where
  | int
  | float
  | bool
  | string
  | file
  | error
  deriving Repr, DecidableEq

namespace PrimitiveType

def text : PrimitiveType → String
  | .int => "int"
  | .float => "float"
  | .bool => "bool"
  | .string => "string"
  | .file => "file"

def all : List PrimitiveType :=
  [.int, .float, .bool, .string, .file]

def ofText? (text : String) : Option PrimitiveType :=
  all.find? fun type => type.text = text

def static : PrimitiveType → StaticType
  | .int => .int
  | .float => .float
  | .bool => .bool
  | .string => .string
  | .file => .file

end PrimitiveType

namespace StaticType

def text : StaticType → String
  | .int => "int"
  | .float => "float"
  | .bool => "bool"
  | .string => "string"
  | .file => "file"
  | .error => "<error>"

def all : List StaticType :=
  [.int, .float, .bool, .string, .file, .error]

def ofText? (text : String) : Option StaticType :=
  all.find? fun type => type.text = text

def isNumeric : StaticType → Bool
  | .int | .float => true
  | _ => false

def isError : StaticType → Bool
  | .error => true
  | _ => false

/-- The common type of two numeric operands. -/
def promote? : StaticType → StaticType → Option StaticType
  | .int, .int => some .int
  | .int, .float | .float, .int | .float, .float => some .float
  | _, _ => none

/-- Whether a variable of the first type may hold a value of the second. -/
def accepts (target value : StaticType) : Bool :=
  target = value || (target = .float && value = .int)

/-- Whether one of the two operands is an int to be converted. -/
def needsWidening : StaticType → StaticType → Bool
  | .int, .float | .float, .int => true
  | _, _ => false

/-- Files have no literals, are not read and are not compared. -/
def tag? : StaticType → Option TypeTag
  | .int => some .int
  | .float => some .float
  | .bool => some .bool
  | .string => some .string
  | .file | .error => none

def ofValue : Value → StaticType
  | .int _ => .int
  | .float _ => .float
  | .bool _ => .bool
  | .string _ => .string

theorem isError_iff (type : StaticType) : type.isError = true ↔ type = .error := by
  cases type <;> simp [isError]

theorem promote?_isSome_iff (lhs rhs : StaticType) :
    (promote? lhs rhs).isSome ↔ lhs.isNumeric ∧ rhs.isNumeric := by
  cases lhs <;> cases rhs <;> simp [promote?, isNumeric]

theorem tag?_static (type : PrimitiveType) : type.static.tag? = none ↔ type = .file := by
  cases type <;> simp [PrimitiveType.static, tag?]

end StaticType

end StackLang
