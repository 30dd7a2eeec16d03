import StackLang.Value

/-!
# Program trees

The abstract form of a program. Every expression has an identity, by which later
passes attach its type, and a position; an identity occurs once in a tree made
by the builder. The module fixes no surface grammar. There is one flat scope,
and declarations are statements like any other.
-/
namespace StackLang

abbrev NodeId := UInt32

/-- What every expression carries besides its parts. -/
structure Node where
  id : NodeId
  position : Position
  deriving Repr, DecidableEq

structure Identifier where
  name : String
  position : Position
  deriving Repr, DecidableEq

inductive BinaryOperator where
  | add
  | subtract
  | multiply
  | divide
  | modulus
  | concat
  | equal
  | notEqual
  | less
  | greater
  | and
  | or
  deriving Repr, DecidableEq

/-- Operators of one class are typed by the same rule. -/
inductive OperatorClass where
  | arithmetic
  | concat
  | equality
  | relational
  | logical
  deriving Repr, DecidableEq

namespace BinaryOperator

def text : BinaryOperator → String
  | .add => "+"
  | .subtract => "-"
  | .multiply => "*"
  | .divide => "/"
  | .modulus => "%"
  | .concat => "."
  | .equal => "=="
  | .notEqual => "!="
  | .less => "<"
  | .greater => ">"
  | .and => "&&"
  | .or => "||"

def all : List BinaryOperator :=
  [.add, .subtract, .multiply, .divide, .modulus, .concat, .equal, .notEqual, .less, .greater,
    .and, .or]

def ofText? (text : String) : Option BinaryOperator :=
  all.find? fun operator => operator.text = text

def kind : BinaryOperator → OperatorClass
  | .add | .subtract | .multiply | .divide | .modulus => .arithmetic
  | .concat => .concat
  | .equal | .notEqual => .equality
  | .less | .greater => .relational
  | .and | .or => .logical

end BinaryOperator

inductive UnaryOperator where
  | not
  | negate
  deriving Repr, DecidableEq

namespace UnaryOperator

def text : UnaryOperator → String
  | .not => "!"
  | .negate => "-"

def ofText? (text : String) : Option UnaryOperator :=
  [not, negate].find? fun operator => operator.text = text

end UnaryOperator

inductive Expression where
  | literal (node : Node) (value : Value)
  | variable (node : Node) (name : Identifier)
  | grouping (node : Node) (inner : Expression)
  | binary (node : Node) (operator : BinaryOperator) (lhs rhs : Expression)
  | unary (node : Node) (operator : UnaryOperator) (operand : Expression)
  /-- Associates to the right: in a chain the value is the next assignment. -/
  | assignment (node : Node) (target : Identifier) (value : Expression)
  deriving DecidableEq

inductive Statement where
  | declaration (position : Position) (type : PrimitiveType) (names : List Identifier)
  | expression (position : Position) (value : Expression)
  | conditional (position : Position) (condition : Expression) (positive : Statement)
      (negative : Option Statement)
  | loop (position : Position) (condition : Expression) (body : Statement)
  | block (position : Position) (body : List Statement)
  | write (position : Position) (values : List Expression)
  | read (position : Position) (targets : List Identifier)
  | openFile (position : Position) (target : Identifier) (fileName : Expression)
  /-- The values follow each other in the order they are written to the file. -/
  | fileOutput (position : Position) (file : Expression) (values : List Expression)
  | empty (position : Position)

/-- A program is its statements in order. -/
abbrev Tree := List Statement

namespace Expression

def node : Expression → Node
  | .literal node _ => node
  | .variable node _ => node
  | .grouping node _ => node
  | .binary node _ _ _ => node
  | .unary node _ _ => node
  | .assignment node _ _ => node

def id (e : Expression) : NodeId :=
  e.node.id

def position (e : Expression) : Position :=
  e.node.position

/-- The expression inside any number of parentheses. -/
def ungrouped : Expression → Expression
  | .grouping _ inner => inner.ungrouped
  | e => e

/-- The nodes of the enclosing parentheses and of what they hold, the innermost first. -/
def layers : Expression → List Node
  | .grouping node inner => inner.layers ++ [node]
  | e => [e.node]

end Expression

namespace Statement

def position : Statement → Position
  | .declaration position _ _ => position
  | .expression position _ => position
  | .conditional position _ _ _ => position
  | .loop position _ _ => position
  | .block position _ => position
  | .write position _ => position
  | .read position _ => position
  | .openFile position _ _ => position
  | .fileOutput position _ _ => position
  | .empty position => position

end Statement

/-!
## Building trees

A builder numbers expressions in the order they are built, which is after their
parts, and gives every node and every name the position last set. Numbers wrap
after all 32-bit words are used.
-/

structure Builder where
  nextId : NodeId
  position : Position
  deriving Repr, DecidableEq

namespace Builder

def start : Builder :=
  ⟨0, ⟨1, 0⟩⟩

/-- Sets the position of all that is built from here on. -/
def moveTo (position : Position) : StateM Builder Unit :=
  modify fun builder => { builder with position }

def identifier (name : String) : StateM Builder Identifier := do
  return ⟨name, (← get).position⟩

/-- A node with a new identity. -/
def node : StateM Builder Node :=
  modifyGet fun builder =>
    (⟨builder.nextId, builder.position⟩, { builder with nextId := builder.nextId + 1 })

def literal (value : Value) : StateM Builder Expression := do
  return .literal (← node) value

def reference (name : String) : StateM Builder Expression := do
  let name ← identifier name
  return .variable (← node) name

def grouping (inner : Expression) : StateM Builder Expression := do
  return .grouping (← node) inner

def binary (operator : BinaryOperator) (lhs rhs : Expression) : StateM Builder Expression := do
  return .binary (← node) operator lhs rhs

def unary (operator : UnaryOperator) (operand : Expression) : StateM Builder Expression := do
  return .unary (← node) operator operand

def assignment (target : String) (value : Expression) : StateM Builder Expression := do
  let target ← identifier target
  return .assignment (← node) target value

/-- A statement at the position last set. -/
def statement (make : Position → Statement) : StateM Builder Statement := do
  return make (← get).position

def declaration (type : PrimitiveType) (names : List String) : StateM Builder Statement := do
  let names ← names.mapM identifier
  statement (.declaration · type names)

def read (targets : List String) : StateM Builder Statement := do
  let targets ← targets.mapM identifier
  statement (.read · targets)

def openFile (target : String) (fileName : Expression) : StateM Builder Statement := do
  let target ← identifier target
  statement (.openFile · target fileName)

end Builder

end StackLang
