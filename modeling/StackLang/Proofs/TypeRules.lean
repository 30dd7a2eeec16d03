import StackLang.Proofs.Evaluation
import StackLang.Typing

/-!
# The type system

The rules by which a tree is well typed, told without a checker. Types are the
five that can be declared; there is no type for what went wrong, since a rule
either applies or does not. Names in force are a list that only grows: a
declaration adds to it for everything that follows in the text, whatever the
declaration is nested in.
-/
namespace StackLang

namespace PrimitiveType

def IsNumeric (type : PrimitiveType) : Prop :=
  type = .int ∨ type = .float

/-- A variable of the first type can be given a value of the second. -/
def Takes (target value : PrimitiveType) : Prop :=
  value = target ∨ (target = .float ∧ value = .int)

/-- Files are written numbers and strings only. -/
def IsWritten (type : PrimitiveType) : Prop :=
  type = .int ∨ type = .float ∨ type = .string

/-- The type of a sum: float if an operand is, otherwise int. -/
def wider (left right : PrimitiveType) : PrimitiveType :=
  if left = .float ∨ right = .float then .float else .int

end PrimitiveType

/-- The operands that a binary operator takes and the type of its value. -/
inductive BinaryOperator.Rule (policy : LogicalPolicy) :
    BinaryOperator → PrimitiveType → PrimitiveType → PrimitiveType → Prop
  | arithmetic {operator : BinaryOperator} {left right : PrimitiveType}
    (applies : operator ∈ [.add, .subtract, .multiply, .divide])
    (lhsNumeric : left.IsNumeric) (rhsNumeric : right.IsNumeric) :
    Rule policy operator left right (left.wider right)
  | modulus : Rule policy .modulus .int .int .int
  | concat : Rule policy .concat .string .string .string
  | equality {operator : BinaryOperator} {type : PrimitiveType}
    (applies : operator ∈ [.equal, .notEqual]) (plain : type ≠ .file) :
    Rule policy operator type type .bool
  | ordering {operator : BinaryOperator} {left right : PrimitiveType}
    (applies : operator ∈ [.less, .greater])
    (lhsNumeric : left.IsNumeric) (rhsNumeric : right.IsNumeric) :
    Rule policy operator left right .bool
  | matching {operator : BinaryOperator} {type : PrimitiveType}
    (lenient : policy = .matchingTypes) (applies : operator ∈ [.and, .or]) :
    Rule policy operator type type type
  | truths {operator : BinaryOperator} (strict : policy = .requireBool)
    (applies : operator ∈ [.and, .or]) : Rule policy operator .bool .bool .bool

/-- The operand that a unary operator takes and the type of its value. -/
inductive UnaryOperator.Rule : UnaryOperator → PrimitiveType → PrimitiveType → Prop
  | not : Rule .not .bool .bool
  | negate {type : PrimitiveType} (numeric : type.IsNumeric) : Rule .negate type type

/-- An expression has a type where certain names are in force. -/
inductive Expression.HasType (policy : LogicalPolicy) (names : Declarations) :
    Expression → PrimitiveType → Prop
  | int (node : Node) (n : Int64) : HasType policy names (.literal node (.int n)) .int
  | float (node : Node) (x : Float) : HasType policy names (.literal node (.float x)) .float
  | bool (node : Node) (b : Bool) : HasType policy names (.literal node (.bool b)) .bool
  | string (node : Node) (s : String) : HasType policy names (.literal node (.string s)) .string
  | «variable» (node : Node) {name : Identifier} {type : PrimitiveType}
    (declared : names.lookup name.name = some type) :
    HasType policy names (.variable node name) type
  | grouping (node : Node) {inner : Expression} {type : PrimitiveType}
    (part : HasType policy names inner type) : HasType policy names (.grouping node inner) type
  | binary (node : Node) {operator : BinaryOperator} {lhs rhs : Expression}
    {left right type : PrimitiveType} (lhsPart : HasType policy names lhs left)
    (rhsPart : HasType policy names rhs right) (rule : operator.Rule policy left right type) :
    HasType policy names (.binary node operator lhs rhs) type
  | unary (node : Node) {operator : UnaryOperator} {operand : Expression}
    {inner type : PrimitiveType} (part : HasType policy names operand inner)
    (rule : operator.Rule inner type) : HasType policy names (.unary node operator operand) type
  | assignment (node : Node) {target : Identifier} {value : Expression}
    {declaredType type : PrimitiveType} (declared : names.lookup target.name = some declaredType)
    (part : HasType policy names value type) (takes : declaredType.Takes type) :
    HasType policy names (.assignment node target value) declaredType

/-- An expression has a type and no other. -/
def Expression.HasOnlyType (policy : LogicalPolicy) (names : Declarations) (e : Expression)
    (type : PrimitiveType) : Prop :=
  e.HasType policy names type ∧ ∀ other, e.HasType policy names other → other = type

/-- Every expression of a list has a type that passes a test. -/
def HaveTypes (policy : LogicalPolicy) (names : Declarations) (passes : PrimitiveType → Prop)
    (values : List Expression) : Prop :=
  ∀ e ∈ values, ∃ type, e.HasType policy names type ∧ passes type

mutual

/-- A statement follows the rules where certain names are in force, and leaves others in force. -/
inductive Statement.Typed (policy : LogicalPolicy) :
    Declarations → Statement → Declarations → Prop
  | declaration (position : Position) {names : Declarations} {type : PrimitiveType}
    {declared : List Identifier} (fresh : ∀ name ∈ declared, names.lookup name.name = none)
    (distinct : (declared.map Identifier.name).Nodup) :
    Statement.Typed policy names (.declaration position type declared)
      (names ++ declared.map fun name => (name.name, type))
  | expression (position : Position) {names : Declarations} {value : Expression}
    {type : PrimitiveType} (part : value.HasType policy names type) :
    Statement.Typed policy names (.expression position value) names
  | conditional (position : Position) {names later : Declarations} {condition : Expression}
    {positive : Statement} (test : condition.HasType policy names .bool)
    (branch : Statement.Typed policy names positive later) :
    Statement.Typed policy names (.conditional position condition positive none) later
  | alternative (position : Position) {names between later : Declarations}
    {condition : Expression} {positive negative : Statement}
    (test : condition.HasType policy names .bool)
    (branch : Statement.Typed policy names positive between)
    (other : Statement.Typed policy between negative later) :
    Statement.Typed policy names (.conditional position condition positive (some negative)) later
  | loop (position : Position) {names later : Declarations} {condition : Expression}
    {body : Statement} (test : condition.HasType policy names .bool)
    (inner : Statement.Typed policy names body later) :
    Statement.Typed policy names (.loop position condition body) later
  | block (position : Position) {names later : Declarations} {body : List Statement}
    (inner : Statement.TypedAll policy names body later) :
    Statement.Typed policy names (.block position body) later
  | write (position : Position) {names : Declarations} {values : List Expression}
    (parts : HaveTypes policy names (· ≠ .file) values) :
    Statement.Typed policy names (.write position values) names
  | read (position : Position) {names : Declarations} {targets : List Identifier}
    (declared : ∀ target ∈ targets, ∃ type, names.lookup target.name = some type ∧ type ≠ .file) :
    Statement.Typed policy names (.read position targets) names
  | openFile (position : Position) {names : Declarations} {target : Identifier}
    {fileName : Expression} (declared : names.lookup target.name = some .file)
    (part : fileName.HasType policy names .string) :
    Statement.Typed policy names (.openFile position target fileName) names
  | fileOutput (position : Position) {names : Declarations} {file : Expression}
    {values : List Expression} (handle : file.HasType policy names .file)
    (parts : HaveTypes policy names PrimitiveType.IsWritten values) :
    Statement.Typed policy names (.fileOutput position file values) names
  | empty (position : Position) {names : Declarations} :
    Statement.Typed policy names (.empty position) names

/-- Statements follow the rules one after the other. -/
inductive Statement.TypedAll (policy : LogicalPolicy) :
    Declarations → List Statement → Declarations → Prop
  | nil {names : Declarations} : Statement.TypedAll policy names [] names
  | cons {names between later : Declarations} {s : Statement} {rest : List Statement}
    (first : Statement.Typed policy names s between)
    (others : Statement.TypedAll policy between rest later) :
    Statement.TypedAll policy names (s :: rest) later

end

/-- A tree is well typed, and declares certain names. -/
def Tree.WellTyped (policy : LogicalPolicy) (tree : Tree) (names : Declarations) : Prop :=
  Statement.TypedAll policy [] tree names

/-- An expression and all expressions inside it. -/
def Expression.parts : Expression → List Expression
  | .literal node value => [.literal node value]
  | .variable node name => [.variable node name]
  | .grouping node inner => inner.parts ++ [.grouping node inner]
  | .binary node operator lhs rhs => lhs.parts ++ rhs.parts ++ [.binary node operator lhs rhs]
  | .unary node operator operand => operand.parts ++ [.unary node operator operand]
  | .assignment node target value => value.parts ++ [.assignment node target value]

theorem Expression.mem_parts (e : Expression) : e ∈ e.parts := by
  cases e <;> simp [parts]

namespace Statement

mutual

/-- The expressions of a statement, the inner ones too, each with the names in force there. -/
def sites (names : Declarations) : Statement → List (Declarations × Expression)
  | .expression _ value => value.parts.map (names, ·)
  | .conditional _ condition positive negative =>
    match negative with
    | none => condition.parts.map (names, ·) ++ positive.sites names
    | some negative => condition.parts.map (names, ·) ++
        (positive.sites names ++ negative.sites (names ++ positive.declarations))
  | .loop _ condition body => condition.parts.map (names, ·) ++ body.sites names
  | .block _ body => sitesAll names body
  | .write _ values => (values.flatMap Expression.parts).map (names, ·)
  | .openFile _ _ fileName => fileName.parts.map (names, ·)
  | .fileOutput _ file values => (file.parts ++ values.flatMap Expression.parts).map (names, ·)
  | .declaration .. | .read .. | .empty _ => []

def sitesAll (names : Declarations) : List Statement → List (Declarations × Expression)
  | [] => []
  | s :: rest => s.sites names ++ sitesAll (names ++ s.declarations) rest

end

end Statement

/-- The expressions of a tree, each with the names in force there. -/
def Tree.sites (tree : Tree) : List (Declarations × Expression) :=
  Statement.sitesAll [] tree

end StackLang
