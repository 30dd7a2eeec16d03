import StackLang.Program.Basic
import StackLang.Typing

/-!
# Code generation

A tree is lowered to a program by its type record. An expression puts its
operands before its operator and leaves one slot; a statement leaves the stack
as it found it. An int operand of a mixed pair is widened right where it is
pushed, and an int stored in a float variable right before it is saved. Labels
come from one counter, in the order of the statements that need them. The
generator does not check the tree again: a record that does not describe it is
an error, reported at the first node found wanting.
-/
namespace StackLang

inductive LoweringError where
  | untypedExpression (position : Position)
  | unresolvedVariable (name : String) (position : Position)
  | unencodableType (type : StaticType) (position : Position)
  deriving Repr, DecidableEq

def LoweringError.message : LoweringError → String
  | .untypedExpression position => position.text ++ " expression has no resolved type"
  | .unresolvedVariable name position =>
    s!"{position.text} variable '{name}' has no resolved declaration"
  | .unencodableType type position =>
    s!"{position.text} values of type '{type.text}' have no instruction encoding"

namespace TypeRecord

/-- The type of a node, which is not the error type. -/
def resolvedType (record : TypeRecord) (node : Node) : Except LoweringError StaticType :=
  match record.typeOf node.id with
  | .error => .error (.untypedExpression node.position)
  | type => .ok type

def variableType (record : TypeRecord) (name : Identifier) : Except LoweringError StaticType :=
  match record.symbols.typeOf? name.name with
  | some type => .ok type
  | none => .error (.unresolvedVariable name.name name.position)

end TypeRecord

/-- The tag of the values of a type. -/
def encodedTag (type : StaticType) (position : Position) : Except LoweringError TypeTag :=
  match type.tag? with
  | some tag => .ok tag
  | none => .error (.unencodableType type position)

/-- The instructions that join two operands of one type; equality asks for the tag of the type. -/
def BinaryOperator.code (operator : BinaryOperator) (type : StaticType) (position : Position) :
    Except LoweringError (List Instruction) :=
  let tag := NumericTag.ofStatic type
  match operator with
  | .add => .ok [.arithmetic .add tag]
  | .subtract => .ok [.arithmetic .sub tag]
  | .multiply => .ok [.arithmetic .mul tag]
  | .divide => .ok [.arithmetic .div tag]
  | .modulus => .ok [.modulo]
  | .less => .ok [.ordering .less tag]
  | .greater => .ok [.ordering .greater tag]
  | .equal => do return [.equal (← encodedTag type position)]
  | .notEqual => do return [.equal (← encodedTag type position), .not]
  | .concat => .ok [.concat]
  | .and => .ok [.and]
  | .or => .ok [.or]

def UnaryOperator.code (operator : UnaryOperator) (type : StaticType) : List Instruction :=
  match operator with
  | .not => [.not]
  | .negate => [.negate (.ofStatic type)]

/-- What is emitted behind an operand of one type that meets an operand of another. -/
def widening (own other : StaticType) : List Instruction :=
  if own.needsWidening other && own = .int then [.widen] else []

/--
Code that computes a value of a type. The value is left on the stack or, behind an assignment, in
the variable it was saved to last.
-/
structure Emission where
  code : List Instruction
  type : StaticType
  savedIn : Option String
  deriving DecidableEq

namespace Emission

/-- The code with the value on the stack. -/
def loaded (emission : Emission) : List Instruction :=
  emission.code ++ (emission.savedIn.map Instruction.load).toList

/-- Saves the value to a variable; an int becomes a float for a float variable, and stays one. -/
def save (emission : Emission) (target : String) (type : StaticType) : Emission :=
  if type = .float && emission.type = .int then
    ⟨emission.loaded ++ [.widen, .save target], .float, some target⟩
  else ⟨emission.loaded ++ [.save target], emission.type, some target⟩

end Emission

namespace Expression

/-- Puts the value of an emission on the stack and resolves the types of the layers around it. -/
def settle (record : TypeRecord) (e : Expression) (emission : Emission) :
    Except LoweringError (List Instruction × StaticType) := do
  e.layers.forM fun node => discard (record.resolvedType node)
  return (emission.loaded, ← record.resolvedType e.node)

/--
The code of an expression without the load that ends it if it is an assignment. Parentheses
around it add nothing, so a chain of assignments passes its value on from target to target.
-/
def emit (record : TypeRecord) : Expression → Except LoweringError Emission
  | .literal node value => do
    return ⟨[.push value], ← record.resolvedType node, none⟩
  | .variable node name => do
    return ⟨[.load name.name], ← record.resolvedType node, none⟩
  | .grouping _ inner => inner.emit record
  | .binary node operator lhs rhs => do
    match operator.kind with
    | .concat | .logical =>
      let (left, leftType) ← lhs.settle record (← lhs.emit record)
      let (right, _) ← rhs.settle record (← rhs.emit record)
      let join ← operator.code leftType lhs.position
      return ⟨left ++ right ++ join, ← record.resolvedType node, none⟩
    | .arithmetic | .equality | .relational =>
      let leftType ← record.resolvedType lhs.node
      let rightType ← record.resolvedType rhs.node
      let (left, _) ← lhs.settle record (← lhs.emit record)
      let (right, _) ← rhs.settle record (← rhs.emit record)
      let type := (StaticType.promote? leftType rightType).getD leftType
      let join ← operator.code type lhs.position
      return ⟨left ++ widening leftType rightType ++ (right ++ widening rightType leftType) ++ join,
        ← record.resolvedType node, none⟩
  | .unary node operator operand => do
    let (code, type) ← operand.settle record (← operand.emit record)
    return ⟨code ++ operator.code type, ← record.resolvedType node, none⟩
  | .assignment _ target value => do
    let emission ← value.emit record
    return emission.save target.name (← record.variableType target)

/-- Code that leaves the value of an expression on the stack, and the type of the value. -/
def lower (record : TypeRecord) (e : Expression) :
    Except LoweringError (List Instruction × StaticType) := do
  e.settle record (← e.emit record)

end Expression

/-- The code of expressions one after the other. -/
def lowerValues (record : TypeRecord) : List Expression → Except LoweringError (List Instruction)
  | [] => .ok []
  | e :: rest => do
    let (code, _) ← e.lower record
    return code ++ (← lowerValues record rest)

/-- A declared variable starts with the zero of its type; a file has no value until it is opened. -/
def lowerDeclaration (type : PrimitiveType) (names : List Identifier) : List Instruction :=
  match type.static.tag? with
  | none => []
  | some tag => names.flatMap fun name => [.push (.zero tag), .save name.name]

def lowerRead (record : TypeRecord) : List Identifier → Except LoweringError (List Instruction)
  | [] => .ok []
  | target :: rest => do
    let tag ← encodedTag (← record.variableType target) target.position
    return [.read tag, .save target.name] ++ (← lowerRead record rest)

mutual

/-- The code of a statement whose labels start at a number, and the number that follows them. -/
def Statement.lower (record : TypeRecord) (next : Label) :
    Statement → Except LoweringError (List Instruction × Label)
  | .declaration _ type names => .ok (lowerDeclaration type names, next)
  | .expression _ value => do
    let (code, _) ← value.lower record
    return (code ++ [.pop], next)
  | .conditional _ condition positive negative => do
    let otherwise := next
    let done := next + 1
    let (test, _) ← condition.lower record
    let (first, next) ← positive.lower record (next + 2)
    let (second, next) ← match negative with
      | none => .ok ([], next)
      | some negative => negative.lower record next
    return (test ++ [.jumpIfFalse otherwise] ++ first ++ [.jump done, .label otherwise] ++ second ++
      [.label done], next)
  | .loop _ condition body => do
    let start := next
    let done := next + 1
    let (test, _) ← condition.lower record
    let (body, next) ← body.lower record (next + 2)
    return ([.label start] ++ test ++ [.jumpIfFalse done] ++ body ++ [.jump start, .label done],
      next)
  | .block _ body => lowerAll record next body
  | .write _ values => do
    return ((← lowerValues record values) ++ [.print values.length], next)
  | .read _ targets => do
    return (← lowerRead record targets, next)
  | .openFile _ target fileName => do
    let (code, _) ← fileName.lower record
    return (code ++ [.openFile, .save target.name], next)
  | .fileOutput _ file values => do
    let (handle, _) ← file.lower record
    let code ← lowerValues record values
    return (handle ++ code ++ [.appendFile values.length, .pop], next)
  | .empty _ => .ok ([], next)

/-- The code of statements one after the other. -/
def lowerAll (record : TypeRecord) (next : Label) :
    List Statement → Except LoweringError (List Instruction × Label)
  | [] => .ok ([], next)
  | statement :: rest => do
    let (code, next) ← statement.lower record next
    let (later, next) ← lowerAll record next rest
    return (code ++ later, next)

end

def Tree.lower (record : TypeRecord) (tree : Tree) : Except LoweringError Program := do
  let (code, _) ← lowerAll record 0 tree
  return .ofList code

/-!
## Compilation

A tree is checked first, and lowered only if it is well typed.
-/

inductive CompileError where
  | illTyped (diagnostics : List Diagnostic)
  | lowering (error : LoweringError)
  deriving Repr, DecidableEq

def CompileError.message : CompileError → String
  | .illTyped diagnostics => natText diagnostics.length ++ " type error(s)"
  | .lowering error => error.message

def Tree.compile (options : CheckOptions) (tree : Tree) : Except CompileError Program :=
  match tree.check options with
  | .error diagnostics => .error (.illTyped diagnostics)
  | .ok record =>
    match tree.lower record with
    | .error error => .error (.lowering error)
    | .ok program => .ok program

end StackLang
