import Std.Data.HashMap
import StackLang.Names
import StackLang.Tree

/-!
# Checking trees

What the checker has to say about a tree, and how it comes to say it.
-/
namespace StackLang

/-!
## Diagnostics

What the checker has to say about a tree: a position and a cause. The wording
of every cause is fixed here and nowhere else.
-/

inductive ConditionKind where
  | conditional
  | loop
  deriving Repr, DecidableEq

def ConditionKind.text : ConditionKind → String
  | .conditional => "IF"
  | .loop => "WHILE"

inductive DiagnosticCause where
  | duplicateDeclaration (name : String)
  | undeclaredVariable (name : String)
  | invalidOperands (operator : BinaryOperator) (lhs rhs : StaticType)
  | moduloNonInteger
  | equalityMismatch (operator : BinaryOperator) (lhs rhs : StaticType)
  | relationalMismatch (operator : BinaryOperator) (lhs rhs : StaticType)
  | logicalMismatch (operator : BinaryOperator) (lhs rhs : StaticType)
  | notOperand (operand : StaticType)
  | negateOperand (operand : StaticType)
  | assignmentMismatch (target value : StaticType)
  | conditionNotBool (kind : ConditionKind) (actual : StaticType)
  | notAFile (name : String)
  | fileNameNotString (actual : StaticType)
  | outputTargetNotFile (actual : StaticType)
  | unwritableValue (actual : StaticType)
  | unprintableValue (actual : StaticType)
  | unreadableTarget (name : String) (type : StaticType)
  deriving Repr, DecidableEq

structure Diagnostic where
  position : Position
  cause : DiagnosticCause
  deriving Repr, DecidableEq

namespace DiagnosticCause

/-- Two types with the operator that stands between them. -/
def operandsText (operator : BinaryOperator) (lhs rhs : StaticType) : String :=
  lhs.text ++ " " ++ operator.text ++ " " ++ rhs.text

def message : DiagnosticCause → String
  | .duplicateDeclaration name => s!"Variable '{name}' is already declared."
  | .undeclaredVariable name => s!"Variable '{name}' is not declared."
  | .invalidOperands operator lhs rhs =>
    s!"Invalid operation '{operator.text}' between '{lhs.text}' and '{rhs.text}'."
  | .moduloNonInteger => "Modulo operator (%) is only valid for integers."
  | .equalityMismatch operator lhs rhs =>
    "Type mismatch in equality check: " ++ operandsText operator lhs rhs
  | .relationalMismatch operator lhs rhs =>
    "Type mismatch in relational operation: " ++ operandsText operator lhs rhs
  | .logicalMismatch operator lhs rhs =>
    "Type mismatch in logical operation: " ++ operandsText operator lhs rhs
  | .notOperand operand => "Type mismatch in NOT operation: !" ++ operand.text
  | .negateOperand operand => "Type mismatch in unary minus operation: -" ++ operand.text
  | .assignmentMismatch target value =>
    s!"Type mismatch in assignment. Cannot assign '{value.text}' to '{target.text}'."
  | .conditionNotBool kind actual => s!"Type mismatch in {kind.text} condition: {actual.text}"
  | .notAFile name => s!"Variable '{name}' is not of type 'file'."
  | .fileNameNotString actual => s!"fopen expects a string as file name, got '{actual.text}'."
  | .outputTargetNotFile actual => s!"Left side of '<<' must be a file, got '{actual.text}'."
  | .unwritableValue actual => s!"Cannot write '{actual.text}' to file."
  | .unprintableValue actual => s!"Cannot print a value of type '{actual.text}'."
  | .unreadableTarget name type => s!"Cannot read into variable '{name}' of type '{type.text}'."

/-- Whether the cause mentions the error type, and so follows from an earlier report. -/
def mentionsError : DiagnosticCause → Bool
  | .invalidOperands _ lhs rhs | .equalityMismatch _ lhs rhs | .relationalMismatch _ lhs rhs
  | .logicalMismatch _ lhs rhs | .assignmentMismatch lhs rhs => lhs.isError || rhs.isError
  | .notOperand type | .negateOperand type | .conditionNotBool _ type | .fileNameNotString type
  | .outputTargetNotFile type | .unwritableValue type | .unprintableValue type
  | .unreadableTarget _ type => type.isError
  | .duplicateDeclaration _ | .undeclaredVariable _ | .moduloNonInteger | .notAFile _ => false

end DiagnosticCause

def Diagnostic.message (diagnostic : Diagnostic) : String :=
  diagnostic.position.text ++ " " ++ diagnostic.cause.message

/-!
## Type checking

Checking walks a tree once, in the order of its text, and never stops at a
fault: it goes on with the error type, or with the type the context fixes, and
by default says nothing more about operands that already have the error type.
An expression is judged against a symbol table that it cannot change; a
statement may extend the table, for all that follows it, whatever it is nested
in. A tree without diagnostics yields its symbols and the type of every node.
-/

/-- Which operands the logical operators take. -/
inductive LogicalPolicy where
  | matchingTypes
  | requireBool
  deriving Repr, DecidableEq

structure CheckOptions where
  logical : LogicalPolicy
  /-- Report also what follows from an earlier report. -/
  cascade : Bool
  deriving Repr, DecidableEq

namespace CheckOptions

def standard : CheckOptions :=
  ⟨.matchingTypes, false⟩

/-- Whether a type has been reported on, so that a rule for it stays silent. -/
def silences (options : CheckOptions) (type : StaticType) : Bool :=
  !options.cascade && type.isError

end CheckOptions

/-- The type that a rule gives to its node, and what the rule finds wrong. -/
structure Ruling where
  type : StaticType
  fault : Option DiagnosticCause
  deriving Repr, DecidableEq

namespace Ruling

def sound (type : StaticType) : Ruling :=
  ⟨type, none⟩

def faulty (type : StaticType) (cause : DiagnosticCause) : Ruling :=
  ⟨type, some cause⟩

def diagnostics (ruling : Ruling) (position : Position) : List Diagnostic :=
  ruling.fault.toList.map (⟨position, ·⟩)

def arithmetic (operator : BinaryOperator) (lhs rhs : StaticType) : Ruling :=
  match StaticType.promote? lhs rhs with
  | none => faulty .error (.invalidOperands operator lhs rhs)
  | some type =>
    if operator = .modulus ∧ type ≠ .int then faulty .error .moduloNonInteger else sound type

def concat (operator : BinaryOperator) (lhs rhs : StaticType) : Ruling :=
  if lhs = .string ∧ rhs = .string then sound .string
  else faulty .error (.invalidOperands operator lhs rhs)

/-- A comparison is a truth value even where its operands are wrong. -/
def equality (operator : BinaryOperator) (lhs rhs : StaticType) : Ruling :=
  if lhs ≠ rhs then faulty .bool (.equalityMismatch operator lhs rhs)
  else if lhs = .file then faulty .bool (.invalidOperands operator lhs rhs)
  else sound .bool

def relational (operator : BinaryOperator) (lhs rhs : StaticType) : Ruling :=
  if lhs.isNumeric && rhs.isNumeric then sound .bool
  else faulty .bool (.relationalMismatch operator lhs rhs)

def logical (policy : LogicalPolicy) (operator : BinaryOperator) (lhs rhs : StaticType) : Ruling :=
  let allowed : Bool := match policy with
    | .matchingTypes => lhs = rhs
    | .requireBool => lhs = .bool && rhs = .bool
  if allowed then sound lhs else faulty .error (.logicalMismatch operator lhs rhs)

def binary (options : CheckOptions) (operator : BinaryOperator) (lhs rhs : StaticType) : Ruling :=
  if options.silences lhs || options.silences rhs then
    match operator.kind with
    | .equality | .relational => sound .bool
    | .arithmetic | .concat | .logical => sound .error
  else
    match operator.kind with
    | .arithmetic => arithmetic operator lhs rhs
    | .concat => concat operator lhs rhs
    | .equality => equality operator lhs rhs
    | .relational => relational operator lhs rhs
    | .logical => logical options.logical operator lhs rhs

def unary (options : CheckOptions) (operator : UnaryOperator) (operand : StaticType) : Ruling :=
  if options.silences operand then sound .error
  else
    match operator with
    | .not => if operand = .bool then sound .bool else faulty .error (.notOperand operand)
    | .negate => if operand.isNumeric then sound operand else faulty .error (.negateOperand operand)

/-- An assignment has the type of its target even where the value is wrong. -/
def assignment (options : CheckOptions) (target value : StaticType) : Ruling :=
  if options.silences target || options.silences value || target.accepts value then sound target
  else faulty target (.assignmentMismatch target value)

/-- What is wrong with a name, which has its declared type or the error type. -/
def lookup (symbols : SymbolTable) (name : String) : Ruling :=
  match symbols.typeOf? name with
  | some type => sound type
  | none => faulty .error (.undeclaredVariable name)

end Ruling

/-- What checking an expression finds: its type, the diagnostics, and the types of its nodes. -/
structure Judgement where
  type : StaticType
  diagnostics : List Diagnostic
  types : List (NodeId × StaticType)
  deriving Repr, DecidableEq

/-- The judgement of a node from what its parts report and the rule that joins them. -/
def Judgement.ofNode (node : Node) (ruling : Ruling) (diagnostics : List Diagnostic)
    (types : List (NodeId × StaticType)) : Judgement :=
  ⟨ruling.type, diagnostics ++ ruling.diagnostics node.position, types ++ [(node.id, ruling.type)]⟩

namespace Expression

def judge (options : CheckOptions) (symbols : SymbolTable) : Expression → Judgement
  | .literal node value => .ofNode node (.sound (.ofValue value)) [] []
  | .variable node name =>
    let found := Ruling.lookup symbols name.name
    .ofNode node (.sound found.type) (found.diagnostics name.position) []
  | .grouping node inner =>
    let inner := inner.judge options symbols
    .ofNode node (.sound inner.type) inner.diagnostics inner.types
  | .binary node operator lhs rhs =>
    let lhs := lhs.judge options symbols
    let rhs := rhs.judge options symbols
    .ofNode node (.binary options operator lhs.type rhs.type)
      (lhs.diagnostics ++ rhs.diagnostics) (lhs.types ++ rhs.types)
  | .unary node operator operand =>
    let operand := operand.judge options symbols
    .ofNode node (.unary options operator operand.type) operand.diagnostics operand.types
  | .assignment node target value =>
    let value := value.judge options symbols
    let found := Ruling.lookup symbols target.name
    .ofNode node (.assignment options found.type value.type)
      (value.diagnostics ++ found.diagnostics target.position) value.types

end Expression

/-- What checking statements finds: the table they leave, the diagnostics, and the types of nodes. -/
structure Findings where
  symbols : SymbolTable
  diagnostics : List Diagnostic
  types : List (NodeId × StaticType)

namespace Findings

/-- Nothing found yet. -/
def start (symbols : SymbolTable) : Findings :=
  ⟨symbols, [], []⟩

/-- Adds the judgement of an expression and a verdict on its type, reported at a position. -/
def judged (judgement : Judgement) (position : Position) (fault : Option DiagnosticCause)
    (later : Findings) : Findings :=
  ⟨later.symbols,
    judgement.diagnostics ++ fault.toList.map (⟨position, ·⟩) ++ later.diagnostics,
    judgement.types ++ later.types⟩

/-- Adds what was found before. -/
def following (earlier later : Findings) : Findings :=
  ⟨later.symbols, earlier.diagnostics ++ later.diagnostics, earlier.types ++ later.types⟩

end Findings

/-- Declares names of one type in order; a name that is taken is reported. -/
def declareAll (symbols : SymbolTable) (type : StaticType) : List Identifier → Findings
  | [] => .start symbols
  | name :: rest =>
    match symbols.declare ⟨name.name, type, name.position⟩ with
    | .ok symbols => declareAll symbols type rest
    | .error _ =>
      let later := declareAll symbols type rest
      { later with
        diagnostics := ⟨name.position, .duplicateDeclaration name.name⟩ :: later.diagnostics }

/-- A list of expressions, each of whose types is put to a test of its own. -/
def judgeAll (options : CheckOptions) (symbols : SymbolTable)
    (fault : StaticType → Option DiagnosticCause) : List Expression → Findings
  | [] => .start symbols
  | e :: rest =>
    let judgement := e.judge options symbols
    (judgeAll options symbols fault rest).judged judgement e.position (fault judgement.type)

namespace Fault

def condition (options : CheckOptions) (kind : ConditionKind) (type : StaticType) :
    Option DiagnosticCause :=
  if options.silences type || type = .bool then none else some (.conditionNotBool kind type)

def printed (type : StaticType) : Option DiagnosticCause :=
  if type = .file then some (.unprintableValue type) else none

def readTarget (name : String) (type : StaticType) : Option DiagnosticCause :=
  if type = .file then some (.unreadableTarget name type) else none

def openTarget (name : String) (type : StaticType) : Option DiagnosticCause :=
  if type.isError || type = .file then none else some (.notAFile name)

def fileName (options : CheckOptions) (type : StaticType) : Option DiagnosticCause :=
  if options.silences type || type = .string then none else some (.fileNameNotString type)

def outputTarget (options : CheckOptions) (type : StaticType) : Option DiagnosticCause :=
  if options.silences type || type = .file then none else some (.outputTargetNotFile type)

def written (options : CheckOptions) (type : StaticType) : Option DiagnosticCause :=
  if options.silences type || type = .int || type = .float || type = .string then none
  else some (.unwritableValue type)

end Fault

def readDiagnostics (symbols : SymbolTable) (target : Identifier) : List Diagnostic :=
  let found := Ruling.lookup symbols target.name
  found.diagnostics target.position ++
    (Fault.readTarget target.name found.type).toList.map (⟨target.position, ·⟩)

/-- The target of an `fopen` is looked up after its file name, and judged before it. -/
def checkOpen (options : CheckOptions) (symbols : SymbolTable) (target : Identifier)
    (fileName : Expression) : Findings :=
  let judgement := fileName.judge options symbols
  let found := Ruling.lookup symbols target.name
  ⟨symbols,
    judgement.diagnostics ++ found.diagnostics target.position ++
      (Fault.openTarget target.name found.type).toList.map (⟨target.position, ·⟩) ++
      (Fault.fileName options judgement.type).toList.map (⟨fileName.position, ·⟩),
    judgement.types⟩

mutual

def Statement.check (options : CheckOptions) (symbols : SymbolTable) : Statement → Findings
  | .declaration _ type names => declareAll symbols type.static names
  | .expression _ value =>
    let judgement := value.judge options symbols
    (Findings.start symbols).judged judgement value.position none
  | .conditional position condition positive negative =>
    let judgement := condition.judge options symbols
    let first := positive.check options symbols
    let branches := match negative with
      | none => first
      | some negative => first.following (negative.check options first.symbols)
    branches.judged judgement position (Fault.condition options .conditional judgement.type)
  | .loop position condition body =>
    let judgement := condition.judge options symbols
    (body.check options symbols).judged judgement position
      (Fault.condition options .loop judgement.type)
  | .block _ body => checkAll options symbols body
  | .write _ values => judgeAll options symbols Fault.printed values
  | .read _ targets => ⟨symbols, targets.flatMap (readDiagnostics symbols), []⟩
  | .openFile _ target fileName => checkOpen options symbols target fileName
  | .fileOutput _ file values =>
    let judgement := file.judge options symbols
    (judgeAll options symbols (Fault.written options) values).judged judgement file.position
      (Fault.outputTarget options judgement.type)
  | .empty _ => .start symbols

def checkAll (options : CheckOptions) (symbols : SymbolTable) : List Statement → Findings
  | [] => .start symbols
  | statement :: rest =>
    let first := statement.check options symbols
    first.following (checkAll options first.symbols rest)

end

/-- The symbols of a tree and the types of its nodes. -/
structure TypeRecord where
  symbols : SymbolTable
  types : Std.HashMap NodeId StaticType

namespace TypeRecord

def empty : TypeRecord :=
  ⟨.empty, ∅⟩

/-- The type of a node; the error type if the node is unknown. -/
def typeOf (record : TypeRecord) (id : NodeId) : StaticType :=
  record.types.getD id .error

/-- Where a node occurs more than once its last type counts. -/
def ofFindings (findings : Findings) : TypeRecord :=
  ⟨findings.symbols, Std.HashMap.ofList findings.types⟩

end TypeRecord

/-- The types of a well-typed tree, or all that is wrong with it. -/
def Tree.check (options : CheckOptions) (tree : Tree) : Except (List Diagnostic) TypeRecord :=
  let findings := checkAll options .empty tree
  if findings.diagnostics.isEmpty then .ok (.ofFindings findings) else .error findings.diagnostics

end StackLang
