import StackLang.Machine.Step
import StackLang.Tree

/-!
# What a tree means

The meaning of a tree told without stack, instructions and labels: expressions
are evaluated from left to right, each exactly once, against a store, and
statements change the store and put requests to the host in their order. All
that is known of types is what the declarations say, and it is looked at in two
places only, at an assignment and at a read. A loop may go on for ever, so an
evaluation is given a number of rounds that no loop may exceed.
-/
namespace StackLang

/-- Declared names with their types, in the order of the text. -/
abbrev Declarations := List (String × PrimitiveType)

namespace Statement

mutual

def declarations : Statement → Declarations
  | .declaration _ type names => names.map fun name => (name.name, type)
  | .conditional _ _ positive negative =>
    match negative with
    | none => positive.declarations
    | some negative => positive.declarations ++ negative.declarations
  | .loop _ _ body => body.declarations
  | .block _ body => declarationsAll body
  | .expression .. | .write .. | .read .. | .openFile .. | .fileOutput .. | .empty _ => []

def declarationsAll : List Statement → Declarations
  | [] => []
  | s :: rest => s.declarations ++ declarationsAll rest

end

end Statement

def Tree.declarations (tree : Tree) : Declarations :=
  Statement.declarationsAll tree

/-- A slot that is not of the kind an operation asks for. -/
def Slot.refusal (slot : Slot) (opcode : Opcode) (expected : Expected) : Cause :=
  .typeMismatch opcode expected slot.kind

/-- Two numbers of one kind. -/
inductive NumberPair where
  | ints (lhs rhs : Int64)
  | floats (lhs rhs : Float)

/-- Two operands as numbers of one kind: an int beside a float is converted. -/
def NumberPair.ofSlots? : Slot → Slot → Option NumberPair
  | .value (.int a), .value (.int b) => some (.ints a b)
  | .value (.int a), .value (.float y) => some (.floats (nearestFloat a) y)
  | .value (.float x), .value (.int b) => some (.floats x (nearestFloat b))
  | .value (.float x), .value (.float y) => some (.floats x y)
  | _, _ => none

namespace BinaryOperator

/-- The name of an operator in a report. -/
def opcode : BinaryOperator → Opcode
  | .add => .add
  | .subtract => .sub
  | .multiply => .mul
  | .divide => .div
  | .modulus => .mod
  | .concat => .concat
  | .equal | .notEqual => .eq
  | .less => .lt
  | .greater => .gt
  | .and => .and
  | .or => .or

/-- The exact integer result of an operator that has one; none for a division by zero. -/
def integer? : BinaryOperator → Int → Int → Option Int
  | .add, a, b => some (a + b)
  | .subtract, a, b => some (a - b)
  | .multiply, a, b => some (a * b)
  | .divide, a, b => if b = 0 then none else some (a.tdiv b)
  | .modulus, a, b => if b = 0 then none else some (a.tmod b)
  | _, _, _ => none

/-- An integer result is reduced to 64 bits. -/
def computeInts (operator : BinaryOperator) (a b : Int64) : Except Cause Value :=
  match operator.integer? a.toInt b.toInt with
  | some n => .ok (.int (.ofInt n))
  | none => .error .divisionByZero

def computeFloats (operator : BinaryOperator) (x y : Float) : Except Cause Value :=
  match operator with
  | .add => .ok (.float (x + y))
  | .subtract => .ok (.float (x - y))
  | .multiply => .ok (.float (x * y))
  | .divide => .ok (.float (x / y))
  | _ => .error (Slot.refusal (.value (.float x)) operator.opcode (.kind .int))

def compareInts (operator : BinaryOperator) (a b : Int64) : Bool :=
  if operator = .less then a.toInt < b.toInt else b.toInt < a.toInt

def compareFloats (operator : BinaryOperator) (x y : Float) : Bool :=
  if operator = .less then x < y else y < x

/-- Whether two slots hold equal values; there is no answer for files and across kinds. -/
def equals? (lhs rhs : Slot) : Option Bool :=
  match NumberPair.ofSlots? lhs rhs with
  | some (.ints a b) => some (a == b)
  | some (.floats x y) => some (x == y)
  | none =>
    match lhs, rhs with
    | .value (.bool a), .value (.bool b) => some (a == b)
    | .value (.string s), .value (.string t) => some (s == t)
    | _, _ => none

def logical (operator : BinaryOperator) (lhs rhs : Slot) : Except Cause Value :=
  match lhs, rhs with
  | .value (.bool a), .value (.bool b) =>
    .ok (.bool (if operator = .and then a && b else a || b))
  | .value (.bool _), slot => .error (slot.refusal operator.opcode (.kind .bool))
  | slot, _ => .error (slot.refusal operator.opcode (.kind .bool))

/-- What an operator makes of the values of its operands. -/
def evaluate (operator : BinaryOperator) (lhs rhs : Slot) : Except Cause Value :=
  match operator.kind with
  | .arithmetic =>
    match NumberPair.ofSlots? lhs rhs with
    | some (.ints a b) => operator.computeInts a b
    | some (.floats x y) => operator.computeFloats x y
    | none => .error (lhs.refusal operator.opcode (.kind .int))
  | .relational =>
    match NumberPair.ofSlots? lhs rhs with
    | some (.ints a b) => .ok (.bool (operator.compareInts a b))
    | some (.floats x y) => .ok (.bool (operator.compareFloats x y))
    | none => .error (lhs.refusal operator.opcode (.kind .int))
  | .equality =>
    match equals? lhs rhs with
    | some same => .ok (.bool (if operator = .equal then same else !same))
    | none => .error (rhs.refusal operator.opcode .plainValue)
  | .concat =>
    match lhs, rhs with
    | .value (.string s), .value (.string t) => .ok (.string (s ++ t))
    | .value (.string _), slot | slot, _ => .error (slot.refusal .concat (.kind .string))
  | .logical => operator.logical lhs rhs

end BinaryOperator

def UnaryOperator.evaluate : UnaryOperator → Slot → Except Cause Value
  | .not, .value (.bool b) => .ok (.bool !b)
  | .not, slot => .error (slot.refusal .not (.kind .bool))
  | .negate, .value (.int n) => .ok (.int (.ofInt (-n.toInt)))
  | .negate, .value (.float x) => .ok (.float (-x))
  | .negate, slot => .error (slot.refusal .uminus (.kind .int))

/-- What a variable of a type holds after a slot is assigned to it. -/
def Slot.storedAs (type : Option PrimitiveType) : Slot → Slot
  | .value (.int n) =>
    if type = some .float then .value (.float (nearestFloat n)) else .value (.int n)
  | slot => slot

namespace Expression

/-- The slot an expression evaluates to, and the store its assignments leave. -/
def eval (types : Declarations) : Expression → Store → Except Cause (Slot × Store)
  | .literal _ value, store => .ok (.value value, store)
  | .variable _ name, store =>
    match store.get? name.name with
    | some slot => .ok (slot, store)
    | none => .error (.uninitializedVariable name.name)
  | .grouping _ inner, store => inner.eval types store
  | .binary _ operator lhs rhs, store => do
    let (left, store) ← lhs.eval types store
    let (right, store) ← rhs.eval types store
    return (.value (← operator.evaluate left right), store)
  | .unary _ operator operand, store => do
    let (slot, store) ← operand.eval types store
    return (.value (← operator.evaluate slot), store)
  | .assignment _ target value, store => do
    let (slot, store) ← value.eval types store
    let stored := slot.storedAs (types.lookup target.name)
    return (stored, store.set target.name stored)

/-- The values of a list of expressions, for an instruction that takes plain values only. -/
def evalList (types : Declarations) (opcode : Opcode) :
    List Expression → Store → Except Cause (List Value × Store)
  | [], store => .ok ([], store)
  | e :: rest, store => do
    match ← e.eval types store with
    | (.value value, store) =>
      let (values, store) ← evalList types opcode rest store
      return (value :: values, store)
    | (slot, _) => .error (slot.refusal opcode .plainValue)

/-- The truth value of a condition. -/
def evalCondition (types : Declarations) (e : Expression) (store : Store) :
    Except Cause (Bool × Store) := do
  match ← e.eval types store with
  | (.value (.bool truth), store) => return (truth, store)
  | (slot, _) => .error (slot.refusal .fjmp (.kind .bool))

/-- The name of a file to be opened. -/
def evalFileName (types : Declarations) (e : Expression) (store : Store) :
    Except Cause (String × Store) := do
  match ← e.eval types store with
  | (.value (.string name), store) => return (name, store)
  | (slot, _) => .error (slot.refusal .fopen (.kind .string))

/-- The path of an open file and the values that are to be added to it. -/
def evalOutput (types : Declarations) (file : Expression) (values : List Expression)
    (store : Store) : Except Cause (String × List Value × Store) := do
  match ← file.eval types store with
  | (.file path, store) =>
    let (values, store) ← evalList types .fappend values store
    return (path, values, store)
  | (slot, _) => .error (slot.refusal .fappend (.kind .file))

end Expression

/-- How an evaluation ends, if it does so within the rounds it is given. -/
inductive Outcome (World α : Type) where
  | done (result : α) (world : World)
  | failed (cause : Cause) (world : World)
  | exhausted

namespace Outcome

variable {World α β : Type}

def andThen (outcome : Outcome World α) (next : α → World → Outcome World β) : Outcome World β :=
  match outcome with
  | .done result world => next result world
  | .failed cause world => .failed cause world
  | .exhausted => .exhausted

/-- A result that does not depend on the world. -/
def ofResult (world : World) : Except Cause α → Outcome World α
  | .ok result => .done result world
  | .error cause => .failed cause world

/-- Puts a request to the host. -/
def request [Host World] (r : Request) (world : World) : Outcome World String :=
  match Host.perform r world with
  | (.ok text, world) => .done text world
  | (.error e, world) => .failed (.system e) world

end Outcome

open Outcome in
/-- Tests a condition and goes through a body in turn, in no more than some rounds. -/
def iterate {World : Type} (test : Store → Except Cause (Bool × Store))
    (body : Store → World → Outcome World Store) : Nat → Store → World → Outcome World Store
  | 0, _, _ => .exhausted
  | rounds + 1, store, world =>
    (ofResult world (test store)).andThen fun (truth, store) world =>
      if truth then (body store world).andThen (iterate test body rounds) else .done store world

/-- A declared variable is reset to the zero of its type; a file is not touched. -/
def reset (type : PrimitiveType) (names : List Identifier) (store : Store) : Store :=
  match type.static.tag? with
  | none => store
  | some tag => names.foldl (fun store name => store.set name.name (.value (.zero tag))) store

/-- The value that a line denotes for a variable of a type. -/
def readAs (type : Option PrimitiveType) (target : String) (line : String) : Except Cause Value :=
  match type.bind fun type => type.static.tag? with
  | some tag => Value.ofReply tag line
  | none => .error (.uninitializedVariable target)

section Statements

open Outcome

variable {World : Type} [Host World]

/-- Reads one line into each target. -/
def readInto (types : Declarations) : List Identifier → Store → World → Outcome World Store
  | [], store, world => .done store world
  | target :: rest, store, world =>
    (request .readLine world).andThen fun line world =>
    (ofResult world (readAs (types.lookup target.name) target.name line)).andThen fun value world =>
    readInto types rest (store.set target.name (.value value)) world

mutual

/-- The store that a statement leaves, and what it makes of the world. -/
def Statement.eval (types : Declarations) (rounds : Nat) :
    Statement → Store → World → Outcome World Store
  | .declaration _ type names, store, world => .done (reset type names store) world
  | .expression _ value, store, world =>
    (ofResult world (value.eval types store)).andThen fun (_, store) world => .done store world
  | .conditional _ condition positive negative, store, world =>
    (ofResult world (condition.evalCondition types store)).andThen fun (truth, store) world =>
      if truth then positive.eval types rounds store world
      else
        match negative with
        | none => .done store world
        | some negative => negative.eval types rounds store world
  | .loop _ condition body, store, world =>
    iterate (condition.evalCondition types) (body.eval types rounds) rounds store world
  | .block _ body, store, world => evalAll types rounds body store world
  | .write _ values, store, world =>
    (ofResult world (Expression.evalList types .print values store)).andThen
      fun (values, store) world =>
    (request (.print (" ".intercalate (values.map Value.text))) world).andThen fun _ world =>
    .done store world
  | .read _ targets, store, world => readInto types targets store world
  | .openFile _ target fileName, store, world =>
    (ofResult world (fileName.evalFileName types store)).andThen fun (path, store) world =>
    (request (.create path) world).andThen fun _ world =>
    .done (store.set target.name (.file path)) world
  | .fileOutput _ file values, store, world =>
    (ofResult world (file.evalOutput types values store)).andThen fun (path, values, store) world =>
    (request (.append path (values.map Value.text)) world).andThen fun _ world =>
    .done store world
  | .empty _, store, world => .done store world

def evalAll (types : Declarations) (rounds : Nat) :
    List Statement → Store → World → Outcome World Store
  | [], store, world => .done store world
  | s :: rest, store, world =>
    (s.eval types rounds store world).andThen (evalAll types rounds rest)

end

/-- A whole tree starts with nothing stored and ends by handing on what was printed. -/
def Tree.eval (tree : Tree) (rounds : Nat) (world : World) : Outcome World Store :=
  (evalAll tree.declarations rounds tree .empty world).andThen fun store world =>
  (request .flush world).andThen fun _ world => .done store world

end Statements

end StackLang
