import StackLang.Machine.Basic

/-!
# The stack machine

The machine has one stack of slots and one store. An instruction takes its
operands from the top of the stack, the right one first, leaves its result
there, and moves on to the next place or to a label. What it cannot do alone it
asks of the host. The first fault ends the run; nothing is guessed to go on with.
-/
namespace StackLang

/-- The slots, from the top down. -/
abbrev Stack := List Slot

namespace Stack

def pop (opcode : Opcode) : Stack → Except Cause (Slot × Stack)
  | [] => .error (.stackUnderflow opcode)
  | slot :: rest => .ok (slot, rest)

/-- Takes the top slot, in which the operand that is expected must be found. -/
def popAs {α : Type} (opcode : Opcode) (expected : Expected) (read : Slot → Option α)
    (stack : Stack) : Except Cause (α × Stack) := do
  let (slot, rest) ← pop opcode stack
  match read slot with
  | some operand => return (operand, rest)
  | none => throw (.typeMismatch opcode expected slot.kind)

def popValue (opcode : Opcode) : Stack → Except Cause (Value × Stack) :=
  popAs opcode .plainValue Slot.value?

def popInt (opcode : Opcode) : Stack → Except Cause (Int64 × Stack) :=
  popAs opcode (.kind .int) Slot.int?

def popFloat (opcode : Opcode) : Stack → Except Cause (Float × Stack) :=
  popAs opcode (.kind .float) Slot.float?

def popBool (opcode : Opcode) : Stack → Except Cause (Bool × Stack) :=
  popAs opcode (.kind .bool) Slot.bool?

def popString (opcode : Opcode) : Stack → Except Cause (String × Stack) :=
  popAs opcode (.kind .string) Slot.string?

def popFile (opcode : Opcode) : Stack → Except Cause (String × Stack) :=
  popAs opcode (.kind .file) Slot.path?

/-- Takes values from the stack and puts them before others, in the order they were pushed. -/
def popValuesBefore (opcode : Opcode) (later : List Value) :
    Nat → Stack → Except Cause (List Value × Stack)
  | 0, stack => .ok (later, stack)
  | count + 1, stack => do
    let (value, rest) ← popValue opcode stack
    popValuesBefore opcode (value :: later) count rest

/-- Takes values from the stack, in the order they were pushed. -/
def popValues (opcode : Opcode) (count : Nat) (stack : Stack) :
    Except Cause (List Value × Stack) :=
  popValuesBefore opcode [] count stack

end Stack

/-- Arithmetic on integers is that of 64-bit words; division goes toward zero. -/
def ArithmeticOperator.onInts (operator : ArithmeticOperator) (lhs rhs : Int64) :
    Except Cause Int64 :=
  match operator with
  | .add => .ok (lhs + rhs)
  | .sub => .ok (lhs - rhs)
  | .mul => .ok (lhs * rhs)
  | .div => if rhs = 0 then .error .divisionByZero else .ok (lhs / rhs)

/-- The remainder has the sign of the dividend. -/
def remainder (lhs rhs : Int64) : Except Cause Int64 :=
  if rhs = 0 then .error .divisionByZero else .ok (lhs % rhs)

def ArithmeticOperator.onFloats (operator : ArithmeticOperator) (lhs rhs : Float) : Float :=
  match operator with
  | .add => lhs + rhs
  | .sub => lhs - rhs
  | .mul => lhs * rhs
  | .div => lhs / rhs

def OrderingOperator.onInts (operator : OrderingOperator) (lhs rhs : Int64) : Bool :=
  match operator with
  | .less => lhs < rhs
  | .greater => rhs < lhs

/-- A float that is not a number is neither less nor greater than any. -/
def OrderingOperator.onFloats (operator : OrderingOperator) (lhs rhs : Float) : Bool :=
  match operator with
  | .less => lhs < rhs
  | .greater => rhs < lhs

/-- The nearest float, ties going to the even significand. -/
def nearestFloat (n : Int64) : Float :=
  Float.ofInt n.toInt

/-- The value of a type that a line of input denotes. A string is the whole line. -/
def Value.ofLine (tag : TypeTag) (line : String) : Except Cause Value :=
  let whole := Text.dropLineEnd line.toList
  let text := Text.trim whole
  let failure := Cause.inputParse tag (String.ofList text)
  match tag with
  | .int => ((Text.readInt64? text).map Value.int).elim (.error failure) .ok
  | .float => ((Decimal.read? text).map Value.float).elim (.error failure) .ok
  | .bool => ((Value.readBool? text).map Value.bool).elim (.error failure) .ok
  | .string => .ok (.string (String.ofList whole))

/-- The value that a reply to a request for a line denotes. -/
def Value.ofReply (tag : TypeTag) (line : String) : Except Cause Value :=
  if line.isEmpty then .error .endOfInput else Value.ofLine tag line

/-- Where the machine stands: the place of the next instruction, the stack and the store. -/
structure Frame where
  place : Nat
  stack : Stack
  store : Store
  deriving DecidableEq

namespace Frame

def start : Frame :=
  ⟨0, [], .empty⟩

/-- The frame of the next place with another stack. -/
def advance (frame : Frame) (stack : Stack) : Frame :=
  { frame with place := frame.place + 1, stack }

/-- The frame of the next place with a value on top of a stack. -/
def leave (frame : Frame) (stack : Stack) (value : Value) : Frame :=
  frame.advance (.value value :: stack)

def goto (frame : Frame) (labels : LabelTable) (label : Label) (stack : Stack) :
    Except Cause Frame :=
  match labels.entry? label with
  | some place => .ok { frame with place, stack }
  | none => .error (.undefinedLabel label)

end Frame

/-- What an instruction does: go on at once, or ask the host and go on with its reply. -/
inductive Action where
  | proceed (frame : Frame)
  | ask (request : Request) (resume : String → Except Cause Frame)

/-- Takes two operands of a kind and leaves a value computed from them, the left one first. -/
def Frame.combine {α : Type} (frame : Frame) (pop : Stack → Except Cause (α × Stack))
    (compute : α → α → Except Cause Value) : Except Cause Frame := do
  let (rhs, stack) ← pop frame.stack
  let (lhs, stack) ← pop stack
  return frame.leave stack (← compute lhs rhs)

/-- Takes one operand and leaves a value computed from it. -/
def Frame.transform {α : Type} (frame : Frame) (pop : Stack → Except Cause (α × Stack))
    (compute : α → Value) : Except Cause Frame := do
  let (operand, stack) ← pop frame.stack
  return frame.leave stack (compute operand)

/-- Goes on at once, or fails. -/
def atOnce (result : Except Cause Frame) : Except Cause Action :=
  .proceed <$> result

open Stack in
/-- What an instruction does in a frame; a jump goes where the label table says. -/
def Instruction.act (labels : LabelTable) (frame : Frame) (i : Instruction) :
    Except Cause Action :=
  let opcode := i.opcode
  match i with
  | .push value => atOnce (.ok (frame.leave frame.stack value))
  | .pop => atOnce do
    let (_, stack) ← Stack.pop opcode frame.stack
    return frame.advance stack
  | .load name =>
    match frame.store.get? name with
    | some slot => atOnce (.ok (frame.advance (slot :: frame.stack)))
    | none => .error (.uninitializedVariable name)
  | .save name => atOnce do
    let (slot, stack) ← Stack.pop opcode frame.stack
    return { frame.advance stack with store := frame.store.set name slot }
  | .arithmetic operator .int => atOnce <|
    frame.combine (popInt opcode) fun lhs rhs => .int <$> operator.onInts lhs rhs
  | .arithmetic operator .float => atOnce <|
    frame.combine (popFloat opcode) fun lhs rhs => .ok (.float (operator.onFloats lhs rhs))
  | .modulo => atOnce <|
    frame.combine (popInt opcode) fun lhs rhs => .int <$> remainder lhs rhs
  | .negate .int => atOnce <| frame.transform (popInt opcode) fun n => .int (-n)
  | .negate .float => atOnce <| frame.transform (popFloat opcode) fun x => .float (-x)
  | .concat => atOnce <|
    frame.combine (popValue opcode) fun lhs rhs => .ok (.string (lhs.text ++ rhs.text))
  | .widen => atOnce <| frame.transform (popInt opcode) fun n => .float (nearestFloat n)
  | .ordering operator .int => atOnce <|
    frame.combine (popInt opcode) fun lhs rhs => .ok (.bool (operator.onInts lhs rhs))
  | .ordering operator .float => atOnce <|
    frame.combine (popFloat opcode) fun lhs rhs => .ok (.bool (operator.onFloats lhs rhs))
  | .equal .int => atOnce <|
    frame.combine (popInt opcode) fun lhs rhs => .ok (.bool (lhs == rhs))
  | .equal .float => atOnce <|
    frame.combine (popFloat opcode) fun lhs rhs => .ok (.bool (lhs == rhs))
  | .equal .string => atOnce <|
    frame.combine (popString opcode) fun lhs rhs => .ok (.bool (lhs == rhs))
  | .equal .bool => atOnce <|
    frame.combine (popBool opcode) fun lhs rhs => .ok (.bool (lhs == rhs))
  | .and => atOnce <|
    frame.combine (popBool opcode) fun lhs rhs => .ok (.bool (lhs && rhs))
  | .or => atOnce <|
    frame.combine (popBool opcode) fun lhs rhs => .ok (.bool (lhs || rhs))
  | .not => atOnce <| frame.transform (popBool opcode) fun b => .bool !b
  | .label _ => atOnce (.ok (frame.advance frame.stack))
  | .jump l => atOnce (frame.goto labels l frame.stack)
  | .jumpIfFalse l => atOnce do
    let (condition, stack) ← popBool opcode frame.stack
    if condition then return frame.advance stack else frame.goto labels l stack
  | .print count => do
    let (values, stack) ← popValues opcode count frame.stack
    return .ask (.print (" ".intercalate (values.map Value.text)))
      fun _ => .ok (frame.advance stack)
  | .read tag =>
    .ok (.ask .readLine fun line => frame.leave frame.stack <$> Value.ofReply tag line)
  | .openFile => do
    let (path, stack) ← popString opcode frame.stack
    return .ask (.create path) fun _ => .ok (frame.advance (.file path :: stack))
  | .appendFile count => do
    let (values, stack) ← popValues opcode count frame.stack
    let (path, stack) ← popFile opcode stack
    return .ask (.append path (values.map Value.text))
      fun _ => .ok (frame.advance (.file path :: stack))

/-!
## Runs

A program is loaded by resolving its labels. A run then goes from frame to frame
until the program is left at its end, when the host is asked to hand on what was
printed, or until a fault. A run need not end, so it is given a number of steps;
one that is still running after them can be taken up again.
-/

/-- A program that can be run, with the places of its labels. -/
structure Machine where
  program : Program
  labels : LabelTable

inductive Status where
  | running (frame : Frame)
  | finished (store : Store)
  | failed (fault : Fault)
  deriving DecidableEq

instance : Inhabited Status :=
  ⟨.running .start⟩

/-- How a run goes on: to a status at once, or to one that depends on the reply of the host. -/
inductive Move where
  | to (status : Status)
  | ask (request : Request) (resume : Reply → Status)

namespace Status

def ofResult (place : Nat) : Except Cause Frame → Status
  | .ok frame => .running frame
  | .error cause => .failed (.atPlace place cause)

/-- The status after a reply, where a text leads on to a result. -/
def ofReply (place : Nat) (resume : String → Except Cause Frame) : Reply → Status
  | .ok text => ofResult place (resume text)
  | .error e => .failed (.atPlace place (.system e))

end Status

namespace Machine

def load (program : Program) : Except Fault Machine :=
  match program.resolve with
  | .ok labels => .ok ⟨program, labels⟩
  | .error e => .error (.ofLabelError e)

/-- What comes next in a frame. -/
def move (machine : Machine) (frame : Frame) : Move :=
  match machine.program.instructions[frame.place]? with
  | none => .ask .flush fun
    | .ok _ => .finished frame.store
    | .error e => .failed (.atPlace frame.place (.system e))
  | some i =>
    match i.act machine.labels frame with
    | .ok (.proceed next) => .to (.running next)
    | .ok (.ask request resume) => .ask request (.ofReply frame.place resume)
    | .error cause => .to (.failed (.atPlace frame.place cause))

variable {World : Type} [Host World]

/-- One step of a run, and what it makes of the world. -/
def step (machine : Machine) (frame : Frame) (world : World) : Status × World :=
  match machine.move frame with
  | .to status => (status, world)
  | .ask request resume =>
    let (reply, world) := Host.perform request world
    (resume reply, world)

/-- At most the given number of steps. -/
def run (machine : Machine) : Nat → Frame → World → Status × World
  | 0, frame, world => (.running frame, world)
  | fuel + 1, frame, world =>
    match machine.step frame world with
    | (.running frame, world) => machine.run fuel frame world
    | ended => ended

end Machine

end StackLang
