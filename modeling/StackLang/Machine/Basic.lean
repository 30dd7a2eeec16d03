import StackLang.Program.Basic
import StackLang.Value

/-!
# What a machine works on

The slots of its stack and the store of its variables, the world outside, and
the faults that end a run.
-/
namespace StackLang

/-!
## Slots and the variable store

A slot holds a plain value or a handle to a file, which is the path the file was
created under. The store binds names to slots; a name is bound when it is first
saved and has one slot from then on.
-/

inductive Slot where
  | value (value : Value)
  | file (path : String)
  deriving DecidableEq, BEq

/-- What a slot can hold. -/
inductive SlotKind where
  | int
  | float
  | bool
  | string
  | file
  deriving Repr, DecidableEq

def SlotKind.text : SlotKind → String
  | .int => "int"
  | .float => "float"
  | .bool => "bool"
  | .string => "string"
  | .file => "file"

namespace Slot

def kind : Slot → SlotKind
  | .value (.int _) => .int
  | .value (.float _) => .float
  | .value (.bool _) => .bool
  | .value (.string _) => .string
  | .file _ => .file

/-- The text of the value, or the path of the file. -/
def text : Slot → String
  | .value v => v.text
  | .file path => path

def value? : Slot → Option Value
  | .value v => some v
  | .file _ => none

def int? : Slot → Option Int64
  | .value (.int n) => some n
  | _ => none

def float? : Slot → Option Float
  | .value (.float x) => some x
  | _ => none

def bool? : Slot → Option Bool
  | .value (.bool b) => some b
  | _ => none

def string? : Slot → Option String
  | .value (.string s) => some s
  | _ => none

def path? : Slot → Option String
  | .file path => some path
  | _ => none

end Slot

/-- The bindings, each name once. -/
structure Store where
  bindings : List (String × Slot)
  deriving DecidableEq

namespace Store

def empty : Store :=
  ⟨[]⟩

def get? (store : Store) (name : String) : Option Slot :=
  store.bindings.lookup name

def set (store : Store) (name : String) (slot : Slot) : Store :=
  ⟨(name, slot) :: store.bindings.filter fun binding => binding.1 ≠ name⟩

/-- The plain value of a name. -/
def value? (store : Store) (name : String) : Option Value :=
  (store.get? name).bind Slot.value?

def size (store : Store) : Nat :=
  store.bindings.length

theorem get?_empty (name : String) : empty.get? name = none := rfl

theorem get?_set_self (store : Store) (name : String) (slot : Slot) :
    (store.set name slot).get? name = some slot := by
  simp [set, get?]

theorem get?_set_of_ne (store : Store) {name other : String} (slot : Slot) (h : other ≠ name) :
    (store.set name slot).get? other = store.get? other := by
  obtain ⟨bindings⟩ := store
  have differs : (other == name) = false := by simpa using h
  simp only [set, get?, List.lookup_cons, differs]
  induction bindings with
  | nil => rfl
  | cons binding rest ih =>
    obtain ⟨bound, held⟩ := binding
    by_cases same : bound = name
    · subst same
      simpa [List.lookup_cons, differs] using ih
    · simp only [List.filter_cons, List.lookup_cons, ne_eq, same, not_false_eq_true, decide_true,
        if_true]
      cases other == bound
      · exact ih
      · rfl

end Store

/-!
## The outside world

A machine does not act on the world itself. It puts a request to its host, and
the host replies with a text or with the reason why it could not comply. Only
reading obtains a text, the next line with its line end; an empty text means
that the input is at its end. Nothing else is assumed of a host.
-/

/-- Why the world refuses a request. -/
inductive SystemError where
  | notFound
  | notADirectory
  | isADirectory
  | noSpace
  | nameTooLong
  | brokenPipe
  | nulInFileName
  | invalidUtf8
  /-- Any other reason, in the words of the system. -/
  | other (text : String)
  deriving Repr, DecidableEq

def SystemError.message : SystemError → String
  | .notFound => "No such file or directory (os error 2)"
  | .notADirectory => "Not a directory (os error 20)"
  | .isADirectory => "Is a directory (os error 21)"
  | .noSpace => "No space left on device (os error 28)"
  | .nameTooLong => "File name too long (os error 36)"
  | .brokenPipe => "broken pipe"
  | .nulInFileName => "file name contained an unexpected NUL byte"
  | .invalidUtf8 => "stream did not contain valid UTF-8"
  | .other text => text

inductive Request where
  /-- Print a text and a line end. -/
  | print (text : String)
  | readLine
  /-- Create an empty file, in place of one that is there. -/
  | create (path : String)
  /-- Add texts to the end of a file that is there, each with a line end. -/
  | append (path : String) (texts : List String)
  /-- Hand on what has been printed. -/
  | flush
  deriving Repr, DecidableEq

abbrev Reply := Except SystemError String

/-- A host answers a request and changes with it. -/
class Host (World : Type) where
  perform : Request → World → Reply × World

/-!
## Run-time faults

A fault ends the run. It names the instruction it arose at, unless the program
was refused before its first instruction because a label is defined twice.
-/

/-- What an instruction asks of the slot it takes. -/
inductive Expected where
  | kind (kind : SlotKind)
  | plainValue
  deriving Repr, DecidableEq

def Expected.text : Expected → String
  | .kind k => k.text
  | .plainValue => "value"

inductive Cause where
  | undefinedLabel (label : Label)
  | stackUnderflow (opcode : Opcode)
  | typeMismatch (opcode : Opcode) (expected : Expected) (found : SlotKind)
  | divisionByZero
  | uninitializedVariable (name : String)
  | inputParse (tag : TypeTag) (text : String)
  | endOfInput
  | system (error : SystemError)
  deriving Repr, DecidableEq

def Cause.message : Cause → String
  | .undefinedLabel label => s!"jump to undefined label {natText label.toNat}"
  | .stackUnderflow opcode => s!"'{opcode.text}' on an empty stack"
  | .typeMismatch opcode expected found =>
    s!"'{opcode.text}' expected {expected.text}, found {found.text}"
  | .divisionByZero => "integer division by zero"
  | .uninitializedVariable name => s!"variable '{name}' is used before it holds a value"
  | .inputParse tag text => s!"cannot read '{text}' as {tag.text}"
  | .endOfInput => "input ended before 'read'"
  | .system error => error.message

inductive Fault where
  | duplicateLabel (label : Label) (first second : Nat)
  | atPlace (place : Nat) (cause : Cause)
  deriving Repr, DecidableEq

namespace Fault

def message : Fault → String
  | .duplicateLabel label first second =>
    s!"label {natText label.toNat} is defined at both {natText first} and {natText second}"
  | .atPlace place cause => s!"instruction {natText place}: {cause.message}"

def ofLabelError : LabelError → Fault
  | .duplicate label first second => .duplicateLabel label first second
  | .undefined place label => .atPlace place (.undefinedLabel label)

end Fault

end StackLang
