import Std.Data.HashMap
import StackLang.Instruction.Written
import StackLang.Text.Basic

/-!
# Programs of the stack machine

A program is a row of instructions. Its text has one instruction on a line;
blank lines and lines that begin with `#` hold none. An error of the text is
reported with the number of its line, counting from one and counting every
line.
-/
namespace StackLang

structure Program where
  instructions : Array Instruction
  deriving DecidableEq, BEq

/-- A line that cannot be read. -/
structure LineError where
  line : Nat
  error : ReadError
  deriving Repr, DecidableEq

def LineError.message (e : LineError) : String :=
  s!"line {natText e.line}: {e.error.message}"

namespace Program

def ofList (instructions : List Instruction) : Program :=
  ⟨instructions.toArray⟩

def toList (program : Program) : List Instruction :=
  program.instructions.toList

def size (program : Program) : Nat :=
  program.instructions.size

def text (program : Program) : String :=
  String.join (program.toList.map fun i => i.text ++ "\n")

/-- Whether a line holds no instruction. -/
def isSkipped (line : List Char) : Bool :=
  match Text.trim line with
  | [] => true
  | c :: _ => c = '#'

/-- The instructions of the lines, the first of which has the given number. -/
def readLines (number : Nat) : List (List Char) → Except LineError (List Instruction)
  | [] => .ok []
  | line :: rest =>
    if isSkipped line then readLines (number + 1) rest
    else
      match Instruction.ofText line with
      | .error error => .error ⟨number, error⟩
      | .ok i => (readLines (number + 1) rest).map (i :: ·)

def ofText (text : String) : Except LineError Program :=
  (readLines 1 (Text.lines text.toList)).map ofList

@[simp]
theorem toList_ofList (instructions : List Instruction) :
    (ofList instructions).toList = instructions := rfl

/-- The lines behind a point are read with the numbers that follow those before it. -/
theorem readLines_append (number : Nat) (earlier later : List (List Char)) :
    readLines number (earlier ++ later) =
      (readLines number earlier).bind fun instructions =>
        (readLines (number + earlier.length) later).map (instructions ++ ·) := by
  induction earlier generalizing number with
  | nil =>
    rw [List.nil_append, List.length_nil, Nat.add_zero]
    cases readLines number later <;> rfl
  | cons line rest ih =>
    have next : number + (line :: rest).length = number + 1 + rest.length := by
      rw [List.length_cons]
      omega
    rw [List.cons_append, readLines, readLines, next, ih]
    cases isSkipped line
    · cases Instruction.ofText line with
      | error e => rfl
      | ok i =>
        cases readLines (number + 1) rest with
        | error e => rfl
        | ok instructions => cases readLines (number + 1 + rest.length) later <;> rfl
    · rfl

end Program

/-!
## Listings

A program as it is shown to a reader: labels stand out at the margin, and every
other instruction is indented and preceded by its place. Places are aligned to
the width of the largest.
-/

namespace Program

open Text (Style)

/-- A number at the right end of a field. -/
def alignRight (width n : Nat) : String :=
  let digits := Text.decimal n
  String.ofList (List.replicate (width - digits.length) ' ' ++ digits)

def listingLine (colours : Bool) (width place : Nat) : Instruction → String
  | .label label => Style.brightRed.paint colours s!".label_{natText label.toNat}:" ++ "\n"
  | i => "    " ++ Style.brightBlack.paint colours (alignRight width place) ++ " " ++
      i.display colours ++ "\n"

def listing (colours : Bool) (program : Program) : String :=
  let width := (Text.decimal (program.size - 1)).length
  String.join (program.toList.mapIdx (listingLine colours width))

end Program

/-!
## Labels

A label stands for the place of the one instruction that defines it. Before a
program is verified or run its labels are resolved: a label defined a second
time is an error, and then a jump to a label that is defined nowhere, whether
the jump can be reached or not. The first such instruction is reported.
-/

inductive LabelError where
  | duplicate (label : Label) (first second : Nat)
  | undefined (place : Nat) (label : Label)
  deriving Repr, DecidableEq

structure LabelTable where
  places : Std.HashMap Label Nat

namespace LabelTable

def empty : LabelTable :=
  ⟨∅⟩

def place? (labels : LabelTable) (label : Label) : Option Nat :=
  labels.places[label]?

/-- Where control goes when it moves to a label: behind its definition. -/
def entry? (labels : LabelTable) (label : Label) : Option Nat :=
  (labels.place? label).map (· + 1)

def insert (labels : LabelTable) (label : Label) (place : Nat) : LabelTable :=
  ⟨labels.places.insert label place⟩

/-- The labels with their places, by label number. -/
def toList (labels : LabelTable) : List (Label × Nat) :=
  labels.places.toList.mergeSort fun a b => a.1 ≤ b.1

theorem place?_insert (labels : LabelTable) (label other : Label) (place : Nat) :
    (labels.insert label place).place? other =
      if label = other then some place else labels.place? other := by
  simp [place?, insert, Std.HashMap.getElem?_insert]

/-- Adds the labels defined from a place on. -/
def collect (labels : LabelTable) (place : Nat) :
    List Instruction → Except LabelError LabelTable
  | [] => .ok labels
  | i :: rest =>
    match i.definedLabel? with
    | none => collect labels (place + 1) rest
    | some label =>
      match labels.place? label with
      | some first => .error (.duplicate label first place)
      | none => collect (labels.insert label place) (place + 1) rest

/-- The first jump from a place on whose label is not in the table. -/
def undefinedJump? (labels : LabelTable) (place : Nat) :
    List Instruction → Option (Nat × Label)
  | [] => none
  | i :: rest =>
    match i.target?.filter fun label => (labels.place? label).isNone with
    | some label => some (place, label)
    | none => undefinedJump? labels (place + 1) rest

end LabelTable

namespace Program

/-- The places of all labels. -/
def labels (program : Program) : Except LabelError LabelTable :=
  LabelTable.empty.collect 0 program.toList

/-- The places of all labels, if every jump has one to go to. -/
def resolve (program : Program) : Except LabelError LabelTable :=
  match program.labels with
  | .error e => .error e
  | .ok labels =>
    match labels.undefinedJump? 0 program.toList with
    | some (place, label) => .error (.undefined place label)
    | none => .ok labels

end Program

end StackLang
