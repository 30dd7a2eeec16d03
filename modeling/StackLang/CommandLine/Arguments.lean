import StackLang.Text.Style

/-!
# Arguments of the command

What the arguments of the command ask for, with the messages and the suggestion
that a fault in them leads to.
-/
namespace StackLang.CommandLine

/-!
## Messages about the command line

A message is a row of texts, each with an emphasis that a terminal shows as a
style. Without styles all control sequences are taken out, those that stand in
the texts like those of the styles.
-/

inductive Emphasis where
  | plain
  | error
  | heading
  | literal
  | valid
  | invalid
  deriving Repr, DecidableEq

/-- The control sequences that switch an emphasis on. -/
def Emphasis.sequence : Emphasis → String
  | .plain => ""
  | .error => "\x1b[1m\x1b[31m"
  | .heading => "\x1b[1m\x1b[4m"
  | .literal => "\x1b[1m"
  | .valid => "\x1b[32m"
  | .invalid => "\x1b[33m"

abbrev Message := List (Emphasis × String)

namespace Message

def styledPiece (piece : Emphasis × String) : String :=
  if piece.1 = .plain then piece.2 else piece.1.sequence ++ piece.2 ++ "\x1b[0m"

def styled (message : Message) : String :=
  String.join (message.map styledPiece)

def render (styles : Bool) (message : Message) : String :=
  if styles then message.styled else String.ofList (Text.plain message.styled.toList)

def text (text : String) : Message :=
  [(.plain, text)]

end Message

/-!
## Similar words

The Jaro similarity of two words. Characters match if they are equal and not too
far apart; each character matches at most one. The similarity is the mean of the
matched share of either word and of the share of matches that stand in the same
order.

The mean is taken in floating point, term by term. A mean of exactly seven
tenths comes out above the number that stands for seven tenths, so it counts as
more than that.
-/

/-- The place of the first unused match for a character within a range of places. -/
def matchPlace? (c : Char) (low high : Nat) (used : List Nat) (word : List Char) : Option Nat :=
  (List.range word.length).find? fun place =>
    low ≤ place && place < high && !used.contains place && word[place]? == some c

/-- The matched places of two words, each list in the order of the first word. -/
def matchPlaces (reach : Nat) (other : List Char) :
    Nat → List Nat → List Char → List (Char × Nat)
  | _, _, [] => []
  | place, used, c :: rest =>
    match matchPlace? c (place - reach) (place + reach + 1) used other with
    | some found => (c, found) :: matchPlaces reach other (place + 1) (found :: used) rest
    | none => matchPlaces reach other (place + 1) used rest

def share (part whole : Nat) : Float :=
  Float.ofNat part / Float.ofNat whole

def similarity (left right : List Char) : Float :=
  let reach := max left.length right.length / 2 - 1
  let pairs := matchPlaces reach right 0 [] left
  let matched := pairs.length
  if matched = 0 then 0
  else
    let inOrder := (pairs.map Prod.snd).mergeSort.filterMap (right[·]?)
    let displaced := (List.zip (pairs.map Prod.fst) inOrder).countP fun (a, b) => a ≠ b
    (share matched left.length + share matched right.length +
      share (matched - displaced / 2) matched) / 3

/-- The last of the candidates most similar to a word, if it is more than seven tenths similar. -/
def mostSimilar? {α : Type} (word : String) (name : α → String) (candidates : List α) : Option α :=
  let rated := candidates.map fun candidate =>
    (similarity word.toList (name candidate).toList, candidate)
  let close := rated.filter fun (similarity, _) => 0.7 < similarity
  let best := close.foldl (fun best next =>
    match best with
    | none => some next
    | some found => if next.1 < found.1 then best else some next) none
  best.map Prod.snd

/-!
## Arguments

The command takes one program file, an input file as an option, and switches.
Arguments are read from left to right. A value is settled when the next argument
has been seen or none is left, so a fault of a value is reported then; the
requests for help and for the version end the reading.
-/

inductive Switch where
  | listing
  | verify
  | noRun
  | noColor
  deriving Repr, DecidableEq

inductive Parameter where
  | file
  | switch (switch : Switch)
  | input
  | help
  | version
  deriving Repr, DecidableEq

namespace Parameter

/-- The parameters that are named on the command line. -/
def named : List Parameter :=
  [.switch .listing, .switch .verify, .switch .noRun, .input, .switch .noColor, .help, .version]

/-- The name behind two dashes. -/
def name : Parameter → String
  | .file => ""
  | .switch .listing => "listing"
  | .switch .verify => "verify"
  | .switch .noRun => "no-run"
  | .switch .noColor => "no-color"
  | .input => "input"
  | .help => "help"
  | .version => "version"

def ofName? (name : String) : Option Parameter :=
  named.find? fun parameter => parameter.name = name

def flag (parameter : Parameter) : String :=
  "--" ++ parameter.name

/-- The parameter as it is shown in messages. -/
def usage : Parameter → String
  | .file => "<FILE>"
  | .input => "--input <FILE>"
  | parameter => parameter.flag

/-- The parameters that describe a run; help and the version are apart. -/
def ofRun : List Parameter :=
  [.file, .switch .listing, .switch .verify, .switch .noRun, .input, .switch .noColor]

/-- The parameter among others that can be chosen. -/
def choice : Parameter → String
  | .file => "FILE"
  | parameter => parameter.usage

def usageMessage : Parameter → Message
  | .file => Message.text " <FILE>"
  | .input => [(.plain, " "), (.literal, "--input"), (.plain, " <FILE>")]
  | parameter => [(.plain, " "), (.literal, parameter.flag)]

end Parameter

/-- A run of the command as its arguments describe it. -/
structure Invocation where
  file : String
  input : Option String
  switches : List Switch
  deriving Repr, DecidableEq

def Invocation.has (invocation : Invocation) (switch : Switch) : Bool :=
  invocation.switches.contains switch

inductive Demand where
  | run (invocation : Invocation)
  | help
  | version
  deriving Repr, DecidableEq

/-- What is suggested in place of an unknown argument. -/
inductive Tip where
  | none
  | asValue
  | similar (parameter : Parameter)
  deriving Repr, DecidableEq

inductive ArgumentError where
  | missingFile (used : List Parameter)
  | unexpected (argument : String) (tip : Tip) (used : List Parameter)
  /-- A parameter that takes no value has one; others may have been settled before it. -/
  | unexpectedValue (value : String) (parameter : Parameter) (settledBefore : Bool)
  | repeated (parameter : Parameter)
  | valueRequired (parameter : Parameter)
  deriving Repr, DecidableEq

/-- The arguments read so far. -/
structure Reading where
  /-- The parameters given, in order. -/
  used : List Parameter
  file : Option String
  input : Option String
  /-- A parameter whose value has not been settled, and the value if it was seen. -/
  unsettled : Option (Parameter × Option String)
  /-- Whether two dashes have put an end to named parameters. -/
  onlyValues : Bool
  deriving Repr, DecidableEq

namespace Reading

def start : Reading :=
  ⟨[], none, none, none, false⟩

/-- Records the value of a parameter. -/
def record (reading : Reading) (parameter : Parameter) (value : String) :
    Except ArgumentError Reading :=
  if reading.used.contains parameter then .error (.repeated parameter)
  else if value.isEmpty then .error (.valueRequired parameter)
  else
    let used := reading.used ++ [parameter]
    match parameter with
    | .file => .ok { reading with used, file := some value }
    | _ => .ok { reading with used, input := some value }

/-- Records the value that is not settled yet, if there is one. -/
def settle (reading : Reading) : Except ArgumentError Reading :=
  match reading.unsettled with
  | none => .ok reading
  | some (parameter, none) => .error (.valueRequired parameter)
  | some (parameter, some value) => { reading with unsettled := none }.record parameter value

/--
The parameters given, with the one whose value is not settled if the value was seen. A second value
for a parameter takes it away.
-/
def given (reading : Reading) : List Parameter :=
  match reading.unsettled with
  | some (parameter, some _) =>
    if reading.used.contains parameter then reading.used.filter (· ≠ parameter)
    else reading.used ++ [parameter]
  | _ => reading.used

def turnOn (reading : Reading) (switch : Switch) : Except ArgumentError Reading :=
  if reading.used.contains (.switch switch) then .error (.repeated (.switch switch))
  else .ok { reading with used := reading.used ++ [.switch switch] }

end Reading

/-- Reading goes on, or ends with the demand. -/
abbrev Progress := Except ArgumentError (Reading ⊕ Demand)

namespace Reading

/-- An unknown name is shown with the parameters given and a similar name. -/
def unknownName (reading : Reading) (name : String) : ArgumentError :=
  let used := reading.given
  match mostSimilar? name Parameter.name Parameter.named with
  | none => .unexpected ("--" ++ name) .asValue used
  | some parameter =>
    .unexpected ("--" ++ name) (.similar parameter)
      (if used.contains parameter then used else used ++ [parameter])

/-- A parameter by its name, with the value behind an equals sign if there is one. -/
def readNamed (reading : Reading) (name : String) (value : Option String) : Progress := do
  match Parameter.ofName? name, value with
  | none, _ => throw (reading.unknownName name)
  | some .input, none =>
    return .inl { ← reading.settle with unsettled := some (.input, none) }
  | some .input, some value => return .inl (← (← reading.settle).record .input value)
  | some parameter, some value =>
    throw (.unexpectedValue value parameter (!reading.used.isEmpty))
  | some (.switch switch), none => return .inl (← (← reading.settle).turnOn switch)
  | some .version, none =>
    let _ ← reading.settle
    return .inr .version
  | some _, none =>
    let _ ← reading.settle
    return .inr .help

/-- A parameter by the letter behind a dash. -/
def readLetter (reading : Reading) (letter : Char) : Progress := do
  if letter = 'h' then
    let _ ← reading.settle
    return .inr .help
  else if letter = 'V' then
    let _ ← reading.settle
    return .inr .version
  else throw (.unexpected ("-" ++ String.singleton letter) .asValue [])

def readValue (reading : Reading) (argument : String) : Progress := do
  if reading.given.contains .file then throw (.unexpected argument .none [])
  else return .inl { ← reading.settle with unsettled := some (.file, some argument) }

def readArgument (reading : Reading) (argument : String) : Progress :=
  if reading.onlyValues then reading.readValue argument
  else
    match argument.toList with
    | ['-', '-'] => .ok (.inl { reading with onlyValues := true })
    | '-' :: '-' :: rest =>
      let name := String.ofList (rest.takeWhile (· ≠ '='))
      match rest.dropWhile (· ≠ '=') with
      | [] => reading.readNamed name none
      | _ :: value => reading.readNamed name (some (String.ofList value))
    | '-' :: letter :: _ => reading.readLetter letter
    | _ =>
      match reading.unsettled with
      | some (parameter, none) =>
        .ok (.inl { reading with unsettled := some (parameter, some argument) })
      | _ => reading.readValue argument

def finish (reading : Reading) : Except ArgumentError Demand := do
  let reading ← reading.settle
  match reading.file with
  | none => throw (.missingFile reading.used)
  | some file =>
    let switches := reading.used.filterMap fun
      | .switch switch => some switch
      | _ => none
    return .run ⟨file, reading.input, switches⟩

end Reading

/-- What the arguments from a point on ask for. -/
def readArguments (reading : Reading) : List String → Except ArgumentError Demand
  | [] => reading.finish
  | argument :: rest => do
    match ← reading.readArgument argument with
    | .inl reading => readArguments reading rest
    | .inr demand => return demand

def parse (arguments : List String) : Except ArgumentError Demand :=
  readArguments .start arguments

end StackLang.CommandLine
