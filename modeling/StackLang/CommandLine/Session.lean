import StackLang.CommandLine.Arguments
import StackLang.Files
import StackLang.Machine.Step
import StackLang.Program.Basic
import StackLang.Program.StackDepth
import StackLang.Sandbox

/-!
# Sessions of the command

What the command says about itself, what it does with its arguments, and the
same in a directory tree.
-/
namespace StackLang.CommandLine

/-!
## Help and complaints

The texts that the command writes about itself and about its arguments.
-/

def versionText : String :=
  "stackc 0.1.0\n"

/-- How to call the command in general. -/
def generalUsage : Message :=
  [(.heading, "Usage:"), (.plain, " "), (.literal, "stackc"), (.plain, " [OPTIONS] <FILE>")]

/-- How to call the command with the parameters that were used. -/
def usage (used : List Parameter) : Message :=
  if used.isEmpty then generalUsage
  else
    [(.heading, "Usage:"), (.plain, " "), (.literal, "stackc")] ++
      (used.filter (· ≠ .file)).flatMap Parameter.usageMessage ++ Parameter.file.usageMessage

/--
How to call the command with a parameter, where others of a run were used: those are shown as a
choice, with the parameter before them if it is not among them.
-/
def usageOfChoice (parameter : Parameter) : Message :=
  let before := if Parameter.ofRun.contains parameter then [] else parameter.usageMessage
  let choice := "|".intercalate (Parameter.ofRun.map Parameter.choice)
  [(.heading, "Usage:"), (.plain, " "), (.literal, "stackc")] ++ before ++
    Message.text s!" <{choice}>"

def helpOption (letter : Option String) (name value description : String) : Message :=
  let short : Message := match letter with
    | some letter => [(.plain, "  "), (.literal, "-" ++ letter), (.plain, ", ")]
    | none => Message.text "      "
  short ++ [(.literal, "--" ++ name), (.plain, value ++ "  " ++ description ++ "\n")]

def help : Message :=
  Message.text
      "Type checker, stack code generator and bytecode virtual machine for a small imperative language\n\n" ++
    generalUsage ++ [(.plain, "\n\n"), (.heading, "Arguments:"),
      (.plain, "\n  <FILE>  Bytecode text file to execute\n\n"), (.heading, "Options:"),
      (.plain, "\n")] ++
    helpOption none "listing" "     " "Print a colored listing of the program before running it" ++
    helpOption none "verify" "      "
      "Check the static stack discipline and refuse to run on failure" ++
    helpOption none "no-run" "      "
      "Stop after loading (and the listing or verification, if requested)" ++
    helpOption none "input" " <FILE>" "Take `read` input from this file instead of stdin" ++
    helpOption none "no-color" "    " "Disable colored output" ++
    helpOption (some "h") "help" "        " "Print help" ++
    helpOption (some "V") "version" "     " "Print version"

/-- An error with its tips, how to call the command if that helps, and where to learn more. -/
def complaint (problem : Message) (tips : Message) (usage : Option Message) : Message :=
  let shown := match usage with
    | some usage => Message.text "\n\n" ++ usage
    | none => []
  [(.error, "error:"), (.plain, " ")] ++ problem ++ tips ++ shown ++
    [(.plain, "\n\nFor more information, try '"), (.literal, "--help"), (.plain, "'.\n")]

def Tip.message (argument : String) : Tip → Message
  | .none => []
  | .asValue =>
    [(.plain, "\n\n  "), (.valid, "tip:"), (.plain, " to pass '"), (.invalid, argument),
      (.plain, "' as a value, use '"), (.valid, "-- " ++ argument), (.plain, "'")]
  | .similar parameter =>
    [(.plain, "\n\n  "), (.valid, "tip:"), (.plain, " a similar argument exists: '"),
      (.valid, parameter.flag), (.plain, "'")]

def ArgumentError.message : ArgumentError → Message
  | .missingFile used =>
    complaint [(.plain, "the following required arguments were not provided:\n  "),
      (.valid, Parameter.file.usage)] [] (usage (used ++ [.file]))
  | .unexpected argument tip used =>
    complaint [(.plain, "unexpected argument '"), (.invalid, argument), (.plain, "' found")]
      (tip.message argument) (usage used)
  | .unexpectedValue value parameter settledBefore =>
    complaint [(.plain, "unexpected value '"), (.invalid, value), (.plain, "' for '"),
      (.literal, parameter.usage), (.plain, "' found; no more were expected")] []
      (if settledBefore then usageOfChoice parameter else usage [parameter])
  | .repeated parameter =>
    complaint [(.plain, "the argument '"), (.invalid, parameter.usage),
      (.plain, "' cannot be used multiple times")] [] generalUsage
  | .valueRequired parameter =>
    complaint [(.plain, "a value is required for '"), (.invalid, parameter.usage),
      (.plain, "' but none was supplied")] [] none

/-!
## Sessions

What the command does with its arguments, up to the point where a machine runs
and from its end on. Files are seen through an access that the caller provides,
so that the decisions are the same over any file system.
-/

/-- What is found at a path. -/
inductive PathKind where
  | missing
  | file
  | other
  deriving Repr, DecidableEq

/-- How a session looks at files. -/
structure FileAccess (m : Type → Type) where
  kind : String → m PathKind
  readText : String → m (Except SystemError String)

/-- The end of a session. -/
structure Report where
  exitCode : UInt8
  output : String
  errors : String
  deriving Repr, DecidableEq

/-- A program that is to run, with what has been written before. -/
structure Ready where
  program : Program
  /-- The file to take input from. -/
  input : Option String
  output : String
  colours : Bool

inductive Start where
  | over (report : Report)
  | ready (session : Ready)

/-- A failure after the arguments have been accepted. -/
def failure (colours : Bool) (output message : String) : Report :=
  ⟨1, output, Text.Style.boldRed.paint colours "error" ++ ": " ++ message ++ "\n"⟩

/-- Arguments that are refused. -/
def refusal (styled : Bool) (message : Message) : Report :=
  ⟨2, "", message.render styled⟩

def pathProblem? (what path : String) : PathKind → Option Message
  | .missing => some (Message.text s!"{what} '{path}' does not exist!")
  | .other => some (Message.text s!"{what} '{path}' is not a file!")
  | .file => none

/-- Loads, lists and verifies a program text as the switches say. -/
def prepare (colours : Bool) (invocation : Invocation) (text : Except SystemError String) :
    Start :=
  match text with
  | .error e => .over (failure colours "" s!"cannot read '{invocation.file}': {e.message}")
  | .ok text =>
    match Program.ofText text with
    | .error e => .over (failure colours "" s!"{invocation.file} {e.message}")
    | .ok program =>
      let output := if invocation.has .listing then program.listing colours else ""
      let verified : Except VerifyError Unit :=
        if invocation.has .verify then program.verify.map fun _ => () else .ok ()
      match verified with
      | .error e => .over (failure colours output e.message)
      | .ok _ =>
        if invocation.has .noRun then .over ⟨0, output, ""⟩
        else .ready ⟨program, invocation.input, output, colours⟩

/-- Looks at the program file and then at the input file; the first problem is reported. -/
def findProblem? {m : Type → Type} [Monad m] (access : FileAccess m) (invocation : Invocation) :
    m (Option Message) := do
  let program ← access.kind invocation.file
  match pathProblem? "Program file" invocation.file program with
  | some problem => return some problem
  | none =>
    match invocation.input with
    | none => return none
    | some path => return pathProblem? "Input file" path (← access.kind path)

/-- Everything up to the run. Terminals show styles in complaints whatever the switches say. -/
def start {m : Type → Type} [Monad m] (access : FileAccess m) (colours : Bool)
    (arguments : List String) : m Start := do
  match parse arguments with
  | .error e => return .over (refusal colours e.message)
  | .ok .help => return .over ⟨0, help.render colours, ""⟩
  | .ok .version => return .over ⟨0, versionText, ""⟩
  | .ok (.run invocation) =>
    match ← findProblem? access invocation with
    | some problem => return .over (refusal colours (complaint problem [] generalUsage))
    | none =>
      let painted := colours && !invocation.has .noColor
      return prepare painted invocation (← access.readText invocation.file)

/-- The end of a session after what was written before the run and during it. -/
def Ready.conclude (session : Ready) (printed : String) (status : Status) : Report :=
  let output := session.output ++ printed
  match status with
  | .failed fault => failure session.colours output fault.message
  | .finished _ | .running _ => ⟨0, output, ""⟩

/-- The end of a session whose input file cannot be opened. -/
def Ready.withoutInput (session : Ready) (path : String) (error : SystemError) : Report :=
  failure session.colours session.output s!"cannot open '{path}': {error.message}"

/-!
## Sessions in a directory tree

The files of a session are those of a directory tree. Input from a file is taken
in blocks: when no whole line is left of what was taken, further blocks of the
file are, as it is by then. A program that writes to its own input file
therefore reads what it wrote, unless that part was taken before.
-/

def kindIn (tree : DirectoryTree) (path : String) : PathKind :=
  match tree.find path with
  | .ok (.file _) => .file
  | .ok _ => .other
  | .error _ => .missing

def readTextIn (tree : DirectoryTree) (path : String) : Except SystemError String := do
  let bytes ← tree.read path
  match Text.decode? bytes.toList with
  | some text => return text
  | none => throw .invalidUtf8

def treeAccess (tree : DirectoryTree) : FileAccess Id :=
  ⟨kindIn tree, readTextIn tree⟩

/-- A sandbox whose input comes from a file of its own. -/
structure FileFed where
  sandbox : Sandbox DirectoryTree
  path : String
  /-- How many bytes of the file have been taken. -/
  taken : Nat

namespace FileFed

def blockSize : Nat :=
  8192

/-- Takes blocks until they hold a line end, or all that is left. -/
def refill (fed : FileFed) : FileFed :=
  if fed.sandbox.input.contains 10 then fed
  else
    let content := (fed.sandbox.files.read fed.path).toOption.getD #[]
    let left := (content.toList.drop fed.taken)
    let needed := match left.findIdx? (· = 10) with
      | some place => (place / blockSize + 1) * blockSize
      | none => left.length
    let blocks := left.take needed
    { fed with
      sandbox := { fed.sandbox with input := fed.sandbox.input ++ blocks }
      taken := fed.taken + blocks.length }

def perform (request : Request) (fed : FileFed) : Reply × FileFed :=
  let fed := match request with
    | .readLine => fed.refill
    | _ => fed
  let (reply, sandbox) := fed.sandbox.perform request
  (reply, { fed with sandbox })

instance : Host FileFed where
  perform := perform

end FileFed

end StackLang.CommandLine
