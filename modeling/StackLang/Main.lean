import StackLang.CommandLine.Session
import StackLang.Sandbox

/-!
# The command

Connects sessions and machines to the terminal and to the files of the system.
-/
namespace StackLang.Terminal

open CommandLine

/-- The reason the system gives for a refusal. -/
def systemError (e : IO.Error) : SystemError :=
  let details := e.toString.toLower
  match e with
  | .noFileOrDirectory .. => .notFound
  | .inappropriateType .. =>
    if details.contains "not a directory" then .notADirectory else .isADirectory
  | .resourceExhausted .. => if details.contains "space" then .noSpace else .other e.toString
  | .resourceVanished .. => .brokenPipe
  | _ => if details.contains "too long" then .nameTooLong else .other e.toString

def attempt {α : Type} (action : IO α) : IO (Except SystemError α) := do
  try
    return .ok (← action)
  catch e =>
    return .error (systemError e)

def complete (action : IO Unit) : IO Reply := do
  match ← attempt action with
  | .ok () => return .ok ""
  | .error e => return .error e

def pathKind (path : String) : IO PathKind := do
  match ← attempt (IO.FS.readBinFile path) with
  | .ok _ => return .file
  | .error .isADirectory => return .other
  | .error _ => return .missing

def readText (path : String) : IO (Except SystemError String) := do
  match ← attempt (IO.FS.readBinFile path) with
  | .error e => return .error e
  | .ok bytes => return (String.fromUTF8? bytes).elim (.error .invalidUtf8) .ok

/-- Reads to the next line feed, byte by byte. -/
partial def readLine (input : IO.FS.Stream) (line : List UInt8) : IO (List UInt8) := do
  match (← input.read 1).toList with
  | [] => return line.reverse
  | byte :: _ => if byte = 10 then return (byte :: line).reverse else readLine input (byte :: line)

def answer (input : IO.FS.Stream) : Request → IO Reply
  | .print text => complete do
    let output ← IO.getStdout
    output.putStr (text ++ "\n")
    output.flush
  | .readLine => do
    match ← attempt (readLine input []) with
    | .ok line => return lineReply line
    | .error e => return .error e
  | .create path =>
    if path.contains (Char.ofNat 0) then return .error .nulInFileName
    else complete (IO.FS.writeFile path "")
  | .append path texts => complete do
    -- opening for reading first fails where there is no file
    let _ ← IO.FS.Handle.mk path .read
    let file ← IO.FS.Handle.mk path .append
    texts.forM fun text => file.putStr (text ++ "\n")
    file.flush
  | .flush => complete do (← IO.getStdout).flush

partial def drive (machine : Machine) (input : IO.FS.Stream) (frame : Frame) : IO Status := do
  let status ← match machine.move frame with
    | .to status => pure status
    | .ask request resume => resume <$> answer input request
  match status with
  | .running frame => drive machine input frame
  | ended => return ended

def execute (program : Program) (input : IO.FS.Stream) : IO Status :=
  match Machine.load program with
  | .error fault => return .failed fault
  | .ok machine => drive machine input .start

/-- Runs a program after what was written before; its own output is written as it comes. -/
def runReady (session : Ready) : IO Report := do
  (← IO.getStdout).putStr session.output
  let session := { session with output := "" }
  match session.input with
  | none => return session.conclude "" (← execute session.program (← IO.getStdin))
  | some path =>
    match ← attempt (IO.FS.Handle.mk path .read) with
    | .error e => return session.withoutInput path e
    | .ok file => return session.conclude "" (← execute session.program (.ofHandle file))

/-- Whether colours are forced, forbidden, or left to the terminal. -/
def wantsColours : IO Bool := do
  let isOn := fun value : Option String => value.any (· ≠ "0")
  if isOn (← IO.getEnv "CLICOLOR_FORCE") then return true
  else if (← IO.getEnv "NO_COLOR").isSome then return false
  else return (← IO.getEnv "CLICOLOR") ≠ some "0" && (← (← IO.getStdout).isTty)

def run (arguments : List String) : IO UInt32 := do
  let report ← match ← start ⟨pathKind, readText⟩ (← wantsColours) arguments with
    | .over report => pure report
    | .ready session => runReady session
  (← IO.getStdout).putStr report.output
  (← IO.getStderr).putStr report.errors
  return report.exitCode.toUInt32

end StackLang.Terminal

def main (arguments : List String) : IO UInt32 :=
  StackLang.Terminal.run arguments
