import StackLang.Files
import StackLang.Machine.Basic
import StackLang.Text.Basic

/-!
# A world of bytes

A host made of the bytes still to be read, the output and a disk. The output may
have room for a limited number of bytes only; it keeps those that fit and breaks
at the first that does not. It may also refuse to be flushed.
-/
namespace StackLang

structure Output where
  written : Bytes
  /-- How many more bytes are accepted; any number if there is no limit. -/
  room : Option Nat
  flushFails : Bool
  deriving DecidableEq

namespace Output

def unlimited : Output :=
  ⟨#[], none, false⟩

/-- Writes all the bytes, or those that fit. -/
def write (output : Output) (bytes : Bytes) : Reply × Output :=
  match output.room with
  | none => (.ok "", { output with written := output.written ++ bytes })
  | some room =>
    let fitting := bytes.take room
    let output :=
      { output with
        written := output.written ++ fitting
        room := some (room - bytes.size) }
    (if bytes.size ≤ room then .ok "" else .error .brokenPipe, output)

def flush (output : Output) : Reply :=
  if output.flushFails then .error .brokenPipe else .ok ""

end Output

/-- The bytes of a text and the line end behind it. -/
def lineBytes (text : String) : Bytes :=
  (Text.encode (text ++ "\n")).toArray

/-- The bytes up to and with the first line feed, and the bytes behind it. -/
def splitLine : List UInt8 → List UInt8 × List UInt8
  | [] => ([], [])
  | byte :: rest =>
    if byte = 10 then ([byte], rest)
    else
      let (line, later) := splitLine rest
      (byte :: line, later)

/-- The text of a line that was read. -/
def lineReply (line : List UInt8) : Reply :=
  match Text.decode? line with
  | some text => .ok text
  | none => .error .invalidUtf8

structure Sandbox (Files : Type) where
  input : List UInt8
  output : Output
  files : Files

namespace Sandbox

variable {Files : Type} [Disk Files]

/-- A disk that refuses is as it was. -/
def store (sandbox : Sandbox Files) : Except SystemError Files → Reply × Sandbox Files
  | .ok files => (.ok "", { sandbox with files })
  | .error e => (.error e, sandbox)

def perform (request : Request) (sandbox : Sandbox Files) : Reply × Sandbox Files :=
  match request with
  | .print text =>
    let (reply, output) := sandbox.output.write (lineBytes text)
    (reply, { sandbox with output })
  | .readLine =>
    let (line, input) := splitLine sandbox.input
    (lineReply line, { sandbox with input })
  | .create path => sandbox.store (Disk.create path sandbox.files)
  | .append path texts =>
    let bytes := (texts.map lineBytes).foldl (· ++ ·) #[]
    sandbox.store (Disk.append path bytes sandbox.files)
  | .flush => (sandbox.output.flush, sandbox)

instance : Host (Sandbox Files) where
  perform := perform

end Sandbox

theorem splitLine_append (bytes : List UInt8) :
    (splitLine bytes).1 ++ (splitLine bytes).2 = bytes := by
  induction bytes with
  | nil => rfl
  | cons byte rest ih =>
    by_cases newline : byte = 10
    · simp [splitLine, newline]
    · simp [splitLine, newline, ih]

end StackLang
