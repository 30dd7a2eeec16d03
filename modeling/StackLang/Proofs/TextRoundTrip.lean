import StackLang.Program.Basic
import StackLang.Proofs.LineGrammar
import StackLang.Proofs.WrittenWords

/-!
# Programs read back

A program is read back from its text if the text can carry it: a name has to be
a word, since blanks divide a line, and a count has to be one that is read.
Strings are under no condition. What is read from any text can be carried, so
writing and reading it once more changes nothing.
-/
namespace StackLang

open Text

theorem Value.read_literal (value : Value) :
    Value.read value.tag value.literal.toList = .ok value := by
  cases value with
  | int n =>
    rw [literal, String.toList_ofList, tag, read, readInt64?_signedDecimal]
    rfl
  | float x =>
    rw [literal, String.toList_ofList, tag, read, Decimal.read?_write known_literal]
    rfl
  | bool b => cases b <;> rfl
  | string s =>
    rw [literal, String.toList_ofList, tag, read, unquote_quote]
    dsimp only
    rw [String.ofList_toList]

theorem Opcode.ofText?_text (opcode : Opcode) : ofText? opcode.text.toList = some opcode := by
  cases opcode <;> decide

theorem Opcode.isWord_text (opcode : Opcode) : IsWord opcode.text.toList := by
  cases opcode <;> exact ⟨by decide, by decide⟩

theorem TypeTag.ofText?_text (tag : TypeTag) : ofText? tag.text.toList = some tag := by
  cases tag <;> decide

theorem TypeTag.isWord_text (tag : TypeTag) : IsWord tag.text.toList := by
  cases tag <;> exact ⟨by decide, by decide⟩

namespace Instruction

theorem intercalate_space (first : List Char) (rest : List (List Char)) :
    [' '].intercalate (first :: rest) = first ++ rest.flatMap (' ' :: ·) := by
  induction rest generalizing first with
  | nil => simp
  | cons second rest ih =>
    rw [List.intercalate_cons_cons, ih, List.flatMap_cons]
    simp

theorem toList_text (i : Instruction) :
    i.text.toList = i.opcode.text.toList ++
      i.operands.flatMap fun operand => ' ' :: operand.2.toList := by
  rw [text, String.toList_intercalate, parts, List.map_cons, List.map_cons]
  refine (intercalate_space _ _).trans ?_
  rw [List.map_map, List.flatMap_map]
  rfl

section Reading

variable (opcode : Opcode)

theorem ofText_opcode : ofText opcode.text.toList = readAs opcode [] := by
  have word := opcode.isWord_text
  rw [ofText, word.isLiteral.trim, word.noBlank.cutAtBlank]
  simp [opcode.ofText?_text]

theorem ofText_operands {rest : List Char} (literal : IsLiteral rest) :
    ofText (opcode.text.toList ++ ' ' :: rest) = readAs opcode rest := by
  have word := opcode.isWord_text
  rw [ofText, (word.isLiteral.append literal).trim, word.noBlank.cutAtBlank_append isBlank_space]
  simp [opcode.ofText?_text]

theorem readPush_literal (value : Value) :
    readPush (value.tag.text.toList ++ ' ' :: value.literal.toList) = .ok (.push value) := by
  have word := value.tag.isWord_text
  have literal := value.isLiteral_literal
  rw [readPush, (word.isLiteral.append literal).trimStart, word.noBlank.cutAtBlank_append isBlank_space]
  simp only [readTag, value.tag.ofText?_text, literal.trim]
  change (Value.read value.tag value.literal.toList).bind (fun v => .ok (Instruction.push v)) = _
  rw [value.read_literal]
  rfl

end Reading

/-- The name that an instruction holds. -/
def name? : Instruction → Option String
  | .load name | .save name => some name
  | _ => none

/-- The count that an instruction holds. -/
def count? : Instruction → Option Nat
  | .print count | .appendFile count => some count
  | _ => none

/-- What the text of an instruction can carry. -/
structure IsCarried (i : Instruction) : Prop where
  name : ∀ name, i.name? = some name → IsWord name.toList
  count : ∀ count, i.count? = some count → count < UInt64.size

theorem isWord_natText (n : Nat) : IsWord (natText n).toList := by
  rw [natText, String.toList_ofList]
  exact isWord_decimal n

theorem isNatural_natText (n : Nat) : IsNatural (natText n).toList n := by
  rw [natText, String.toList_ofList]
  exact (readBelow?_eq_some_iff.mp (readBelow?_decimal n.lt_succ_self)).1

section Shapes

variable {i : Instruction}

theorem ofText_bare (bare : i.operands = []) : ofText i.text.toList = readAs i.opcode [] := by
  rw [i.toList_text, bare, List.flatMap_nil, List.append_nil]
  exact ofText_opcode i.opcode

theorem ofText_operand {operand : Style × String} (only : i.operands = [operand])
    (word : IsWord operand.2.toList) (takes : i.Takes operand.2.toList) :
    ofText i.text.toList = .ok i := by
  rw [i.toList_text, only, List.flatMap_singleton, ofText_operands i.opcode word.isLiteral]
  exact readAs_of_takes word.words takes

end Shapes

/-- An instruction is read back from its text. -/
theorem ofText_text {i : Instruction} (carried : i.IsCarried) : ofText i.text.toList = .ok i := by
  cases i with
  | push value =>
    rw [toList_text]
    have operands : (push value).operands =
        [(.yellow, value.tag.text), (.magenta, value.literal)] := rfl
    have literal := value.tag.isWord_text.isLiteral.append value.isLiteral_literal
    rw [operands, List.flatMap_cons, List.flatMap_singleton]
    exact (ofText_operands .push literal).trans (readPush_literal value)
  | load name | save name => exact ofText_operand rfl (carried.name name rfl) rfl
  | arithmetic operator tag | negate tag | ordering operator tag =>
    exact ofText_operand rfl tag.toTag.isWord_text rfl
  | equal tag | read tag => exact ofText_operand rfl tag.isWord_text rfl
  | label l | jump l | jumpIfFalse l =>
    exact ofText_operand rfl (isWord_natText l.toNat) (isNatural_natText l.toNat)
  | print count | appendFile count =>
    have small : count < UInt64.size := carried.count count rfl
    exact ofText_operand rfl (isWord_natText count) ⟨isNatural_natText count, small⟩
  | pop | modulo | concat | widen | and | or | not | openFile => exact ofText_bare rfl

theorem isLiteral_operands {i : Instruction} (carried : i.IsCarried) :
    ∀ operand ∈ i.operands, IsLiteral operand.2.toList := by
  cases i with
  | push value =>
    refine List.forall_mem_cons.mpr ⟨value.tag.isWord_text.isLiteral, ?_⟩
    exact List.forall_mem_singleton.mpr value.isLiteral_literal
  | load name | save name =>
    exact List.forall_mem_singleton.mpr (carried.name name rfl).isLiteral
  | arithmetic _ tag | negate tag | ordering _ tag =>
    exact List.forall_mem_singleton.mpr tag.toTag.isWord_text.isLiteral
  | equal tag | read tag => exact List.forall_mem_singleton.mpr tag.isWord_text.isLiteral
  | label l | jump l | jumpIfFalse l =>
    exact List.forall_mem_singleton.mpr (isWord_natText l.toNat).isLiteral
  | print count | appendFile count =>
    exact List.forall_mem_singleton.mpr (isWord_natText count).isLiteral
  | pop | modulo | concat | widen | and | or | not | openFile => exact List.forall_mem_nil _

theorem isLiteral_text {i : Instruction} (carried : i.IsCarried) : IsLiteral i.text.toList := by
  rw [toList_text, ← List.flatMap_map]
  refine i.opcode.isWord_text.isLiteral.append_all (List.forall_mem_map.mpr ?_)
  exact isLiteral_operands carried

/-- No instruction is taken for a comment. -/
theorem isSkipped_text {i : Instruction} (carried : i.IsCarried) :
    Program.isSkipped i.text.toList = false := by
  rw [Program.isSkipped, (isLiteral_text carried).trim, toList_text]
  cases i.opcode <;> rfl

section Carried

variable {i : Instruction}

theorem isCarried_of_plain (unnamed : i.name? = none) (uncounted : i.count? = none) :
    i.IsCarried := by
  refine ⟨fun name holds => ?_, fun count holds => ?_⟩
  · rw [unnamed] at holds
    cases holds
  · rw [uncounted] at holds
    cases holds

theorem isCarried_of_noOperand (noOperand : i.opcode.operandCount = 0) : i.IsCarried := by
  cases i with
  | load | save | print | appendFile => cases noOperand
  | push | pop | arithmetic | modulo | negate | concat | widen | ordering | equal | and | or | not
  | label | jump | jumpIfFalse | read | openFile => exact isCarried_of_plain rfl rfl

theorem Takes.isCarried {word : List Char} (takes : i.Takes word) (isWord : IsWord word) :
    i.IsCarried := by
  cases i with
  | load name | save name =>
    have same : name.toList = word := takes
    refine ⟨fun other holds => ?_, fun _ holds => ?_⟩
    · cases holds
      rwa [same]
    · cases holds
  | print count | appendFile count =>
    refine ⟨fun _ holds => ?_, fun other holds => ?_⟩
    · cases holds
    · cases holds
      exact takes.2
  | arithmetic | negate | ordering | equal | read | label | jump | jumpIfFalse =>
    exact isCarried_of_plain rfl rfl
  | push | pop | modulo | concat | widen | and | or | not | openFile => exact takes.elim

/-- What is read of a line can be carried by a line. -/
theorem isCarried_of_ofText {line : List Char} (read : ofText line = .ok i) : i.IsCarried := by
  cases holds_of_ofText read with
  | bare opens noOperand words => exact isCarried_of_noOperand noOperand
  | push => exact isCarried_of_plain rfl rfl
  | operand opens words takes =>
    cases words with
    | word blank isWord stops later => exact takes.isCarried isWord

end Carried

/-- Two instructions are the same, but that floats are compared as numbers. -/
inductive Matches : Instruction → Instruction → Prop
  | same (i : Instruction) : Matches i i
  | floats {x y : Float} (equal : (x == y) = true ∨ x.isNaN = true ∧ y.isNaN = true) :
    Matches (.push (.float x)) (.push (.float y))

theorem Matches.isCarried {i j : Instruction} (same : i.Matches j) (carried : i.IsCarried) :
    j.IsCarried := by
  cases same with
  | same => exact carried
  | floats => exact isCarried_of_plain rfl rfl

end Instruction

namespace Program

/-- Every name in a load or a save is a word: it is not empty and has no blank. -/
def NamesAreWords (program : Program) : Prop :=
  ∀ i ∈ program.toList, ∀ name, i.name? = some name → IsWord name.toList

/-- Every count is one that a machine word holds. -/
def CountsFit (program : Program) : Prop :=
  ∀ i ∈ program.toList, ∀ count, i.count? = some count → count < UInt64.size

/-- Two programs are of one length and match instruction by instruction. -/
def Matches (program other : Program) : Prop :=
  program.toList.length = other.toList.length ∧
    ∀ (place : Nat) (i j : Instruction), program.toList[place]? = some i →
      other.toList[place]? = some j → i.Matches j

theorem isCarried_iff {program : Program} :
    (∀ i ∈ program.toList, i.IsCarried) ↔ program.NamesAreWords ∧ program.CountsFit := by
  constructor
  · intro carried
    exact ⟨fun i member => (carried i member).name, fun i member => (carried i member).count⟩
  · rintro ⟨names, counts⟩ i member
    exact ⟨names i member, counts i member⟩

theorem Matches.refl (program : Program) : program.Matches program := by
  refine ⟨rfl, fun place i j here there => ?_⟩
  rw [here] at there
  cases there
  exact .same i

theorem Matches.isCarried {program other : Program} (same : program.Matches other)
    (carried : ∀ i ∈ program.toList, i.IsCarried) : ∀ j ∈ other.toList, j.IsCarried := by
  intro j member
  obtain ⟨length, each⟩ := same
  obtain ⟨place, inside, there⟩ := List.mem_iff_getElem.mp member
  have within : place < program.toList.length := length ▸ inside
  exact (each place _ j (List.getElem?_eq_getElem within)
    (List.getElem?_eq_some_iff.mpr ⟨inside, there⟩)).isCarried
      (carried _ (List.getElem_mem within))

theorem toList_text (program : Program) :
    program.text.toList = program.toList.flatMap fun i => i.text.toList ++ ['\n'] := by
  rw [text, String.toList_join, List.flatMap_map]
  simp

theorem readLines_text {instructions : List Instruction}
    (carried : ∀ i ∈ instructions, i.IsCarried) (number : Nat) :
    readLines number (lines (instructions.flatMap fun i => i.text.toList ++ ['\n'])) =
      .ok instructions := by
  induction instructions generalizing number with
  | nil => rfl
  | cons i rest ih =>
    obtain ⟨own, others⟩ := List.forall_mem_cons.mp carried
    rw [List.flatMap_cons, List.append_assoc, List.singleton_append,
      lines_append_newline _ _ (Instruction.isLiteral_text own).noLineEnd, readLines,
      Instruction.isSkipped_text own, Instruction.ofText_text own, ih others]
    rfl

/-- A program that its text can carry is read back from it. -/
theorem ofText_text {program : Program} (carried : ∀ i ∈ program.toList, i.IsCarried) :
    ofText program.text = .ok program := by
  rw [ofText, toList_text, readLines_text carried]
  rfl

theorem isCarried_of_readLines {number : Nat} {text : List (List Char)}
    {instructions : List Instruction} (read : readLines number text = .ok instructions) :
    ∀ i ∈ instructions, i.IsCarried := by
  induction text generalizing number instructions with
  | nil =>
    cases read
    exact List.forall_mem_nil _
  | cons line rest ih =>
    rw [readLines] at read
    split at read
    · exact ih read
    · split at read
      · cases read
      next i known =>
        cases later : readLines (number + 1) rest with
        | error e =>
          rw [later] at read
          cases read
        | ok others =>
          rw [later] at read
          cases read
          exact List.forall_mem_cons.mpr ⟨Instruction.isCarried_of_ofText known, ih later⟩

theorem isCarried_of_ofText {text : String} {program : Program}
    (read : ofText text = .ok program) : ∀ i ∈ program.toList, i.IsCarried := by
  rw [ofText] at read
  cases known : readLines 1 (lines text.toList) with
  | error e =>
    rw [known] at read
    cases read
  | ok instructions =>
    rw [known] at read
    cases read
    exact isCarried_of_readLines known

/--
A program whose counts are machine words is read back from its text exactly if its names are
words; no string and no float stands in the way. A program that was read from any text is read
back from its own.
-/
theorem text_round_trip (program : Program) :
    ((∃ read, ofText program.text = .ok read ∧ read.Matches program) ↔
      program.NamesAreWords ∧ program.CountsFit) ∧
    (program.NamesAreWords ∧ program.CountsFit → ofText program.text = .ok program) ∧
    ∀ text, ofText text = .ok program →
      program.NamesAreWords ∧ program.CountsFit ∧ ofText program.text = .ok program := by
  have back : program.NamesAreWords ∧ program.CountsFit → ofText program.text = .ok program :=
    fun both => ofText_text (isCarried_iff.mpr both)
  refine ⟨⟨?_, fun both => ⟨program, back both, .refl program⟩⟩, back, fun text read => ?_⟩
  · rintro ⟨read, known, same⟩
    exact isCarried_iff.mp (same.isCarried (isCarried_of_ofText known))
  · have both := isCarried_iff.mp (isCarried_of_ofText read)
    exact ⟨both.1, both.2, back both⟩

end Program

end StackLang
