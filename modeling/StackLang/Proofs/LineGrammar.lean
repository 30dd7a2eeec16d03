import StackLang.Proofs.Literals

/-!
# The grammar of lines

Which lines hold an instruction and which fault a line has that holds none. The
first word of a line is its opcode, and the words behind it are the operands;
only the literal of a `push` is not a word but all that is left. Of several
faults the one that counts is that of the opcode, then of the number of
operands, then of an operand, then of the literal.
-/
namespace StackLang

open Text

namespace Opcode

/-- The word is the opcode's own or one of its aliases, in letters of either case. -/
def IsSpelt (opcode : Opcode) (word : List Char) : Prop :=
  ∃ written ∈ opcode.text :: opcode.aliases, SameLetters word written.toList

def operandCount : Opcode → Nat
  | .push => 2
  | .load | .save | .add | .sub | .mul | .div | .uminus | .lt | .gt | .eq | .label | .jmp | .fjmp
  | .print | .read | .fappend => 1
  | .pop | .mod | .concat | .itof | .and | .or | .not | .fopen => 0

/-- The literal of a `push` may have more words than one. -/
def Admits (opcode : Opcode) (count : Nat) : Prop :=
  if opcode = .push then opcode.operandCount ≤ count else count = opcode.operandCount

/-- What is wrong with a word that is no operand of the opcode. -/
def operandError (opcode : Opcode) (word : List Char) : ReadError :=
  match opcode with
  | .label | .jmp | .fjmp => .invalidLabel (String.ofList word)
  | .print | .fappend => .invalidCount (String.ofList word)
  | _ => .invalidTypeTag opcode (String.ofList word)

end Opcode

def TypeTag.IsSpelt (tag : TypeTag) (word : List Char) : Prop :=
  SameLetters word tag.text.toList

/-- The word is the only operand of the instruction. -/
def Instruction.Takes (word : List Char) : Instruction → Prop
  | .load name | .save name => name.toList = word
  | .arithmetic _ tag | .negate tag | .ordering _ tag => tag.toTag.IsSpelt word
  | .equal tag | .read tag => tag.IsSpelt word
  | .label l | .jump l | .jumpIfFalse l => IsNatural word l.toNat
  | .print count | .appendFile count => IsNatural word count ∧ count < UInt64.size
  | .push _ | .pop | .modulo | .concat | .widen | .and | .or | .not | .openFile => False

/-- The first word of a line spells an opcode. -/
def Opens (line : List Char) (opcode : Opcode) (rest : List Char) : Prop :=
  ∃ word, Begins line word rest ∧ opcode.IsSpelt word

/-- The tag and the literal of a `push`. -/
structure Pushes (rest tag literal : List Char) : Prop where
  parts : ∃ more, Begins rest tag more ∧ TrimsTo more literal
  nonempty : literal ≠ []

/-- A line and the instruction it holds. -/
inductive Holds (line : List Char) : Instruction → Prop
  | bare {i : Instruction} {rest : List Char} (opens : Opens line i.opcode rest)
    (noOperand : i.opcode.operandCount = 0) (words : FallsInto rest []) : Holds line i
  | operand {i : Instruction} {rest word : List Char} (opens : Opens line i.opcode rest)
    (words : FallsInto rest [word]) (takes : i.Takes word) : Holds line i
  | push {value : Value} {rest tag literal : List Char} (opens : Opens line .push rest)
    (pushes : Pushes rest tag literal) (spelt : value.tag.IsSpelt tag)
    (denotes : Denotes literal value) : Holds line (.push value)

/-- A line that holds no instruction, and the fault that counts. -/
inductive LineFault (line : List Char) : ReadError → Prop
  | opcode {word rest : List Char} (begins : Begins line word rest)
    (unknown : ∀ opcode : Opcode, ¬ opcode.IsSpelt word) :
    LineFault line (.unknownInstruction (String.ofList word))
  | count {opcode : Opcode} {rest : List Char} {each : List (List Char)}
    (opens : Opens line opcode rest) (words : FallsInto rest each)
    (wrong : ¬ opcode.Admits each.length) :
    LineFault line (.operandCount opcode opcode.operandCount each.length)
  | operand {opcode : Opcode} {rest word : List Char} (opens : Opens line opcode rest)
    (single : opcode.operandCount = 1) (words : FallsInto rest [word])
    (wrong : ∀ i : Instruction, i.opcode = opcode → ¬ i.Takes word) :
    LineFault line (opcode.operandError word)
  | tag {rest tag literal : List Char} (opens : Opens line .push rest)
    (pushes : Pushes rest tag literal) (wrong : ∀ known : TypeTag, ¬ known.IsSpelt tag) :
    LineFault line (.invalidTypeTag .push (String.ofList tag))
  | literal {rest tag literal : List Char} {known : TypeTag} {e : ReadError}
    (opens : Opens line .push rest) (pushes : Pushes rest tag literal)
    (spelt : known.IsSpelt tag) (fault : LiteralFault known literal e) : LineFault line e

section Spelling

variable {word other : List Char}

theorem Opcode.ofText?_congr (same : SameLetters word other) :
    Opcode.ofText? word = Opcode.ofText? other := by
  rw [Opcode.ofText?, Opcode.ofText?, same]

theorem Opcode.ofText?_written (opcode : Opcode) :
    ∀ written ∈ opcode.text :: opcode.aliases, ofText? written.toList = some opcode := by
  cases opcode <;> decide

theorem Opcode.ofText?_eq_some_iff {opcode : Opcode} :
    Opcode.ofText? word = some opcode ↔ opcode.IsSpelt word := by
  constructor
  · intro read
    have found := List.find?_some read
    rw [Bool.or_eq_true, decide_eq_true_eq, List.contains_iff_mem] at found
    have written : String.ofList (word.map Char.toLower) ∈ opcode.text :: opcode.aliases :=
      List.mem_cons.mpr found
    refine ⟨_, written, ?_⟩
    rw [SameLetters, String.toList_ofList]
    simp [Function.comp_def]
  · rintro ⟨written, member, same⟩
    rw [ofText?_congr same]
    exact ofText?_written opcode written member

theorem TypeTag.ofText?_eq_some_iff {tag : TypeTag} :
    TypeTag.ofText? word = some tag ↔ tag.IsSpelt word := by
  constructor
  · intro read
    refine sameLetters_of_toUpper ?_
    unfold TypeTag.ofText? at read
    split at read
    next letter =>
      cases read
      exact letter
    next letter =>
      cases read
      exact letter
    next letter =>
      cases read
      exact letter
    next letter =>
      cases read
      exact letter
    next => cases read
  · intro spelt
    rw [TypeTag.ofText?, spelt.toUpper]
    cases tag <;> rfl

end Spelling

namespace Instruction

section Operands

variable (opcode : Opcode) {word rest : List Char}

theorem readTag_of_isSpelt {tag : TypeTag} (spelt : tag.IsSpelt word) :
    readTag opcode word = .ok tag := by
  rw [readTag, TypeTag.ofText?_eq_some_iff.mpr spelt]

theorem readTag_of_none (none : ∀ tag : TypeTag, ¬ tag.IsSpelt word) :
    readTag opcode word = .error (.invalidTypeTag opcode (String.ofList word)) := by
  cases known : TypeTag.ofText? word with
  | none => rw [readTag, known]
  | some tag => exact absurd (TypeTag.ofText?_eq_some_iff.mp known) (none tag)

theorem readNumericTag_of_isSpelt {tag : NumericTag} (spelt : tag.toTag.IsSpelt word) :
    readNumericTag opcode word = .ok tag := by
  rw [readNumericTag, TypeTag.ofText?_eq_some_iff.mpr spelt]
  cases tag <;> rfl

theorem readNumericTag_of_none (none : ∀ tag : NumericTag, ¬ tag.toTag.IsSpelt word) :
    readNumericTag opcode word = .error (.invalidTypeTag opcode (String.ofList word)) := by
  cases known : TypeTag.ofText? word with
  | none =>
    rw [readNumericTag, known]
    rfl
  | some tag =>
    rw [readNumericTag, known]
    cases tag with
    | int => exact absurd (TypeTag.ofText?_eq_some_iff.mp known) (none .int)
    | float => exact absurd (TypeTag.ofText?_eq_some_iff.mp known) (none .float)
    | string | bool => rfl

theorem readLabel_of_isNatural {l : Label} (natural : IsNatural word l.toNat) :
    readLabel word = .ok l := by
  rw [readLabel, readLabel?_eq_some_iff.mpr natural]

theorem readLabel_of_none (none : ∀ l : Label, ¬ IsNatural word l.toNat) :
    readLabel word = .error (.invalidLabel (String.ofList word)) := by
  cases known : readLabel? word with
  | none => rw [readLabel, known]
  | some l => exact absurd (readLabel?_eq_some_iff.mp known) (none l)

theorem readCount_of_isNatural {count : Nat}
    (natural : IsNatural word count ∧ count < UInt64.size) : readCount word = .ok count := by
  rw [readCount, readCount?, readBelow?_eq_some_iff.mpr natural]

theorem readCount_of_none (none : ∀ count, ¬ (IsNatural word count ∧ count < UInt64.size)) :
    readCount word = .error (.invalidCount (String.ofList word)) := by
  cases known : readCount? word with
  | none => rw [readCount, known]
  | some count => exact absurd (readBelow?_eq_some_iff.mp known) (none count)

theorem readOperand_of_words (only : words rest = [word]) :
    readOperand opcode rest = .ok word := by
  rw [readOperand, only]

theorem readOperand_of_length (others : (words rest).length ≠ 1) :
    readOperand opcode rest = .error (.operandCount opcode 1 (words rest).length) := by
  rw [readOperand]
  split
  next operand only => exact absurd (congrArg List.length only) others
  next => rfl

end Operands

section Arguments

variable {opcode : Opcode} {word rest : List Char} (only : words rest = [word]) {α : Type}
  {read : List Char → Except ReadError α} {make : α → Instruction}

include only

theorem map_readOperand_of_ok {a : α} (known : read word = .ok a) :
    make <$> (do read (← readOperand opcode rest)) = .ok (make a) := by
  rw [readOperand_of_words opcode only]
  exact congrArg (make <$> ·) known

theorem map_readOperand_of_error {e : ReadError} (refused : read word = .error e) :
    make <$> (do read (← readOperand opcode rest)) = .error e := by
  rw [readOperand_of_words opcode only]
  exact congrArg (make <$> ·) refused

theorem readAs_of_takes {i : Instruction} (takes : i.Takes word) :
    readAs i.opcode rest = .ok i := by
  cases i with
  | load name | save name =>
    have same : name.toList = word := takes
    simp only [readAs, Instruction.opcode, readOperand_of_words _ only, ← same]
    exact congrArg _ (congrArg _ String.ofList_toList)
  | arithmetic operator tag =>
    cases operator with
    | add | sub | mul | div => exact map_readOperand_of_ok only (readNumericTag_of_isSpelt _ takes)
  | ordering operator tag =>
    cases operator with
    | less | greater => exact map_readOperand_of_ok only (readNumericTag_of_isSpelt _ takes)
  | negate tag => exact map_readOperand_of_ok only (readNumericTag_of_isSpelt _ takes)
  | equal tag | read tag => exact map_readOperand_of_ok only (readTag_of_isSpelt _ takes)
  | label l | jump l | jumpIfFalse l =>
    exact map_readOperand_of_ok only (readLabel_of_isNatural takes)
  | print count | appendFile count =>
    exact map_readOperand_of_ok only (readCount_of_isNatural takes)
  | push | pop | modulo | concat | widen | and | or | not | openFile => exact takes.elim

theorem readAs_of_none (single : opcode.operandCount = 1)
    (none : ∀ i : Instruction, i.opcode = opcode → ¬ i.Takes word) :
    readAs opcode rest = .error (opcode.operandError word) := by
  cases opcode with
  | load => exact absurd String.toList_ofList (none (.load (String.ofList word)) rfl)
  | save => exact absurd String.toList_ofList (none (.save (String.ofList word)) rfl)
  | add =>
    exact map_readOperand_of_error only
      (readNumericTag_of_none _ fun tag => none (.arithmetic .add tag) rfl)
  | sub =>
    exact map_readOperand_of_error only
      (readNumericTag_of_none _ fun tag => none (.arithmetic .sub tag) rfl)
  | mul =>
    exact map_readOperand_of_error only
      (readNumericTag_of_none _ fun tag => none (.arithmetic .mul tag) rfl)
  | div =>
    exact map_readOperand_of_error only
      (readNumericTag_of_none _ fun tag => none (.arithmetic .div tag) rfl)
  | uminus =>
    exact map_readOperand_of_error only
      (readNumericTag_of_none _ fun tag => none (.negate tag) rfl)
  | lt =>
    exact map_readOperand_of_error only
      (readNumericTag_of_none _ fun tag => none (.ordering .less tag) rfl)
  | gt =>
    exact map_readOperand_of_error only
      (readNumericTag_of_none _ fun tag => none (.ordering .greater tag) rfl)
  | eq =>
    exact map_readOperand_of_error only (readTag_of_none _ fun tag => none (.equal tag) rfl)
  | read =>
    exact map_readOperand_of_error only (readTag_of_none _ fun tag => none (.read tag) rfl)
  | label =>
    exact map_readOperand_of_error only (readLabel_of_none fun l => none (.label l) rfl)
  | jmp =>
    exact map_readOperand_of_error only (readLabel_of_none fun l => none (.jump l) rfl)
  | fjmp =>
    exact map_readOperand_of_error only (readLabel_of_none fun l => none (.jumpIfFalse l) rfl)
  | print =>
    exact map_readOperand_of_error only (readCount_of_none fun count => none (.print count) rfl)
  | fappend =>
    exact map_readOperand_of_error only
      (readCount_of_none fun count => none (.appendFile count) rfl)
  | push | pop | mod | concat | itof | and | or | not | fopen => cases single

omit only in
theorem readAs_of_bare {i : Instruction} (none : i.opcode.operandCount = 0)
    (empty : words rest = []) : readAs i.opcode rest = .ok i := by
  have bare : readBare i.opcode rest i = .ok i := by rw [readBare, empty]
  cases i with
  | pop | modulo | concat | widen | and | or | not | openFile => exact bare
  | arithmetic operator _ => cases operator <;> cases none
  | ordering operator _ => cases operator <;> cases none
  | push | load | save | negate | equal | label | jump | jumpIfFalse | print | read
  | appendFile => cases none

end Arguments

section Counting

variable {opcode : Opcode} {rest : List Char}

theorem readBare_of_length (i : Instruction) (some : (words rest).length ≠ 0) :
    readBare opcode rest i = .error (.operandCount opcode 0 (words rest).length) := by
  rw [readBare]
  split
  next empty => exact absurd (congrArg List.length empty) some
  next => rfl

theorem map_readOperand_of_length {α : Type} {read : List Char → Except ReadError α}
    {make : α → Instruction} (others : (words rest).length ≠ 1) :
    make <$> (do read (← readOperand opcode rest)) =
      .error (.operandCount opcode 1 (words rest).length) := by
  rw [readOperand_of_length opcode others]
  rfl

theorem readAs_of_length (noPush : opcode ≠ .push)
    (wrong : (words rest).length ≠ opcode.operandCount) :
    readAs opcode rest =
      .error (.operandCount opcode opcode.operandCount (words rest).length) := by
  cases opcode with
  | push => exact absurd rfl noPush
  | load =>
    exact congrArg (fun name => load <$> (String.ofList ·) <$> name)
      (readOperand_of_length .load wrong)
  | save =>
    exact congrArg (fun name => save <$> (String.ofList ·) <$> name)
      (readOperand_of_length .save wrong)
  | pop | mod | concat | itof | and | or | not | fopen => exact readBare_of_length _ wrong
  | add | sub | mul | div | uminus | lt | gt | eq | label | jmp | fjmp | print | read | fappend =>
    exact map_readOperand_of_length wrong

end Counting

section Pushing

variable {rest tail tag literal : List Char} (same : trimStart tail = trim rest)

include same

theorem readPush_of_pushes (pushes : Pushes rest tag literal) :
    readPush tail = do return .push (← Value.read (← readTag .push tag) literal) := by
  obtain ⟨⟨more, begins, trims⟩, nonempty⟩ := pushes
  have some : ¬ AllBlank more := fun blank => nonempty (trims.trim.symm.trans blank.trim)
  obtain ⟨c, later, blank, rfl, cut⟩ := begins.cutAtBlank some
  have trimmed : trim (trimEnd later) = literal := by
    rw [trim_trimEnd, ← trim_cons blank, trims.trim]
  rw [readPush, same, cut]
  dsimp only
  rw [trimmed]

theorem readPush_of_length {each : List (List Char)} (falls : FallsInto rest each)
    (few : each.length < 2) : readPush tail = .error (.operandCount .push 2 each.length) := by
  cases falls with
  | blanks blank =>
    rw [readPush, same, blank.trim]
    rfl
  | @word before word rest others blank isWord stops later =>
    cases later with
    | word => simp at few
    | blanks behind =>
      have begins : Begins (before ++ word ++ rest) word rest :=
        ⟨⟨before, blank, rfl⟩, isWord.noBlank, stops, fun empty => absurd empty isWord.nonempty⟩
      rw [readPush, same, begins.trim_of_allBlank behind, isWord.noBlank.cutAtBlank]
      simp [isWord.nonempty]

end Pushing

section Lines

variable {line word rest : List Char}

/-- What is left of a line behind its first word is read as what follows the word. -/
theorem ofText_of_begins (begins : Begins line word rest) :
    ∃ tail, words tail = words rest ∧ trimStart tail = trim rest ∧
      ofText line = match Opcode.ofText? word with
        | some opcode => readAs opcode tail
        | none => .error (.unknownInstruction (String.ofList word)) := by
  by_cases blank : AllBlank rest
  · refine ⟨[], blank.words.symm, blank.trim.symm, ?_⟩
    rw [ofText, begins.trim_of_allBlank blank, begins.noBlank.cutAtBlank]
    rfl
  · obtain ⟨c, later, isBlank, rfl, cut⟩ := begins.cutAtBlank blank
    refine ⟨trimEnd later, ?_, ?_, ?_⟩
    · rw [words_trimEnd, words_cons isBlank]
    · rw [trimStart_trimEnd, trim_cons isBlank]
    · rw [ofText, cut]
      rfl

theorem ofText_of_opens {opcode : Opcode} (opens : Opens line opcode rest) :
    ∃ tail, words tail = words rest ∧ trimStart tail = trim rest ∧
      ofText line = readAs opcode tail := by
  obtain ⟨word, begins, spelt⟩ := opens
  obtain ⟨tail, sameWords, same, read⟩ := ofText_of_begins begins
  rw [Opcode.ofText?_eq_some_iff.mpr spelt] at read
  exact ⟨tail, sameWords, same, read⟩

end Lines

end Instruction

theorem Holds.ofText {line : List Char} {i : Instruction} (holds : Holds line i) :
    Instruction.ofText line = .ok i := by
  cases holds with
  | bare opens noOperand words =>
    obtain ⟨tail, same, _, read⟩ := Instruction.ofText_of_opens opens
    rw [read]
    exact Instruction.readAs_of_bare noOperand (same.trans words.words)
  | operand opens words takes =>
    obtain ⟨tail, same, _, read⟩ := Instruction.ofText_of_opens opens
    rw [read]
    exact Instruction.readAs_of_takes (same.trans words.words) takes
  | push opens pushes spelt denotes =>
    obtain ⟨tail, _, same, read⟩ := Instruction.ofText_of_opens opens
    rw [read, Instruction.readAs, Instruction.readPush_of_pushes same pushes,
      Instruction.readTag_of_isSpelt _ spelt]
    have value := Value.read_of_denotes denotes
    exact congrArg (Instruction.push <$> ·) value

theorem LineFault.ofText {line : List Char} {e : ReadError} (fault : LineFault line e) :
    Instruction.ofText line = .error e := by
  cases fault with
  | opcode begins unknown =>
    obtain ⟨tail, _, _, read⟩ := Instruction.ofText_of_begins begins
    rw [read]
    split
    next opcode known => exact absurd (Opcode.ofText?_eq_some_iff.mp known) (unknown opcode)
    next => rfl
  | @count opcode rest each opens words wrong =>
    obtain ⟨tail, sameWords, same, read⟩ := Instruction.ofText_of_opens opens
    rw [read]
    by_cases isPush : opcode = .push
    · subst isPush
      exact Instruction.readPush_of_length same words (Nat.not_le.mp wrong)
    · rw [Opcode.Admits, if_neg isPush, ← words.words, ← sameWords] at wrong
      rw [← words.words, ← sameWords]
      exact Instruction.readAs_of_length isPush wrong
  | operand opens single words wrong =>
    obtain ⟨tail, same, _, read⟩ := Instruction.ofText_of_opens opens
    rw [read]
    exact Instruction.readAs_of_none (same.trans words.words) single wrong
  | tag opens pushes wrong =>
    obtain ⟨tail, _, same, read⟩ := Instruction.ofText_of_opens opens
    rw [read, Instruction.readAs, Instruction.readPush_of_pushes same pushes,
      Instruction.readTag_of_none _ wrong]
    rfl
  | literal opens pushes spelt fault =>
    obtain ⟨tail, _, same, read⟩ := Instruction.ofText_of_opens opens
    rw [read, Instruction.readAs, Instruction.readPush_of_pushes same pushes,
      Instruction.readTag_of_isSpelt _ spelt]
    have refused := Value.read_of_fault fault
    exact congrArg (Instruction.push <$> ·) refused
section Totality

variable {line rest : List Char}

/-- An opcode without operands is an instruction. -/
theorem Opcode.exists_bare {opcode : Opcode} (none : opcode.operandCount = 0) :
    ∃ i : Instruction, i.opcode = opcode := by
  cases opcode with
  | pop => exact ⟨.pop, rfl⟩
  | mod => exact ⟨.modulo, rfl⟩
  | concat => exact ⟨.concat, rfl⟩
  | itof => exact ⟨.widen, rfl⟩
  | and => exact ⟨.and, rfl⟩
  | or => exact ⟨.or, rfl⟩
  | not => exact ⟨.not, rfl⟩
  | fopen => exact ⟨.openFile, rfl⟩
  | push | load | save | add | sub | mul | div | uminus | lt | gt | eq | label | jmp | fjmp | print
  | read | fappend => cases none

theorem Opcode.operandCount_le_one {opcode : Opcode} (noPush : opcode ≠ .push) :
    opcode.operandCount ≤ 1 := by
  cases opcode with
  | push => exact absurd rfl noPush
  | pop | mod | concat | itof | and | or | not | fopen => exact Nat.zero_le 1
  | load | save | add | sub | mul | div | uminus | lt | gt | eq | label | jmp | fjmp | print | read
  | fappend => exact Nat.le_refl 1

theorem exists_pushes {each : List (List Char)} (falls : FallsInto rest each)
    (many : 2 ≤ each.length) : ∃ tag literal, Pushes rest tag literal := by
  cases falls with
  | blanks blank => simp at many
  | @word before word more others blank isWord stops later =>
    have begins : Begins (before ++ word ++ more) word more :=
      ⟨⟨before, blank, rfl⟩, isWord.noBlank, stops, fun empty => absurd empty isWord.nonempty⟩
    refine ⟨word, trim more, ⟨⟨more, begins, trimsTo_trim more⟩, fun empty => ?_⟩⟩
    have none := (allBlank_of_trim empty).words
    rw [later.words] at none
    rw [none] at many
    simp at many

theorem Opens.holds_or_fault {opcode : Opcode} (opens : Opens line opcode rest) :
    (∃ i, Holds line i) ∨ ∃ e, LineFault line e := by
  -- The checks come in the order in which they count, each with its fault if it fails.
  obtain ⟨each, falls⟩ := exists_fallsInto rest
  by_cases admits : opcode.Admits each.length
  · by_cases isPush : opcode = .push
    · subst isPush
      obtain ⟨tag, literal, pushes⟩ := exists_pushes falls admits
      by_cases spelt : ∃ known : TypeTag, known.IsSpelt tag
      · obtain ⟨known, spelt⟩ := spelt
        rcases Value.denotes_or_fault known literal with ⟨value, rfl, denotes⟩ | ⟨e, fault⟩
        · exact .inl ⟨_, .push opens pushes spelt denotes⟩
        · exact .inr ⟨e, .literal opens pushes spelt fault⟩
      · exact .inr ⟨_, .tag opens pushes (not_exists.mp spelt)⟩
    · rw [Opcode.Admits, if_neg isPush] at admits
      rcases each with _ | ⟨word, _ | ⟨second, others⟩⟩
      · obtain ⟨i, rfl⟩ := Opcode.exists_bare admits.symm
        exact .inl ⟨i, .bare opens admits.symm falls⟩
      · by_cases taken : ∃ i : Instruction, i.opcode = opcode ∧ i.Takes word
        · obtain ⟨i, rfl, takes⟩ := taken
          exact .inl ⟨i, .operand opens falls takes⟩
        · refine .inr ⟨_, .operand opens admits.symm falls fun i same takes => ?_⟩
          exact taken ⟨i, same, takes⟩
      · have few := Opcode.operandCount_le_one isPush
        rw [← admits] at few
        simp at few
  · exact .inr ⟨_, .count opens falls admits⟩

/-- A line holds an instruction or has a fault. -/
theorem holds_or_fault (line : List Char) : (∃ i, Holds line i) ∨ ∃ e, LineFault line e := by
  obtain ⟨word, rest, begins⟩ := exists_begins line
  by_cases spelt : ∃ opcode : Opcode, opcode.IsSpelt word
  · obtain ⟨opcode, spelt⟩ := spelt
    exact Opens.holds_or_fault ⟨word, begins, spelt⟩
  · exact .inr ⟨_, .opcode begins (not_exists.mp spelt)⟩

end Totality

theorem holds_of_ofText {line : List Char} {i : Instruction}
    (read : Instruction.ofText line = .ok i) : Holds line i :=
  ((exact_of_total (fun _ => Holds.ofText) (fun _ => LineFault.ofText)
    (holds_or_fault line)).1 i).mp read

/--
A line is read as an instruction exactly if it holds that instruction by the grammar, and it is
refused with an error exactly if that is its fault: that of the opcode before that of the number
of operands, before that of an operand or a tag, before that of the literal.
-/
theorem Instruction.ofText_exact (line : List Char) :
    (∀ i, ofText line = .ok i ↔ Holds line i) ∧ ∀ e, ofText line = .error e ↔ LineFault line e :=
  exact_of_total (fun _ => Holds.ofText) (fun _ => LineFault.ofText) (holds_or_fault line)

-- One operand too many counts before an operand that is no numeric tag.
example : Instruction.ofText "ADD S I".toList = .error (.operandCount .add 1 2) := by rfl

end StackLang
