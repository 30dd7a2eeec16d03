import StackLang.Program.Basic

/-!
# Resolved labels

A label table in use binds a label to a place exactly if the label is defined
there. Labels resolve whenever no two instructions define the same one and every
jump has a definition to go to.
-/
namespace StackLang

/-- The labels that instructions define, in order. -/
def definedLabels (code : List Instruction) : List Label :=
  code.filterMap Instruction.definedLabel?

/-- The labels that instructions jump to, in order. -/
def jumpTargets (code : List Instruction) : List Label :=
  code.filterMap Instruction.target?

theorem definedLabel?_eq_some {i : Instruction} {label : Label} :
    i.definedLabel? = some label ↔ i = .label label := by
  cases i <;> simp [Instruction.definedLabel?]

namespace LabelTable

variable {labels later : LabelTable} {label : Label}

/-- An instruction of the collected code either defines no label or a new one. -/
theorem collect_cons_eq_ok {place : Nat} {i : Instruction} {rest : List Instruction}
    (collected : labels.collect place (i :: rest) = .ok later) :
    (i.definedLabel? = none ∧ labels.collect (place + 1) rest = .ok later) ∨
    ∃ label, i.definedLabel? = some label ∧ labels.place? label = none ∧
      (labels.insert label place).collect (place + 1) rest = .ok later := by
  rw [collect] at collected
  split at collected
  next plain => exact .inl ⟨plain, collected⟩
  next label defines =>
    split at collected
    next => cases collected
    next fresh => exact .inr ⟨label, defines, fresh, collected⟩

/-- Collecting never moves a label. -/
theorem place?_of_collect {place known : Nat} {code : List Instruction}
    (collected : labels.collect place code = .ok later) (bound : labels.place? label = some known) :
    later.place? label = some known := by
  induction code generalizing labels place with
  | nil =>
    cases collected
    exact bound
  | cons i rest ih =>
    rcases collect_cons_eq_ok collected with ⟨_, collected⟩ | ⟨new, _, fresh, collected⟩
    · exact ih collected bound
    · refine ih collected ?_
      have differs : new ≠ label := by
        rintro rfl
        rw [fresh] at bound
        cases bound
      rw [place?_insert, if_neg differs]
      exact bound

theorem place?_collect_of_getElem? {place index : Nat} {code : List Instruction} {i : Instruction}
    (collected : labels.collect place code = .ok later) (found : code[index]? = some i)
    (defines : i.definedLabel? = some label) : later.place? label = some (place + index) := by
  induction code generalizing labels place index with
  | nil => cases found
  | cons first rest ih =>
    rcases collect_cons_eq_ok collected with ⟨plain, collected⟩ | ⟨new, here, fresh, collected⟩
    · cases index with
      | zero =>
        cases found
        rw [plain] at defines
        cases defines
      | succ index =>
        rw [ih collected found, Nat.add_assoc, Nat.add_comm 1]
    · cases index with
      | zero =>
        cases found
        rw [here] at defines
        cases defines
        refine place?_of_collect collected ?_
        rw [place?_insert, if_pos rfl]
        rfl
      | succ index =>
        rw [ih collected found, Nat.add_assoc, Nat.add_comm 1]

/-- A bound label was bound before or is defined by the collected code at its place. -/
theorem defined_of_collect {place known : Nat} {code : List Instruction}
    (collected : labels.collect place code = .ok later) (bound : later.place? label = some known) :
    labels.place? label = some known ∨
      ∃ index i, code[index]? = some i ∧ i.definedLabel? = some label ∧ known = place + index := by
  induction code generalizing labels place with
  | nil =>
    cases collected
    exact .inl bound
  | cons first rest ih =>
    have later {labels : LabelTable} (collected : labels.collect (place + 1) rest = .ok later) :
        labels.place? label = some known ∨
          ∃ index i, (first :: rest)[index]? = some i ∧ i.definedLabel? = some label ∧
            known = place + index := by
      rcases ih collected with before | ⟨index, i, found, defines, rfl⟩
      · exact .inl before
      · exact .inr ⟨index + 1, i, found, defines, by omega⟩
    rcases collect_cons_eq_ok collected with ⟨_, collected⟩ | ⟨new, here, _, collected⟩
    · exact later collected
    · rcases later collected with before | elsewhere
      · rw [place?_insert] at before
        split at before
        next same =>
          cases before
          exact .inr ⟨0, first, rfl, same ▸ here, rfl⟩
        next => exact .inl before
      · exact .inr elsewhere

/-- New labels that differ from each other can be collected. -/
theorem exists_collect {place : Nat} {code : List Instruction}
    (distinct : (definedLabels code).Nodup)
    (fresh : ∀ label ∈ definedLabels code, labels.place? label = none) :
    ∃ later, labels.collect place code = .ok later := by
  induction code generalizing labels place with
  | nil => exact ⟨labels, rfl⟩
  | cons i rest ih =>
    rw [collect]
    cases defines : i.definedLabel? with
    | none =>
      have same : definedLabels (i :: rest) = definedLabels rest := by
        simp [definedLabels, defines]
      rw [same] at distinct fresh
      exact ih distinct fresh
    | some new =>
      have split : definedLabels (i :: rest) = new :: definedLabels rest := by
        simp [definedLabels, defines]
      rw [split] at distinct fresh
      obtain ⟨notLater, distinct⟩ := List.nodup_cons.mp distinct
      dsimp only
      rw [fresh new List.mem_cons_self]
      apply ih distinct
      intro label member
      have differs : new ≠ label := by
        rintro rfl
        exact notLater member
      rw [place?_insert, if_neg differs]
      exact fresh label (List.mem_cons_of_mem new member)

/--
Collecting fails at the first instruction that defines a label again: all goes well up to there,
and the table has the label by then.
-/
theorem collect_eq_error {place : Nat} {code : List Instruction} {error : LabelError}
    (failed : labels.collect place code = .error error) :
    ∃ label first index known, error = .duplicate label first (place + index) ∧
      code[index]? = some (.label label) ∧ labels.collect place (code.take index) = .ok known ∧
      known.place? label = some first := by
  induction code generalizing labels place with
  | nil => cases failed
  | cons i rest ih =>
    -- What is collected before the failure in the rest is collected behind the first instruction.
    have later {start : LabelTable} (failed : start.collect (place + 1) rest = .error error)
        (onward : ∀ code, labels.collect place (i :: code) = start.collect (place + 1) code) :
        ∃ label first index known, error = .duplicate label first (place + index) ∧
          (i :: rest)[index]? = some (.label label) ∧
          labels.collect place ((i :: rest).take index) = .ok known ∧
          known.place? label = some first := by
      obtain ⟨label, first, index, known, rfl, found, collected, bound⟩ := ih failed
      refine ⟨label, first, index + 1, known, ?_, found, (onward _).trans collected, bound⟩
      rw [Nat.add_right_comm, Nat.add_assoc]
    rw [collect] at failed
    cases defines : i.definedLabel? with
    | none =>
      rw [defines] at failed
      exact later failed fun code => by rw [collect, defines]
    | some new =>
      rw [defines] at failed
      dsimp only at failed
      cases bound : labels.place? new with
      | some known =>
        rw [bound] at failed
        cases failed
        exact ⟨new, known, 0, labels, rfl, congrArg some (definedLabel?_eq_some.mp defines), rfl,
          bound⟩
      | none =>
        rw [bound] at failed
        refine later failed fun code => ?_
        rw [collect, defines]
        dsimp only
        rw [bound]

/--
The jump that is reported as undefined has a label that the table does not know; the table knows
the labels of all jumps before it.
-/
theorem undefinedJump?_eq_some {place found : Nat} {code : List Instruction}
    (dangling : labels.undefinedJump? place code = some (found, label)) :
    ∃ index i, found = place + index ∧ code[index]? = some i ∧ i.target? = some label ∧
      labels.place? label = none ∧ ∀ earlier < index, ∀ other target, code[earlier]? = some other →
        other.target? = some target → (labels.place? target).isSome := by
  induction code generalizing place with
  | nil => cases dangling
  | cons i rest ih =>
    rw [undefinedJump?] at dangling
    split at dangling
    next missing jumps =>
      cases dangling
      obtain ⟨targets, unknown⟩ := Option.filter_eq_some_iff.mp jumps
      refine ⟨0, i, rfl, rfl, targets, Option.isNone_iff_eq_none.mp unknown, ?_⟩
      intro earlier less
      cases less
    next proper =>
      obtain ⟨index, jump, rfl, here, targets, unknown, before⟩ := ih dangling
      refine ⟨index + 1, jump, by omega, here, targets, unknown, ?_⟩
      intro earlier less other target there jumps
      cases earlier with
      | zero =>
        cases there
        refine Option.isSome_iff_ne_none.mpr ?_
        simpa using Option.filter_eq_none_iff.mp proper target jumps
      | succ earlier => exact before earlier (by omega) other target there jumps

theorem undefinedJump?_eq_none {place : Nat} {code : List Instruction} :
    labels.undefinedJump? place code = none ↔
      ∀ label ∈ jumpTargets code, (labels.place? label).isSome := by
  induction code generalizing place with
  | nil => simp [undefinedJump?, jumpTargets]
  | cons i rest ih =>
    rw [undefinedJump?]
    cases jumps : i.target? with
    | none =>
      have same : jumpTargets (i :: rest) = jumpTargets rest := by simp [jumpTargets, jumps]
      rw [same]
      exact ih
    | some label =>
      have split : jumpTargets (i :: rest) = label :: jumpTargets rest := by
        simp [jumpTargets, jumps]
      rw [split, List.forall_mem_cons, Option.filter_some]
      cases bound : labels.place? label with
      | none => simp
      | some known => simpa using ih

end LabelTable

namespace Program

/--
The instruction at the second place defines a label that the one at the first place has defined
before, and no instruction ahead of it defines a label again.
-/
structure Redefines (program : Program) (label : Label) (first second : Nat) : Prop where
  before : first < second
  defines : program.instructions[first]? = some (.label label)
  again : program.instructions[second]? = some (.label label)
  earliest : ∀ (other : Label) (place later : Nat), place < later → later < second →
    program.instructions[place]? = some (.label other) →
    program.instructions[later]? ≠ some (.label other)

/--
No label is defined twice, and the instruction at the place is the first jump whose label is
defined nowhere.
-/
structure Dangles (program : Program) (place : Nat) (label : Label) : Prop where
  once : ∀ (other : Label) (first second : Nat),
    program.instructions[first]? = some (.label other) →
    program.instructions[second]? = some (.label other) → first = second
  jumps : ∃ i, program.instructions[place]? = some i ∧ i.target? = some label
  missing : ∀ defined : Nat, program.instructions[defined]? ≠ some (.label label)
  earliest : ∀ (earlier : Nat) (i : Instruction) (other : Label), earlier < place →
    program.instructions[earlier]? = some i → i.target? = some other →
    ∃ defined : Nat, program.instructions[defined]? = some (.label other)

variable {program : Program} {labels : LabelTable} {label : Label}

theorem getElem?_toList (program : Program) (place : Nat) :
    program.toList[place]? = program.instructions[place]? :=
  Array.getElem?_toList

/-- Resolved labels are collected from the whole program, and no jump dangles. -/
theorem resolve_eq_ok :
    program.resolve = .ok labels ↔
      program.labels = .ok labels ∧
        ∀ label ∈ jumpTargets program.toList, (labels.place? label).isSome := by
  rw [resolve]
  cases collected : program.labels with
  | error e => simp
  | ok table =>
    dsimp only
    cases dangling : table.undefinedJump? 0 program.toList with
    | some jump =>
      obtain ⟨place, missing⟩ := jump
      have failed : ¬ ∀ label ∈ jumpTargets program.toList, (table.place? label).isSome := by
        rw [← LabelTable.undefinedJump?_eq_none, dangling]
        exact Option.some_ne_none _
      constructor
      · intro impossible
        cases impossible
      · rintro ⟨same, all⟩
        cases same
        exact absurd all failed
    | none =>
      have all := LabelTable.undefinedJump?_eq_none.mp dangling
      constructor
      · intro same
        cases same
        exact ⟨rfl, all⟩
      · exact fun both => both.1

/-- Control that moves to a label goes on behind its definition. -/
theorem entry?_of_getElem? (resolved : program.resolve = .ok labels) {place : Nat}
    (defined : program.instructions[place]? = some (.label label)) :
    labels.entry? label = some (place + 1) := by
  have collected := (resolve_eq_ok.mp resolved).1
  rw [← program.getElem?_toList] at defined
  rw [LabelTable.entry?, LabelTable.place?_collect_of_getElem? collected defined rfl, Nat.zero_add]
  rfl

theorem label_of_entry? (resolved : program.resolve = .ok labels) {entry : Nat}
    (goesTo : labels.entry? label = some entry) :
    ∃ place, program.instructions[place]? = some (.label label) ∧ entry = place + 1 := by
  have collected := (resolve_eq_ok.mp resolved).1
  obtain ⟨place, bound, rfl⟩ := Option.map_eq_some_iff.mp goesTo
  rcases LabelTable.defined_of_collect collected bound with
    before | ⟨index, i, found, defines, rfl⟩
  · simp [LabelTable.place?, LabelTable.empty] at before
  · rw [definedLabel?_eq_some.mp defines, getElem?_toList] at found
    exact ⟨index, found, by omega⟩

/-- No two instructions of the program before a place define the same label. -/
theorem once_before_of_collect {place index : Nat} {known : LabelTable}
    (collected : LabelTable.empty.collect 0 (program.toList.take index) = .ok known)
    (before : place < index) (defines : program.instructions[place]? = some (.label label)) :
    known.place? label = some place := by
  rw [← getElem?_toList] at defines
  have found : (program.toList.take index)[place]? = some (.label label) := by
    rw [List.getElem?_take_of_lt before, defines]
  rw [LabelTable.place?_collect_of_getElem? collected found rfl, Nat.zero_add]

/-- A program that does not resolve redefines a label, or has a jump that dangles. -/
theorem resolve_eq_error {error : LabelError} (failed : program.resolve = .error error) :
    (∃ label first second, error = .duplicate label first second ∧
      program.Redefines label first second) ∨
    ∃ place label, error = .undefined place label ∧ program.Dangles place label := by
  rw [resolve] at failed
  split at failed
  next refused =>
    cases failed
    obtain ⟨label, first, index, known, rfl, again, collected, bound⟩ :=
      LabelTable.collect_eq_error refused
    rw [getElem?_toList] at again
    rcases LabelTable.defined_of_collect collected bound with
      nowhere | ⟨place, i, there, defines, rfl⟩
    · simp [LabelTable.place?, LabelTable.empty] at nowhere
    · have before : place < index := by
        have inside := (List.getElem?_eq_some_iff.mp there).1
        rw [List.length_take] at inside
        omega
      rw [List.getElem?_take_of_lt before, getElem?_toList, definedLabel?_eq_some.mp defines]
        at there
      rw [Nat.zero_add, Nat.zero_add]
      refine .inl ⟨label, place, index, rfl, before, there, again, ?_⟩
      intro other one two less within here again
      have first := once_before_of_collect collected (Nat.lt_trans less within) here
      have second := once_before_of_collect collected within again
      rw [first] at second
      have := Option.some.inj second
      omega
  next labels collected =>
    split at failed
    next place label dangling =>
      cases failed
      obtain ⟨index, i, rfl, here, targets, unknown, before⟩ :=
        LabelTable.undefinedJump?_eq_some dangling
      have bound {other : Label} {defined : Nat}
          (defines : program.instructions[defined]? = some (.label other)) :
          labels.place? other = some defined := by
        rw [← getElem?_toList] at defines
        rw [LabelTable.place?_collect_of_getElem? collected defines rfl, Nat.zero_add]
      rw [getElem?_toList] at here
      rw [Nat.zero_add]
      refine .inr ⟨index, label, rfl, ?_, ⟨i, here, targets⟩, ?_, ?_⟩
      · intro other first second one two
        exact Option.some.inj ((bound one).symm.trans (bound two))
      · intro defined defines
        rw [bound defines] at unknown
        cases unknown
      · intro earlier jump target less there jumps
        rw [← getElem?_toList] at there
        obtain ⟨known, goesTo⟩ :=
          Option.isSome_iff_exists.mp (before earlier less jump target there jumps)
        rcases LabelTable.defined_of_collect collected goesTo with
          nowhere | ⟨defined, i, there, defines, _⟩
        · simp [LabelTable.place?, LabelTable.empty] at nowhere
        · rw [definedLabel?_eq_some.mp defines, getElem?_toList] at there
          exact ⟨defined, there⟩
    next => cases failed

/-- Every jump of a resolved program has an entry to go to. -/
theorem entry?_isSome (resolved : program.resolve = .ok labels) {place : Nat} {i : Instruction}
    (found : program.instructions[place]? = some i) (jumps : i.target? = some label) :
    ∃ entry, labels.entry? label = some entry := by
  rw [← program.getElem?_toList] at found
  have member : label ∈ jumpTargets program.toList :=
    List.mem_filterMap.mpr ⟨i, List.mem_of_getElem? found, jumps⟩
  obtain ⟨known, bound⟩ := Option.isSome_iff_exists.mp ((resolve_eq_ok.mp resolved).2 label member)
  exact ⟨known + 1, by rw [LabelTable.entry?, bound]; rfl⟩

/-- A program resolves if its labels are defined once and its jumps go to defined labels. -/
theorem exists_resolve (distinct : (definedLabels program.toList).Nodup)
    (defined : ∀ label ∈ jumpTargets program.toList, label ∈ definedLabels program.toList) :
    ∃ labels, program.resolve = .ok labels := by
  have fresh : ∀ label ∈ definedLabels program.toList, LabelTable.empty.place? label = none :=
    fun label _ => by simp [LabelTable.place?, LabelTable.empty]
  obtain ⟨labels, collected⟩ : ∃ labels, program.labels = .ok labels :=
    LabelTable.exists_collect distinct fresh
  refine ⟨labels, resolve_eq_ok.mpr ⟨collected, fun label member => ?_⟩⟩
  obtain ⟨i, here, defines⟩ := List.mem_filterMap.mp (defined label member)
  obtain ⟨index, found⟩ := List.mem_iff_getElem?.mp here
  rw [LabelTable.place?_collect_of_getElem? collected found defines]
  rfl

end Program

end StackLang
