import StackLang.Proofs.ExpressionRun

/-!
# Effects on the machine

Lists of values, declarations, and the statements that put requests to the host.
Values wait on the stack in the order they were computed and are taken back in
that order; a line that is read and a file that is opened go to the store by the
next instruction.
-/
namespace StackLang

/-- Values on a stack, the last one on top. -/
def piled (values : List Value) (stack : Stack) : Stack :=
  values.reverse.map Slot.value ++ stack

theorem piled_cons (value : Value) (values : List Value) (stack : Stack) :
    piled (value :: values) stack = piled values (.value value :: stack) := by
  simp [piled]

theorem popValuesBefore_map (opcode : Opcode) (later values : List Value) (stack : Stack) :
    Stack.popValuesBefore opcode later values.length (values.map Slot.value ++ stack) =
      .ok (values.reverse ++ later, stack) := by
  induction values generalizing later with
  | nil => rfl
  | cons value rest ih =>
    rw [List.reverse_cons, List.append_assoc]
    exact ih (value :: later)

/-- Values are taken from a stack in the order they were put there. -/
theorem popValues_piled (opcode : Opcode) (values : List Value) (stack : Stack) :
    Stack.popValues opcode values.length (piled values stack) = .ok (values, stack) := by
  have popped := popValuesBefore_map opcode [] values.reverse stack
  rwa [List.length_reverse, List.reverse_reverse, List.append_nil] at popped

theorem Expression.length_evalList {types : Declarations} {opcode : Opcode}
    {es : List Expression} {store : Store} {result : List Value × Store}
    (evaluated : evalList types opcode es store = .ok result) :
    result.1.length = es.length := by
  induction es generalizing store result with
  | nil =>
    cases evaluated
    rfl
  | cons e rest ih =>
    obtain ⟨⟨slot, middle⟩, _, evaluated⟩ := bind_eq_ok.mp evaluated
    cases slot with
    | file path => cases evaluated
    | value value =>
      obtain ⟨⟨values, later⟩, others, same⟩ := bind_eq_ok.mp evaluated
      cases same
      rw [List.length_cons, List.length_cons, ih others]

theorem Expression.length_evalOutput {types : Declarations} {file : Expression}
    {values : List Expression} {store : Store} {result : String × List Value × Store}
    (evaluated : file.evalOutput types values store = .ok result) :
    result.2.1.length = values.length := by
  obtain ⟨⟨slot, middle⟩, _, evaluated⟩ := bind_eq_ok.mp evaluated
  cases slot with
  | value value => cases evaluated
  | file path =>
    obtain ⟨⟨written, later⟩, others, same⟩ := bind_eq_ok.mp evaluated
    cases same
    exact length_evalList others

section Run

variable {World : Type} [Host World] {machine : Machine} {record : TypeRecord}
variable {policy : LogicalPolicy} {types : Declarations} {start stop : Nat} {store : Store}
variable {code : List Instruction}

/-- The code of a list of plain values leaves them on the stack. -/
theorem reproduces_values (holds : record.symbols.Holds types) {passes : StaticType → Prop}
    (plain : ∀ type, passes type → type ≠ .file) (opcode : Opcode) {values : List Expression}
    (annotated : AnnotatedValues record policy passes values)
    (lowered : lowerValues record values = .ok code)
    (segment : machine.program.Segment start code stop) (stack : Stack)
    (describes : record.symbols.Describes store) (bound : Nat) (world : World) :
    machine.Reproduces record.symbols.Describes policy.Permits bound ⟨start, stack, store⟩ world
      (fun result => ⟨stop, piled result.1 stack, result.2⟩)
      (.ofResult world (Expression.evalList types opcode values store)) := by
  induction values generalizing start code stack store with
  | nil =>
    cases lowered
    cases segment
    exact .done (.stay describes)
  | cons e rest ih =>
    obtain ⟨⟨type, own, passed⟩, others⟩ := List.forall_mem_cons.mp annotated
    obtain ⟨first, later, _, here, there, rfl⟩ := lowerValues_cons lowered
    cases here.symm.trans (own.lower holds)
    obtain ⟨middle, firstSegment, laterSegment⟩ := Program.segment_append.mp segment
    apply (own.reproduces holds firstSegment stack describes bound world).bind
    rintro ⟨slot, between⟩ evaluated keeps
    have kind := own.kind_of_eval holds describes evaluated
    obtain ⟨value, rfl⟩ := Slot.eq_value (kind ▸ plain type passed)
    apply (ih others there laterSegment (.value value :: stack) keeps).bind
    rintro ⟨values, last⟩ _ keeps
    exact .arrived keeps (by rw [piled_cons])

theorem Value.kind_zero {type : PrimitiveType} {tag : TypeTag}
    (tagged : type.static.tag? = some tag) :
    (Slot.value (.zero tag)).kind.type = type.static := by
  cases type <;> cases tagged <;> rfl

/-- Names that are declared get the zero of their type one after the other. -/
theorem travels_reset {type : PrimitiveType} {names : List Identifier}
    (declared : ∀ name ∈ names, record.symbols.typeOf? name.name = some type.static)
    (segment : machine.program.Segment start (lowerDeclaration type names) stop)
    (describes : record.symbols.Describes store) (world : World) :
    ∃ n, machine.Travels record.symbols.Describes n ⟨start, [], store⟩ world
      ⟨stop, [], reset type names store⟩ world := by
  rw [lowerDeclaration] at segment
  rw [reset]
  cases tagged : type.static.tag? with
  | none =>
    rw [tagged] at segment
    cases segment
    exact ⟨0, .stay describes⟩
  | some tag =>
    rw [tagged] at segment
    dsimp only at segment ⊢
    induction names generalizing start store with
    | nil =>
      cases segment
      exact ⟨0, .stay describes⟩
    | cons name rest ih =>
      obtain ⟨known, others⟩ := List.forall_mem_cons.mp declared
      obtain ⟨pushes, saves, segment⟩ := segment
      have zero : record.symbols.Describes (store.set name.name (.value (.zero tag))) :=
        describes.set (by rw [known, Value.kind_zero tagged])
      have pushed : machine.Travels record.symbols.Describes 1 ⟨start, [], store⟩ world
          ⟨start + 1, [.value (.zero tag)], store⟩ world :=
        Machine.travels_of_proceed world pushes rfl describes describes
      have saved := Machine.travels_of_proceed world saves rfl pushed.good_last zero
      obtain ⟨n, later⟩ := ih others zero segment
      exact ⟨_, (pushed.trans saved).trans later⟩

theorem Value.tag_ofLine {tag : TypeTag} {line : String} {value : Value}
    (read : Value.ofLine tag line = .ok value) : value.tag = tag := by
  have made {α : Type} {result : Option α} {make : α → Value} {failure : Cause}
      (h : (result.map make).elim (.error failure) .ok = Except.ok value) :
      ∃ a, value = make a := by
    cases result with
    | none => cases h
    | some a => exact ⟨a, (Except.ok.inj h).symm⟩
  unfold Value.ofLine at read
  cases tag with
  | string =>
    cases read
    rfl
  | int | float | bool =>
    obtain ⟨_, rfl⟩ := made read
    rfl

/-- What is read for a variable has the type of the variable. -/
theorem Value.kind_ofReply {type : PrimitiveType} {tag : TypeTag} {line : String} {value : Value}
    (tagged : type.static.tag? = some tag) (read : Value.ofReply tag line = .ok value) :
    (Slot.value value).kind.type = type.static := by
  rw [Value.ofReply] at read
  split at read
  · cases read
  · cases Value.tag_ofLine read
    cases type <;> cases value <;> first | rfl | cases tagged

theorem permits_ofReply {tag : TypeTag} {line : String} {cause : Cause}
    (failed : Value.ofReply tag line = .error cause) : policy.Permits cause := by
  rw [Value.ofReply] at failed
  split at failed
  · cases failed
    exact .endOfInput
  · obtain ⟨_, text, rfl⟩ := Instruction.ofLine_eq_error failed
    exact .inputParse tag text

/-- Each target gets the value of the next line. -/
theorem reproduces_read (holds : record.symbols.Holds types) {targets : List Identifier}
    (annotated : ∀ target ∈ targets, ∃ type,
      record.symbols.typeOf? target.name = some type ∧ type ≠ .file)
    (lowered : lowerRead record targets = .ok code)
    (segment : machine.program.Segment start code stop)
    (describes : record.symbols.Describes store) (bound : Nat) (world : World) :
    machine.Reproduces record.symbols.Describes policy.Permits bound ⟨start, [], store⟩ world
      (fun later => ⟨stop, [], later⟩) (readInto types targets store world) := by
  induction targets generalizing start code store world with
  | nil =>
    cases lowered
    cases segment
    exact .done (.stay describes)
  | cons target rest ih =>
    obtain ⟨⟨type, declared, plain⟩, others⟩ := List.forall_mem_cons.mp annotated
    obtain ⟨_, tag, later, resolved, tagged, there, rfl⟩ := lowerRead_cons lowered
    obtain ⟨reads, saves, segment⟩ := segment
    rw [TypeRecord.variableType] at resolved
    rw [declared] at resolved
    cases resolved
    obtain ⟨own, found, rfl⟩ := Option.map_eq_some_iff.mp ((holds.typeOf target.name).symm.trans
      declared)
    have reading : ∀ line, readAs (types.lookup target.name) target.name line =
        Value.ofReply tag line := by
      intro line
      simp only [readAs, found, Option.bind_some, tagged]
    rw [readInto]
    simp only [reading]
    rw [← Outcome.andThen_assoc]
    refine Machine.Reproduces.andThen (Machine.reproduces_of_ask (Value.ofReply tag) bound world
      reads rfl (fun _ => rfl) describes .system (fun _ _ _ => describes)
      (fun _ _ failed => permits_ofReply failed)) ?_
    intro value between replied keeps
    obtain ⟨line, _, _, read⟩ := Outcome.andThen_eq_done replied
    obtain ⟨read, _⟩ := Outcome.ofResult_eq_done read
    have after : record.symbols.Describes (store.set target.name (.value value)) :=
      describes.set (by rw [declared, Value.kind_ofReply tagged read])
    have saved := Machine.travels_of_proceed between saves rfl keeps after
    exact .after saved (ih others there segment after between) (Nat.le_add_left bound 1)

theorem act_print (labels : LabelTable) (place : Nat) (values : List Value) (store : Store) :
    (Instruction.print values.length).act labels ⟨place, piled values [], store⟩ =
      .ok (.ask (.print (" ".intercalate (values.map Value.text)))
        fun _ => .ok ⟨place + 1, [], store⟩) := by
  simp only [Instruction.act, popValues_piled]
  rfl

theorem act_appendFile (labels : LabelTable) (place : Nat) (values : List Value) (path : String)
    (store : Store) :
    (Instruction.appendFile values.length).act labels ⟨place, piled values [.file path], store⟩ =
      .ok (.ask (.append path (values.map Value.text))
        fun _ => .ok ⟨place + 1, [.file path], store⟩) := by
  simp only [Instruction.act, popValues_piled]
  rfl

theorem StaticType.IsWritable.plain {type : StaticType} (writable : type.IsWritable) :
    type ≠ .file := by
  rcases writable with rfl | rfl | rfl <;> nofun

section Outputs

variable {next last : Label} {position : Position}

/-- Printing takes the values that were computed. -/
theorem reproduces_write (holds : record.symbols.Holds types) {values : List Expression}
    (annotated : (Statement.write position values).Annotated record policy)
    (lowered : (Statement.write position values).lower record next = .ok (code, last))
    (segment : machine.program.Segment start code stop)
    (describes : record.symbols.Describes store) (bound : Nat) (world : World) :
    machine.Reproduces record.symbols.Describes policy.Permits bound ⟨start, [], store⟩ world
      (fun later => ⟨stop, [], later⟩)
      ((Statement.write position values).eval types bound store world) := by
  obtain ⟨inner, here, rfl, rfl⟩ := Statement.lower_write lowered
  obtain ⟨middle, pile, prints⟩ := Program.segment_append.mp segment
  obtain ⟨found, rfl⟩ := Program.segment_singleton.mp prints
  rw [Statement.eval]
  refine (reproduces_values holds (fun _ plain => plain) .print annotated here pile [] describes
    bound world).andThen ?_
  rintro ⟨printed, later⟩ between done keeps
  obtain ⟨evaluated, _⟩ := Outcome.ofResult_eq_done done
  have length : printed.length = values.length := Expression.length_evalList evaluated
  rw [← length] at found
  exact Machine.reproduces_of_request between found (act_print _ _ _ _) keeps keeps .system
    fun _ => .done (.stay keeps)

/-- Opening a file binds the handle to the target. -/
theorem reproduces_openFile (holds : record.symbols.Holds types) {target : Identifier}
    {fileName : Expression}
    (annotated : (Statement.openFile position target fileName).Annotated record policy)
    (lowered : (Statement.openFile position target fileName).lower record next = .ok (code, last))
    (segment : machine.program.Segment start code stop)
    (describes : record.symbols.Describes store) (bound : Nat) (world : World) :
    machine.Reproduces record.symbols.Describes policy.Permits bound ⟨start, [], store⟩ world
      (fun later => ⟨stop, [], later⟩)
      ((Statement.openFile position target fileName).eval types bound store world) := by
  obtain ⟨declared, name⟩ := annotated
  obtain ⟨inner, type, here, rfl, rfl⟩ := Statement.lower_openFile lowered
  cases here.symm.trans (name.lower holds)
  obtain ⟨middle, operand, opens, saves, rfl⟩ := Program.segment_append.mp segment
  have named : machine.Reproduces record.symbols.Describes policy.Permits bound
      ⟨start, [], store⟩ world (fun result => ⟨middle, [.value (.string result.1)], result.2⟩)
      (.ofResult world (fileName.evalFileName types store)) := by
    apply (name.reproduces holds operand [] describes bound world).bind
    rintro ⟨slot, later⟩ evaluated keeps
    obtain ⟨path, rfl⟩ := Slot.eq_string (name.kind_of_eval holds describes evaluated)
    exact .arrived keeps rfl
  rw [Statement.eval]
  apply named.andThen
  rintro ⟨path, later⟩ between _ keeps
  have after : record.symbols.Describes (later.set target.name (.file path)) :=
    keeps.set declared
  refine Machine.reproduces_of_request between opens rfl keeps keeps .system fun world => ?_
  exact .done (Machine.travels_of_proceed world saves rfl keeps after)

/-- Output to a file takes the values and the handle below them. -/
theorem reproduces_fileOutput (holds : record.symbols.Holds types) {file : Expression}
    {values : List Expression}
    (annotated : (Statement.fileOutput position file values).Annotated record policy)
    (lowered : (Statement.fileOutput position file values).lower record next = .ok (code, last))
    (segment : machine.program.Segment start code stop)
    (describes : record.symbols.Describes store) (bound : Nat) (world : World) :
    machine.Reproduces record.symbols.Describes policy.Permits bound ⟨start, [], store⟩ world
      (fun later => ⟨stop, [], later⟩)
      ((Statement.fileOutput position file values).eval types bound store world) := by
  obtain ⟨handle, others⟩ := annotated
  obtain ⟨first, type, inner, here, there, rfl, rfl⟩ := Statement.lower_fileOutput lowered
  cases here.symm.trans (handle.lower holds)
  simp only [Program.segment_append] at segment
  obtain ⟨middle, ⟨between, operand, pile⟩, appends, pops, rfl⟩ := segment
  have output : machine.Reproduces record.symbols.Describes policy.Permits bound
      ⟨start, [], store⟩ world
      (fun result => ⟨middle, piled result.2.1 [.file result.1], result.2.2⟩)
      (.ofResult world (file.evalOutput types values store)) := by
    apply (handle.reproduces holds operand [] describes bound world).bind
    rintro ⟨slot, later⟩ evaluated keeps
    obtain ⟨path, rfl⟩ := Slot.eq_file (handle.kind_of_eval holds describes evaluated)
    refine (reproduces_values holds (fun _ => StaticType.IsWritable.plain) .fappend others there
      pile [.file path] keeps bound world).bind ?_
    rintro ⟨written, last⟩ _ keeps
    exact .arrived keeps rfl
  rw [Statement.eval]
  apply output.andThen
  rintro ⟨path, written, later⟩ world done keeps
  obtain ⟨evaluated, _⟩ := Outcome.ofResult_eq_done done
  have length : written.length = values.length := Expression.length_evalOutput evaluated
  rw [← length] at appends
  refine Machine.reproduces_of_request world appends (act_appendFile _ _ _ _ _) keeps keeps .system
    fun world => ?_
  exact .done (Machine.travels_of_proceed world pops rfl keeps keeps)

end Outputs

end Run

end StackLang
