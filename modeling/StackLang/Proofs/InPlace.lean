import StackLang.Proofs.Runs

/-!
# The machine in place

The machine told as work on what it holds: a stack, a store and the world. Work
changes what is held as it goes along, and where it fails it leaves everything as
it was at that moment: slots that were taken are gone, and so is a line that was
read. A step of the machine is such work; what a failure leaves of the stack and
of the store is all that the step does not report.
-/
namespace StackLang

structure Holdings (World : Type) where
  stack : Stack
  store : Store
  world : World

/-- Work on what a machine holds. -/
abbrev Work (World : Type) := EStateM Cause (Holdings World)

namespace Work

variable {World α : Type}

def push (slot : Slot) : Work World Unit :=
  modify fun held => { held with stack := slot :: held.stack }

def pop (opcode : Opcode) : Work World Slot := fun held =>
  match held.stack with
  | [] => .error (.stackUnderflow opcode) held
  | slot :: rest => .ok slot { held with stack := rest }

/-- Takes a slot and then looks at it, so that a slot of the wrong kind has been taken as well. -/
def popAs (opcode : Opcode) (expected : Expected) (read : Slot → Option α) : Work World α := do
  let slot ← pop opcode
  match read slot with
  | some operand => return operand
  | none => throw (.typeMismatch opcode expected slot.kind)

/-- Takes plain values from the top down. -/
def popEach (opcode : Opcode) : Nat → Work World (List Value)
  | 0 => return []
  | count + 1 => do
    let value ← popAs opcode .plainValue Slot.value?
    return value :: (← popEach opcode count)

/-- Takes plain values, in the order they were pushed. -/
def popValues (opcode : Opcode) (count : Nat) : Work World (List Value) := do
  return (← popEach opcode count).reverse

def give (computed : Except Cause Value) : Work World Unit := do
  push (.value (← MonadExcept.ofExcept computed))

def combine (opcode : Opcode) (expected : Expected) (read : Slot → Option α)
    (compute : α → α → Except Cause Value) : Work World Unit := do
  let rhs ← popAs opcode expected read
  let lhs ← popAs opcode expected read
  give (compute lhs rhs)

def transform (opcode : Opcode) (expected : Expected) (read : Slot → Option α)
    (compute : α → Value) : Work World Unit := do
  let operand ← popAs opcode expected read
  give (.ok (compute operand))

def load (name : String) : Work World Unit := do
  match (← get).store.get? name with
  | some slot => push slot
  | none => throw (.uninitializedVariable name)

def save (name : String) (slot : Slot) : Work World Unit :=
  modify fun held => { held with store := held.store.set name slot }

def goto (labels : LabelTable) (label : Label) : Work World Nat :=
  match labels.entry? label with
  | some place => return place
  | none => throw (.undefinedLabel label)

/-- Asks the host, whose refusal is a failure. -/
def ask [Host World] (request : Request) : Work World String := fun held =>
  match Host.perform request held.world with
  | (.ok text, world) => .ok text { held with world }
  | (.error e, world) => .error (.system e) { held with world }

/-- Goes on at the next place. -/
def onward (place : Nat) (work : Work World Unit) : Work World Nat := do
  work
  return place + 1

end Work

open Work in
/-- The work of one instruction at a place, and the place that comes next. -/
def Instruction.execute {World : Type} [Host World] (labels : LabelTable) (place : Nat)
    (i : Instruction) : Work World Nat :=
  let opcode := i.opcode
  match i with
  | .push value => onward place (Work.push (.value value))
  | .pop => onward place do
    let _ ← Work.pop opcode
  | .load name => onward place (Work.load name)
  | .save name => onward place do
    Work.save name (← Work.pop opcode)
  | .arithmetic operator .int => onward place <|
    combine opcode (.kind .int) Slot.int? fun lhs rhs => .int <$> operator.onInts lhs rhs
  | .arithmetic operator .float => onward place <|
    combine opcode (.kind .float) Slot.float? fun lhs rhs =>
      .ok (.float (operator.onFloats lhs rhs))
  | .modulo => onward place <|
    combine opcode (.kind .int) Slot.int? fun lhs rhs => .int <$> remainder lhs rhs
  | .negate .int => onward place <|
    transform opcode (.kind .int) Slot.int? fun n => .int (-n)
  | .negate .float => onward place <|
    transform opcode (.kind .float) Slot.float? fun x => .float (-x)
  | .concat => onward place <|
    combine opcode .plainValue Slot.value? fun lhs rhs => .ok (.string (lhs.text ++ rhs.text))
  | .widen => onward place <|
    transform opcode (.kind .int) Slot.int? fun n => .float (nearestFloat n)
  | .ordering operator .int => onward place <|
    combine opcode (.kind .int) Slot.int? fun lhs rhs => .ok (.bool (operator.onInts lhs rhs))
  | .ordering operator .float => onward place <|
    combine opcode (.kind .float) Slot.float? fun lhs rhs => .ok (.bool (operator.onFloats lhs rhs))
  | .equal .int => onward place <|
    combine opcode (.kind .int) Slot.int? fun lhs rhs => .ok (.bool (lhs == rhs))
  | .equal .float => onward place <|
    combine opcode (.kind .float) Slot.float? fun lhs rhs => .ok (.bool (lhs == rhs))
  | .equal .string => onward place <|
    combine opcode (.kind .string) Slot.string? fun lhs rhs => .ok (.bool (lhs == rhs))
  | .equal .bool => onward place <|
    combine opcode (.kind .bool) Slot.bool? fun lhs rhs => .ok (.bool (lhs == rhs))
  | .and => onward place <|
    combine opcode (.kind .bool) Slot.bool? fun lhs rhs => .ok (.bool (lhs && rhs))
  | .or => onward place <|
    combine opcode (.kind .bool) Slot.bool? fun lhs rhs => .ok (.bool (lhs || rhs))
  | .not => onward place <|
    transform opcode (.kind .bool) Slot.bool? fun b => .bool !b
  | .label _ => onward place (return ())
  | .jump l => goto labels l
  | .jumpIfFalse l => do
    let condition ← popAs opcode (.kind .bool) Slot.bool?
    if condition then return place + 1 else goto labels l
  | .print count => onward place do
    let values ← popValues opcode count
    let _ ← ask (.print (" ".intercalate (values.map Value.text)))
  | .read tag => onward place do
    give (Value.ofReply tag (← ask .readLine))
  | .openFile => onward place do
    let path ← popAs opcode (.kind .string) Slot.string?
    let _ ← ask (.create path)
    Work.push (.file path)
  | .appendFile count => onward place do
    let values ← popValues opcode count
    let path ← popAs opcode (.kind .file) Slot.path?
    let _ ← ask (.append path (values.map Value.text))
    Work.push (.file path)

namespace Work

variable {World α : Type}

section Binding

variable {β : Type} {work : Work World α} {next : α → Work World β}

theorem bind_of_error {held later : Holdings World} {cause : Cause}
    (failed : work held = .error cause later) : (work >>= next) held = .error cause later := by
  simp only [bind, EStateM.bind, failed]

theorem bind_of_ok {held later : Holdings World} {a : α} (done : work held = .ok a later) :
    (work >>= next) held = next a later := by
  simp only [bind, EStateM.bind, done]

theorem onward_bind (place : Nat) (work : Work World α) (next : α → Work World Unit) :
    onward place (work >>= next) = work >>= fun a => onward place (next a) := by
  simp only [onward, bind_assoc]

end Binding

/--
Work on nothing but the stack succeeds and fails as a function of the stack does. Where it fails,
something may be gone from the stack.
-/
def Mirrors (work : Work World α) (take : Stack → Except Cause (α × Stack)) : Prop :=
  ∀ held, (∃ operand rest, take held.stack = .ok (operand, rest) ∧
      work held = .ok operand { held with stack := rest }) ∨
    ∃ cause rest, take held.stack = .error cause ∧
      work held = .error cause { held with stack := rest }

/-- Taking an operand in place mirrors taking it from the stack, whatever is expected. -/
theorem mirrors_popAs (opcode : Opcode) (expected : Expected) (read : Slot → Option α) :
    Mirrors (popAs opcode expected read : Work World α) (Stack.popAs opcode expected read) := by
  rintro ⟨_ | ⟨slot, rest⟩, store, world⟩
  · exact .inr ⟨_, [], rfl, rfl⟩
  · simp only [popAs, pop, Stack.popAs, Stack.pop, bind, EStateM.bind, Except.bind]
    cases read slot with
    | none => exact .inr ⟨_, rest, rfl, rfl⟩
    | some operand => exact .inl ⟨operand, rest, rfl, rfl⟩

/-- Values that are taken one by one and then turned round are those that were put before others. -/
theorem popEach_cases (opcode : Opcode) (count : Nat) (later : List Value)
    (held : Holdings World) :
    (∃ values rest, Stack.popValuesBefore opcode later count held.stack =
        .ok (values.reverse ++ later, rest) ∧
      popEach opcode count held = .ok values { held with stack := rest }) ∨
    ∃ cause rest, Stack.popValuesBefore opcode later count held.stack = .error cause ∧
      popEach opcode count held = .error cause { held with stack := rest } := by
  induction count generalizing later held with
  | zero => exact .inl ⟨[], held.stack, rfl, rfl⟩
  | succ count ih =>
    rw [Stack.popValuesBefore, popEach]
    rcases mirrors_popAs opcode .plainValue Slot.value? held with
      ⟨value, rest, taken, worked⟩ | ⟨cause, rest, taken, worked⟩
    · simp only [Stack.popValue, taken, bind, Except.bind, EStateM.bind, worked]
      rcases ih (value :: later) { held with stack := rest } with
        ⟨values, below, takenRest, workedRest⟩ | ⟨cause, below, takenRest, workedRest⟩
      · refine .inl ⟨value :: values, below, ?_, ?_⟩
        · rw [List.reverse_cons, List.append_assoc]
          exact takenRest
        · rw [workedRest]
          rfl
      · refine .inr ⟨cause, below, takenRest, ?_⟩
        rw [workedRest]
    · simp only [Stack.popValue, taken, bind, Except.bind, EStateM.bind, worked]
      exact .inr ⟨cause, rest, rfl, rfl⟩

theorem mirrors_popValues (opcode : Opcode) (count : Nat) :
    Mirrors (popValues opcode count : Work World (List Value)) (Stack.popValues opcode count) := by
  intro held
  rcases popEach_cases opcode count [] held with
    ⟨values, rest, taken, worked⟩ | ⟨cause, rest, taken, worked⟩
  · refine .inl ⟨values.reverse, rest, ?_, ?_⟩
    · rw [Stack.popValues, taken, List.append_nil]
    · simp only [popValues, bind, EStateM.bind, worked]
      rfl
  · refine .inr ⟨cause, rest, taken, ?_⟩
    simp only [popValues, bind, EStateM.bind, worked]

/-- What a step reports of its work: of a failure no more than the cause and the world. -/
def outcome (place : Nat) : EStateM.Result Cause (Holdings World) Nat → Status × World
  | .ok next held => (.running ⟨next, held.stack, held.store⟩, held.world)
  | .error cause held => (.failed (.atPlace place cause), held.world)

section Outcomes

variable {opcode : Opcode} {expected : Expected} {read : Slot → Option α}
variable {take : Stack → Except Cause (α × Stack)}

theorem outcome_transform (frame : Frame) (world : World) (compute : α → Value)
    (mirrors : Mirrors (popAs opcode expected read : Work World α) take) :
    outcome frame.place (onward frame.place (transform opcode expected read compute)
        ⟨frame.stack, frame.store, world⟩) =
      (Status.ofResult frame.place (frame.transform take compute), world) := by
  rw [Frame.transform]
  rcases mirrors ⟨frame.stack, frame.store, world⟩ with
    ⟨operand, rest, taken, worked⟩ | ⟨cause, rest, taken, worked⟩
  · simp only [onward, transform, bind, EStateM.bind, Except.bind, worked, taken]
    rfl
  · simp only [onward, transform, bind, EStateM.bind, Except.bind, worked, taken]
    rfl

theorem outcome_combine (frame : Frame) (world : World) (compute : α → α → Except Cause Value)
    (mirrors : Mirrors (popAs opcode expected read : Work World α) take) :
    outcome frame.place (onward frame.place (combine opcode expected read compute)
        ⟨frame.stack, frame.store, world⟩) =
      (Status.ofResult frame.place (frame.combine take compute), world) := by
  rw [Frame.combine]
  rcases mirrors ⟨frame.stack, frame.store, world⟩ with
    ⟨rhs, below, takenRight, workedRight⟩ | ⟨cause, rest, taken, worked⟩
  · simp only [onward, combine, bind, EStateM.bind, Except.bind, workedRight, takenRight]
    rcases mirrors ⟨below, frame.store, world⟩ with
      ⟨lhs, rest, taken, worked⟩ | ⟨cause, rest, taken, worked⟩
    · simp only [worked, taken]
      cases computed : compute lhs rhs with
      | ok value => rfl
      | error cause => rfl
    · simp only [worked, taken]
      rfl
  · simp only [onward, combine, bind, EStateM.bind, Except.bind, worked, taken]
    rfl

theorem outcome_goto (frame : Frame) (stack : Stack) (world : World) (labels : LabelTable)
    (label : Label) :
    outcome frame.place (goto labels label ⟨stack, frame.store, world⟩) =
      (Status.ofResult frame.place (frame.goto labels label stack), world) := by
  rw [goto, Frame.goto]
  cases labels.entry? label <;> rfl

end Outcomes

theorem load_of_store (name : String) (held : Holdings World) :
    load name held = (match held.store.get? name with
      | some slot => push slot
      | none => throw (.uninitializedVariable name) : Work World Unit) held := rfl

theorem finishes_pure (held : Holdings World) :
    (pure () : Work World Unit) held = .ok () { held with stack := [] ++ held.stack } := rfl

theorem finishes_push (slot : Slot) (held : Holdings World) :
    push slot held = .ok () { held with stack := [slot] ++ held.stack } := rfl

section Asking

variable [Host World] {request : Request} {held : Holdings World} {text : String}
variable {error : SystemError} {world : World}

theorem ask_of_reply (replied : Host.perform request held.world = (.ok text, world)) :
    ask request held = .ok text { held with world } := by
  rw [ask, replied]

theorem ask_of_refusal (refused : Host.perform request held.world = (.error error, world)) :
    ask request held = .error (.system error) { held with world } := by
  rw [ask, refused]

/-- The last that an instruction does is to ask, and then to leave slots. -/
theorem outcome_asked {finish : Work World Unit} {left : Stack}
    (finishes : ∀ held, finish held = .ok () { held with stack := left ++ held.stack })
    (frame : Frame) (stack : Stack) (world : World) (request : Request) :
    outcome frame.place (onward frame.place (do
        let _ ← ask request
        finish) ⟨stack, frame.store, world⟩) =
      (Status.ofReply frame.place (fun _ => .ok (frame.advance (left ++ stack)))
        (Host.perform request world).1, (Host.perform request world).2) := by
  rw [onward_bind]
  cases performed : Host.perform request world with
  | mk reply later =>
    cases reply with
    | ok text =>
      rw [bind_of_ok (ask_of_reply performed), onward, bind_of_ok (finishes _)]
      rfl
    | error e =>
      rw [bind_of_error (ask_of_refusal performed)]
      rfl

end Asking

end Work

namespace Machine

variable {World : Type} [Host World] {machine : Machine} {frame : Frame}

open Work

section Parts

variable {α : Type} {i : Instruction} {expected : Expected} {read : Slot → Option α}
variable {take : Stack → Except Cause (α × Stack)}

theorem step_of_combine (world : World) {compute : α → α → Except Cause Value}
    (found : machine.program.instructions[frame.place]? = some i)
    (acts : i.act machine.labels frame = atOnce (frame.combine take compute))
    (mirrors : Mirrors (popAs i.opcode expected read : Work World α) take) :
    machine.step frame world = outcome frame.place
      (onward frame.place (Work.combine i.opcode expected read compute)
        ⟨frame.stack, frame.store, world⟩) := by
  rw [step_of_atOnce world found acts, outcome_combine frame world compute mirrors]

theorem step_of_transform (world : World) {compute : α → Value}
    (found : machine.program.instructions[frame.place]? = some i)
    (acts : i.act machine.labels frame = atOnce (frame.transform take compute))
    (mirrors : Mirrors (popAs i.opcode expected read : Work World α) take) :
    machine.step frame world = outcome frame.place
      (onward frame.place (Work.transform i.opcode expected read compute)
        ⟨frame.stack, frame.store, world⟩) := by
  rw [step_of_atOnce world found acts, outcome_transform frame world compute mirrors]

/-- A step that fails before anything is asked. -/
theorem step_of_failure {cause : Cause} (world : World)
    (found : machine.program.instructions[frame.place]? = some i)
    (fails : i.act machine.labels frame = .error cause) :
    machine.step frame world = (.failed (.atPlace frame.place cause), world) := by
  unfold step move
  rw [found]
  dsimp only
  rw [fails]

end Parts

section Arms

variable (world : World)

theorem step_load {name : String}
    (found : machine.program.instructions[frame.place]? = some (.load name)) :
    machine.step frame world = outcome frame.place ((Instruction.load name).execute machine.labels
      frame.place ⟨frame.stack, frame.store, world⟩) := by
  cases bound : frame.store.get? name with
  | none =>
    have fails : (Instruction.load name).act machine.labels frame =
        .error (.uninitializedVariable name) := by
      simp only [Instruction.act, bound]
    rw [step_of_failure world found fails]
    simp only [Instruction.execute, onward, bind, EStateM.bind, load_of_store, bound]
    rfl
  | some slot =>
    rw [step_of_atOnce world found (by simp only [Instruction.act, bound]; rfl)]
    simp only [Instruction.execute, onward, bind, EStateM.bind, load_of_store, bound]
    rfl

theorem step_jumpIfFalse {label : Label}
    (found : machine.program.instructions[frame.place]? = some (.jumpIfFalse label)) :
    machine.step frame world = outcome frame.place
      ((Instruction.jumpIfFalse label).execute machine.labels frame.place
        ⟨frame.stack, frame.store, world⟩) := by
  rw [step_of_atOnce world found rfl]
  rcases mirrors_popAs Opcode.fjmp (.kind .bool) Slot.bool?
      ⟨frame.stack, frame.store, world⟩ with
    ⟨condition, rest, taken, worked⟩ | ⟨cause, rest, taken, worked⟩
  · simp only [Instruction.execute, Instruction.opcode, Stack.popBool, bind, EStateM.bind,
      Except.bind, worked, taken]
    cases condition with
    | true => rfl
    | false => exact (outcome_goto frame rest world machine.labels label).symm
  · simp only [Instruction.execute, Instruction.opcode, Stack.popBool, bind, EStateM.bind,
      Except.bind, worked, taken]
    rfl

theorem step_print {count : Nat}
    (found : machine.program.instructions[frame.place]? = some (.print count)) :
    machine.step frame world = outcome frame.place ((Instruction.print count).execute
      machine.labels frame.place ⟨frame.stack, frame.store, world⟩) := by
  rcases mirrors_popValues Opcode.print count ⟨frame.stack, frame.store, world⟩ with
    ⟨values, rest, taken, worked⟩ | ⟨cause, rest, taken, worked⟩
  · rw [step_of_ask world found (by
      simp only [Instruction.act, Instruction.opcode, taken, bind, Except.bind]
      rfl)]
    rw [Instruction.execute, onward_bind, Instruction.opcode, bind_of_ok worked]
    exact (outcome_asked finishes_pure frame rest world _).symm
  · have fails : (Instruction.print count).act machine.labels frame = .error cause := by
      simp only [Instruction.act, Instruction.opcode, taken, bind, Except.bind]
    rw [step_of_failure world found fails, Instruction.execute, onward_bind, Instruction.opcode,
      bind_of_error worked]
    rfl

theorem step_read {tag : TypeTag}
    (found : machine.program.instructions[frame.place]? = some (.read tag)) :
    machine.step frame world = outcome frame.place ((Instruction.read tag).execute
      machine.labels frame.place ⟨frame.stack, frame.store, world⟩) := by
  rw [step_of_ask world found rfl]
  simp only [Instruction.execute, onward, bind, EStateM.bind]
  cases performed : Host.perform .readLine world with
  | mk reply later =>
    cases reply with
    | error e => rw [ask_of_refusal performed]; rfl
    | ok text =>
      rw [ask_of_reply performed]
      cases parsed : Value.ofReply tag text with
      | ok value => simp only [Status.ofReply, parsed]; rfl
      | error cause => simp only [Status.ofReply, parsed]; rfl

theorem step_openFile
    (found : machine.program.instructions[frame.place]? = some .openFile) :
    machine.step frame world = outcome frame.place (Instruction.openFile.execute
      machine.labels frame.place ⟨frame.stack, frame.store, world⟩) := by
  rcases mirrors_popAs Opcode.fopen (.kind .string) Slot.string?
      ⟨frame.stack, frame.store, world⟩ with
    ⟨path, rest, taken, worked⟩ | ⟨cause, rest, taken, worked⟩
  · rw [step_of_ask world found (by
      simp only [Instruction.act, Instruction.opcode, Stack.popString, taken, bind, Except.bind]
      rfl)]
    rw [Instruction.execute, onward_bind, Instruction.opcode, bind_of_ok worked]
    exact (outcome_asked (finishes_push (.file path)) frame rest world _).symm
  · have fails : Instruction.openFile.act machine.labels frame = .error cause := by
      simp only [Instruction.act, Instruction.opcode, Stack.popString, taken, bind, Except.bind]
    rw [step_of_failure world found fails, Instruction.execute, onward_bind, Instruction.opcode,
      bind_of_error worked]
    rfl

theorem step_appendFile {count : Nat}
    (found : machine.program.instructions[frame.place]? = some (.appendFile count)) :
    machine.step frame world = outcome frame.place ((Instruction.appendFile count).execute
      machine.labels frame.place ⟨frame.stack, frame.store, world⟩) := by
  rcases mirrors_popValues Opcode.fappend count ⟨frame.stack, frame.store, world⟩ with
    ⟨values, below, takenValues, workedValues⟩ | ⟨cause, rest, taken, worked⟩
  · rw [Instruction.execute, onward_bind, Instruction.opcode, bind_of_ok workedValues, onward_bind]
    rcases mirrors_popAs Opcode.fappend (.kind .file) Slot.path? ⟨below, frame.store, world⟩ with
      ⟨path, rest, taken, worked⟩ | ⟨cause, rest, taken, worked⟩
    · rw [step_of_ask world found (by
        simp only [Instruction.act, Instruction.opcode, takenValues, Stack.popFile, taken,
          bind, Except.bind]
        rfl)]
      rw [bind_of_ok worked]
      exact (outcome_asked (finishes_push (.file path)) frame rest world _).symm
    · have fails : (Instruction.appendFile count).act machine.labels frame = .error cause := by
        simp only [Instruction.act, Instruction.opcode, takenValues, Stack.popFile, taken,
          bind, Except.bind]
      rw [step_of_failure world found fails, bind_of_error worked]
      rfl
  · have fails : (Instruction.appendFile count).act machine.labels frame = .error cause := by
      simp only [Instruction.act, Instruction.opcode, taken, bind, Except.bind]
    rw [step_of_failure world found fails, Instruction.execute, onward_bind, Instruction.opcode,
      bind_of_error worked]
    rfl

end Arms

/-- A step is the work of its instruction on what the frame and the world hold. -/
theorem step_eq_execute {i : Instruction} (world : World)
    (found : machine.program.instructions[frame.place]? = some i) :
    machine.step frame world = outcome frame.place
      (i.execute machine.labels frame.place ⟨frame.stack, frame.store, world⟩) := by
  cases i with
  | push value => exact step_of_atOnce world found rfl
  | pop =>
    rw [step_of_atOnce world found rfl]
    cases frame.stack <;> rfl
  | load name => exact step_load world found
  | save name =>
    rw [step_of_atOnce world found rfl]
    cases frame.stack <;> rfl
  | arithmetic operator tag =>
    cases tag with
    | int => exact step_of_combine world found rfl (mirrors_popAs _ _ _)
    | float => exact step_of_combine world found rfl (mirrors_popAs _ _ _)
  | modulo => exact step_of_combine world found rfl (mirrors_popAs _ _ _)
  | negate tag =>
    cases tag with
    | int => exact step_of_transform world found rfl (mirrors_popAs _ _ _)
    | float => exact step_of_transform world found rfl (mirrors_popAs _ _ _)
  | concat => exact step_of_combine world found rfl (mirrors_popAs _ _ _)
  | widen => exact step_of_transform world found rfl (mirrors_popAs _ _ _)
  | ordering operator tag =>
    cases tag with
    | int => exact step_of_combine world found rfl (mirrors_popAs _ _ _)
    | float => exact step_of_combine world found rfl (mirrors_popAs _ _ _)
  | equal tag =>
    cases tag with
    | int => exact step_of_combine world found rfl (mirrors_popAs _ _ _)
    | float => exact step_of_combine world found rfl (mirrors_popAs _ _ _)
    | string => exact step_of_combine world found rfl (mirrors_popAs _ _ _)
    | bool => exact step_of_combine world found rfl (mirrors_popAs _ _ _)
  | and => exact step_of_combine world found rfl (mirrors_popAs _ _ _)
  | or => exact step_of_combine world found rfl (mirrors_popAs _ _ _)
  | not => exact step_of_transform world found rfl (mirrors_popAs _ _ _)
  | label label => exact step_of_atOnce world found rfl
  | jump label =>
    rw [step_of_atOnce world found rfl]
    exact (outcome_goto frame frame.stack world machine.labels label).symm
  | jumpIfFalse label => exact step_jumpIfFalse world found
  | print count => exact step_print world found
  | read tag => exact step_read world found
  | openFile => exact step_openFile world found
  | appendFile count => exact step_appendFile world found

end Machine

end StackLang
