import StackLang.Proofs.InPlace
import StackLang.Sandbox
import StackLang.Files

/-!
# Steps that fail

A step that fails, and not because the host refused, has taken slots from the
stack and nothing else: the store is as it was, and so is the world, of which a
`read` may have taken a line. What an instruction does to the world it does with
all of its operands in hand, and after that only the host can stop it.
-/
namespace StackLang

/-- Whether the host is the cause. -/
def Cause.isSystem : Cause → Bool
  | .system _ => true
  | _ => false

def Fault.isSystem : Fault → Bool
  | .duplicateLabel _ _ _ => false
  | .atPlace _ cause => cause.isSystem

variable {World α β : Type}

/-- Slots have been taken, and nothing else has been done. -/
structure Holdings.Spares (held later : Holdings World) : Prop where
  stack : later.stack <:+ held.stack
  store : later.store = held.store
  world : later.world = held.world

namespace Holdings

theorem Spares.refl (held : Holdings World) : held.Spares held :=
  ⟨List.suffix_rfl, rfl, rfl⟩

theorem Spares.trans {held between later : Holdings World} (first : held.Spares between)
    (second : between.Spares later) : held.Spares later :=
  ⟨second.stack.trans first.stack, second.store.trans first.store, second.world.trans first.world⟩

end Holdings

namespace Work

variable {work : Work World α} {next : α → Work World β}

/-- The work may take slots, and it does nothing else, whether it succeeds or not. -/
structure Takes (work : Work World α) : Prop where
  ok : ∀ {held later a}, work held = .ok a later → held.Spares later
  error : ∀ {held later cause}, work held = .error cause later →
    cause.isSystem = false ∧ held.Spares later

/-- Only the host can stop the work. -/
def OnlyRefused (work : Work World α) : Prop :=
  ∀ held later cause, work held = .error cause later → cause.isSystem = true

/-- Where the work fails and the host did not refuse, slots have been taken and nothing else. -/
def FailsClean (work : Work World α) : Prop :=
  ∀ held later cause, work held = .error cause later → cause.isSystem = false →
    held.Spares later

/-- Two pieces of work fail where the first fails, or where the second does after the first. -/
theorem bind_eq_error {held later : Holdings World} {cause : Cause}
    (failed : (work >>= next) held = .error cause later) :
    work held = .error cause later ∨
      ∃ a between, work held = .ok a between ∧ next a between = .error cause later := by
  simp only [bind, EStateM.bind] at failed
  cases worked : work held with
  | error first between =>
    rw [worked] at failed
    cases failed
    exact .inl rfl
  | ok a between =>
    rw [worked] at failed
    exact .inr ⟨a, between, rfl, failed⟩

theorem bind_eq_ok {held later : Holdings World} {b : β}
    (done : (work >>= next) held = .ok b later) :
    ∃ a between, work held = .ok a between ∧ next a between = .ok b later := by
  simp only [bind, EStateM.bind] at done
  cases worked : work held with
  | error first between =>
    rw [worked] at done
    cases done
  | ok a between =>
    rw [worked] at done
    exact ⟨a, between, rfl, done⟩

section Composition

theorem Takes.bind (first : Takes work) (second : ∀ a, Takes (next a)) :
    Takes (work >>= next) := by
  constructor
  · intro held later b done
    obtain ⟨a, between, worked, done⟩ := bind_eq_ok done
    exact (first.ok worked).trans ((second a).ok done)
  · intro held later cause failed
    rcases bind_eq_error failed with failed | ⟨a, between, worked, failed⟩
    · exact first.error failed
    · obtain ⟨own, spared⟩ := (second a).error failed
      exact ⟨own, (first.ok worked).trans spared⟩

theorem Takes.failsClean (takes : Takes work) : FailsClean work :=
  fun _ _ _ failed _ => (takes.error failed).2

theorem OnlyRefused.failsClean (sure : OnlyRefused work) : FailsClean work := by
  intro held later cause failed own
  rw [sure _ _ _ failed] at own
  cases own

theorem OnlyRefused.bind (first : OnlyRefused work) (second : ∀ a, OnlyRefused (next a)) :
    OnlyRefused (work >>= next) := by
  intro held later cause failed
  rcases bind_eq_error failed with failed | ⟨a, between, worked, failed⟩
  · exact first _ _ _ failed
  · exact second a _ _ _ failed

/-- Operands first: whatever is done with them fails clean if it does so by itself. -/
theorem Takes.bind_failsClean (first : Takes work) (second : ∀ a, FailsClean (next a)) :
    FailsClean (work >>= next) := by
  intro held later cause failed own
  rcases bind_eq_error failed with failed | ⟨a, between, worked, failed⟩
  · exact first.failsClean _ _ _ failed own
  · exact (first.ok worked).trans (second a _ _ _ failed own)

/-- Nothing that can fail comes behind an effect. -/
theorem FailsClean.bind_onlyRefused (first : FailsClean work)
    (second : ∀ a, OnlyRefused (next a)) : FailsClean (work >>= next) := by
  intro held later cause failed own
  rcases bind_eq_error failed with failed | ⟨a, between, worked, failed⟩
  · exact first _ _ _ failed own
  · rw [second a _ _ _ failed] at own
    cases own

end Composition

section Parts

theorem takes_pure (a : α) : Takes (pure a : Work World α) := by
  constructor
  · intro held later b done
    cases done
    exact .refl held
  · intro held later cause failed
    cases failed

theorem takes_throw {cause : Cause} (own : cause.isSystem = false) :
    Takes (throw cause : Work World α) := by
  constructor
  · intro held later b done
    cases done
  · intro held later other failed
    cases failed
    exact ⟨own, .refl held⟩

theorem takes_get : Takes (get : Work World (Holdings World)) := by
  constructor
  · intro held later b done
    cases done
    exact .refl held
  · intro held later cause failed
    cases failed

theorem takes_pop (opcode : Opcode) : Takes (pop opcode : Work World Slot) := by
  constructor
  · rintro ⟨_ | ⟨slot, rest⟩, store, world⟩ later taken done
    · cases done
    · cases done
      exact ⟨List.suffix_cons slot rest, rfl, rfl⟩
  · rintro ⟨_ | ⟨slot, rest⟩, store, world⟩ later cause failed
    · cases failed
      exact ⟨rfl, .refl _⟩
    · cases failed

theorem takes_popAs (opcode : Opcode) (expected : Expected) (read : Slot → Option α) :
    Takes (popAs opcode expected read : Work World α) := by
  refine (takes_pop opcode).bind fun slot => ?_
  cases read slot with
  | some operand => exact takes_pure operand
  | none => exact takes_throw rfl

theorem takes_popEach (opcode : Opcode) (count : Nat) :
    Takes (popEach opcode count : Work World (List Value)) := by
  induction count with
  | zero => exact takes_pure []
  | succ count ih =>
    exact (takes_popAs opcode _ _).bind fun value => ih.bind fun _ => takes_pure _

theorem takes_popValues (opcode : Opcode) (count : Nat) :
    Takes (popValues opcode count : Work World (List Value)) :=
  (takes_popEach opcode count).bind fun _ => takes_pure _

theorem takes_goto (labels : LabelTable) (label : Label) :
    Takes (goto labels label : Work World Nat) := by
  rw [goto]
  cases labels.entry? label with
  | some place => exact takes_pure place
  | none => exact takes_throw rfl

theorem onlyRefused_pure (a : α) : OnlyRefused (pure a : Work World α) := by
  intro held later cause failed
  cases failed

theorem onlyRefused_push (slot : Slot) : OnlyRefused (push slot : Work World Unit) := by
  intro held later cause failed
  cases failed

theorem onlyRefused_save (name : String) (slot : Slot) :
    OnlyRefused (save name slot : Work World Unit) := by
  intro held later cause failed
  cases failed

theorem onlyRefused_ask [Host World] (request : Request) :
    OnlyRefused (ask request : Work World String) := by
  intro held later cause failed
  cases performed : Host.perform request held.world with
  | mk reply world =>
    cases reply with
    | ok text =>
      rw [ask_of_reply performed] at failed
      cases failed
    | error e =>
      rw [ask_of_refusal performed] at failed
      cases failed
      rfl

theorem failsClean_load (name : String) : FailsClean (load name : Work World Unit) := by
  refine takes_get.bind_failsClean fun held => ?_
  cases held.store.get? name with
  | some slot => exact (onlyRefused_push slot).failsClean
  | none => exact (takes_throw rfl).failsClean

/-- A computation that fails does so before its result is put on the stack. -/
theorem failsClean_give {computed : Except Cause Value}
    (own : ∀ cause, computed = .error cause → cause.isSystem = false) :
    FailsClean (give computed : Work World Unit) := by
  rw [give]
  cases computed with
  | ok value => exact (takes_pure value).bind_failsClean fun _ => (onlyRefused_push _).failsClean
  | error cause =>
    exact (takes_throw (own cause rfl)).bind_failsClean fun _ => (onlyRefused_push _).failsClean

theorem failsClean_combine {opcode : Opcode} {expected : Expected} {read : Slot → Option α}
    {compute : α → α → Except Cause Value}
    (own : ∀ lhs rhs cause, compute lhs rhs = .error cause → cause.isSystem = false) :
    FailsClean (combine opcode expected read compute : Work World Unit) :=
  (takes_popAs opcode expected read).bind_failsClean fun rhs =>
    (takes_popAs opcode expected read).bind_failsClean fun lhs =>
      failsClean_give (own lhs rhs)

theorem failsClean_transform (opcode : Opcode) (expected : Expected) (read : Slot → Option α)
    (compute : α → Value) :
    FailsClean (transform opcode expected read compute : Work World Unit) := by
  refine (takes_popAs opcode expected read).bind_failsClean fun operand => ?_
  exact failsClean_give fun cause failed => by cases failed

theorem failsClean_onward {place : Nat} {work : Work World Unit} (clean : FailsClean work) :
    FailsClean (onward place work) :=
  clean.bind_onlyRefused fun _ => onlyRefused_pure _

end Parts

end Work

namespace Instruction

open Work

/-- A computation that always has a value. -/
theorem failsClean_sure {opcode : Opcode} {expected : Expected} {read : Slot → Option α}
    {compute : α → α → Value} (place : Nat) :
    FailsClean (onward place (combine opcode expected read fun lhs rhs =>
      .ok (compute lhs rhs)) : Work World Nat) :=
  failsClean_onward (failsClean_combine fun _ _ _ failed => by cases failed)

variable [Host World]

/-- No instruction but `read` does more than take slots before it fails by itself. -/
theorem execute_failsClean (labels : LabelTable) (place : Nat) {i : Instruction}
    (notRead : ∀ tag, i ≠ .read tag) : FailsClean (i.execute labels place : Work World Nat) := by
  cases i with
  | push value => exact failsClean_onward (onlyRefused_push _).failsClean
  | pop =>
    exact failsClean_onward ((takes_pop _).bind fun _ => takes_pure _).failsClean
  | load name => exact failsClean_onward (failsClean_load name)
  | save name =>
    exact failsClean_onward ((takes_pop _).bind_failsClean fun slot =>
      (onlyRefused_save name slot).failsClean)
  | arithmetic operator tag =>
    cases tag with
    | int =>
      refine failsClean_onward (failsClean_combine fun lhs rhs cause failed => ?_)
      rw [(onInts_eq_error failed).2]
      rfl
    | float => exact failsClean_sure place
  | modulo =>
    refine failsClean_onward (failsClean_combine fun lhs rhs cause failed => ?_)
    rw [remainder_eq_error failed]
    rfl
  | negate tag =>
    cases tag with
    | int => exact failsClean_onward (failsClean_transform _ _ _ _)
    | float => exact failsClean_onward (failsClean_transform _ _ _ _)
  | concat => exact failsClean_sure place
  | widen => exact failsClean_onward (failsClean_transform _ _ _ _)
  | ordering operator tag =>
    cases tag with
    | int => exact failsClean_sure place
    | float => exact failsClean_sure place
  | equal tag =>
    cases tag with
    | int => exact failsClean_sure place
    | float => exact failsClean_sure place
    | string => exact failsClean_sure place
    | bool => exact failsClean_sure place
  | and => exact failsClean_sure place
  | or => exact failsClean_sure place
  | not => exact failsClean_onward (failsClean_transform _ _ _ _)
  | label label => exact failsClean_onward (onlyRefused_pure _).failsClean
  | jump label => exact (takes_goto labels label).failsClean
  | jumpIfFalse label =>
    refine (takes_popAs _ _ _).bind_failsClean fun condition => ?_
    cases condition with
    | true => exact (takes_pure _).failsClean
    | false => exact (takes_goto labels label).failsClean
  | print count =>
    exact failsClean_onward ((takes_popValues _ count).bind_failsClean fun values =>
      ((onlyRefused_ask _).bind fun _ => onlyRefused_pure _).failsClean)
  | read tag => exact absurd rfl (notRead tag)
  | openFile =>
    exact failsClean_onward ((takes_popAs _ _ _).bind_failsClean fun path =>
      ((onlyRefused_ask _).bind fun _ => onlyRefused_push _).failsClean)
  | appendFile count =>
    exact failsClean_onward ((takes_popValues _ count).bind_failsClean fun values =>
      (takes_popAs _ _ _).bind_failsClean fun path =>
        ((onlyRefused_ask _).bind fun _ => onlyRefused_push _).failsClean)

/-- What is held after a failure that is not the host's: of the world, a `read` may have used up
a line. -/
structure Leaves (i : Instruction) (held later : Holdings World) : Prop where
  stack : later.stack <:+ held.stack
  store : later.store = held.store
  world : later.world = held.world ∨
    ∃ tag, i = .read tag ∧ later.world = (Host.perform .readLine held.world).2

theorem isSystem_of_ofReply {tag : TypeTag} {line : String} {cause : Cause}
    (failed : Value.ofReply tag line = .error cause) : cause.isSystem = false := by
  rw [Value.ofReply] at failed
  split at failed
  · cases failed
    rfl
  · obtain ⟨_, text, rfl⟩ := ofLine_eq_error failed
    rfl

/-- A `read` that fails by itself has used up the line it could not read, or met the end. -/
theorem leaves_of_read {labels : LabelTable} {place : Nat} {tag : TypeTag}
    {held later : Holdings World} {cause : Cause}
    (failed : (read tag).execute labels place held = .error cause later)
    (own : cause.isSystem = false) : (read tag).Leaves held later := by
  rcases bind_eq_error failed with failed | ⟨_, between, _, failed⟩
  · rcases bind_eq_error failed with failed | ⟨line, between, asked, failed⟩
    · rw [onlyRefused_ask _ _ _ _ failed] at own
      cases own
    · have spared := failsClean_give (fun _ => isSystem_of_ofReply) _ _ _ failed own
      have taken : between = { held with world := (Host.perform .readLine held.world).2 } := by
        cases performed : Host.perform .readLine held.world with
        | mk reply world =>
          cases reply with
          | ok text =>
            rw [ask_of_reply performed] at asked
            cases asked
            rfl
          | error e =>
            rw [ask_of_refusal performed] at asked
            cases asked
      subst taken
      exact ⟨spared.stack, spared.store, .inr ⟨tag, rfl, spared.world⟩⟩
  · cases failed

/-- What a failing instruction leaves. -/
theorem leaves_of_execute {labels : LabelTable} {place : Nat} {i : Instruction}
    {held later : Holdings World} {cause : Cause}
    (failed : i.execute labels place held = .error cause later)
    (own : cause.isSystem = false) : i.Leaves held later := by
  by_cases reads : ∃ tag, i = .read tag
  · obtain ⟨tag, rfl⟩ := reads
    exact leaves_of_read failed own
  · have notRead : ∀ tag, i ≠ .read tag := fun tag same => reads ⟨tag, same⟩
    have spared := execute_failsClean labels place notRead _ _ _ failed own
    exact ⟨spared.stack, spared.store, .inl spared.world⟩

end Instruction

/-- The operands of an instruction that acts on the world lie on top of the stack: plain values,
the name of a file, or plain values and a file below them. -/
def Instruction.Supplied : Instruction → Stack → Prop
  | .print count, stack => ∃ (values : List Value) (rest : Stack), values.length = count ∧
      stack = values.map Slot.value ++ rest
  | .openFile, stack => ∃ name rest, stack = .value (.string name) :: rest
  | .appendFile count, stack => ∃ (values : List Value) (path : String) (rest : Stack),
      values.length = count ∧ stack = values.map Slot.value ++ .file path :: rest
  | _, _ => True

namespace Instruction

open Work

theorem eq_of_popValues {opcode : Opcode} {count : Nat} {stack rest : Stack} {values : List Value}
    (taken : Stack.popValues opcode count stack = .ok (values, rest)) :
    values.reverse.length = count ∧ stack = values.reverse.map Slot.value ++ rest := by
  rcases popValues_cases opcode count stack with
    ⟨values', rest', popped, length, split⟩ | ⟨_, popped⟩ | ⟨_, _, popped⟩
  · rw [taken] at popped
    cases popped
    exact ⟨by rw [List.length_reverse, length], split⟩
  · rw [taken] at popped
    cases popped
  · rw [taken] at popped
    cases popped

theorem eq_of_popString {opcode : Opcode} {stack rest : Stack} {name : String}
    (taken : Stack.popString opcode stack = .ok (name, rest)) :
    stack = .value (.string name) :: rest := by
  rcases stack with _ | ⟨⟨n | x | b | s⟩ | path, below⟩
  all_goals cases taken
  rfl

theorem eq_of_popFile {opcode : Opcode} {stack rest : Stack} {path : String}
    (taken : Stack.popFile opcode stack = .ok (path, rest)) : stack = .file path :: rest := by
  rcases stack with _ | ⟨⟨n | x | b | s⟩ | path, below⟩
  all_goals cases taken
  rfl

variable [Host World]

/-- Without its operands an instruction fails, and nothing has been asked of the host. -/
theorem fails_of_not_supplied (labels : LabelTable) (place : Nat) {i : Instruction}
    {held : Holdings World} (lacks : ¬ i.Supplied held.stack) :
    ∃ cause later, i.execute labels place held = .error cause later ∧
      cause.isSystem = false ∧ held.Spares later := by
  cases i with
  | print count =>
    rcases mirrors_popValues Opcode.print count held with
      ⟨values, rest, taken, _⟩ | ⟨cause, rest, _, worked⟩
    · obtain ⟨length, split⟩ := eq_of_popValues taken
      exact absurd ⟨_, rest, length, split⟩ lacks
    · exact ⟨cause, _, bind_of_error (bind_of_error worked), (takes_popValues _ _).error worked⟩
  | openFile =>
    rcases mirrors_popAs Opcode.fopen (.kind .string) Slot.string? held with
      ⟨name, rest, taken, _⟩ | ⟨cause, rest, _, worked⟩
    · exact absurd ⟨name, rest, eq_of_popString taken⟩ lacks
    · exact ⟨cause, _, bind_of_error (bind_of_error worked), (takes_popAs _ _ _).error worked⟩
  | appendFile count =>
    rcases mirrors_popValues Opcode.fappend count held with
      ⟨values, below, taken, workedValues⟩ | ⟨cause, rest, _, worked⟩
    · obtain ⟨length, split⟩ := eq_of_popValues taken
      rcases mirrors_popAs Opcode.fappend (.kind .file) Slot.path? { held with stack := below } with
        ⟨path, rest, taken, _⟩ | ⟨cause, rest, _, worked⟩
      · have file : below = .file path :: rest := eq_of_popFile taken
        exact absurd ⟨_, path, rest, length, file ▸ split⟩ lacks
      · obtain ⟨own, spared⟩ := (takes_popAs _ _ _).error worked
        refine ⟨cause, _, bind_of_error ?_, own,
          ((takes_popValues _ _).ok workedValues).trans spared⟩
        exact (bind_of_ok workedValues).trans (bind_of_error worked)
    · exact ⟨cause, _, bind_of_error (bind_of_error worked), (takes_popValues _ _).error worked⟩
  | _ => exact (lacks trivial).elim

end Instruction

namespace Program

theorem program_of_load {program : Program} {machine : Machine}
    (loaded : Machine.load program = .ok machine) : machine.program = program := by
  rw [Machine.load] at loaded
  cases resolved : program.resolve with
  | error e =>
    rw [resolved] at loaded
    cases loaded
  | ok labels =>
    rw [resolved] at loaded
    cases loaded
    rfl

variable [Host World]

/-- A run of a program that fails by itself has come to an instruction, and what that instruction
left is what is left of the run. -/
theorem leaves_of_fails {program : Program} {world later : World} {fault : Fault}
    (failed : program.Fails world fault later) (own : fault.isSystem = false) :
    (Machine.load program = .error fault ∧ later = world) ∨
      ∃ machine n frame between i cause, ∃ left : Holdings World,
        Machine.load program = .ok machine ∧
        machine.run n .start world = (.running frame, between) ∧
        program.instructions[frame.place]? = some i ∧
        fault = .atPlace frame.place cause ∧
        i.execute machine.labels frame.place ⟨frame.stack, frame.store, between⟩ =
          .error cause left ∧
        left.world = later ∧ i.Leaves ⟨frame.stack, frame.store, between⟩ left := by
  rcases failed with refused | ⟨machine, n, loaded, ended⟩
  · exact .inl refused
  · obtain ⟨m, frame, between, going, stepped⟩ :=
      Machine.last_step ended (Status.failed_ne_running _)
    have same := program_of_load loaded
    obtain ⟨cause, rfl, ends⟩ := Machine.ends_of_step stepped
    cases ends with
    | flush error left => cases own
    | instruction i found explained =>
      rw [Machine.step_eq_execute between found] at stepped
      cases worked : i.execute machine.labels frame.place ⟨frame.stack, frame.store, between⟩ with
      | ok next held =>
        rw [worked] at stepped
        cases stepped
      | error cause left =>
        rw [worked] at stepped
        cases stepped
        exact .inr ⟨machine, m, frame, between, i, cause, left, loaded, going, same ▸ found, rfl,
          worked, rfl, Instruction.leaves_of_execute worked own⟩

end Program

/--
A step is the work of its instruction. A failure of that work that is not the host's leaves the
store as it was and the world too, but for the line a `read` has used up; an instruction that acts
on the world has asked nothing of it while an operand is missing or of another kind. So a run that
fails by itself leaves the world as the steps before the failing one did: whatever of it no
reading changes, such as what was printed and the files, is what they made it.
-/
theorem Machine.failing_step_leaves [Host World] :
    (∀ (machine : Machine) (frame : Frame) (world : World) (i : Instruction),
      machine.program.instructions[frame.place]? = some i →
      machine.step frame world = Work.outcome frame.place
        (i.execute machine.labels frame.place ⟨frame.stack, frame.store, world⟩)) ∧
    (∀ (labels : LabelTable) (place : Nat) (i : Instruction) (held : Holdings World),
      (∀ cause later, i.execute labels place held = .error cause later → cause.isSystem = false →
        i.Leaves held later) ∧
      (¬ i.Supplied held.stack → ∃ cause later, i.execute labels place held = .error cause later ∧
        cause.isSystem = false ∧ held.Spares later)) ∧
    ∀ (program : Program) (world later : World) (fault : Fault),
      program.Fails world fault later → fault.isSystem = false →
      (Machine.load program = .error fault ∧ later = world) ∨
        ∃ machine n frame between i cause, ∃ left : Holdings World,
          Machine.load program = .ok machine ∧
          machine.run n .start world = (.running frame, between) ∧
          program.instructions[frame.place]? = some i ∧
          fault = .atPlace frame.place cause ∧
          i.execute machine.labels frame.place ⟨frame.stack, frame.store, between⟩ =
            .error cause left ∧
          left.world = later ∧ i.Leaves ⟨frame.stack, frame.store, between⟩ left ∧
          ∀ {View : Type} (view : World → View),
            (∀ world, view (Host.perform .readLine world).2 = view world) →
            view later = view between := by
  refine ⟨fun machine frame world i found => step_eq_execute world found,
    fun labels place i held => ⟨fun cause later failed own =>
      Instruction.leaves_of_execute failed own, Instruction.fails_of_not_supplied labels place⟩,
    fun program world later fault failed own => ?_⟩
  rcases Program.leaves_of_fails failed own with
    refused | ⟨machine, n, frame, between, i, cause, left, loaded, going, found, same, worked, rfl,
      leaves⟩
  · exact .inl refused
  · refine .inr ⟨machine, n, frame, between, i, cause, left, loaded, going, found, same, worked,
      rfl, leaves, fun view unread => ?_⟩
    rcases leaves.world with kept | ⟨tag, rfl, read⟩
    · rw [kept]
    · rw [read]
      exact unread between

/-- A text is printed, and then a file is to be named by an int. -/
theorem Machine.failing_step_leaves_unnamed_file :
    let program : Program := .ofList [.push (.string "a"), .print 1, .push (.int 1), .openFile]
    let world : Sandbox DirectoryTree := ⟨[], .unlimited, .scratch⟩
    let cause : Cause := .typeMismatch .fopen (.kind .string) .int
    cause.isSystem = false ∧
      (∀ labels, ∃ cause later, Instruction.openFile.execute labels 3
          ⟨[.value (.int 1)], .empty, world⟩ = .error cause later ∧
        cause.isSystem = false ∧ Holdings.Spares ⟨[.value (.int 1)], .empty, world⟩ later) ∧
      ∃ later, program.Fails world (.atPlace 3 cause) later ∧
        ∃ machine n frame between, Machine.load program = .ok machine ∧
          machine.run n .start world = (.running frame, between) ∧ frame.place = 3 ∧
          later.output = between.output ∧ later.files = between.files ∧
          later.output.written = #[97, 10] := by
  intro program world cause
  have lacks : ¬ Instruction.openFile.Supplied [.value (.int 1)] := by
    rintro ⟨name, rest, supplied⟩
    cases supplied
  refine ⟨rfl, fun labels => (failing_step_leaves.2.1 labels 3 .openFile _).2 lacks, ?_⟩
  obtain ⟨machine, later, loaded, ended, written⟩ : ∃ machine later,
      Machine.load program = .ok machine ∧
      machine.run 4 .start world = (.failed (.atPlace 3 cause), later) ∧
      later.output.written = #[97, 10] := ⟨_, _, rfl, rfl, rfl⟩
  have failed : program.Fails world (.atPlace 3 cause) later := .inr ⟨machine, 4, loaded, ended⟩
  rcases failing_step_leaves.2.2 program world later _ failed rfl with
    ⟨refused, _⟩ | ⟨machine, n, frame, between, i, _, left, loaded, going, _, same, _, _, _, seen⟩
  · rw [loaded] at refused
    cases refused
  · have kept := seen (fun sandbox => (sandbox.output, sandbox.files)) fun _ => rfl
    have placed : frame.place = 3 := (Fault.atPlace.inj same).1.symm
    exact ⟨later, failed, machine, n, frame, between, loaded, going, placed,
      congrArg Prod.fst kept, congrArg Prod.snd kept, written⟩

end StackLang
