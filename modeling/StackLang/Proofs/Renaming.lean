import Mathlib.Logic.Equiv.Basic
import StackLang.Files
import StackLang.Proofs.ControlFlow
import StackLang.Proofs.Runs
import StackLang.Sandbox

/-!
# Other names and labels

Names and labels are only ever compared with each other. A program whose names
and labels are replaced, different ones by different ones, is verified and run
like the program itself, step by step: the places, the stacks and the world are
the same, and what is renamed is the store and the names and labels in errors.
Only the names and labels that the program uses matter; others may collide.
-/
namespace StackLang

namespace Program

def UsesLabel (program : Program) (label : Label) : Prop :=
  .label label ∈ program.toList ∨ .jump label ∈ program.toList ∨ .jumpIfFalse label ∈ program.toList

def UsesName (program : Program) (name : String) : Prop :=
  .load name ∈ program.toList ∨ .save name ∈ program.toList

end Program

/-- New labels and names, different ones for different ones that the program uses. -/
structure Renaming (program : Program) where
  label : Label → Label
  name : String → String
  label_injective : ∀ first second, program.UsesLabel first → program.UsesLabel second →
    label first = label second → first = second
  name_injective : ∀ first second, program.UsesName first → program.UsesName second →
    name first = name second → first = second

/-- Two labels change places, and so do two names; all others are kept. -/
def Renaming.exchange (program : Program) (label other : Label) (name another : String) :
    Renaming program where
  label := Equiv.swap label other
  name := Equiv.swap name another
  label_injective := fun _ _ _ _ same => (Equiv.swap label other).injective same
  name_injective := fun _ _ _ _ same => (Equiv.swap name another).injective same

variable {program : Program} (r : Renaming program)

def Instruction.rename : Instruction → Instruction
  | .load name => .load (r.name name)
  | .save name => .save (r.name name)
  | .label l => .label (r.label l)
  | .jump l => .jump (r.label l)
  | .jumpIfFalse l => .jumpIfFalse (r.label l)
  | i => i

def Program.rename (program : Program) (r : Renaming program) : Program :=
  ⟨program.instructions.map (·.rename r)⟩

def LabelError.rename : LabelError → LabelError
  | .duplicate label first second => .duplicate (r.label label) first second
  | .undefined place label => .undefined place (r.label label)

def VerifyError.rename : VerifyError → VerifyError
  | .label error => .label (error.rename r)
  | error => error

def Cause.rename : Cause → Cause
  | .undefinedLabel label => .undefinedLabel (r.label label)
  | .uninitializedVariable name => .uninitializedVariable (r.name name)
  | cause => cause

def Fault.rename : Fault → Fault
  | .duplicateLabel label first second => .duplicateLabel (r.label label) first second
  | .atPlace place cause => .atPlace place (cause.rename r)

def Store.rename (store : Store) : Store :=
  ⟨store.bindings.map fun binding => (r.name binding.1, binding.2)⟩

/-- The place and the stack are the same. -/
def Frame.rename (frame : Frame) : Frame :=
  { frame with store := frame.store.rename r }

def Status.rename : Status → Status
  | .running frame => .running (frame.rename r)
  | .finished store => .finished (store.rename r)
  | .failed fault => .failed (fault.rename r)

/-- Two outcomes go together: related results, or an error and what it is renamed to. -/
inductive Corresponds {ε α β : Type} (rename : ε → ε) (related : α → β → Prop) :
    Except ε α → Except ε β → Prop
  | ok {a : α} {b : β} (alike : related a b) : Corresponds rename related (.ok a) (.ok b)
  | error (e : ε) : Corresponds rename related (.error e) (.error (rename e))

section Instructions

variable (i : Instruction)

theorem Instruction.pops_rename : (i.rename r).pops = i.pops := by
  cases i <;> rfl

theorem Instruction.pushes_rename : (i.rename r).pushes = i.pushes := by
  cases i <;> rfl

theorem Instruction.definedLabel?_rename :
    (i.rename r).definedLabel? = i.definedLabel?.map r.label := by
  cases i <;> rfl

theorem Instruction.target?_rename : (i.rename r).target? = i.target?.map r.label := by
  cases i <;> rfl

variable {i}

theorem Program.usesLabel_of_definedLabel? {label : Label} (member : i ∈ program.toList)
    (defines : i.definedLabel? = some label) : program.UsesLabel label := by
  rw [definedLabel?_eq_some] at defines
  exact .inl (defines ▸ member)

theorem Program.usesLabel_of_target? {label : Label} (member : i ∈ program.toList)
    (jumps : i.target? = some label) : program.UsesLabel label := by
  cases i with
  | jump target =>
    cases jumps
    exact .inr (.inl member)
  | jumpIfFalse target =>
    cases jumps
    exact .inr (.inr member)
  | _ => cases jumps

end Instructions

theorem Program.toList_rename : (program.rename r).toList = program.toList.map (·.rename r) :=
  Array.toList_map

theorem Program.getElem?_rename (place : Nat) :
    (program.rename r).instructions[place]? =
      (program.instructions[place]?).map (·.rename r) :=
  Array.getElem?_map

theorem Program.size_rename :
    (program.rename r).instructions.size = program.instructions.size :=
  Array.size_map

namespace LabelTable

/-- A table binds the new labels where another one binds the labels themselves. -/
def Renames (labels renamed : LabelTable) : Prop :=
  ∀ label, program.UsesLabel label → renamed.place? (r.label label) = labels.place? label

variable {r} {labels renamed : LabelTable}

theorem renames_empty : Renames r empty empty := by
  intro label _
  simp [place?, empty]

theorem Renames.insert (renames : Renames r labels renamed) {label : Label}
    (uses : program.UsesLabel label) (place : Nat) :
    Renames r (labels.insert label place) (renamed.insert (r.label label) place) := by
  intro other used
  rw [place?_insert, place?_insert, renames other used]
  by_cases same : label = other
  · rw [if_pos same, if_pos (congrArg r.label same)]
  · rw [if_neg same, if_neg fun equal => same (r.label_injective label other uses used equal)]

theorem Renames.entry? (renames : Renames r labels renamed) {label : Label}
    (uses : program.UsesLabel label) : renamed.entry? (r.label label) = labels.entry? label := by
  rw [LabelTable.entry?, LabelTable.entry?, renames label uses]

/-- Collecting goes on alike, as long as all labels of the code are those of the program. -/
theorem collect_rename (renames : Renames r labels renamed) (place : Nat)
    {code : List Instruction} (inside : ∀ i ∈ code, i ∈ program.toList) :
    Corresponds (LabelError.rename r) (Renames r) (labels.collect place code)
      (renamed.collect place (code.map (·.rename r))) := by
  induction code generalizing labels renamed place with
  | nil => exact .ok renames
  | cons i rest ih =>
    obtain ⟨member, others⟩ := List.forall_mem_cons.mp inside
    rw [List.map_cons, collect, collect, Instruction.definedLabel?_rename]
    cases defines : i.definedLabel? with
    | none => exact ih renames _ others
    | some label =>
      have uses := Program.usesLabel_of_definedLabel? member defines
      dsimp only [Option.map_some]
      rw [renames label uses]
      cases labels.place? label with
      | some first => exact .error (LabelError.duplicate label first place)
      | none => exact ih (renames.insert uses place) _ others

theorem undefinedJump?_rename (renames : Renames r labels renamed) {place : Nat}
    {code : List Instruction} (inside : ∀ i ∈ code, i ∈ program.toList) :
    renamed.undefinedJump? place (code.map (·.rename r)) =
      (labels.undefinedJump? place code).map fun jump => (jump.1, r.label jump.2) := by
  induction code generalizing place with
  | nil => rfl
  | cons i rest ih =>
    obtain ⟨member, others⟩ := List.forall_mem_cons.mp inside
    rw [List.map_cons, undefinedJump?, undefinedJump?, Instruction.target?_rename]
    cases jumps : i.target? with
    | none => exact ih others
    | some label =>
      have uses := Program.usesLabel_of_target? member jumps
      rw [Option.map_some, Option.filter_some, Option.filter_some, renames label uses]
      cases labels.place? label with
      | none => rfl
      | some known => exact ih others

end LabelTable

/-- Labels resolve alike. -/
theorem Program.resolve_rename :
    Corresponds (LabelError.rename r) (LabelTable.Renames r) program.resolve
      (program.rename r).resolve := by
  have inside : ∀ i ∈ program.toList, i ∈ program.toList := fun _ member => member
  have collected := LabelTable.collect_rename (LabelTable.renames_empty (r := r)) 0 inside
  rw [resolve, resolve, labels, labels, toList_rename]
  generalize LabelTable.empty.collect 0 program.toList = result at collected ⊢
  generalize LabelTable.empty.collect 0 (program.toList.map _) = other at collected ⊢
  cases collected with
  | error e => exact .error e
  | @ok labels renamed renames =>
    dsimp only
    rw [LabelTable.undefinedJump?_rename renames inside]
    cases labels.undefinedJump? 0 program.toList with
    | none => exact .ok renames
    | some jump => exact .error (LabelError.undefined jump.1 jump.2)

/-! ## Verifying -/

/-- Two reports say the same, of programs of one length. -/
structure StackReport.Same {size length : Nat} (report : StackReport size)
    (other : StackReport length) : Prop where
  depths : other.depths.toArray = report.depths.toArray
  deepest : other.deepest = report.deepest

/-- Two walks know the same and wait for the same. -/
structure Walk.Same {size length : Nat} (walk : Walk size) (other : Walk length) : Prop extends
    StackReport.Same walk.toStackReport other.toStackReport where
  waiting : other.waiting = walk.waiting

namespace Walk

variable {r} {labels renamed : LabelTable}

theorem successors_rename (renames : LabelTable.Renames r labels renamed) (place : Nat)
    {i : Instruction} (member : i ∈ program.toList) :
    successors renamed place (i.rename r) = successors labels place i := by
  cases i with
  | jump label =>
    simp only [Instruction.rename, successors, renames.entry? (.inr (.inl member))]
  | jumpIfFalse label =>
    simp only [Instruction.rename, successors, renames.entry? (.inr (.inr member))]
  | _ => rfl

theorem visit_rename (renames : LabelTable.Renames r labels renamed)
    {known : StackReport program.instructions.size}
    {other : StackReport (program.rename r).instructions.size} (same : known.Same other)
    (place depth : Nat) (waiting : List (Nat × Nat)) :
    Corresponds (VerifyError.rename r) Walk.Same (visit program labels known place depth waiting)
      (visit (program.rename r) renamed other place depth waiting) := by
  have size := Program.size_rename r
  rw [visit, visit]
  by_cases inside : place < program.instructions.size
  · have within : place < (program.rename r).instructions.size := size ▸ inside
    have recorded : other.depths[place] = known.depths[place] := by
      have alike : other.depths.toArray[place]? = known.depths.toArray[place]? := by
        rw [same.depths]
      simpa [inside, within] using alike
    have there : (program.rename r).instructions[place] =
        (program.instructions[place]).rename r := Array.getElem_map ..
    have member : program.instructions[place] ∈ program.toList :=
      Array.getElem_mem_toList inside
    rw [dif_pos inside, dif_pos within, recorded]
    cases known.depths[place] with
    | some first =>
      dsimp only
      by_cases agrees : first = depth
      · rw [if_pos agrees, if_pos agrees]
        exact .ok ⟨same, rfl⟩
      · rw [if_neg agrees, if_neg agrees]
        exact .error (VerifyError.depthMismatch place first depth)
    | none =>
      dsimp only
      rw [there, Instruction.pops_rename, Instruction.pushes_rename,
        successors_rename renames place member]
      by_cases short : depth < program.instructions[place].pops
      · rw [if_pos short, if_pos short]
        exact .error (VerifyError.stackUnderflow place _ depth)
      · rw [if_neg short, if_neg short]
        refine .ok ⟨⟨?_, ?_⟩, rfl⟩
        · simp only [Vector.toArray_set, same.depths]
        · simp only [same.deepest]
  · have without : ¬ place < (program.rename r).instructions.size := size ▸ inside
    rw [dif_neg inside, dif_neg without]
    by_cases empty : depth = 0
    · rw [if_pos empty, if_pos empty]
      exact .ok ⟨same, rfl⟩
    · rw [if_neg empty, if_neg empty]
      exact .error (VerifyError.unbalancedExit depth)

theorem finish_rename (renames : LabelTable.Renames r labels renamed)
    {walk : Walk program.instructions.size} {other : Walk (program.rename r).instructions.size}
    (same : walk.Same other) :
    Corresponds (VerifyError.rename r) StackReport.Same (finish program labels walk)
      (finish (program.rename r) renamed other) := by
  obtain ⟨reached, waits⟩ := other
  obtain ⟨alike, waiting⟩ := same
  cases waiting
  fun_induction finish program labels walk generalizing reached with
  | case1 known =>
    rw [finish]
    exact .ok alike
  | case2 known place depth waiting error visited =>
    have visits := visit_rename renames alike place depth waiting
    rw [visited] at visits
    rw [finish]
    split
    next failed =>
      rw [failed] at visits
      cases visits
      exact .error error
    next went =>
      rw [went] at visits
      cases visits
  | case3 known place depth waiting later visited _ ih =>
    have visits := visit_rename renames alike place depth waiting
    rw [visited] at visits
    rw [finish]
    split
    next failed =>
      rw [failed] at visits
      cases visits
    next next went =>
      rw [went] at visits
      cases visits with
      | ok alike =>
        obtain ⟨found, waits⟩ := next
        obtain ⟨alike, waiting⟩ := alike
        cases waiting
        exact ih found alike

end Walk

/-- The verifier says the same of both programs. -/
theorem Program.verify_rename :
    Corresponds (VerifyError.rename r) StackReport.Same program.verify
      (program.rename r).verify := by
  have resolved := program.resolve_rename r
  rw [verify, verify]
  generalize program.resolve = result at resolved ⊢
  generalize (program.rename r).resolve = other at resolved ⊢
  cases resolved with
  | error e => exact .error (VerifyError.label e)
  | ok renames =>
    refine Walk.finish_rename renames ⟨⟨?_, rfl⟩, rfl⟩
    simp only [Walk.start, Vector.toArray_replicate, Program.size_rename]

/-! ## Running -/

namespace Store

variable {r}

/-- Every bound name is one that the program uses. -/
def IsWithin (store : Store) (program : Program) : Prop :=
  ∀ binding ∈ store.bindings, program.UsesName binding.1

variable {store : Store} {name : String}

theorem isWithin_set (within : store.IsWithin program) (uses : program.UsesName name)
    (slot : Slot) : (store.set name slot).IsWithin program := by
  intro binding member
  rcases List.mem_cons.mp member with rfl | kept
  · exact uses
  · exact within binding (List.mem_filter.mp kept).1

theorem get?_rename (within : store.IsWithin program) (uses : program.UsesName name) :
    (store.rename r).get? (r.name name) = store.get? name := by
  obtain ⟨bindings⟩ := store
  rw [rename, get?, get?]
  induction bindings with
  | nil => rfl
  | cons binding rest ih =>
    obtain ⟨used, others⟩ := List.forall_mem_cons.mp within
    have compared : (r.name name == r.name binding.1) = (name == binding.1) := by
      rw [Bool.eq_iff_iff, beq_iff_eq, beq_iff_eq]
      exact ⟨r.name_injective name binding.1 uses used, congrArg r.name⟩
    rw [List.map_cons, List.lookup_cons, List.lookup_cons, compared, ih others]

theorem set_rename (within : store.IsWithin program) (uses : program.UsesName name)
    (slot : Slot) :
    (store.rename r).set (r.name name) slot = (store.set name slot).rename r := by
  simp only [rename, set, List.map_cons, List.filter_map, Store.mk.injEq, List.cons.injEq,
    true_and]
  refine congrArg _ (List.filter_congr fun binding member => ?_)
  have used := within binding member
  simp only [Function.comp, decide_eq_decide, ne_eq]
  exact not_congr ⟨r.name_injective binding.1 name used uses, congrArg r.name⟩

end Store

/-- The outcome for a renamed instruction, given what becomes of a result. -/
def renamed {α : Type} (rename : α → α) : Except Cause α → Except Cause α
  | .ok result => .ok (rename result)
  | .error cause => .error (cause.rename r)

namespace Frame

variable {r} {frame : Frame}

theorem combine_rename {α : Type} {opcode : Opcode} {pop : Stack → Except Cause (α × Stack)}
    {compute : α → α → Except Cause Value} (takes : Stack.TakesOne opcode pop)
    (nameless : ∀ lhs rhs cause, compute lhs rhs = .error cause → cause.rename r = cause) :
    (frame.rename r).combine pop compute = renamed r (rename r) (frame.combine pop compute) := by
  obtain ⟨place, stack, store⟩ := frame
  simp only [combine, rename]
  cases stack with
  | nil =>
    rw [takes.empty]
    rfl
  | cons right below =>
    rcases takes.top right below with ⟨rhs, popped⟩ | ⟨expected, popped⟩
    · rw [popped]
      simp only [bind, Except.bind]
      cases below with
      | nil =>
        rw [takes.empty]
        rfl
      | cons left rest =>
        rcases takes.top left rest with ⟨lhs, popped⟩ | ⟨expected, popped⟩
        · rw [popped]
          dsimp only
          cases computed : compute lhs rhs with
          | error cause => exact congrArg Except.error (nameless lhs rhs cause computed).symm
          | ok value => rfl
        · rw [popped]
          rfl
    · rw [popped]
      rfl

theorem transform_rename {α : Type} {opcode : Opcode} {pop : Stack → Except Cause (α × Stack)}
    {compute : α → Value} (takes : Stack.TakesOne opcode pop) :
    (frame.rename r).transform pop compute =
      renamed r (rename r) (frame.transform pop compute) := by
  obtain ⟨place, stack, store⟩ := frame
  simp only [transform, rename]
  cases stack with
  | nil =>
    rw [takes.empty]
    rfl
  | cons slot rest =>
    rcases takes.top slot rest with ⟨operand, popped⟩ | ⟨expected, popped⟩
    · rw [popped]
      rfl
    · rw [popped]
      rfl

theorem goto_rename {labels other : LabelTable} (renames : LabelTable.Renames r labels other)
    {label : Label} (uses : program.UsesLabel label) (stack : Stack) :
    (frame.rename r).goto other (r.label label) stack =
      renamed r (rename r) (frame.goto labels label stack) := by
  rw [goto, goto, renames.entry? uses]
  cases labels.entry? label <;> rfl

end Frame

/-- The same request, and the same way on but for the names. -/
def Action.rename : Action → Action
  | .proceed frame => .proceed (frame.rename r)
  | .ask request resume => .ask request fun text => renamed r (Frame.rename r) (resume text)

theorem atOnce_renamed (result : Except Cause Frame) :
    atOnce (renamed r (Frame.rename r) result) = renamed r (Action.rename r) (atOnce result) := by
  cases result <;> rfl

namespace Instruction

variable {r} {labels other : LabelTable} {frame : Frame}

theorem act_combine_rename {α : Type} {i j : Instruction} {opcode : Opcode}
    {pop : Stack → Except Cause (α × Stack)} {compute : α → α → Except Cause Value}
    (acts : i.act labels frame = atOnce (frame.combine pop compute))
    (again : j.act other (frame.rename r) = atOnce ((frame.rename r).combine pop compute))
    (takes : Stack.TakesOne opcode pop)
    (nameless : ∀ lhs rhs cause, compute lhs rhs = .error cause → cause.rename r = cause) :
    j.act other (frame.rename r) = renamed r (Action.rename r) (i.act labels frame) := by
  rw [acts, again, Frame.combine_rename takes nameless, atOnce_renamed]

/-- The same for a combination that cannot fail. -/
theorem act_value_rename {α : Type} {i j : Instruction} {opcode : Opcode}
    {pop : Stack → Except Cause (α × Stack)} {value : α → α → Value}
    (acts : i.act labels frame = atOnce (frame.combine pop fun lhs rhs => .ok (value lhs rhs)))
    (again : j.act other (frame.rename r) =
      atOnce ((frame.rename r).combine pop fun lhs rhs => .ok (value lhs rhs)))
    (takes : Stack.TakesOne opcode pop) :
    j.act other (frame.rename r) = renamed r (Action.rename r) (i.act labels frame) := by
  refine act_combine_rename acts again takes fun lhs rhs cause failed => ?_
  cases failed

theorem act_transform_rename {α : Type} {i j : Instruction} {opcode : Opcode}
    {pop : Stack → Except Cause (α × Stack)} {compute : α → Value}
    (acts : i.act labels frame = atOnce (frame.transform pop compute))
    (again : j.act other (frame.rename r) = atOnce ((frame.rename r).transform pop compute))
    (takes : Stack.TakesOne opcode pop) :
    j.act other (frame.rename r) = renamed r (Action.rename r) (i.act labels frame) := by
  rw [acts, again, Frame.transform_rename takes, atOnce_renamed]

theorem act_save_rename {name : String} (within : frame.store.IsWithin program)
    (uses : program.UsesName name) :
    (save (r.name name)).act other (frame.rename r) =
      renamed r (Action.rename r) ((save name).act labels frame) := by
  obtain ⟨place, stack, store⟩ := frame
  cases stack with
  | nil => rfl
  | cons slot rest =>
    have written := Store.set_rename (r := r) within uses slot
    exact congrArg (fun store => Except.ok (Action.proceed ⟨place + 1, rest, store⟩)) written

theorem act_load_rename {name : String} (within : frame.store.IsWithin program)
    (uses : program.UsesName name) :
    (load (r.name name)).act other (frame.rename r) =
      renamed r (Action.rename r) ((load name).act labels frame) := by
  have held : (frame.rename r).store.get? (r.name name) = frame.store.get? name :=
    Store.get?_rename within uses
  simp only [act, held]
  cases frame.store.get? name <;> rfl

theorem act_jumpIfFalse_rename (renames : LabelTable.Renames r labels other) {l : Label}
    (uses : program.UsesLabel l) :
    (jumpIfFalse (r.label l)).act other (frame.rename r) =
      renamed r (Action.rename r) ((jumpIfFalse l).act labels frame) := by
  obtain ⟨place, stack, store⟩ := frame
  cases stack with
  | nil => rfl
  | cons slot rest =>
    rcases slot with ⟨n | x | b | s⟩ | path
    case value.bool =>
      cases b with
      | true => rfl
      | false =>
        refine Eq.trans ?_ (atOnce_renamed r _)
        exact congrArg atOnce (Frame.goto_rename renames uses rest)
    all_goals rfl

theorem act_values_rename {i : Instruction}
    (counted : ∃ count, i = .print count ∨ i = .appendFile count) :
    (i.rename r).act other (frame.rename r) = renamed r (Action.rename r) (i.act labels frame) := by
  obtain ⟨place, stack, store⟩ := frame
  obtain ⟨count, rfl | rfl⟩ := counted
  · rcases popValues_cases Opcode.print count stack with
      ⟨values, rest, popped, _⟩ | ⟨_, popped⟩ | ⟨_, found, popped⟩
    · simp only [rename, act, opcode, Frame.rename, popped]
      rfl
    · simp only [rename, act, opcode, Frame.rename, popped]
      rfl
    · simp only [rename, act, opcode, Frame.rename, popped]
      rfl
  · rcases popValues_cases Opcode.fappend count stack with
      ⟨values, below, popped, _⟩ | ⟨_, popped⟩ | ⟨_, found, popped⟩
    · simp only [rename, act, opcode, Frame.rename, popped]
      rcases below with _ | ⟨⟨n | x | b | s⟩ | path, rest⟩
      all_goals rfl
    · simp only [rename, act, opcode, Frame.rename, popped]
      rfl
    · simp only [rename, act, opcode, Frame.rename, popped]
      rfl

/-- What is wrong with a line of input has nothing to do with a name. -/
theorem ofReply_nameless {tag : TypeTag} {line : String} {cause : Cause}
    (failed : Value.ofReply tag line = .error cause) : cause.rename r = cause := by
  rw [Value.ofReply] at failed
  split at failed
  · cases failed
    rfl
  · obtain ⟨_, text, rfl⟩ := ofLine_eq_error failed
    rfl

/-- What a renamed instruction does is what the instruction does, under new names. -/
theorem act_rename (renames : LabelTable.Renames r labels other) {i : Instruction}
    (member : i ∈ program.toList) (within : frame.store.IsWithin program) :
    (i.rename r).act other (frame.rename r) = renamed r (Action.rename r) (i.act labels frame) := by
  cases i with
  | push value => rfl
  | pop =>
    obtain ⟨place, stack, store⟩ := frame
    cases stack <;> rfl
  | load name => exact act_load_rename within (.inl member)
  | save name => exact act_save_rename within (.inr member)
  | arithmetic operator tag =>
    cases tag with
    | int =>
      refine act_combine_rename rfl rfl (Stack.takesOne_popAs _ _ _) fun lhs rhs cause failed => ?_
      rw [(onInts_eq_error failed).2]
      rfl
    | float => exact act_value_rename rfl rfl (Stack.takesOne_popAs _ _ _)
  | modulo =>
    refine act_combine_rename rfl rfl (Stack.takesOne_popAs _ _ _) fun lhs rhs cause failed => ?_
    rw [remainder_eq_error failed]
    rfl
  | negate tag =>
    cases tag with
    | int => exact act_transform_rename rfl rfl (Stack.takesOne_popAs _ _ _)
    | float => exact act_transform_rename rfl rfl (Stack.takesOne_popAs _ _ _)
  | concat => exact act_value_rename rfl rfl (Stack.takesOne_popAs _ _ _)
  | widen => exact act_transform_rename rfl rfl (Stack.takesOne_popAs _ _ _)
  | ordering operator tag =>
    cases tag with
    | int => exact act_value_rename rfl rfl (Stack.takesOne_popAs _ _ _)
    | float => exact act_value_rename rfl rfl (Stack.takesOne_popAs _ _ _)
  | equal tag =>
    cases tag with
    | int => exact act_value_rename rfl rfl (Stack.takesOne_popAs _ _ _)
    | float => exact act_value_rename rfl rfl (Stack.takesOne_popAs _ _ _)
    | string => exact act_value_rename rfl rfl (Stack.takesOne_popAs _ _ _)
    | bool => exact act_value_rename rfl rfl (Stack.takesOne_popAs _ _ _)
  | and => exact act_value_rename rfl rfl (Stack.takesOne_popAs _ _ _)
  | or => exact act_value_rename rfl rfl (Stack.takesOne_popAs _ _ _)
  | not => exact act_transform_rename rfl rfl (Stack.takesOne_popAs _ _ _)
  | label l => rfl
  | jump l =>
    exact (congrArg atOnce (Frame.goto_rename renames (.inr (.inl member)) _)).trans
      (atOnce_renamed r _)
  | jumpIfFalse l => exact act_jumpIfFalse_rename renames (.inr (.inr member))
  | print count => exact act_values_rename ⟨count, .inl rfl⟩
  | read tag =>
    refine congrArg (fun resume => Except.ok (Action.ask Request.readLine resume)) ?_
    funext text
    dsimp only
    cases read : Value.ofReply tag text with
    | ok value => rfl
    | error cause => exact congrArg Except.error (ofReply_nameless read).symm
  | openFile =>
    obtain ⟨place, stack, store⟩ := frame
    rcases stack with _ | ⟨⟨n | x | b | s⟩ | path, rest⟩
    all_goals rfl
  | appendFile count => exact act_values_rename ⟨count, .inr rfl⟩

end Instruction

namespace Status

theorem ofResult_rename (place : Nat) (result : Except Cause Frame) :
    ofResult place (renamed r (Frame.rename r) result) = (ofResult place result).rename r := by
  cases result <;> rfl

theorem ofReply_rename (place : Nat) (resume : String → Except Cause Frame) (reply : Reply) :
    ofReply place (fun text => renamed r (Frame.rename r) (resume text)) reply =
      (ofReply place resume reply).rename r := by
  cases reply with
  | ok text => exact ofResult_rename r place (resume text)
  | error e => rfl

end Status

namespace Machine

variable {r} {labels other : LabelTable} {World : Type} [Host World] {frame : Frame}

/-- A step of the renamed program is the step of the program, under new names. -/
theorem step_rename (renames : LabelTable.Renames r labels other)
    (within : frame.store.IsWithin program) (world : World) :
    step ⟨program.rename r, other⟩ (frame.rename r) world =
      ((step ⟨program, labels⟩ frame world).1.rename r,
        (step ⟨program, labels⟩ frame world).2) := by
  have place : (frame.rename r).place = frame.place := rfl
  rw [step, step, move, move, Program.getElem?_rename, place]
  cases found : program.instructions[frame.place]? with
  | none =>
    dsimp only [Option.map_none]
    cases Host.perform Request.flush world with
    | mk reply later => cases reply <;> rfl
  | some i =>
    have member : i ∈ program.toList := by
      rw [← Program.getElem?_toList] at found
      exact List.mem_of_getElem? found
    dsimp only [Option.map_some]
    rw [Instruction.act_rename renames member within]
    cases i.act labels frame with
    | error cause => rfl
    | ok action =>
      cases action with
      | proceed next => rfl
      | ask request resume =>
        exact Prod.ext (Status.ofReply_rename r frame.place resume _) rfl

/-- Steps bind only names that the program uses. -/
theorem isWithin_of_step (within : frame.store.IsWithin program) {world later : World}
    {next : Frame} (stepped : step ⟨program, labels⟩ frame world = (.running next, later)) :
    next.store.IsWithin program := by
  obtain ⟨i, found, leads⟩ := leads_of_step stepped
  rcases leads.store with same | ⟨name, slot, rfl, saved⟩
  · rw [same]
    exact within
  · rw [saved]
    rw [← Program.getElem?_toList] at found
    exact Store.isWithin_set within (.inr (List.mem_of_getElem? found)) slot

/-- So is a whole run, for any number of steps. -/
theorem run_rename (renames : LabelTable.Renames r labels other)
    (within : frame.store.IsWithin program) (n : Nat) (world : World) :
    run ⟨program.rename r, other⟩ n (frame.rename r) world =
      ((run ⟨program, labels⟩ n frame world).1.rename r,
        (run ⟨program, labels⟩ n frame world).2) := by
  induction n generalizing frame world with
  | zero => rfl
  | succ n ih =>
    have step := step_rename renames within world
    rcases run_succ_cases ⟨program, labels⟩ n frame world with
      ⟨next, later, stepped, going⟩ | ⟨status, later, stepped, still, ended⟩
    · rw [stepped] at step
      rw [going, run_succ_of_running n step]
      exact ih (isWithin_of_step within stepped) later
    · rw [stepped] at step
      rw [ended, run_succ_of_ended n step]
      intro frame running
      cases status with
      | running next => exact still next rfl
      | finished store => cases running
      | failed fault => cases running

end Machine

/-- Where a run is after at most so many steps, and what it has made of the world. -/
def Program.after {World : Type} [Host World] (program : Program) (n : Nat) (world : World) :
    Status × World :=
  match Machine.load program with
  | .ok machine => machine.run n .start world
  | .error fault => (.failed fault, world)

theorem Program.after_rename {World : Type} [Host World] (n : Nat) (world : World) :
    (program.rename r).after n world =
      ((program.after n world).1.rename r, (program.after n world).2) := by
  have resolved := program.resolve_rename r
  rw [after, after, Machine.load, Machine.load]
  generalize program.resolve = result at resolved ⊢
  generalize (program.rename r).resolve = other at resolved ⊢
  cases resolved with
  | error e => cases e <;> rfl
  | ok renames =>
    have within : Frame.start.store.IsWithin program := List.forall_mem_nil _
    exact Machine.run_rename renames within n world

/--
A program under other names and labels is verified and run like the program itself. The verifier
reports the same depths or the same error, with its label renamed. After any number of steps a run
stands at the same place with the same stack, or has ended alike, and has made the same of the
world; renamed are only the names in the store and the name or the label in a fault.
-/
theorem Program.rename_faithful (program : Program) (r : Renaming program) :
    Corresponds (VerifyError.rename r) StackReport.Same program.verify (program.rename r).verify ∧
      ∀ {World : Type} [Host World] (world : World) (n : Nat),
        (program.rename r).after n world =
          ((program.after n world).1.rename r, (program.after n world).2) :=
  ⟨program.verify_rename r, fun world n => program.after_rename r n world⟩

/-- A jump finds the label that its own was exchanged for, and the name in the fault is another. -/
theorem Program.rename_faithful_exchange :
    let program : Program := .ofList [.push (.int 3), .save "kept", .jump 1, .label 0, .label 1,
      .load "lost", .pop]
    let r : Renaming program := .exchange program 0 1 "kept" "lost"
    let world : Sandbox DirectoryTree := ⟨[], .unlimited, .scratch⟩
    (program.rename r).toList = [.push (.int 3), .save "lost", .jump 0, .label 1, .label 0,
      .load "kept", .pop] ∧
    Corresponds (VerifyError.rename r) StackReport.Same program.verify (program.rename r).verify ∧
    (program.rename r).after 3 world =
      (.running ⟨5, [], ⟨[("lost", .value (.int 3))]⟩⟩, world) ∧
    (program.rename r).after 4 world =
      (.failed (.atPlace 5 (.uninitializedVariable "kept")), world) := by
  intro program r world
  obtain ⟨verified, runs⟩ := Program.rename_faithful program r
  have defined : jumpTargets program.toList ⊆ definedLabels program.toList := by decide
  obtain ⟨labels, resolved⟩ : ∃ labels, program.resolve = .ok labels :=
    Program.exists_resolve (by decide) fun label member => defined member
  have entry : labels.entry? 1 = some 5 :=
    Program.entry?_of_getElem? resolved (show program.instructions[4]? = some (.label 1) from rfl)
  let machine : Machine := ⟨program, labels⟩
  let kept : Store := ⟨[("kept", .value (.int 3))]⟩
  let before : Frame := ⟨2, [], kept⟩
  have found : machine.program.instructions[before.place]? = some (.jump 1) := rfl
  have jumps : (Instruction.jump 1).act machine.labels before = atOnce (.ok ⟨5, [], kept⟩) := by
    rw [Instruction.act, Frame.goto, entry]
  have jumped : machine.step before world = (.running ⟨5, [], kept⟩, world) :=
    Machine.step_of_atOnce world found jumps
  have stands : program.after 3 world = (.running ⟨5, [], kept⟩, world) := by
    rw [Program.after, Program.load_of_resolve resolved]
    exact Machine.run_succ_of_running 0 jumped
  have fails : program.after 4 world =
      (.failed (.atPlace 5 (.uninitializedVariable "lost")), world) := by
    rw [Program.after, Program.load_of_resolve resolved]
    exact Machine.run_succ_of_running 1 jumped
  refine ⟨?_, verified, ?_, ?_⟩
  · rw [Program.toList_rename]
    rfl
  · rw [runs, stands]
    rfl
  · rw [runs, fails]
    rfl

end StackLang
