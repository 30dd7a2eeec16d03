import StackLang.Machine.Step
import StackLang.Program.StackDepth

/-!
# What an instruction does

An instruction either fails for a reason that its own form explains, or goes on
to a successor with a fixed number of slots taken from the top of the stack and
a fixed number left in their place. The slots below are untouched, and only a
save changes the store. Nothing is said here about the values that are left.
-/
namespace StackLang

theorem bind_eq_ok {ε α β : Type} {first : Except ε α} {next : α → Except ε β} {result : β} :
    (first >>= next) = .ok result ↔ ∃ value, first = .ok value ∧ next value = .ok result := by
  cases first with
  | error e => simp [bind, Except.bind]
  | ok value => simp [bind, Except.bind]

/-- A way of taking the top slot that fails only for want of a slot or over its kind. -/
structure Stack.TakesOne {α : Type} (opcode : Opcode) (pop : Stack → Except Cause (α × Stack)) :
    Prop where
  empty : pop [] = .error (.stackUnderflow opcode)
  top : ∀ slot rest, (∃ operand, pop (slot :: rest) = .ok (operand, rest)) ∨
    ∃ expected, pop (slot :: rest) = .error (.typeMismatch opcode expected slot.kind)

namespace Stack

theorem takesOne_popAs {α : Type} (opcode : Opcode) (expected : Expected)
    (read : Slot → Option α) : TakesOne opcode (popAs opcode expected read) := by
  refine ⟨rfl, fun slot rest => ?_⟩
  simp only [popAs, pop, bind, Except.bind]
  cases read slot with
  | some operand => exact .inl ⟨operand, rfl⟩
  | none => exact .inr ⟨expected, rfl⟩

end Stack

namespace Instruction

/-- Whether an instruction needs the host. -/
def isEffectful : Instruction → Bool
  | .print _ | .read _ | .openFile | .appendFile _ => true
  | _ => false

/-- The instruction by itself is a reason for the cause. -/
inductive Explains (labels : LabelTable) (frame : Frame) (i : Instruction) : Cause → Prop
  | underflow (short : frame.stack.length < i.pops) :
    Explains labels frame i (.stackUnderflow i.opcode)
  | mismatch (expected : Expected) (found : SlotKind) (takes : 0 < i.pops) :
    Explains labels frame i (.typeMismatch i.opcode expected found)
  | division (divides : i = .arithmetic .div .int ∨ i = .modulo) :
    Explains labels frame i .divisionByZero
  | unbound (name : String) (loads : i = .load name) (missing : frame.store.get? name = none) :
    Explains labels frame i (.uninitializedVariable name)
  | dangling (label : Label) (jumps : i.target? = some label)
    (missing : labels.entry? label = none) : Explains labels frame i (.undefinedLabel label)
  | malformed (tag : TypeTag) (text : String) (reads : i = .read tag) (notString : tag ≠ .string) :
    Explains labels frame i (.inputParse tag text)
  | inputEnd (tag : TypeTag) (reads : i = .read tag) : Explains labels frame i .endOfInput
  | refused (error : SystemError) (effectful : i.isEffectful) :
    Explains labels frame i (.system error)

/-- The next frame is one to which the instruction leads. -/
structure Leads (labels : LabelTable) (i : Instruction) (frame next : Frame) : Prop where
  enough : i.pops ≤ frame.stack.length
  stack : ∃ left, left.length = i.pushes ∧ next.stack = left ++ frame.stack.drop i.pops
  place : next.place ∈ Walk.successors labels frame.place i
  store : next.store = frame.store ∨
    ∃ name slot, i = .save name ∧ next.store = frame.store.set name slot

/-- The result of an instruction is one that its form allows. -/
inductive Allows (labels : LabelTable) (i : Instruction) (frame : Frame) :
    Except Cause Action → Prop
  | error {cause : Cause} (explained : i.Explains labels frame cause) :
    Allows labels i frame (.error cause)
  | proceed {next : Frame} (leads : i.Leads labels frame next) :
    Allows labels i frame (.ok (.proceed next))
  | ask {request : Request} {resume : String → Except Cause Frame} (effectful : i.isEffectful)
    (leads : ∀ text next, resume text = .ok next → i.Leads labels frame next)
    (explained : ∀ text cause, resume text = .error cause → i.Explains labels frame cause) :
    Allows labels i frame (.ok (.ask request resume))

section Results

variable {labels : LabelTable} {frame : Frame} {i : Instruction}

/-- An instruction that moves on to the next place with new slots on those it leaves untouched. -/
theorem leads_advance (taken left : Stack) {rest : Stack}
    (flow : Walk.successors labels frame.place i = [frame.place + 1])
    (stack : frame.stack = taken ++ rest) (takes : taken.length = i.pops)
    (leaves : left.length = i.pushes) :
    i.Leads labels frame (frame.advance (left ++ rest)) := by
  refine ⟨?_, ⟨left, leaves, ?_⟩, ?_, .inl rfl⟩
  · rw [stack, List.length_append]
    omega
  · rw [stack, ← takes, List.drop_left]
    rfl
  · rw [flow]
    exact List.mem_singleton.mpr rfl

theorem allows_transform {α : Type} {pop : Stack → Except Cause (α × Stack)} {compute : α → Value}
    (takes : Stack.TakesOne i.opcode pop) (one : i.pops = 1) (leaves : i.pushes = 1)
    (flow : Walk.successors labels frame.place i = [frame.place + 1]) :
    i.Allows labels frame (atOnce (frame.transform pop compute)) := by
  rw [Frame.transform]
  cases stack : frame.stack with
  | nil =>
    rw [takes.empty]
    exact .error (.underflow (by rw [stack, one]; exact Nat.zero_lt_one))
  | cons slot rest =>
    rcases takes.top slot rest with ⟨operand, popped⟩ | ⟨expected, popped⟩
    · rw [popped]
      exact .proceed (leads_advance [slot] [.value (compute operand)] flow stack
        one.symm leaves.symm)
    · rw [popped]
      exact .error (.mismatch _ _ (by rw [one]; exact Nat.zero_lt_one))

theorem allows_combine {α : Type} {pop : Stack → Except Cause (α × Stack)}
    {compute : α → α → Except Cause Value} (takes : Stack.TakesOne i.opcode pop)
    (two : i.pops = 2) (leaves : i.pushes = 1)
    (flow : Walk.successors labels frame.place i = [frame.place + 1])
    (explained : ∀ lhs rhs cause, compute lhs rhs = .error cause → i.Explains labels frame cause) :
    i.Allows labels frame (atOnce (frame.combine pop compute)) := by
  have some : 0 < i.pops := by omega
  rw [Frame.combine]
  cases stack : frame.stack with
  | nil =>
    rw [takes.empty]
    exact .error (.underflow (by rw [stack, two]; exact Nat.zero_lt_two))
  | cons right below =>
    rcases takes.top right below with ⟨rhs, popped⟩ | ⟨expected, popped⟩
    · rw [popped]
      cases below with
      | nil =>
        simp only [bind, Except.bind, takes.empty]
        exact .error (.underflow (by rw [stack, two]; exact Nat.one_lt_two))
      | cons left rest =>
        rcases takes.top left rest with ⟨lhs, popped⟩ | ⟨expected, popped⟩
        · simp only [bind, Except.bind, popped]
          cases computed : compute lhs rhs with
          | error cause => exact .error (explained lhs rhs cause computed)
          | ok value =>
            exact .proceed (leads_advance [right, left] [.value value] flow
              stack two.symm leaves.symm)
        · simp only [bind, Except.bind, popped]
          exact .error (.mismatch _ _ some)
    · rw [popped]
      exact .error (.mismatch _ _ some)

/-- Values are taken one by one: all of them are there, or the first that is missing explains. -/
theorem popValuesBefore_cases (opcode : Opcode) (later : List Value) (count : Nat) (stack : Stack) :
    (∃ values rest, Stack.popValuesBefore opcode later count stack = .ok (values ++ later, rest) ∧
      values.length = count ∧ stack = (values.reverse.map Slot.value) ++ rest) ∨
    (stack.length < count ∧
      Stack.popValuesBefore opcode later count stack = .error (.stackUnderflow opcode)) ∨
    (0 < count ∧ ∃ found, Stack.popValuesBefore opcode later count stack =
      .error (.typeMismatch opcode .plainValue found)) := by
  induction count generalizing later stack with
  | zero => exact .inl ⟨[], stack, rfl, rfl, rfl⟩
  | succ count ih =>
    cases stack with
    | nil => exact .inr (.inl ⟨Nat.succ_pos count, rfl⟩)
    | cons slot rest =>
      cases slot with
      | file path => exact .inr (.inr ⟨Nat.succ_pos count, .file, rfl⟩)
      | value value =>
        rcases ih (value :: later) rest with
          ⟨values, below, popped, length, split⟩ | ⟨short, popped⟩ | ⟨_, found, popped⟩
        · refine .inl ⟨values ++ [value], below, ?_, ?_, ?_⟩
          · rw [List.append_assoc]
            exact popped
          · rw [List.length_append, length]
            rfl
          · simp [split]
        · refine .inr (.inl ⟨?_, popped⟩)
          rw [List.length_cons]
          omega
        · exact .inr (.inr ⟨Nat.succ_pos count, found, popped⟩)

theorem popValues_cases (opcode : Opcode) (count : Nat) (stack : Stack) :
    (∃ values rest, Stack.popValues opcode count stack = .ok (values, rest) ∧
      values.length = count ∧ stack = (values.reverse.map Slot.value) ++ rest) ∨
    (stack.length < count ∧
      Stack.popValues opcode count stack = .error (.stackUnderflow opcode)) ∨
    (0 < count ∧ ∃ found, Stack.popValues opcode count stack =
      .error (.typeMismatch opcode .plainValue found)) := by
  simpa only [Stack.popValues, List.append_nil] using popValuesBefore_cases opcode [] count stack

/-- A line that denotes no value of its tag is malformed; strings are never malformed. -/
theorem ofLine_eq_error {tag : TypeTag} {line : String} {cause : Cause}
    (failed : Value.ofLine tag line = .error cause) :
    tag ≠ .string ∧ ∃ text, cause = .inputParse tag text := by
  have parsed {α : Type} {result : Option α} {make : α → Value} {failure : Cause}
      (h : (result.map make).elim (.error failure) .ok = (.error cause : Except Cause Value)) :
      cause = failure := by
    cases result with
    | some a => cases h
    | none => exact (Except.error.inj h).symm
  unfold Value.ofLine at failed
  cases tag with
  | string => cases failed
  | int => exact ⟨by decide, _, parsed failed⟩
  | float => exact ⟨by decide, _, parsed failed⟩
  | bool => exact ⟨by decide, _, parsed failed⟩

theorem explains_ofReply {tag : TypeTag} {line : String} {cause : Cause} (reads : i = .read tag)
    (failed : Value.ofReply tag line = .error cause) : i.Explains labels frame cause := by
  rw [Value.ofReply] at failed
  split at failed
  · cases failed
    exact .inputEnd tag reads
  · obtain ⟨notString, text, rfl⟩ := ofLine_eq_error failed
    exact .malformed tag text reads notString

/-- A division by zero is the only failure of integer arithmetic. -/
theorem onInts_eq_error {operator : ArithmeticOperator} {lhs rhs : Int64} {cause : Cause}
    (failed : Value.int <$> operator.onInts lhs rhs = .error cause) :
    operator = .div ∧ cause = .divisionByZero := by
  cases operator with
  | add => cases failed
  | sub => cases failed
  | mul => cases failed
  | div =>
    rw [ArithmeticOperator.onInts] at failed
    by_cases zero : rhs = 0
    · simp only [zero, if_true] at failed
      cases failed
      exact ⟨rfl, rfl⟩
    · simp only [zero, if_false] at failed
      cases failed

theorem remainder_eq_error {lhs rhs : Int64} {cause : Cause}
    (failed : Value.int <$> remainder lhs rhs = .error cause) : cause = .divisionByZero := by
  rw [remainder] at failed
  by_cases zero : rhs = 0
  · simp only [zero, if_true] at failed
    cases failed
    rfl
  · simp only [zero, if_false] at failed
    cases failed

theorem explains_onInts {operator : ArithmeticOperator} {lhs rhs : Int64} {cause : Cause}
    (computes : i = .arithmetic operator .int)
    (failed : Value.int <$> operator.onInts lhs rhs = .error cause) :
    i.Explains labels frame cause := by
  obtain ⟨rfl, rfl⟩ := onInts_eq_error failed
  exact .division (.inl computes)

theorem explains_remainder {lhs rhs : Int64} {cause : Cause} (computes : i = .modulo)
    (failed : Value.int <$> remainder lhs rhs = .error cause) :
    i.Explains labels frame cause := by
  obtain rfl := remainder_eq_error failed
  exact .division (.inr computes)

/-- A jump goes where the table says, or the label is missing there. -/
theorem allows_goto {label : Label} (taken : Stack) {stack : Stack} (jumps : i.target? = some label)
    (flow : ∀ place, labels.entry? label = some place →
      place ∈ Walk.successors labels frame.place i)
    (split : frame.stack = taken ++ stack) (takes : taken.length = i.pops) (leaves : i.pushes = 0) :
    i.Allows labels frame (atOnce (frame.goto labels label stack)) := by
  rw [Frame.goto]
  cases entry : labels.entry? label with
  | none => exact .error (.dangling label jumps entry)
  | some place =>
    refine .proceed ⟨?_, ⟨[], leaves.symm, ?_⟩, flow place entry, .inl rfl⟩
    · rw [split, List.length_append]
      omega
    · rw [split, ← takes, List.drop_left]
      rfl

theorem allows_print (count : Nat) :
    (print count).Allows labels frame ((print count).act labels frame) := by
  rcases popValues_cases Opcode.print count frame.stack with
    ⟨values, rest, popped, length, split⟩ | ⟨short, popped⟩ | ⟨some, found, popped⟩
  · simp only [act, opcode, popped, bind, Except.bind]
    refine .ask rfl (fun text next resumed => ?_) (fun text cause failed => by cases failed)
    cases resumed
    exact leads_advance (values.reverse.map Slot.value) [] rfl split (by simp [length, pops]) rfl
  · simp only [act, opcode, popped, bind, Except.bind]
    exact .error (.underflow short)
  · simp only [act, opcode, popped, bind, Except.bind]
    exact .error (.mismatch _ _ some)

theorem allows_openFile : openFile.Allows labels frame (openFile.act labels frame) := by
  cases stack : frame.stack with
  | nil =>
    simp only [act, opcode, stack]
    exact .error (.underflow (by rw [stack]; exact Nat.zero_lt_one))
  | cons slot rest =>
    rcases (Stack.takesOne_popAs Opcode.fopen (.kind .string) Slot.string?).top slot rest with
      ⟨path, popped⟩ | ⟨expected, popped⟩
    · simp only [act, opcode, stack, Stack.popString, popped, bind, Except.bind]
      refine .ask rfl (fun text next resumed => ?_) (fun text cause failed => by cases failed)
      cases resumed
      exact leads_advance [slot] [.file path] rfl stack rfl rfl
    · simp only [act, opcode, stack, Stack.popString, popped, bind, Except.bind]
      exact .error (.mismatch _ _ Nat.zero_lt_one)

theorem allows_appendFile (count : Nat) :
    (appendFile count).Allows labels frame ((appendFile count).act labels frame) := by
  rcases popValues_cases Opcode.fappend count frame.stack with
    ⟨values, below, popped, length, split⟩ | ⟨short, popped⟩ | ⟨some, found, popped⟩
  · cases below with
    | nil =>
      simp only [act, opcode, popped, bind, Except.bind]
      refine .error (.underflow ?_)
      simp [split, length, pops]
    | cons slot rest =>
      rcases (Stack.takesOne_popAs Opcode.fappend (.kind .file) Slot.path?).top slot rest with
        ⟨path, file⟩ | ⟨expected, file⟩
      · simp only [act, opcode, popped, Stack.popFile, file, bind, Except.bind]
        refine .ask rfl (fun text next resumed => ?_) (fun text cause failed => by cases failed)
        cases resumed
        refine leads_advance (values.reverse.map Slot.value ++ [slot]) [.file path] rfl ?_ ?_ rfl
        · rw [split, List.append_assoc]
          rfl
        · simp [length, pops]
      · simp only [act, opcode, popped, Stack.popFile, file, bind, Except.bind]
        exact .error (.mismatch _ _ (Nat.succ_pos count))
  · simp only [act, opcode, popped, bind, Except.bind]
    exact .error (.underflow (Nat.lt_succ_of_lt short))
  · simp only [act, opcode, popped, bind, Except.bind]
    exact .error (.mismatch _ _ (Nat.succ_pos count))

theorem allows_jumpIfFalse (label : Label) :
    (jumpIfFalse label).Allows labels frame ((jumpIfFalse label).act labels frame) := by
  cases stack : frame.stack with
  | nil =>
    simp only [act, opcode, stack]
    exact .error (.underflow (by rw [stack]; exact Nat.zero_lt_one))
  | cons slot rest =>
    rcases (Stack.takesOne_popAs Opcode.fjmp (.kind .bool) Slot.bool?).top slot rest with
      ⟨condition, popped⟩ | ⟨expected, popped⟩
    · simp only [act, opcode, stack, Stack.popBool, popped, bind, Except.bind]
      cases condition with
      | true =>
        refine .proceed ⟨?_, ⟨[], rfl, ?_⟩, List.mem_cons_self, .inl rfl⟩
        · rw [stack]
          exact Nat.succ_pos _
        · rw [stack]
          rfl
      | false =>
        refine allows_goto [slot] rfl (fun place entry => ?_) stack rfl rfl
        exact List.mem_cons_of_mem _ (by simp [entry])
    · simp only [act, opcode, stack, Stack.popBool, popped, bind, Except.bind]
      exact .error (.mismatch _ _ Nat.zero_lt_one)

theorem allows_save (name : String) :
    (save name).Allows labels frame ((save name).act labels frame) := by
  cases stack : frame.stack with
  | nil =>
    simp only [act, opcode, stack]
    exact .error (.underflow (by rw [stack]; exact Nat.zero_lt_one))
  | cons slot rest =>
    simp only [act, opcode, stack]
    refine .proceed ⟨?_, ⟨[], rfl, ?_⟩, List.mem_cons_self, .inr ⟨name, slot, rfl, rfl⟩⟩
    · rw [stack]
      exact Nat.succ_pos _
    · rw [stack]
      rfl

/-- What an instruction makes of a frame is what its form allows. -/
theorem act_allowed (labels : LabelTable) (frame : Frame) (i : Instruction) :
    i.Allows labels frame (i.act labels frame) := by
  cases i with
  | push value =>
    exact .proceed (leads_advance [] [.value value] rfl rfl rfl rfl)
  | pop =>
    cases stack : frame.stack with
    | nil =>
      simp only [act, opcode, stack]
      exact .error (.underflow (by rw [stack]; exact Nat.zero_lt_one))
    | cons slot rest =>
      simp only [act, opcode, stack]
      exact .proceed (leads_advance [slot] [] rfl stack rfl rfl)
  | load name =>
    simp only [act]
    cases bound : frame.store.get? name with
    | none => exact .error (.unbound name rfl bound)
    | some slot => exact .proceed (leads_advance [] [slot] rfl rfl rfl rfl)
  | save name => exact allows_save name
  | arithmetic operator tag =>
    cases tag with
    | int =>
      exact allows_combine (Stack.takesOne_popAs _ _ _) rfl rfl rfl
        fun lhs rhs cause failed => explains_onInts rfl failed
    | float =>
      exact allows_combine (Stack.takesOne_popAs _ _ _) rfl rfl rfl
        fun lhs rhs cause failed => by cases failed
  | modulo =>
    exact allows_combine (Stack.takesOne_popAs _ _ _) rfl rfl rfl
      fun lhs rhs cause failed => explains_remainder rfl failed
  | negate tag =>
    cases tag with
    | int => exact allows_transform (Stack.takesOne_popAs _ _ _) rfl rfl rfl
    | float => exact allows_transform (Stack.takesOne_popAs _ _ _) rfl rfl rfl
  | concat =>
    exact allows_combine (Stack.takesOne_popAs _ _ _) rfl rfl rfl
      fun lhs rhs cause failed => by cases failed
  | widen => exact allows_transform (Stack.takesOne_popAs _ _ _) rfl rfl rfl
  | ordering operator tag =>
    cases tag with
    | int =>
      exact allows_combine (Stack.takesOne_popAs _ _ _) rfl rfl rfl
        fun lhs rhs cause failed => by cases failed
    | float =>
      exact allows_combine (Stack.takesOne_popAs _ _ _) rfl rfl rfl
        fun lhs rhs cause failed => by cases failed
  | equal tag =>
    cases tag with
    | int =>
      exact allows_combine (Stack.takesOne_popAs _ _ _) rfl rfl rfl
        fun lhs rhs cause failed => by cases failed
    | float =>
      exact allows_combine (Stack.takesOne_popAs _ _ _) rfl rfl rfl
        fun lhs rhs cause failed => by cases failed
    | string =>
      exact allows_combine (Stack.takesOne_popAs _ _ _) rfl rfl rfl
        fun lhs rhs cause failed => by cases failed
    | bool =>
      exact allows_combine (Stack.takesOne_popAs _ _ _) rfl rfl rfl
        fun lhs rhs cause failed => by cases failed
  | and =>
    exact allows_combine (Stack.takesOne_popAs _ _ _) rfl rfl rfl
      fun lhs rhs cause failed => by cases failed
  | or =>
    exact allows_combine (Stack.takesOne_popAs _ _ _) rfl rfl rfl
      fun lhs rhs cause failed => by cases failed
  | not => exact allows_transform (Stack.takesOne_popAs _ _ _) rfl rfl rfl
  | label label => exact .proceed (leads_advance [] [] rfl rfl rfl rfl)
  | jump label =>
    refine allows_goto [] rfl (fun place entry => ?_) rfl rfl rfl
    simp [Walk.successors, entry]
  | jumpIfFalse label => exact allows_jumpIfFalse label
  | print count => exact allows_print count
  | read tag =>
    refine .ask rfl (fun text next resumed => ?_) (fun text cause failed => ?_)
    · cases read : Value.ofReply tag text with
      | error cause => rw [read] at resumed; cases resumed
      | ok value =>
        rw [read] at resumed
        cases resumed
        exact leads_advance [] [.value value] rfl rfl rfl rfl
    · cases read : Value.ofReply tag text with
      | error _ =>
        rw [read] at failed
        cases failed
        exact explains_ofReply rfl read
      | ok value => rw [read] at failed; cases failed
  | openFile => exact allows_openFile
  | appendFile count => exact allows_appendFile count

end Results

end Instruction

section Depth

variable {labels : LabelTable} {frame next : Frame} {i : Instruction}

theorem length_of_leads (leads : i.Leads labels frame next) :
    next.stack.length = frame.stack.length - i.pops + i.pushes := by
  obtain ⟨left, length, stack⟩ := leads.stack
  rw [stack, List.length_append, List.length_drop, length, Nat.add_comm]

/-- The slots below those an instruction takes end up below those it leaves. -/
theorem drop_of_leads (leads : i.Leads labels frame next) :
    next.stack.drop i.pushes = frame.stack.drop i.pops := by
  obtain ⟨left, length, stack⟩ := leads.stack
  rw [stack, ← length, List.drop_left]

end Depth

end StackLang
