import StackLang.Proofs.FailedStep

/-!
# What is asked of the host

Four instructions put a request to the host. When they do, their operands are in
hand: values in the order they were pushed, the name of a file, or values and the
file below them. Behind the last instruction the host is asked to hand on what was
printed. A run ends with an error of the host only when the host refuses the
request of that step.
-/
namespace StackLang

namespace Instruction

/--
The request that an instruction puts to the host in a frame, with the operands it takes for it, and
how it goes on with the text of the reply.
-/
inductive Asks (frame : Frame) : Instruction → Request → (String → Except Cause Frame) → Prop
  | print (values : List Value) (rest : Stack)
    (taken : frame.stack = values.reverse.map Slot.value ++ rest) :
    Asks frame (.print values.length) (.print (" ".intercalate (values.map Value.text)))
      fun _ => .ok (frame.advance rest)
  | read (tag : TypeTag) :
    Asks frame (.read tag) .readLine fun line =>
      frame.leave frame.stack <$> Value.ofReply tag line
  | openFile (path : String) (rest : Stack)
    (taken : frame.stack = .value (.string path) :: rest) :
    Asks frame .openFile (.create path) fun _ => .ok (frame.advance (.file path :: rest))
  | appendFile (values : List Value) (path : String) (rest : Stack)
    (taken : frame.stack = values.reverse.map Slot.value ++ .file path :: rest) :
    Asks frame (.appendFile values.length) (.append path (values.map Value.text))
      fun _ => .ok (frame.advance (.file path :: rest))

variable {labels : LabelTable} {frame : Frame} {i : Instruction} {cause : Cause}
variable {request : Request} {resume : String → Except Cause Frame}

theorem error_of_bind {α β : Type} {first : Except Cause α} {next : α → Except Cause β}
    (failed : (first >>= next) = .error cause) :
    first = .error cause ∨ ∃ value, first = .ok value ∧ next value = .error cause := by
  cases first with
  | error e =>
    cases failed
    exact .inl rfl
  | ok value => exact .inr ⟨value, rfl, failed⟩

theorem isSystem_of_takesOne {α : Type} {opcode : Opcode} {pop : Stack → Except Cause (α × Stack)}
    (takes : Stack.TakesOne opcode pop) {stack : Stack} (failed : pop stack = .error cause) :
    cause.isSystem = false := by
  cases stack with
  | nil =>
    rw [takes.empty] at failed
    cases failed
    rfl
  | cons slot rest =>
    rcases takes.top slot rest with ⟨operand, popped⟩ | ⟨expected, popped⟩
    · rw [popped] at failed
      cases failed
    · rw [popped] at failed
      cases failed
      rfl

theorem isSystem_of_popValues {opcode : Opcode} {count : Nat} {stack : Stack}
    (failed : Stack.popValues opcode count stack = .error cause) : cause.isSystem = false := by
  rcases popValues_cases opcode count stack with
    ⟨values, rest, popped, _⟩ | ⟨_, popped⟩ | ⟨_, found, popped⟩
  · rw [popped] at failed
    cases failed
  · rw [popped] at failed
    cases failed
    rfl
  · rw [popped] at failed
    cases failed
    rfl

/-- An instruction that asks has its operands. -/
theorem asks_of_act (acts : i.act labels frame = .ok (.ask request resume)) :
    i.Asks frame request resume := by
  have allowed := i.act_allowed labels frame
  rw [acts] at allowed
  cases allowed with
  | ask effectful =>
    cases i with
    | print count =>
      obtain ⟨⟨values, rest⟩, popped, same⟩ := bind_eq_ok.mp acts
      cases same
      obtain ⟨rfl, split⟩ := eq_of_popValues popped
      rw [List.length_reverse]
      exact .print values rest split
    | read tag =>
      cases acts
      exact .read tag
    | openFile =>
      obtain ⟨⟨path, rest⟩, popped, same⟩ := bind_eq_ok.mp acts
      cases same
      exact .openFile path rest (eq_of_popString popped)
    | appendFile count =>
      obtain ⟨⟨values, below⟩, popped, acts⟩ := bind_eq_ok.mp acts
      obtain ⟨⟨path, rest⟩, file, same⟩ := bind_eq_ok.mp acts
      cases same
      obtain ⟨rfl, split⟩ := eq_of_popValues popped
      rw [eq_of_popFile file] at split
      rw [List.length_reverse]
      exact .appendFile values path rest split
    | _ => cases effectful

/-- An instruction that goes on at once asks nothing, whatever its operands are. -/
theorem isEffectful_of_proceed {next : Frame} (acts : i.act labels frame = .ok (.proceed next)) :
    i.isEffectful = false := by
  cases i with
  | print count =>
    obtain ⟨_, _, same⟩ := bind_eq_ok.mp acts
    cases same
  | read tag => cases acts
  | openFile =>
    obtain ⟨_, _, same⟩ := bind_eq_ok.mp acts
    cases same
  | appendFile count =>
    obtain ⟨_, _, acts⟩ := bind_eq_ok.mp acts
    obtain ⟨_, _, same⟩ := bind_eq_ok.mp acts
    cases same
  | _ => rfl

/-- An instruction that fails before it has asked anything does not blame the host. -/
theorem isSystem_of_act (failed : i.act labels frame = .error cause) :
    cause.isSystem = false := by
  have allowed := i.act_allowed labels frame
  rw [failed] at allowed
  cases allowed with
  | error explained =>
    cases explained with
    | refused error effectful =>
      cases i with
      | print count =>
        rcases error_of_bind failed with popped | ⟨_, _, same⟩
        · exact isSystem_of_popValues popped
        · cases same
      | read tag => cases failed
      | openFile =>
        rcases error_of_bind failed with popped | ⟨_, _, same⟩
        · exact isSystem_of_takesOne (Stack.takesOne_popAs _ _ _) popped
        · cases same
      | appendFile count =>
        rcases error_of_bind failed with popped | ⟨_, _, failed⟩
        · exact isSystem_of_popValues popped
        · rcases error_of_bind failed with popped | ⟨_, _, same⟩
          · exact isSystem_of_takesOne (Stack.takesOne_popAs _ _ _) popped
          · cases same
      | _ => cases effectful
    | _ => rfl

/-- Nor does one that fails over the text of the reply. -/
theorem Asks.isSystem_of_resume (asks : i.Asks frame request resume) {text : String}
    (failed : resume text = .error cause) : cause.isSystem = false := by
  cases asks with
  | read tag =>
    dsimp only at failed
    cases read : Value.ofReply tag text with
    | ok value =>
      rw [read] at failed
      cases failed
    | error first =>
      rw [read] at failed
      cases failed
      exact isSystem_of_ofReply read
  | print | openFile | appendFile => cases failed

end Instruction

namespace Machine

variable {machine : Machine} {frame : Frame} {request : Request} {resume : Reply → Status}

/-- A step asks what its instruction does, or asks for the flush behind the last instruction. -/
theorem asks_of_move (moves : machine.move frame = .ask request resume) :
    (machine.program.instructions[frame.place]? = none ∧ request = .flush) ∨
      ∃ i next, machine.program.instructions[frame.place]? = some i ∧ i.Asks frame request next ∧
        resume = Status.ofReply frame.place next := by
  unfold move at moves
  cases found : machine.program.instructions[frame.place]? with
  | none =>
    rw [found] at moves
    cases moves
    exact .inl ⟨rfl, rfl⟩
  | some i =>
    rw [found] at moves
    dsimp only at moves
    cases acts : i.act machine.labels frame with
    | error cause =>
      rw [acts] at moves
      cases moves
    | ok action =>
      rw [acts] at moves
      cases action with
      | proceed next => cases moves
      | ask asked next =>
        cases moves
        exact .inr ⟨i, next, rfl, Instruction.asks_of_act acts, rfl⟩

variable {World : Type} [Host World] {world later : World} {next : Frame}

theorem step_of_to {status : Status} (moves : machine.move frame = .to status) :
    machine.step frame world = (status, world) := by
  rw [step, moves]

theorem step_of_asks {request : Request} {resume : Reply → Status}
    (moves : machine.move frame = .ask request resume) {reply : Reply}
    (performed : Host.perform request world = (reply, later)) :
    machine.step frame world = (resume reply, later) := by
  rw [step, moves]
  dsimp only
  rw [performed]

/-- Without the host a step is what its instruction makes of the frame. -/
theorem acts_of_move {status : Status} (moves : machine.move frame = .to status) :
    ∃ i, machine.program.instructions[frame.place]? = some i ∧
      ((∃ next, i.act machine.labels frame = .ok (.proceed next) ∧ status = .running next) ∨
        ∃ cause, i.act machine.labels frame = .error cause ∧
          status = .failed (.atPlace frame.place cause)) := by
  unfold move at moves
  cases found : machine.program.instructions[frame.place]? with
  | none =>
    rw [found] at moves
    cases moves
  | some i =>
    refine ⟨i, rfl, ?_⟩
    rw [found] at moves
    dsimp only at moves
    cases acts : i.act machine.labels frame with
    | error cause =>
      rw [acts] at moves
      cases moves
      exact .inr ⟨cause, rfl, rfl⟩
    | ok action =>
      rw [acts] at moves
      cases action with
      | proceed next =>
        cases moves
        exact .inl ⟨next, rfl, rfl⟩
      | ask request resume => cases moves

/-- A step that goes on does so at once or with the reply of the host. -/
theorem running_cases (stepped : machine.step frame world = (.running next, later)) :
    (∃ i, machine.program.instructions[frame.place]? = some i ∧
      i.act machine.labels frame = .ok (.proceed next) ∧ later = world) ∨
    ∃ i request resume text, machine.program.instructions[frame.place]? = some i ∧
      i.Asks frame request resume ∧ Host.perform request world = (.ok text, later) ∧
      resume text = .ok next := by
  rcases moves : machine.move frame with status | ⟨request, resume⟩
  · rw [step_of_to moves] at stepped
    cases stepped
    obtain ⟨i, found, ⟨_, acts, same⟩ | ⟨_, _, same⟩⟩ := acts_of_move moves
    · cases same
      exact .inl ⟨i, found, acts, rfl⟩
    · cases same
  · cases performed : Host.perform request world with
    | mk reply after =>
      rw [step_of_asks moves performed] at stepped
      rcases asks_of_move moves with ⟨left, rfl⟩ | ⟨i, resume, found, asks, rfl⟩
      · unfold move at moves
        rw [left] at moves
        cases moves
        cases reply <;> cases stepped
      · cases reply with
        | error e => cases stepped
        | ok text =>
          dsimp only [Status.ofReply] at stepped
          cases resumed : resume text with
          | error cause =>
            rw [resumed] at stepped
            cases stepped
          | ok frame =>
            rw [resumed] at stepped
            cases stepped
            exact .inr ⟨i, request, resume, text, found, asks, performed, resumed⟩

/-- An error of the host is its refusal of what the step has asked. -/
theorem refused_of_step {place : Nat} {error : SystemError}
    (stepped : machine.step frame world = (.failed (.atPlace place (.system error)), later)) :
    ∃ request resume, machine.move frame = .ask request resume ∧
      Host.perform request world = (.error error, later) := by
  rcases moves : machine.move frame with status | ⟨request, resume⟩
  · rw [step_of_to moves] at stepped
    cases stepped
    obtain ⟨i, _, ⟨_, _, same⟩ | ⟨_, acts, same⟩⟩ := acts_of_move moves
    · cases same
    · cases same
      cases Instruction.isSystem_of_act acts
  · refine ⟨request, resume, rfl, ?_⟩
    cases performed : Host.perform request world with
    | mk reply after =>
      rw [step_of_asks moves performed] at stepped
      rcases asks_of_move moves with ⟨left, rfl⟩ | ⟨i, next, found, asks, rfl⟩
      · unfold move at moves
        rw [left] at moves
        cases moves
        cases reply with
        | ok text => cases stepped
        | error e =>
          cases stepped
          rfl
      · cases reply with
        | ok text =>
          dsimp only [Status.ofReply] at stepped
          cases resumed : next text with
          | ok frame =>
            rw [resumed] at stepped
            cases stepped
          | error cause =>
            rw [resumed] at stepped
            cases stepped
            cases asks.isSystem_of_resume resumed
        | error e =>
          cases stepped
          rfl

end Machine

end StackLang
