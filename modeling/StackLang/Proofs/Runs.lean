import StackLang.Proofs.Effect

/-!
# Steps and runs

A run that is still going is a chain of steps, each of them by the instruction
at the place of its frame. A run that has ended did so in the step from the last
frame of such a chain, and more fuel changes nothing. An invariant of frames
needs to be looked at for a single step only.
-/
namespace StackLang

theorem Status.finished_ne_running (store : Store) (frame : Frame) :
    Status.finished store ≠ .running frame := by
  intro same
  cases same

theorem Status.failed_ne_running (fault : Fault) (frame : Frame) :
    Status.failed fault ≠ .running frame := by
  intro same
  cases same

namespace Machine

variable {World : Type} [Host World] {machine : Machine}
variable {frame next last : Frame} {world between later : World} {store : Store} {fault : Fault}

/-- Why a step ends the run: the host refuses the flush, or the instruction explains it. -/
inductive Ends (machine : Machine) (frame : Frame) : Cause → Prop
  | flush (error : SystemError) (left : machine.program.instructions[frame.place]? = none) :
    Ends machine frame (.system error)
  | instruction (i : Instruction) {cause : Cause}
    (found : machine.program.instructions[frame.place]? = some i)
    (explained : i.Explains machine.labels frame cause) : Ends machine frame cause

/-- What a step comes to. -/
inductive Steps (machine : Machine) (frame : Frame) : Status → Prop
  | running (i : Instruction) {next : Frame}
    (found : machine.program.instructions[frame.place]? = some i)
    (leads : i.Leads machine.labels frame next) : Steps machine frame (.running next)
  | finished (left : machine.program.instructions[frame.place]? = none) :
    Steps machine frame (.finished frame.store)
  | failed {cause : Cause} (ends : machine.Ends frame cause) :
    Steps machine frame (.failed (.atPlace frame.place cause))

theorem steps_of_result {i : Instruction} {result : Except Cause Frame}
    (found : machine.program.instructions[frame.place]? = some i)
    (leads : ∀ next, result = .ok next → i.Leads machine.labels frame next)
    (explained : ∀ cause, result = .error cause → i.Explains machine.labels frame cause) :
    machine.Steps frame (Status.ofResult frame.place result) := by
  cases result with
  | ok next => exact .running i found (leads next rfl)
  | error cause => exact .failed (.instruction i found (explained cause rfl))

theorem step_steps (machine : Machine) (frame : Frame) (world : World) :
    machine.Steps frame (machine.step frame world).1 := by
  unfold step move
  cases found : machine.program.instructions[frame.place]? with
  | none =>
    dsimp only
    cases Host.perform Request.flush world with
    | mk reply later =>
      cases reply with
      | ok text => exact .finished found
      | error e => exact .failed (.flush e found)
  | some i =>
    dsimp only
    have allowed := i.act_allowed machine.labels frame
    generalize i.act machine.labels frame = result at allowed ⊢
    cases allowed with
    | error explained => exact .failed (.instruction i found explained)
    | proceed leads => exact .running i found leads
    | @ask request resume effectful leads explained =>
      dsimp only
      cases Host.perform request world with
      | mk reply later =>
        cases reply with
        | ok text => exact steps_of_result found (leads text) (explained text)
        | error e => exact .failed (.instruction i found (.refused e effectful))

/-- A run that has left the program finishes when the host has handed on what was printed. -/
theorem finishes_of_left (left : machine.program.instructions[frame.place]? = none) {text : String}
    (flushed : Host.perform Request.flush world = (.ok text, later)) :
    machine.step frame world = (.finished frame.store, later) := by
  unfold step move
  rw [left]
  dsimp only
  rw [flushed]

theorem fails_of_left (left : machine.program.instructions[frame.place]? = none)
    {error : SystemError} (refused : Host.perform Request.flush world = (.error error, later)) :
    machine.step frame world = (.failed (.atPlace frame.place (.system error)), later) := by
  unfold step move
  rw [left]
  dsimp only
  rw [refused]

section Acts

variable {i : Instruction}

/-- A step by an instruction that needs no host. -/
theorem step_of_atOnce {result : Except Cause Frame} (world : World)
    (found : machine.program.instructions[frame.place]? = some i)
    (acts : i.act machine.labels frame = atOnce result) :
    machine.step frame world = (Status.ofResult frame.place result, world) := by
  unfold step move
  rw [found]
  dsimp only
  rw [acts]
  cases result <;> rfl

/-- A step by an instruction that asks the host. -/
theorem step_of_ask {request : Request} {resume : String → Except Cause Frame} (world : World)
    (found : machine.program.instructions[frame.place]? = some i)
    (acts : i.act machine.labels frame = .ok (.ask request resume)) :
    machine.step frame world =
      (Status.ofReply frame.place resume (Host.perform request world).1,
        (Host.perform request world).2) := by
  unfold step move
  rw [found]
  dsimp only
  rw [acts]

/-- A constant goes on top of the stack. -/
theorem step_push {place : Nat} {value : Value} {stack : Stack}
    (found : machine.program.instructions[place]? = some (.push value)) (world : World) :
    machine.step ⟨place, stack, store⟩ world =
      (.running ⟨place + 1, .value value :: stack, store⟩, world) := by
  have acts : (Instruction.push value).act machine.labels ⟨place, stack, store⟩ =
      atOnce (.ok ⟨place + 1, .value value :: stack, store⟩) := rfl
  exact step_of_atOnce world found acts

end Acts

theorem leads_of_step (stepped : machine.step frame world = (.running next, later)) :
    ∃ i, machine.program.instructions[frame.place]? = some i ∧
      i.Leads machine.labels frame next := by
  have steps := step_steps machine frame world
  rw [stepped] at steps
  cases steps with
  | running i found leads => exact ⟨i, found, leads⟩

theorem ends_of_step (stepped : machine.step frame world = (.failed fault, later)) :
    ∃ cause, fault = .atPlace frame.place cause ∧ machine.Ends frame cause := by
  have steps := step_steps machine frame world
  rw [stepped] at steps
  cases steps with
  | failed ends => exact ⟨_, rfl, ends⟩

theorem left_of_step (stepped : machine.step frame world = (.finished store, later)) :
    machine.program.instructions[frame.place]? = none ∧ store = frame.store := by
  have steps := step_steps machine frame world
  rw [stepped] at steps
  cases steps with
  | finished left => exact ⟨left, rfl⟩

theorem run_succ_of_running (n : Nat)
    (stepped : machine.step frame world = (.running next, later)) :
    machine.run (n + 1) frame world = machine.run n next later := by
  rw [run, stepped]

theorem run_succ_of_ended (n : Nat) {status : Status}
    (stepped : machine.step frame world = (status, later)) (still : ∀ f, status ≠ .running f) :
    machine.run (n + 1) frame world = (status, later) := by
  rw [run, stepped]
  cases status with
  | running frame => exact absurd rfl (still frame)
  | finished store => rfl
  | failed fault => rfl

/-- The first step of a run of some length: it goes on from the next frame, or ends at once. -/
theorem run_succ_cases (machine : Machine) (n : Nat) (frame : Frame) (world : World) :
    (∃ next later, machine.step frame world = (.running next, later) ∧
      machine.run (n + 1) frame world = machine.run n next later) ∨
    ∃ status later, machine.step frame world = (status, later) ∧ (∀ f, status ≠ .running f) ∧
      machine.run (n + 1) frame world = (status, later) := by
  cases stepped : machine.step frame world with
  | mk status later =>
    by_cases going : ∃ next, status = .running next
    · obtain ⟨next, rfl⟩ := going
      exact .inl ⟨next, later, rfl, run_succ_of_running n stepped⟩
    · have still : ∀ f, status ≠ .running f := fun f running => going ⟨f, running⟩
      exact .inr ⟨status, later, rfl, still, run_succ_of_ended n stepped still⟩

/-- A run that is going on takes up the steps that are left. -/
theorem run_add {m : Nat} (n : Nat)
    (going : machine.run m frame world = (.running next, between)) :
    machine.run (m + n) frame world = machine.run n next between := by
  induction m generalizing frame world with
  | zero =>
    cases going
    rw [Nat.zero_add]
  | succ m ih =>
    rcases run_succ_cases machine m frame world with
      ⟨first, after, stepped, run⟩ | ⟨status, after, stepped, still, run⟩
    · rw [Nat.succ_add, run_succ_of_running _ stepped]
      exact ih (run ▸ going)
    · rw [run] at going
      cases going
      exact absurd rfl (still next)

/-- A run is over after the step that ends it. -/
theorem run_of_last_step {n : Nat} {status : Status}
    (going : machine.run n frame world = (.running last, between))
    (stepped : machine.step last between = (status, later)) (still : ∀ f, status ≠ .running f) :
    machine.run (n + 1) frame world = (status, later) := by
  rw [run_add 1 going]
  exact run_succ_of_ended 0 stepped still

/-- An ended run stays as it is. -/
theorem run_add_of_ended {m : Nat} (n : Nat) {status : Status}
    (ended : machine.run m frame world = (status, later)) (still : ∀ f, status ≠ .running f) :
    machine.run (m + n) frame world = (status, later) := by
  induction m generalizing frame world with
  | zero =>
    cases ended
    exact absurd rfl (still frame)
  | succ m ih =>
    rcases run_succ_cases machine m frame world with
      ⟨first, after, stepped, run⟩ | ⟨final, after, stepped, still, run⟩
    · rw [Nat.succ_add, run_succ_of_running _ stepped]
      exact ih (run ▸ ended)
    · rw [Nat.succ_add, run_succ_of_ended _ stepped still, ← run, ended]

/-- A run ends in one way only. -/
theorem run_unique {m n : Nat} {status other : Status}
    (ended : machine.run m frame world = (status, between)) (still : ∀ f, status ≠ .running f)
    (again : machine.run n frame world = (other, later)) (otherStill : ∀ f, other ≠ .running f) :
    status = other ∧ between = later := by
  have first := run_add_of_ended n ended still
  have second := run_add_of_ended m again otherStill
  rw [Nat.add_comm, first, Prod.mk.injEq] at second
  exact second

/-- A run that is going on was going on before. -/
theorem running_of_le {m n : Nat} (within : m ≤ n)
    (going : machine.run n frame world = (.running next, later)) :
    ∃ earlier between, machine.run m frame world = (.running earlier, between) := by
  cases before : machine.run m frame world with
  | mk status between =>
    by_cases running : ∃ earlier, status = .running earlier
    · obtain ⟨earlier, rfl⟩ := running
      exact ⟨earlier, between, rfl⟩
    · have still : ∀ f, status ≠ .running f := fun f same => running ⟨f, same⟩
      have ended := run_add_of_ended (n - m) before still
      rw [Nat.add_sub_of_le within, going] at ended
      cases ended
      exact absurd rfl (still next)

/-- A run is going on only before it ends. -/
theorem lt_of_ended {m n : Nat} {status : Status}
    (going : machine.run m frame world = (.running next, between))
    (ended : machine.run n frame world = (status, later)) (still : ∀ f, status ≠ .running f) :
    m < n := by
  by_cases before : m < n
  · exact before
  · obtain ⟨earlier, _, running⟩ := running_of_le (Nat.le_of_not_lt before) going
    rw [ended] at running
    cases running
    exact absurd rfl (still earlier)

/-- What every step keeps holds in every frame of a run. -/
theorem run_invariant {P : Frame → Prop}
    (kept : ∀ frame next, ∀ world later : World, P frame →
      machine.step frame world = (.running next, later) → P next)
    (start : P frame) {n : Nat} (going : machine.run n frame world = (.running last, later)) :
    P last := by
  induction n generalizing frame world with
  | zero =>
    cases going
    exact start
  | succ n ih =>
    rcases run_succ_cases machine n frame world with
      ⟨first, after, stepped, run⟩ | ⟨status, after, stepped, still, run⟩
    · exact ih (kept frame first world after start stepped) (run ▸ going)
    · rw [run] at going
      cases going
      exact absurd rfl (still last)

/-- An ended run ended in a step from its last frame. -/
theorem last_step {n : Nat} {status : Status}
    (ended : machine.run n frame world = (status, later)) (still : ∀ f, status ≠ .running f) :
    ∃ m last between, machine.run m frame world = (.running last, between) ∧
      machine.step last between = (status, later) := by
  induction n generalizing frame world with
  | zero =>
    cases ended
    exact absurd rfl (still frame)
  | succ n ih =>
    rcases run_succ_cases machine n frame world with
      ⟨first, after, stepped, run⟩ | ⟨final, after, stepped, _, run⟩
    · obtain ⟨m, last, between, going, final⟩ := ih (run ▸ ended)
      refine ⟨m + 1, last, between, ?_, final⟩
      rw [run_succ_of_running m stepped]
      exact going
    · exact ⟨0, frame, world, rfl, stepped.trans (run.symm.trans ended)⟩

end Machine

namespace Program

variable {World : Type} [Host World]

/-- A run of the program in a world comes to a frame. -/
def Reaches (program : Program) (world : World) (frame : Frame) (later : World) : Prop :=
  ∃ machine n, Machine.load program = .ok machine ∧
    machine.run n .start world = (.running frame, later)

/-- A run of the program in a world ends with a store. -/
def Finishes (program : Program) (world : World) (store : Store) (later : World) : Prop :=
  ∃ machine n, Machine.load program = .ok machine ∧
    machine.run n .start world = (.finished store, later)

/-- The program is refused, or a run of it ends with a fault. -/
def Fails (program : Program) (world : World) (fault : Fault) (later : World) : Prop :=
  (Machine.load program = .error fault ∧ later = world) ∨
    ∃ machine n, Machine.load program = .ok machine ∧
      machine.run n .start world = (.failed fault, later)

/-- A run of the program never ends. -/
def Diverges (program : Program) (world : World) : Prop :=
  ∃ machine, Machine.load program = .ok machine ∧
    ∀ n, ∃ frame later, machine.run n .start world = (.running frame, later)

variable {program : Program} {labels : LabelTable}

theorem load_of_resolve (resolved : program.resolve = .ok labels) :
    Machine.load program = .ok ⟨program, labels⟩ := by
  rw [Machine.load, resolved]

theorem load_eq_ok_iff (resolved : program.resolve = .ok labels) (machine : Machine) :
    Machine.load program = .ok machine ↔ machine = ⟨program, labels⟩ := by
  rw [load_of_resolve resolved, Except.ok.injEq, eq_comm]

/-- A run that comes to the end of a program finishes there if the host takes the flush. -/
theorem finishes_of_run {machine : Machine} {n : Nat} {stack : Stack} {store : Store}
    {world later after : World} {text : String} (loaded : Machine.load program = .ok machine)
    (going : machine.run n .start world =
      (.running ⟨machine.program.instructions.size, stack, store⟩, later))
    (flushed : Host.perform .flush later = (.ok text, after)) :
    program.Finishes world store after := by
  have finished : machine.step ⟨machine.program.instructions.size, stack, store⟩ later =
      (.finished store, after) :=
    Machine.finishes_of_left (Array.getElem?_eq_none (Nat.le_refl _)) flushed
  exact ⟨machine, n + 1, loaded,
    Machine.run_of_last_step going finished (Status.finished_ne_running _)⟩

/-- A program that can be loaded fails in a run only. -/
theorem fails_iff (resolved : program.resolve = .ok labels) {world later : World} {fault : Fault} :
    program.Fails world fault later ↔
      ∃ n, Machine.run ⟨program, labels⟩ n .start world = (.failed fault, later) := by
  constructor
  · rintro (⟨refused, _⟩ | ⟨machine, n, loaded, ended⟩)
    · rw [load_of_resolve resolved] at refused
      cases refused
    · cases (load_eq_ok_iff resolved machine).mp loaded
      exact ⟨n, ended⟩
  · rintro ⟨n, ended⟩
    exact .inr ⟨_, n, load_of_resolve resolved, ended⟩

/-- A fault of a program that can be loaded arises in a frame that the run comes to. -/
theorem ends_of_fails (resolved : program.resolve = .ok labels) {world later : World}
    {fault : Fault} (failed : program.Fails world fault later) :
    ∃ frame between cause, program.Reaches world frame between ∧
      fault = .atPlace frame.place cause ∧ Machine.Ends ⟨program, labels⟩ frame cause := by
  obtain ⟨n, ended⟩ := (fails_iff resolved).mp failed
  obtain ⟨m, last, between, going, stepped⟩ := Machine.last_step ended (Status.failed_ne_running _)
  obtain ⟨cause, rfl, ends⟩ := Machine.ends_of_step stepped
  exact ⟨last, between, cause, ⟨_, m, load_of_resolve resolved, going⟩, rfl, ends⟩

end Program

end StackLang
