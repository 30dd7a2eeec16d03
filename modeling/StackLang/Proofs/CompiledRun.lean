import StackLang.Lowering
import StackLang.Files
import StackLang.Proofs.GeneratedLabels
import StackLang.Proofs.StatementRun
import StackLang.Sandbox

/-!
# Runs of compiled trees

What is accepted by the checker is compiled, and a run of the program does what
the tree means: it ends with the same store in the same world, or fails for the
same cause in the same world, or goes on for ever, in each case exactly if the
evaluation does. On the way every variable holds what its declaration says, and
few causes of a failure are left.
-/
namespace StackLang

namespace Tree

variable {World : Type} [Host World]

/-- The tree means an end with a store. -/
def Finishes (tree : Tree) (world : World) (store : Store) (later : World) : Prop :=
  ∃ rounds, tree.eval rounds world = .done store later

/-- The tree means a failure. -/
def Fails (tree : Tree) (world : World) (cause : Cause) (later : World) : Prop :=
  ∃ rounds, tree.eval rounds world = .failed cause later

/-- The tree means a loop that never ends. -/
def Diverges (tree : Tree) (world : World) : Prop :=
  ∀ rounds, tree.eval rounds world = .exhausted

end Tree

namespace Machine

variable {World : Type} [Host World] {machine : Machine} {allowed : Cause → Prop}
variable {good : Store → Prop} {bound : Nat} {world later : World} {store : Store}
variable {outcome : Outcome World Store}

/-- A whole run comes to what an evaluation comes to. -/
inductive Follows (machine : Machine) (allowed : Cause → Prop) (bound : Nat) (world : World) :
    Outcome World Store → Prop
  | done {n : Nat} {store : Store} {later : World}
    (ended : machine.run n .start world = (.finished store, later)) :
    Follows machine allowed bound world (.done store later)
  | failed {n place : Nat} {cause : Cause} {later : World}
    (ended : machine.run n .start world = (.failed (.atPlace place cause), later))
    (permitted : allowed cause) : Follows machine allowed bound world (.failed cause later)
  | exhausted {n : Nat} {frame : Frame} {later : World} (long : bound ≤ n)
    (going : machine.run n .start world = (.running frame, later)) :
    Follows machine allowed bound world .exhausted

theorem Travels.run_succ {n : Nat} {frame last : Frame} {between : World} {status : Status}
    (travels : machine.Travels good n frame world last between)
    (stepped : machine.step last between = (status, later)) (still : ∀ f, status ≠ .running f) :
    machine.run (n + 1) frame world = (status, later) :=
  run_of_last_step travels.run stepped still

/-- What goes on is not past the step that ends the run. -/
theorem Travels.le_of_running {m n : Nat} {frame middle last : Frame} {between final : World}
    {status : Status} (travels : machine.Travels good n frame world last between)
    (stepped : machine.step last between = (status, final)) (still : ∀ f, status ≠ .running f)
    (going : machine.run m frame world = (.running middle, later)) : m ≤ n := by
  have ended := travels.run_succ stepped still
  exact Nat.le_of_lt_succ (lt_of_ended going ended still)

/-- A run that goes through a whole program ends by handing on what was printed. -/
theorem Reproduces.follows
    (reproduces : machine.Reproduces good allowed bound .start world
      (fun store => ⟨machine.program.instructions.size, [], store⟩) outcome)
    (refusals : ∀ error, allowed (.system error)) :
    machine.Follows allowed bound world (outcome.andThen fun store world =>
      (Outcome.request .flush world).andThen fun _ world => .done store world) := by
  cases reproduces with
  | @done store between n travels =>
    have left : machine.program.instructions[machine.program.instructions.size]? = none :=
      Array.getElem?_eq_none (Nat.le_refl _)
    rw [Outcome.andThen, Outcome.request]
    cases flushed : Host.perform Request.flush between with
    | mk reply later =>
      cases reply with
      | ok text =>
        have stepped : machine.step ⟨machine.program.instructions.size, [], store⟩ between =
            (.finished store, later) := finishes_of_left left flushed
        have ended := travels.run_succ stepped (Status.finished_ne_running _)
        exact .done ended
      | error e =>
        have stepped : machine.step ⟨machine.program.instructions.size, [], store⟩ between =
            (.failed (.atPlace _ (.system e)), later) := fails_of_left left flushed
        have ended := travels.run_succ stepped (Status.failed_ne_running _)
        exact .failed ended (refusals e)
  | failed travels stepped permitted =>
    exact .failed (travels.run_succ stepped (Status.failed_ne_running _)) permitted
  | exhausted long travels => exact .exhausted long travels.run

namespace Follows

variable {n : Nat} {fault : Fault}

/-- A run that ended in fewer steps than an evaluation has rounds ended as the evaluation did. -/
theorem eq_done (follows : machine.Follows allowed (n + 1) world outcome)
    (ended : machine.run n .start world = (.finished store, later)) :
    outcome = .done store later := by
  have still := Status.finished_ne_running store
  cases follows with
  | done again =>
    obtain ⟨same, rfl⟩ := run_unique ended still again (Status.finished_ne_running _)
    cases same
    rfl
  | failed again permitted =>
    obtain ⟨same, _⟩ := run_unique ended still again (Status.failed_ne_running _)
    cases same
  | exhausted long going =>
    have before := lt_of_ended going ended still
    omega

theorem eq_failed (follows : machine.Follows allowed (n + 1) world outcome)
    (ended : machine.run n .start world = (.failed fault, later)) :
    ∃ place cause, fault = .atPlace place cause ∧ allowed cause ∧
      outcome = .failed cause later := by
  have still := Status.failed_ne_running fault
  cases follows with
  | done again =>
    obtain ⟨same, _⟩ := run_unique ended still again (Status.finished_ne_running _)
    cases same
  | @failed _ place cause _ again permitted =>
    obtain ⟨same, rfl⟩ := run_unique ended still again (Status.failed_ne_running _)
    cases same
    exact ⟨place, cause, rfl, permitted, rfl⟩
  | exhausted long going =>
    have before := lt_of_ended going ended still
    omega

/-- A run that never ends exhausts every evaluation. -/
theorem eq_exhausted (follows : machine.Follows allowed bound world outcome)
    (going : ∀ n, ∃ frame later, machine.run n .start world = (.running frame, later)) :
    outcome = .exhausted := by
  cases follows with
  | exhausted => rfl
  | @done n store later ended | @failed n _ _ later ended _ =>
    obtain ⟨frame, between, running⟩ := going n
    rw [ended] at running
    cases running

/-- A run is still going on after as many steps as an exhausted evaluation had rounds. -/
theorem running (follows : machine.Follows allowed n world .exhausted) :
    ∃ frame later, machine.run n .start world = (.running frame, later) := by
  cases follows with
  | exhausted long going => exact running_of_le long going

end Follows

/-- Stores are good as long as a run goes through a whole program. -/
theorem Reproduces.good_of_run {n : Nat} {frame : Frame}
    (reproduces : machine.Reproduces good allowed n .start world
      (fun store => ⟨machine.program.instructions.size, [], store⟩) outcome)
    (going : machine.run n .start world = (.running frame, later)) : good frame.store := by
  cases reproduces with
  | @done store between m travels =>
    cases stepped : machine.step ⟨machine.program.instructions.size, [], store⟩ between with
    | mk status last =>
      have still : ∀ f, status ≠ .running f := by
        rintro f rfl
        obtain ⟨i, found, _⟩ := leads_of_step stepped
        rw [Array.getElem?_eq_none (Nat.le_refl _)] at found
        cases found
      exact travels.good_of_run (travels.le_of_running stepped still going) going
  | failed travels stepped permitted =>
    have within := travels.le_of_running stepped (Status.failed_ne_running _) going
    exact travels.good_of_run within going
  | exhausted long travels => exact travels.good_of_run long going

end Machine

/-- A tree that is accepted is compiled, its labels resolve, and its code does what it means. -/
theorem Tree.exists_compile {tree : Tree} {options : CheckOptions} {record : TypeRecord}
    (checked : tree.check options = .ok record) (distinct : tree.ids.Nodup)
    (few : 2 * tree.branchings < UInt32.size) :
    ∃ program labels, tree.compile options = .ok program ∧ program.resolve = .ok labels ∧
      ∀ (World : Type) [Host World] (rounds : Nat) (world : World),
        Machine.Reproduces ⟨program, labels⟩ record.symbols.Describes options.logical.Permits
          rounds .start world (fun store => ⟨program.instructions.size, [], store⟩)
          (evalAll tree.declarations rounds tree .empty world) := by
  have holds := Tree.holds_check checked
  have annotated := Tree.annotated distinct checked
  obtain ⟨code, last, lowered, emitted⟩ := Tree.exists_lower checked distinct
  obtain ⟨labels, resolved⟩ := Tree.exists_resolve emitted few
  have compiled : tree.compile options = .ok (.ofList code) := by
    rw [Tree.compile, checked]
    dsimp only
    rw [emitted]
  refine ⟨.ofList code, labels, compiled, resolved, fun World _ rounds world => ?_⟩
  exact reproduces_all rounds (fun s _ => s.reproduced resolved holds rounds)
    annotated lowered (Program.segment_toList (.ofList code)) (.empty _) world

/-- A program does in a world what a tree means. -/
structure Program.Realizes (program : Program) (tree : Tree) {World : Type} [Host World]
    (world : World) : Prop where
  finishes : ∀ store later,
    program.Finishes world store later ↔ tree.Finishes world store later
  fails : ∀ cause later, (∃ place, program.Fails world (.atPlace place cause) later) ↔
    tree.Fails world cause later
  diverges : program.Diverges world ↔ tree.Diverges world
  loads : ∀ label first second later,
    ¬ program.Fails world (.duplicateLabel label first second) later

/--
A tree that is accepted is compiled, and in every world a run of the program ends as the tree means
it: with the same store and world, for the same cause, or not at all.
-/
theorem realizes_of_check (tree : Tree) (options : CheckOptions) (record : TypeRecord)
    (checked : tree.check options = .ok record) (distinct : tree.ids.Nodup)
    (few : 2 * tree.branchings < UInt32.size) :
    ∃ program, tree.compile options = .ok program ∧
      ∀ (World : Type) [Host World] (world : World), program.Realizes tree world := by
  obtain ⟨program, labels, compiled, resolved, reproduces⟩ :=
    Tree.exists_compile checked distinct few
  have loaded := Program.load_of_resolve resolved
  refine ⟨program, compiled, fun World _ world => ?_⟩
  have follows : ∀ rounds, Machine.Follows ⟨program, labels⟩ options.logical.Permits rounds world
      (tree.eval rounds world) := fun rounds => (reproduces World rounds world).follows .system
  constructor
  case finishes =>
    intro store later
    constructor
    · rintro ⟨machine, n, known, ended⟩
      cases (Program.load_eq_ok_iff resolved machine).mp known
      -- An evaluation does not exhaust more rounds than the run has steps.
      exact ⟨n + 1, (follows (n + 1)).eq_done ended⟩
    · rintro ⟨rounds, meant⟩
      have follows := follows rounds
      rw [meant] at follows
      cases follows with
      | done ended => exact ⟨_, _, loaded, ended⟩
  case fails =>
    intro cause later
    constructor
    · rintro ⟨place, failed⟩
      obtain ⟨n, ended⟩ := (Program.fails_iff resolved).mp failed
      obtain ⟨_, _, same, _, meant⟩ := (follows (n + 1)).eq_failed ended
      cases same
      exact ⟨n + 1, meant⟩
    · rintro ⟨rounds, meant⟩
      have follows := follows rounds
      rw [meant] at follows
      cases follows with
      | @failed n place _ _ ended permitted =>
        exact ⟨place, (Program.fails_iff resolved).mpr ⟨n, ended⟩⟩
  case diverges =>
    constructor
    · rintro ⟨machine, known, going⟩ rounds
      cases (Program.load_eq_ok_iff resolved machine).mp known
      exact (follows rounds).eq_exhausted going
    · intro meant
      refine ⟨_, loaded, fun n => ?_⟩
      have follows := follows n
      rw [meant n] at follows
      exact follows.running
  case loads =>
    intro label first second later failed
    obtain ⟨frame, between, cause, _, same, _⟩ := Program.ends_of_fails resolved failed
    cases same

/-- The tree of `int n; while (n < 2.5) n = n + 1; write n;`. -/
def countingTree : Tree :=
  let at0 : Position := ⟨1, 0⟩
  let n : Identifier := ⟨"n", at0⟩
  let test : Expression :=
    .binary ⟨2, at0⟩ .less (.variable ⟨0, at0⟩ n) (.literal ⟨1, at0⟩ (.float 2.5))
  let more : Expression :=
    .binary ⟨5, at0⟩ .add (.variable ⟨3, at0⟩ n) (.literal ⟨4, at0⟩ (.int 1))
  [.declaration at0 .int [n],
    .loop at0 test (.expression at0 (.assignment ⟨6, at0⟩ n more)),
    .write at0 [.variable ⟨7, at0⟩ n]]

theorem exists_check_countingTree (options : CheckOptions) :
    ∃ record, countingTree.check options = .ok record := by
  obtain ⟨symbols, declared⟩ :
      ∃ symbols, SymbolTable.empty.declare ⟨"n", .int, ⟨1, 0⟩⟩ = .ok symbols := by
    simp [SymbolTable.declare, SymbolTable.get?_empty]
  have known : symbols.typeOf? "n" = some .int := by
    rw [SymbolTable.typeOf?, SymbolTable.get?_declare_self declared]
    rfl
  have clean : (checkAll options .empty countingTree).diagnostics = [] := by
    simp only [countingTree, checkAll, Statement.check, declareAll, PrimitiveType.static, declared]
    simp only [Expression.judge, judgeAll, Ruling.lookup, Findings.start, Findings.judged,
      Findings.following, known]
    rcases options with ⟨_ | _, _ | _⟩ <;> rfl
  exact ⟨_, by rw [Tree.check, clean]; rfl⟩

theorem realizes_of_check_counting :
    let world : Sandbox DirectoryTree := ⟨[], .unlimited, .scratch⟩
    ∃ record, countingTree.check .standard = .ok record ∧ countingTree.ids.Nodup ∧
      2 * countingTree.branchings < UInt32.size ∧
      ∃ program, countingTree.compile .standard = .ok program ∧
        program.Realizes countingTree world := by
  intro world
  obtain ⟨record, checked⟩ := exists_check_countingTree .standard
  have distinct : countingTree.ids.Nodup := by decide
  have few : 2 * countingTree.branchings < UInt32.size := by decide
  obtain ⟨program, compiled, realizes⟩ := realizes_of_check _ _ _ checked distinct few
  exact ⟨record, checked, distinct, few, program, compiled, realizes _ world⟩

/-- What is left of faults and stores when a tree was accepted under a policy. -/
structure Program.IsTyped (program : Program) (symbols : SymbolTable) (policy : LogicalPolicy)
    {World : Type} [Host World] (world : World) : Prop where
  reaches : ∀ frame later, program.Reaches world frame later → symbols.Describes frame.store
  finishes : ∀ store later, program.Finishes world store later → symbols.Describes store
  fails : ∀ fault later, program.Fails world fault later →
    ∃ place cause, fault = .atPlace place cause ∧ policy.Permits cause
  mismatches : ∀ place opcode expected found later,
    program.Fails world (.atPlace place (.typeMismatch opcode expected found)) later →
    program.instructions[place]? = some .and ∨ program.instructions[place]? = some .or

theorem Instruction.eq_and_or_of_opcode {i : Instruction}
    (logical : i.opcode = .and ∨ i.opcode = .or) : i = .and ∨ i = .or := by
  cases i with
  | and => exact .inl rfl
  | or => exact .inr rfl
  | arithmetic operator tag => cases operator <;> simp [opcode] at logical
  | ordering operator tag => cases operator <;> simp [opcode] at logical
  | _ => simp [opcode] at logical

/--
A compiled tree keeps to its declarations and never goes wrong in its stack, its labels or, but for
the operands of a logical operator under the lenient policy, its types.
-/
theorem isTyped_of_check (tree : Tree) (options : CheckOptions) (record : TypeRecord)
    (checked : tree.check options = .ok record) (distinct : tree.ids.Nodup)
    (few : 2 * tree.branchings < UInt32.size) :
    ∃ program, tree.compile options = .ok program ∧
      ∀ (World : Type) [Host World] (world : World),
        program.IsTyped record.symbols options.logical world := by
  obtain ⟨program, labels, compiled, resolved, reproduces⟩ :=
    Tree.exists_compile checked distinct few
  refine ⟨program, compiled, fun World _ world => ?_⟩
  have typed : ∀ frame later, program.Reaches world frame later →
      record.symbols.Describes frame.store := by
    rintro frame later ⟨machine, n, known, going⟩
    cases (Program.load_eq_ok_iff resolved machine).mp known
    -- With as many rounds as steps the evaluation covers the run up to this frame.
    exact (reproduces World n world).good_of_run going
  have permitted : ∀ fault later, program.Fails world fault later →
      ∃ place cause, fault = .atPlace place cause ∧ options.logical.Permits cause := by
    intro fault later failed
    obtain ⟨n, ended⟩ := (Program.fails_iff resolved).mp failed
    have follows := (reproduces World (n + 1) world).follows .system
    obtain ⟨place, cause, same, permitted, _⟩ := follows.eq_failed ended
    exact ⟨place, cause, same, permitted⟩
  refine ⟨typed, ?_, permitted, ?_⟩
  · rintro store later ⟨machine, n, known, ended⟩
    obtain ⟨m, last, between, going, stepped⟩ :=
      Machine.last_step ended (Status.finished_ne_running _)
    obtain ⟨_, rfl⟩ := Machine.left_of_step stepped
    exact typed last between ⟨machine, m, known, going⟩
  · intro place opcode expected found later failed
    obtain ⟨_, _, same, allowed⟩ := permitted _ _ failed
    cases same
    obtain ⟨frame, between, cause, _, same, ends⟩ := Program.ends_of_fails resolved failed
    cases same
    cases allowed with
    | typeMismatch lenient logical =>
      cases ends with
      | instruction i here explained =>
        cases explained with
        | mismatch =>
          -- The cause names the opcode of the instruction that it arose at.
          rw [here]
          exact (Instruction.eq_and_or_of_opcode logical).imp (congrArg some) (congrArg some)

theorem isTyped_of_check_counting :
    let world : Sandbox DirectoryTree := ⟨[], .unlimited, .scratch⟩
    let options : CheckOptions := ⟨.requireBool, true⟩
    ∃ record, countingTree.check options = .ok record ∧ countingTree.ids.Nodup ∧
      2 * countingTree.branchings < UInt32.size ∧
      ∃ program, countingTree.compile options = .ok program ∧
        program.IsTyped record.symbols .requireBool world := by
  intro world options
  obtain ⟨record, checked⟩ := exists_check_countingTree options
  have distinct : countingTree.ids.Nodup := by decide
  have few : 2 * countingTree.branchings < UInt32.size := by decide
  obtain ⟨program, compiled, typed⟩ := isTyped_of_check _ _ _ checked distinct few
  exact ⟨record, checked, distinct, few, program, compiled, typed _ world⟩

end StackLang
