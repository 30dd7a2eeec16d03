import StackLang.Proofs.EffectRun
import StackLang.Proofs.LoweredCode
import StackLang.Proofs.Resolution
import StackLang.Proofs.Segment
import StackLang.Proofs.TreeShape

/-!
# Statements on the machine

The code of a statement reproduces the evaluation of the statement, wherever it
stands in a program whose labels resolve. A loop comes back to its first
instruction after each round, and the jump that brings it back is a step of its
own. A machine that goes through many rounds has therefore made as many steps,
whatever the rounds consist of.
-/
namespace StackLang

section Run

variable {World : Type} [Host World] {machine : Machine} {record : TypeRecord}
variable {policy : LogicalPolicy} {types : Declarations} {start stop : Nat} {store : Store}
variable {code : List Instruction} {next last label : Label}

theorem act_jumpIfFalse (labels : LabelTable) (place : Nat) (truth : Bool) (store : Store)
    {other : Nat} (goesTo : labels.entry? label = some other) :
    (Instruction.jumpIfFalse label).act labels ⟨place, [.value (.bool truth)], store⟩ =
      .ok (.proceed ⟨if truth then place + 1 else other, [], store⟩) := by
  cases truth with
  | true => rfl
  | false =>
    change atOnce (Frame.goto _ labels label []) = _
    rw [Frame.goto, goesTo]
    rfl

theorem act_jump (labels : LabelTable) (place : Nat) (store : Store) {entry : Nat}
    (goesTo : labels.entry? label = some entry) :
    (Instruction.jump label).act labels ⟨place, [], store⟩ =
      .ok (.proceed ⟨entry, [], store⟩) := by
  change atOnce (Frame.goto _ labels label []) = _
  rw [Frame.goto, goesTo]
  rfl

theorem travels_jump {good : Store → Prop} {place entry : Nat} (world : World)
    (found : machine.program.instructions[place]? = some (.jump label))
    (goesTo : machine.labels.entry? label = some entry) (keeps : good store) :
    machine.Travels good 1 ⟨place, [], store⟩ world ⟨entry, [], store⟩ world :=
  Machine.travels_of_proceed world found (act_jump _ _ _ goesTo) keeps keeps

theorem travels_label {good : Store → Prop} {place : Nat} (world : World)
    (found : machine.program.instructions[place]? = some (.label label)) (keeps : good store) :
    machine.Travels good 1 ⟨place, [], store⟩ world ⟨place + 1, [], store⟩ world :=
  Machine.travels_of_proceed world found rfl keeps keeps

/-- A condition goes on behind its branch if it is true, and where the label leads if it is not. -/
theorem reproduces_condition (holds : record.symbols.Holds types) {condition : Expression}
    {type : StaticType} {test : List Instruction} {branch other : Nat}
    (annotated : condition.Annotated record policy .bool)
    (lowered : condition.lower record = .ok (test, type))
    (segment : machine.program.Segment start test branch)
    (branches : machine.program.instructions[branch]? = some (.jumpIfFalse label))
    (goesTo : machine.labels.entry? label = some other)
    (describes : record.symbols.Describes store) (bound : Nat) (world : World) :
    machine.Reproduces record.symbols.Describes policy.Permits bound ⟨start, [], store⟩ world
      (fun result => ⟨if result.1 then branch + 1 else other, [], result.2⟩)
      (.ofResult world (condition.evalCondition types store)) := by
  cases lowered.symm.trans (annotated.lower holds)
  apply (annotated.reproduces holds segment [] describes bound world).bind
  rintro ⟨slot, later⟩ evaluated keeps
  obtain ⟨truth, rfl⟩ := Slot.eq_bool (annotated.kind_of_eval holds describes evaluated)
  exact .done (Machine.travels_of_proceed world branches
    (act_jumpIfFalse _ _ _ _ goesTo) keeps keeps)

/-- A loop whose body comes back to the test reproduces the rounds of its evaluation. -/
theorem reproduces_iterate {good : Store → Prop} {allowed : Cause → Prop}
    {rounds top inside back : Nat} {test : Store → Except Cause (Bool × Store)}
    {body : Store → World → Outcome World Store}
    (tests : ∀ store (world : World), good store →
      machine.Reproduces good allowed rounds ⟨top, [], store⟩ world
        (fun result => ⟨if result.1 then inside else stop, [], result.2⟩)
        (.ofResult world (test store)))
    (passes : ∀ store (world : World), good store →
      machine.Reproduces good allowed rounds ⟨inside, [], store⟩ world
        (fun later => ⟨back, [], later⟩) (body store world))
    (returns : ∀ store (world : World), good store →
      machine.Travels good 1 ⟨back, [], store⟩ world ⟨top, [], store⟩ world)
    {n : Nat} (within : n ≤ rounds) (world : World) (keeps : good store) :
    machine.Reproduces good allowed n ⟨top, [], store⟩ world (fun later => ⟨stop, [], later⟩)
      (iterate test body n store world) := by
  induction n generalizing store world with
  | zero => exact .exhausted (Nat.zero_le 0) (.stay keeps)
  | succ n ih =>
    rw [iterate]
    apply ((tests store world keeps).weaken within).andThen
    rintro ⟨truth, between⟩ later _ keeps
    cases truth with
    | false => exact .done (.stay keeps)
    | true =>
      apply ((passes between later keeps).weaken within).andThen
      intro after world _ keeps
      -- The step back to the test pays for the round.
      exact .after (returns after world keeps) (ih (by omega) world keeps) (by omega)

/-- What is claimed of the code of a statement: it does what the statement means. -/
def Statement.Reproduced (machine : Machine) (record : TypeRecord) (policy : LogicalPolicy)
    (types : Declarations) (rounds : Nat) (World : Type) [Host World] (s : Statement) : Prop :=
  ∀ {start stop : Nat} {code : List Instruction} {next last : Label} {store : Store},
    s.Annotated record policy → s.lower record next = .ok (code, last) →
    machine.program.Segment start code stop → record.symbols.Describes store → ∀ world : World,
    machine.Reproduces record.symbols.Describes policy.Permits rounds ⟨start, [], store⟩ world
      (fun later => ⟨stop, [], later⟩) (s.eval types rounds store world)

theorem reproduces_all (rounds : Nat) {body : List Statement}
    (each : ∀ s ∈ body, s.Reproduced machine record policy types rounds World)
    (annotated : Statement.AnnotatedAll record policy body)
    (lowered : lowerAll record next body = .ok (code, last))
    (segment : machine.program.Segment start code stop)
    (describes : record.symbols.Describes store) (world : World) :
    machine.Reproduces record.symbols.Describes policy.Permits rounds ⟨start, [], store⟩ world
      (fun later => ⟨stop, [], later⟩) (evalAll types rounds body store world) := by
  induction body generalizing start code next store world with
  | nil =>
    cases lowered
    cases segment
    exact .done (.stay describes)
  | cons s rest ih =>
    obtain ⟨first, others⟩ := annotated
    obtain ⟨_, _, _, here, there, rfl⟩ := lowerAll_cons lowered
    obtain ⟨middle, own, later⟩ := Program.segment_append.mp segment
    rw [evalAll]
    apply (each s List.mem_cons_self first here own describes world).andThen
    intro between world _ keeps
    exact ih (fun s member => each s (List.mem_cons_of_mem _ member)) others there later keeps world

theorem Statement.eval_conditional (position : Position) (condition : Expression)
    (positive : Statement) (negative : Option Statement) (rounds : Nat) (world : World) :
    (conditional position condition positive negative).eval types rounds store world =
      (Outcome.ofResult world (condition.evalCondition types store)).andThen
        fun (truth, store) world =>
          if truth then positive.eval types rounds store world
          else evalAll types rounds negative.toList store world := by
  cases negative with
  | none => rfl
  | some negative =>
    have alone : ∀ store (world : World), evalAll types rounds [negative] store world =
        negative.eval types rounds store world := by
      intro store world
      rw [evalAll]
      exact Outcome.andThen_done _
    simp only [eval, Option.toList_some, alone]

/-- The code of every statement does what the statement means. -/
theorem Statement.reproduced (resolved : machine.program.resolve = .ok machine.labels)
    (holds : record.symbols.Holds types) (rounds : Nat) (s : Statement) :
    s.Reproduced machine record policy types rounds World := by
  intro start stop code next last store annotated lowered segment describes world
  induction s generalizing start stop code next last store world with
  | declaration position type names =>
    cases lowered
    obtain ⟨n, travels⟩ := travels_reset annotated segment describes world
    exact .done travels
  | expression position value =>
    obtain ⟨type, annotated⟩ := annotated
    obtain ⟨inner, _, here, rfl, _⟩ := lower_expression lowered
    cases here.symm.trans (annotated.lower holds)
    obtain ⟨middle, operand, pops⟩ := Program.segment_append.mp segment
    obtain ⟨found, rfl⟩ := Program.segment_singleton.mp pops
    rw [eval]
    apply (annotated.reproduces holds operand [] describes rounds world).andThen
    rintro ⟨slot, later⟩ between _ keeps
    exact .done (Machine.travels_of_proceed between found rfl keeps keeps)
  | conditional position condition positive negative positiveIH negativeIH =>
    obtain ⟨test, _, first, middle, second, tested, chosen, otherwise, rfl⟩ :=
      lower_conditional lowered
    obtain ⟨tests, branch, others⟩ := annotated_conditional.mp annotated
    obtain ⟨place, jump, close, testSegment, branches, firstSegment, jumps, opens, secondSegment,
      closes, rfl⟩ := Program.segment_conditional segment
    have other := Program.entry?_of_getElem? resolved opens
    have final := Program.entry?_of_getElem? resolved closes
    rw [eval_conditional]
    refine (reproduces_condition holds tests tested testSegment branches other describes rounds
      world).andThen ?_
    rintro ⟨truth, between⟩ world _ keeps
    cases truth with
    | true =>
      apply (positiveIH branch chosen firstSegment keeps world).onward
      intro later world _ keeps
      exact ⟨1, travels_jump world jumps final keeps⟩
    | false =>
      refine (reproduces_all rounds (fun s member => @negativeIH s member) others otherwise
        secondSegment keeps world).onward ?_
      intro later world _ keeps
      exact ⟨1, travels_label world closes keeps⟩
  | loop position condition body ih =>
    obtain ⟨tests, inner⟩ := annotated
    obtain ⟨test, _, inside, tested, repeated, rfl⟩ := lower_loop lowered
    obtain ⟨place, jump, opens, testSegment, branches, bodySegment, jumps, closes, rfl⟩ :=
      Program.segment_loop segment
    have top := Program.entry?_of_getElem? resolved opens
    have final := Program.entry?_of_getElem? resolved closes
    rw [eval]
    -- The entry of the loop is behind its label, so the label is passed only once.
    refine .after (travels_label world opens describes) ?_ (Nat.le_add_left rounds 1)
    exact reproduces_iterate
      (fun store world keeps => reproduces_condition holds tests tested testSegment branches final
        keeps rounds world)
      (fun store world keeps => ih inner repeated bodySegment keeps world)
      (fun store world keeps => travels_jump world jumps top keeps) (Nat.le_refl rounds) world
      describes
  | block position body ih =>
    rw [eval]
    exact reproduces_all rounds (fun s member => @ih s member) annotated lowered segment
      describes world
  | write position values => exact reproduces_write holds annotated lowered segment describes _ _
  | read position targets =>
    obtain ⟨here, _⟩ := lower_read lowered
    exact reproduces_read holds annotated here segment describes rounds world
  | openFile position target fileName =>
    exact reproduces_openFile holds annotated lowered segment describes rounds world
  | fileOutput position file values =>
    exact reproduces_fileOutput holds annotated lowered segment describes rounds world
  | empty position =>
    cases lowered
    cases segment
    exact .done (.stay describes)

end Run

end StackLang
