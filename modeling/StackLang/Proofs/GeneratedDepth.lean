import StackLang.Proofs.GeneratedLabels
import StackLang.Proofs.StackProfile

/-!
# Stack depth of generated code

How deep the stack of a generated program gets can be read off the tree: an
operand waits on the stack while the next one is computed, and nothing else
does. The type record has no say in it, since a widening leaves the depth as it
is. The verifier accepts whatever the generator emits and reports that depth.
-/
namespace StackLang

/-- The depth that the code of an expression reaches above the depth it starts from. -/
def Expression.depth : Expression → Nat
  | .literal _ _ | .variable _ _ => 1
  | .grouping _ inner => inner.depth
  | .binary _ _ lhs rhs => max lhs.depth (1 + rhs.depth)
  | .unary _ _ operand => operand.depth
  | .assignment _ _ value => value.depth

/-- The depth of expressions that are computed onto each other, the first onto some slots. -/
def pileDepth (below : Nat) : List Expression → Nat
  | [] => 0
  | e :: rest => max (below + e.depth) (pileDepth (below + 1) rest)

namespace Statement

mutual

/-- The greatest depth of the stack in the code of a statement. -/
def depth : Statement → Nat
  | .declaration _ type names => if type = .file ∨ names = [] then 0 else 1
  | .expression _ value => value.depth
  | .conditional _ condition positive negative =>
    match negative with
    | none => max condition.depth positive.depth
    | some negative => max condition.depth (max positive.depth negative.depth)
  | .loop _ condition body => max condition.depth body.depth
  | .block _ body => depthAll body
  | .write _ values => pileDepth 0 values
  | .read _ targets => if targets = [] then 0 else 1
  | .openFile _ _ fileName => fileName.depth
  | .fileOutput _ file values => max file.depth (pileDepth 1 values)
  | .empty _ => 0

def depthAll : List Statement → Nat
  | [] => 0
  | s :: rest => max s.depth (depthAll rest)

end

theorem depth_conditional (position : Position) (condition : Expression) (positive : Statement)
    (negative : Option Statement) :
    (conditional position condition positive negative).depth =
      max condition.depth (max positive.depth (depthAll negative.toList)) := by
  cases negative <;> simp [depth, depthAll]

end Statement

/-- The greatest depth of the stack in the program of a tree. -/
def Tree.depth (tree : Tree) : Nat :=
  Statement.depthAll tree

theorem Expression.depth_pos (e : Expression) : 0 < e.depth := by
  induction e with
  | literal | «variable» => exact Nat.zero_lt_one
  | grouping _ _ ih | unary _ _ _ ih | assignment _ _ _ ih => exact ih
  | binary _ _ lhs rhs leftIH rightIH => exact Nat.lt_of_lt_of_le leftIH (Nat.le_max_left _ _)

namespace Profile

variable {record : TypeRecord} {code : List Instruction} {start : Nat}

theorem of_eq {last peak last' peak' : Nat} (profile : Profile start code last peak)
    (lasts : last = last') (peaks : peak = peak') : Profile start code last' peak' := by
  subst lasts peaks
  exact profile

/-- An instruction that puts one slot on the stack. -/
theorem grows {i : Instruction} (takes : i.pops = 0) (leaves : i.pushes = 1)
    (straight : i.isControl = false) : Profile start [i] (start + 1) (start + 1) := by
  have after : i.after start = start + 1 := by
    rw [Instruction.after, takes, leaves, Nat.sub_zero]
  have profile : Profile start [i] (i.after start) (max start (i.after start)) :=
    plain (by omega) straight
  exact profile.of_eq after (by omega)

/-- An instruction that leaves one slot in place of those it takes. -/
theorem joins {i : Instruction} (operands : Nat) (takes : i.pops = operands + 1)
    (leaves : i.pushes = 1) (straight : i.isControl = false) :
    Profile (start + operands + 1) [i] (start + 1) (start + operands + 1) := by
  have after : i.after (start + operands + 1) = start + 1 := by
    rw [Instruction.after, takes, leaves]
    omega
  have profile : Profile (start + operands + 1) [i] (i.after (start + operands + 1))
      (max (start + operands + 1) (i.after (start + operands + 1))) :=
    plain (by omega) straight
  exact profile.of_eq after (by omega)

/-- An instruction that takes the top slot and leaves none. -/
theorem drops {i : Instruction} (takes : i.pops = 1) (leaves : i.pushes = 0)
    (straight : i.isControl = false) : Profile (start + 1) [i] start (start + 1) := by
  have after : i.after (start + 1) = start := by
    rw [Instruction.after, takes, leaves]
    omega
  have profile : Profile (start + 1) [i] (i.after (start + 1))
      (max (start + 1) (i.after (start + 1))) :=
    plain (by omega) straight
  exact profile.of_eq after (by omega)

theorem of_widening {widening : List Instruction} (shape : widening = [] ∨ widening = [.widen]) :
    Profile (start + 1) widening (start + 1) (start + 1) := by
  rcases shape with rfl | rfl
  · exact .nil _
  · exact joins 0 rfl rfl rfl

theorem of_join {operator : BinaryOperator} {type : StaticType} {place : Position}
    {join : List Instruction} (joined : operator.code type place = .ok join) :
    Profile (start + 2) join (start + 1) (start + 2) := by
  cases operator
  case equal =>
    obtain ⟨tag, _, same⟩ := bind_eq_ok.mp joined
    cases same
    exact joins 1 rfl rfl rfl
  case notEqual =>
    obtain ⟨tag, _, same⟩ := bind_eq_ok.mp joined
    cases same
    have equal : Profile (start + 2) [.equal tag] (start + 1) (start + 2) :=
      joins 1 rfl rfl rfl
    have not : Profile (start + 1) [.not] (start + 1) (start + 1) :=
      joins 0 rfl rfl rfl
    exact (equal.append not).of_eq rfl (by omega)
  all_goals
    cases joined
    exact joins 1 rfl rfl rfl

/-- The code of an expression leaves one slot more, whatever the record says of its types. -/
theorem of_emit {e : Expression} {emission : Emission} (emitted : e.emit record = .ok emission) :
    Profile start emission.loaded (start + 1) (start + e.depth) := by
  induction e generalizing emission start with
  | literal node value =>
    rw [Expression.emit_literal emitted]
    exact grows rfl rfl rfl
  | «variable» node name =>
    rw [Expression.emit_variable emitted]
    exact grows rfl rfl rfl
  | grouping node inner ih => exact ih emitted
  | binary node operator lhs rhs leftIH rightIH =>
    obtain ⟨left, right, leftWidening, rightWidening, join, type, place, leftEmitted, rightEmitted,
      leftShape, rightShape, joined, code⟩ := Expression.emit_binary emitted
    rw [code]
    have left : Profile start (left.loaded ++ leftWidening) (start + 1) _ :=
      (leftIH leftEmitted).append (of_widening leftShape)
    have right : Profile (start + 1) (right.loaded ++ rightWidening) (start + 2) _ :=
      (rightIH rightEmitted).append (of_widening rightShape)
    have whole := (left.append right).append (of_join joined)
    have leftPos := lhs.depth_pos
    have rightPos := rhs.depth_pos
    exact whole.of_eq rfl (by rw [Expression.depth]; omega)
  | unary node operator operand ih =>
    obtain ⟨inner, type, innerEmitted, code⟩ := Expression.emit_unary emitted
    rw [code]
    have pos := operand.depth_pos
    have operation : Profile (start + 1) (operator.code type) (start + 1) (start + 1) := by
      cases operator <;> exact joins 0 rfl rfl rfl
    exact ((ih innerEmitted).append operation).of_eq rfl (by rw [Expression.depth]; omega)
  | assignment node target value ih =>
    obtain ⟨inner, widening, innerEmitted, shape, code⟩ := Expression.emit_assignment emitted
    rw [code]
    have pos := value.depth_pos
    have save : Profile (start + 1) [.save target.name] start (start + 1) := drops rfl rfl rfl
    have load : Profile start [.load target.name] (start + 1) (start + 1) := grows rfl rfl rfl
    have stored : Profile start (inner.loaded ++ widening) (start + 1) _ :=
      (ih innerEmitted).append (of_widening shape)
    have whole := stored.append (save.append load)
    exact whole.of_eq rfl (by rw [Expression.depth]; omega)

theorem of_lower {e : Expression} {type : StaticType}
    (lowered : e.lower record = .ok (code, type)) :
    Profile start code (start + 1) (start + e.depth) := by
  obtain ⟨emission, emitted, rfl, _⟩ := Expression.lower_eq_ok lowered
  exact of_emit emitted

theorem of_lowerValues {values : List Expression} (lowered : lowerValues record values = .ok code) :
    Profile start code (start + values.length) (max start (pileDepth start values)) := by
  induction values generalizing code start with
  | nil =>
    cases lowered
    exact (Profile.nil start).of_eq rfl (by rw [pileDepth]; omega)
  | cons e rest ih =>
    obtain ⟨first, later, type, here, there, rfl⟩ := lowerValues_cons lowered
    have operand : Profile start first (start + 1) (start + e.depth) := of_lower here
    have whole := operand.append (ih there)
    have pos := e.depth_pos
    exact whole.of_eq (by rw [List.length_cons]; omega) (by rw [pileDepth]; omega)

/-- A slot that is pushed and saved at once. -/
theorem of_fill {i : Instruction} (takes : i.pops = 0) (leaves : i.pushes = 1)
    (straight : i.isControl = false) (name : String) : Profile 0 [i, .save name] 0 1 :=
  (grows takes leaves straight).append (drops rfl rfl rfl)

theorem of_lowerDeclaration (type : PrimitiveType) (names : List Identifier) :
    Profile 0 (lowerDeclaration type names) 0 (if type = .file ∨ names = [] then 0 else 1) := by
  rw [lowerDeclaration]
  cases tagged : type.static.tag? with
  | none =>
    rw [if_pos (.inl ((StaticType.tag?_static type).mp tagged))]
    exact .nil 0
  | some tag =>
    have plain : type ≠ .file := by
      rintro rfl
      cases tagged
    induction names with
    | nil =>
      rw [if_pos (.inr rfl)]
      exact .nil 0
    | cons name rest ih =>
      have fill : Profile 0 [.push (.zero tag), .save name.name] 0 1 := of_fill rfl rfl rfl _
      apply (fill.append ih).of_eq rfl
      have neither : ¬ (type = .file ∨ name :: rest = []) := by
        rintro (file | empty)
        · exact plain file
        · cases empty
      rw [if_neg neither]
      split <;> rfl

theorem of_lowerRead {targets : List Identifier} (lowered : lowerRead record targets = .ok code) :
    Profile 0 code 0 (if targets = [] then 0 else 1) := by
  induction targets generalizing code with
  | nil =>
    cases lowered
    exact .nil 0
  | cons target rest ih =>
    obtain ⟨type, tag, later, _, _, there, rfl⟩ := lowerRead_cons lowered
    have fill : Profile 0 [.read tag, .save target.name] 0 1 := of_fill rfl rfl rfl _
    apply (fill.append (ih there)).of_eq rfl
    split <;> rfl

/-- A test and the jump behind it. -/
theorem of_test {e : Expression} {type : StaticType} (lowered : e.lower record = .ok (code, type))
    (label : Label) : Profile 0 (code ++ [Instruction.jumpIfFalse label]) 0 e.depth := by
  have value : Profile 0 code 1 (0 + e.depth) := of_lower lowered
  have jump : Profile 1 [.jumpIfFalse label] 0 1 := level (Nat.le_refl 1) rfl
  have pos := e.depth_pos
  exact (value.append jump).of_eq rfl (by omega)

theorem of_lowerAll {body : List Statement}
    (each : ∀ s ∈ body, ∀ {next code last}, s.lower record next = .ok (code, last) →
      Profile 0 code 0 s.depth) {next last : Label}
    (lowered : lowerAll record next body = .ok (code, last)) :
    Profile 0 code 0 (Statement.depthAll body) := by
  induction body generalizing code next last with
  | nil =>
    cases lowered
    exact .nil 0
  | cons s rest ih =>
    obtain ⟨first, middle, later, here, there, rfl⟩ := lowerAll_cons lowered
    obtain ⟨own, others⟩ := List.forall_mem_cons.mp each
    exact (own here).append (ih others there)

/-- The code of a statement begins and ends with an empty stack and is as deep as the tree says. -/
theorem of_statement {s : Statement} {next last : Label}
    (lowered : s.lower record next = .ok (code, last)) : Profile 0 code 0 s.depth := by
  induction s generalizing code next last with
  | declaration position type names =>
    cases lowered
    exact of_lowerDeclaration type names
  | expression position value =>
    obtain ⟨first, type, here, rfl, rfl⟩ := Statement.lower_expression lowered
    have operand : Profile 0 first 1 (0 + value.depth) := of_lower here
    have drop : Profile 1 [.pop] 0 1 := drops rfl rfl rfl
    have pos := value.depth_pos
    exact (operand.append drop).of_eq rfl (by rw [Statement.depth]; omega)
  | conditional position condition positive negative positiveIH negativeIH =>
    obtain ⟨test, type, first, middle, second, tested, branch, otherwise, rfl⟩ :=
      Statement.lower_conditional lowered
    have skip : Profile 0 [.jump (next + 1), .label next] 0 0 :=
      (level (Nat.le_refl 0) rfl).append (level (Nat.le_refl 0) rfl)
    have other : Profile 0 second 0 (Statement.depthAll negative.toList) :=
      of_lowerAll (fun s member => negativeIH s member) otherwise
    have stop : Profile 0 [.label (next + 1)] 0 0 := level (Nat.le_refl 0) rfl
    have whole := ((((of_test tested next).append (positiveIH branch)).append skip).append
      other).append stop
    exact whole.of_eq rfl (by rw [Statement.depth_conditional]; omega)
  | loop position condition body ih =>
    obtain ⟨test, type, inner, tested, repeated, rfl⟩ := Statement.lower_loop lowered
    have top : Profile 0 [.label next] 0 0 := level (Nat.le_refl 0) rfl
    have back : Profile 0 [.jump next, .label (next + 1)] 0 0 :=
      (level (Nat.le_refl 0) rfl).append (level (Nat.le_refl 0) rfl)
    have whole := (top.append (of_test tested (next + 1))).append ((ih repeated).append back)
    rw [loopCode, List.append_assoc, List.append_assoc [Instruction.label next]]
    exact whole.of_eq rfl (by rw [Statement.depth]; omega)
  | block position body ih => exact of_lowerAll (fun s member => ih s member) lowered
  | write position values =>
    obtain ⟨inner, here, rfl, rfl⟩ := Statement.lower_write lowered
    have pile : Profile 0 inner (0 + values.length) (max 0 (pileDepth 0 values)) :=
      of_lowerValues here
    have print : Profile (0 + values.length) [.print values.length] 0 (0 + values.length) := by
      refine level (Nat.le_add_left _ _) ?_
      simp [Instruction.after, Instruction.pops, Instruction.pushes]
    have whole := pile.append print
    have last := pile.last_le
    exact whole.of_eq rfl (by rw [Statement.depth]; omega)
  | read position targets => exact of_lowerRead (Statement.lower_read lowered).1
  | openFile position target fileName =>
    obtain ⟨inner, type, here, rfl, rfl⟩ := Statement.lower_openFile lowered
    have operand : Profile 0 inner 1 (0 + fileName.depth) := of_lower here
    have opened : Profile 1 [.openFile] 1 1 := joins 0 rfl rfl rfl
    have save : Profile 1 [.save target.name] 0 1 := drops rfl rfl rfl
    have pos := fileName.depth_pos
    exact (operand.append (opened.append save)).of_eq rfl (by rw [Statement.depth]; omega)
  | fileOutput position file values =>
    obtain ⟨handle, type, inner, here, there, rfl, rfl⟩ := Statement.lower_fileOutput lowered
    have handled : Profile 0 handle 1 (0 + file.depth) := of_lower here
    have pile : Profile 1 inner (1 + values.length) (max 1 (pileDepth 1 values)) :=
      of_lowerValues there
    have output : Profile (0 + values.length + 1) [.appendFile values.length] 1 _ :=
      joins values.length rfl rfl rfl
    have drop : Profile 1 [.pop] 0 1 := drops rfl rfl rfl
    rw [Nat.add_comm 1] at pile
    rw [Nat.zero_add] at output
    have whole := (handled.append pile).append (output.append drop)
    have last := pile.last_le
    have pos := file.depth_pos
    exact whole.of_eq rfl (by rw [Statement.depth]; omega)
  | empty position =>
    cases lowered
    exact .nil 0

end Profile

section Reached

variable {record : TypeRecord} {program : Program} {labels : LabelTable} {next last : Label}
variable {report : StackReport program.instructions.size} {start stop : Nat}
variable {code : List Instruction}

/-- Control that comes to a test comes to both of its branches, and the table knows its depth. -/
theorem reached_test (resolved : program.resolve = .ok labels)
    (settled : report.Settled program labels []) {e : Expression} {type : StaticType}
    (lowered : e.lower record = .ok (code, type)) (segment : program.Segment start code stop)
    {label : Label} (found : program.instructions[stop]? = some (.jumpIfFalse label))
    {target : Nat} (defined : program.instructions[target]? = some (.label label))
    (admitted : report.Admits start 0) :
    e.depth ≤ report.deepest ∧ report.Admits (stop + 1) 0 ∧ report.Admits (target + 1) 0 := by
  have operand : Profile 0 code 1 (0 + e.depth) := Profile.of_lower lowered
  obtain ⟨known, arrives⟩ := admits_of_straight settled segment (straight_of_lower lowered)
    operand admitted (Nat.zero_le _)
  have entry := Program.entry?_of_getElem? resolved defined
  have both : Walk.successors labels stop (.jumpIfFalse label) = [stop + 1, target + 1] := by
    simp [Walk.successors, entry]
  have leads : ∀ next ∈ [stop + 1, target + 1], report.Admits next 0 := by
    intro next member
    rw [← both] at member
    exact (admits_of_successor settled arrives found member).2
  rw [Nat.zero_add] at known
  exact ⟨known, leads _ List.mem_cons_self, leads _ (List.mem_cons_of_mem _ List.mem_cons_self)⟩

/-- Control that comes to a jump comes to what follows the label it aims at. -/
theorem reached_jump (resolved : program.resolve = .ok labels)
    (settled : report.Settled program labels []) {label : Label}
    (found : program.instructions[start]? = some (.jump label)) {target : Nat}
    (defined : program.instructions[target]? = some (.label label))
    (admitted : report.Admits start 0) : report.Admits (target + 1) 0 := by
  have entry := Program.entry?_of_getElem? resolved defined
  have member : target + 1 ∈ Walk.successors labels start (.jump label) := by
    simp [Walk.successors, entry]
  exact (admits_of_successor settled admitted found member).2

theorem reached_all {body : List Statement}
    (each : ∀ s ∈ body, ∀ {next code last start stop}, s.lower record next = .ok (code, last) →
      program.Segment start code stop → report.Admits start 0 →
      s.depth ≤ report.deepest ∧ report.Admits stop 0)
    (lowered : lowerAll record next body = .ok (code, last))
    (segment : program.Segment start code stop) (admitted : report.Admits start 0) :
    Statement.depthAll body ≤ report.deepest ∧ report.Admits stop 0 := by
  induction body generalizing code next last start with
  | nil =>
    cases lowered
    cases segment
    exact ⟨Nat.zero_le _, admitted⟩
  | cons s rest ih =>
    obtain ⟨first, middle, later, here, there, rfl⟩ := lowerAll_cons lowered
    obtain ⟨between, segment, laterSegment⟩ := Program.segment_append.mp segment
    obtain ⟨own, others⟩ := List.forall_mem_cons.mp each
    obtain ⟨known, arrives⟩ := own here segment admitted
    obtain ⟨laterKnown, laterArrives⟩ := ih others there laterSegment arrives
    exact ⟨Nat.max_le.mpr ⟨known, laterKnown⟩, laterArrives⟩

/-- Every branch of a statement is reached, so the table knows the depth of all of it. -/
theorem reached_statement (resolved : program.resolve = .ok labels)
    (settled : report.Settled program labels []) {s : Statement}
    (lowered : s.lower record next = .ok (code, last))
    (segment : program.Segment start code stop) (admitted : report.Admits start 0) :
    s.depth ≤ report.deepest ∧ report.Admits stop 0 := by
  induction s generalizing code next last start stop with
  | conditional position condition positive negative positiveIH negativeIH =>
    obtain ⟨test, type, first, middle, second, tested, branch, otherwise, rfl⟩ :=
      Statement.lower_conditional lowered
    obtain ⟨p₁, p₂, p₃, testSegment, branches, firstSegment, jumps, other, secondSegment, final,
      rfl⟩ := Program.segment_conditional segment
    obtain ⟨testKnown, taken, skipped⟩ :=
      reached_test resolved settled tested testSegment branches other admitted
    obtain ⟨firstKnown, arrives⟩ := positiveIH branch firstSegment taken
    obtain ⟨secondKnown, _⟩ := reached_all (fun s member => negativeIH s member)
      otherwise secondSegment skipped
    rw [Statement.depth_conditional]
    exact ⟨Nat.max_le.mpr ⟨testKnown, Nat.max_le.mpr ⟨firstKnown, secondKnown⟩⟩,
      reached_jump resolved settled jumps final arrives⟩
  | loop position condition body ih =>
    obtain ⟨test, type, inner, tested, repeated, rfl⟩ := Statement.lower_loop lowered
    obtain ⟨p₁, p₂, top, testSegment, branches, innerSegment, jumps, final, rfl⟩ :=
      Program.segment_loop segment
    have opened : report.Admits (start + 1) 0 :=
      (admits_of_successor settled admitted top (List.mem_cons_self)).2
    obtain ⟨testKnown, taken, left⟩ :=
      reached_test resolved settled tested testSegment branches final opened
    obtain ⟨innerKnown, _⟩ := ih repeated innerSegment taken
    exact ⟨Nat.max_le.mpr ⟨testKnown, innerKnown⟩, left⟩
  | block position body ih =>
    exact reached_all (fun s member => ih s member) lowered segment admitted
  | _ =>
    have straight := straight_of_simple rfl lowered
    exact admits_of_straight settled segment straight.1 (Profile.of_statement lowered) admitted
      (Nat.zero_le _)

end Reached

/--
Whatever record a tree is lowered by, the verifier accepts the program and reports the depth of the
tree, unless there are so many branchings that their labels, two for each, run over.
-/
theorem verify_of_lowered (tree : Tree) (record : TypeRecord) (program : Program)
    (lowered : tree.lower record = .ok program) (few : 2 * tree.branchings < UInt32.size) :
    ∃ report, program.verify = .ok report ∧ report.deepest = tree.depth := by
  obtain ⟨labels, resolved⟩ := Tree.exists_resolve lowered few
  obtain ⟨last, emitted⟩ := Tree.lower_eq_ok lowered
  have profile : Profile 0 program.toList 0 tree.depth :=
    Profile.of_lowerAll (fun s _ => Profile.of_statement) emitted
  obtain ⟨report, verified, within⟩ := Program.verify_of_profile resolved profile
  refine ⟨report, verified, Nat.le_antisymm within ?_⟩
  obtain ⟨others, sameLabels, settled⟩ := Program.settled_of_verify verified
  have admitted : report.Admits 0 0 := by
    rcases settled.entry with here | waits
    · exact here
    · cases waits
  have reached := reached_all (fun s _ => reached_statement sameLabels settled) emitted
    program.segment_toList admitted
  exact reached.1

/-- A loop around a conditional, lowered by a record that takes every node for an int. -/
theorem verify_of_lowered_loop :
    let at0 : Position := ⟨1, 0⟩
    let one : Expression := .literal ⟨0, at0⟩ (.int 1)
    let sum : Expression := .binary ⟨0, at0⟩ .add one (.binary ⟨0, at0⟩ .multiply one one)
    let tree : Tree := [.loop at0 one (.conditional at0 one (.write at0 [one, sum]) none)]
    let record : TypeRecord := ⟨.empty, Std.HashMap.ofList [(0, .int)]⟩
    ∃ program, tree.lower record = .ok program ∧ 2 * tree.branchings < UInt32.size ∧
      ∃ report, program.verify = .ok report ∧ report.deepest = 4 := by
  intro at0 one sum tree record
  have lowered : ∃ program, tree.lower record = .ok program := by
    have known : record.typeOf 0 = .int := by simp [record, TypeRecord.typeOf]
    have resolved : record.resolvedType ⟨0, at0⟩ = .ok .int := by
      simp [TypeRecord.resolvedType, known]
    simp only [tree, sum, one, Tree.lower, lowerAll, Statement.lower, lowerValues,
      Expression.lower, Expression.emit, Expression.settle, Expression.layers, Expression.node,
      List.forM, BinaryOperator.kind, resolved]
    exact ⟨_, rfl⟩
  obtain ⟨program, lowered⟩ := lowered
  exact ⟨program, lowered, by decide, verify_of_lowered tree record program lowered (by decide)⟩

end StackLang
