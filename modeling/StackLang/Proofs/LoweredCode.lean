import StackLang.Lowering
import StackLang.Proofs.Effect
import StackLang.Proofs.Segment
import StackLang.Proofs.TreeShape

/-!
# What lowering emits

Each form of a statement and of an expression is lowered from the code of its
parts. The lemmas here read the parts off a successful lowering, so that no later
proof has to open the generator again. Nothing is assumed of the type record.
-/
namespace StackLang

variable {record : TypeRecord} {next last : Label} {code : List Instruction} {position : Position}

namespace Expression

variable {e : Expression} {emission : Emission} {type : StaticType}

/-- Settling adds nothing to the code of an emission but its final load. -/
theorem settle_eq_ok (settled : e.settle record emission = .ok (code, type)) :
    code = emission.loaded ∧ record.resolvedType e.node = .ok type := by
  rw [settle] at settled
  obtain ⟨_, _, settled⟩ := bind_eq_ok.mp settled
  obtain ⟨resolved, found, same⟩ := bind_eq_ok.mp settled
  cases same
  exact ⟨rfl, found⟩

theorem lower_eq_ok (lowered : e.lower record = .ok (code, type)) :
    ∃ emission, e.emit record = .ok emission ∧ code = emission.loaded ∧
      record.resolvedType e.node = .ok type := by
  obtain ⟨emission, emitted, settled⟩ := bind_eq_ok.mp lowered
  exact ⟨emission, emitted, settle_eq_ok settled⟩

theorem emit_literal {node : Node} {value : Value}
    (emitted : (literal node value).emit record = .ok emission) :
    emission.loaded = [.push value] := by
  obtain ⟨type, _, same⟩ := bind_eq_ok.mp emitted
  cases same
  rfl

theorem emit_variable {node : Node} {name : Identifier}
    (emitted : (Expression.variable node name).emit record = .ok emission) :
    emission.loaded = [.load name.name] := by
  obtain ⟨type, _, same⟩ := bind_eq_ok.mp emitted
  cases same
  rfl

theorem widening_cases (own other : StaticType) :
    widening own other = [] ∨ widening own other = [.widen] := by
  rw [widening]
  split
  · exact .inr rfl
  · exact .inl rfl

/-- The operands come first, each followed by what widens it, and then what joins them. -/
theorem emit_binary {node : Node} {operator : BinaryOperator} {lhs rhs : Expression}
    (emitted : (binary node operator lhs rhs).emit record = .ok emission) :
    ∃ left right, ∃ leftWidening rightWidening join : List Instruction, ∃ type place,
      lhs.emit record = .ok left ∧ rhs.emit record = .ok right ∧
      (leftWidening = [] ∨ leftWidening = [.widen]) ∧
      (rightWidening = [] ∨ rightWidening = [.widen]) ∧
      operator.code type place = .ok join ∧
      emission.loaded =
        left.loaded ++ leftWidening ++ (right.loaded ++ rightWidening) ++ join := by
  rw [emit] at emitted
  cases kind : operator.kind
  case concat | logical =>
    rw [kind] at emitted
    obtain ⟨left, leftEmitted, emitted⟩ := bind_eq_ok.mp emitted
    obtain ⟨⟨leftCode, leftType⟩, leftSettled, emitted⟩ := bind_eq_ok.mp emitted
    obtain ⟨right, rightEmitted, emitted⟩ := bind_eq_ok.mp emitted
    obtain ⟨⟨rightCode, rightType⟩, rightSettled, emitted⟩ := bind_eq_ok.mp emitted
    obtain ⟨join, joined, emitted⟩ := bind_eq_ok.mp emitted
    obtain ⟨type, _, same⟩ := bind_eq_ok.mp emitted
    cases same
    refine ⟨left, right, [], [], join, leftType, lhs.position, leftEmitted, rightEmitted, .inl rfl,
      .inl rfl, joined, ?_⟩
    simp [Emission.loaded, (settle_eq_ok leftSettled).1, (settle_eq_ok rightSettled).1]
  case arithmetic | equality | relational =>
    rw [kind] at emitted
    obtain ⟨leftType, _, emitted⟩ := bind_eq_ok.mp emitted
    obtain ⟨rightType, _, emitted⟩ := bind_eq_ok.mp emitted
    obtain ⟨left, leftEmitted, emitted⟩ := bind_eq_ok.mp emitted
    obtain ⟨⟨leftCode, _⟩, leftSettled, emitted⟩ := bind_eq_ok.mp emitted
    obtain ⟨right, rightEmitted, emitted⟩ := bind_eq_ok.mp emitted
    obtain ⟨⟨rightCode, _⟩, rightSettled, emitted⟩ := bind_eq_ok.mp emitted
    obtain ⟨join, joined, emitted⟩ := bind_eq_ok.mp emitted
    obtain ⟨type, _, same⟩ := bind_eq_ok.mp emitted
    cases same
    refine ⟨left, right, _, _, join, _, lhs.position, leftEmitted, rightEmitted,
      widening_cases leftType rightType, widening_cases rightType leftType, joined, ?_⟩
    simp [Emission.loaded, (settle_eq_ok leftSettled).1, (settle_eq_ok rightSettled).1]

theorem emit_unary {node : Node} {operator : UnaryOperator} {operand : Expression}
    (emitted : (unary node operator operand).emit record = .ok emission) :
    ∃ inner type, operand.emit record = .ok inner ∧
      emission.loaded = inner.loaded ++ operator.code type := by
  obtain ⟨inner, innerEmitted, emitted⟩ := bind_eq_ok.mp emitted
  obtain ⟨⟨innerCode, type⟩, settled, emitted⟩ := bind_eq_ok.mp emitted
  obtain ⟨_, _, same⟩ := bind_eq_ok.mp emitted
  cases same
  refine ⟨inner, type, innerEmitted, ?_⟩
  simp [Emission.loaded, (settle_eq_ok settled).1]

/-- The value is widened or not, saved, and loaded again. -/
theorem emit_assignment {node : Node} {target : Identifier} {value : Expression}
    (emitted : (assignment node target value).emit record = .ok emission) :
    ∃ inner, ∃ widening : List Instruction, value.emit record = .ok inner ∧
      (widening = [] ∨ widening = [.widen]) ∧
      emission.loaded =
        inner.loaded ++ widening ++ [Instruction.save target.name, .load target.name] := by
  obtain ⟨inner, innerEmitted, emitted⟩ := bind_eq_ok.mp emitted
  obtain ⟨type, _, same⟩ := bind_eq_ok.mp emitted
  cases same
  rw [Emission.save]
  split
  · exact ⟨inner, [.widen], innerEmitted, .inr rfl, by simp [Emission.loaded]⟩
  · exact ⟨inner, [], innerEmitted, .inl rfl, by simp [Emission.loaded]⟩

end Expression

/-- The values of a list are lowered one after the other. -/
theorem lowerValues_cons {e : Expression} {rest : List Expression}
    (lowered : lowerValues record (e :: rest) = .ok code) :
    ∃ first later type, e.lower record = .ok (first, type) ∧
      lowerValues record rest = .ok later ∧ code = first ++ later := by
  obtain ⟨⟨first, type⟩, here, lowered⟩ := bind_eq_ok.mp lowered
  obtain ⟨later, there, same⟩ := bind_eq_ok.mp lowered
  cases same
  exact ⟨first, later, type, here, there, rfl⟩

theorem lowerRead_cons {target : Identifier} {rest : List Identifier}
    (lowered : lowerRead record (target :: rest) = .ok code) :
    ∃ type tag later, record.variableType target = .ok type ∧ type.tag? = some tag ∧
      lowerRead record rest = .ok later ∧
      code = [Instruction.read tag, .save target.name] ++ later := by
  obtain ⟨type, found, lowered⟩ := bind_eq_ok.mp lowered
  obtain ⟨tag, encoded, lowered⟩ := bind_eq_ok.mp lowered
  obtain ⟨later, there, same⟩ := bind_eq_ok.mp lowered
  cases same
  refine ⟨type, tag, later, found, ?_, there, rfl⟩
  rw [encodedTag] at encoded
  split at encoded
  next tagged =>
    cases encoded
    exact tagged
  next => cases encoded

theorem lowerAll_cons {s : Statement} {rest : List Statement}
    (lowered : lowerAll record next (s :: rest) = .ok (code, last)) :
    ∃ first middle later, s.lower record next = .ok (first, middle) ∧
      lowerAll record middle rest = .ok (later, last) ∧ code = first ++ later := by
  obtain ⟨⟨first, middle⟩, here, lowered⟩ := bind_eq_ok.mp lowered
  obtain ⟨⟨later, _⟩, there, same⟩ := bind_eq_ok.mp lowered
  cases same
  exact ⟨first, middle, later, here, there, rfl⟩

namespace Statement

theorem lower_expression {value : Expression}
    (lowered : (expression position value).lower record next = .ok (code, last)) :
    ∃ first type, value.lower record = .ok (first, type) ∧ code = first ++ [Instruction.pop] ∧
      last = next := by
  obtain ⟨⟨first, type⟩, here, same⟩ := bind_eq_ok.mp lowered
  cases same
  exact ⟨first, type, here, rfl, rfl⟩

theorem lower_conditional {condition : Expression} {positive : Statement}
    {negative : Option Statement}
    (lowered : (conditional position condition positive negative).lower record next =
      .ok (code, last)) :
    ∃ test type first middle second, condition.lower record = .ok (test, type) ∧
      positive.lower record (next + 2) = .ok (first, middle) ∧
      lowerAll record middle negative.toList = .ok (second, last) ∧
      code = conditionalCode next (next + 1) test first second := by
  rw [lower] at lowered
  obtain ⟨⟨test, type⟩, tested, lowered⟩ := bind_eq_ok.mp lowered
  obtain ⟨⟨first, middle⟩, branch, lowered⟩ := bind_eq_ok.mp lowered
  cases negative with
  | none =>
    obtain ⟨⟨second, _⟩, otherwise, same⟩ := bind_eq_ok.mp lowered
    cases same
    exact ⟨test, type, first, middle, second, tested, branch, otherwise, rfl⟩
  | some negative =>
    obtain ⟨⟨second, _⟩, otherwise, same⟩ := bind_eq_ok.mp lowered
    cases same
    refine ⟨test, type, first, middle, second, tested, branch, ?_, rfl⟩
    unfold lowerAll
    refine bind_eq_ok.mpr ⟨_, otherwise, bind_eq_ok.mpr ⟨([], last), rfl, ?_⟩⟩
    simp [pure, Except.pure]

theorem lower_loop {condition : Expression} {body : Statement}
    (lowered : (loop position condition body).lower record next = .ok (code, last)) :
    ∃ test type inner, condition.lower record = .ok (test, type) ∧
      body.lower record (next + 2) = .ok (inner, last) ∧
      code = loopCode next (next + 1) test inner := by
  obtain ⟨⟨test, type⟩, tested, lowered⟩ := bind_eq_ok.mp lowered
  obtain ⟨⟨inner, _⟩, repeated, same⟩ := bind_eq_ok.mp lowered
  cases same
  exact ⟨test, type, inner, tested, repeated, rfl⟩

theorem lower_write {values : List Expression}
    (lowered : (write position values).lower record next = .ok (code, last)) :
    ∃ inner, lowerValues record values = .ok inner ∧
      code = inner ++ [Instruction.print values.length] ∧ last = next := by
  obtain ⟨inner, here, same⟩ := bind_eq_ok.mp lowered
  cases same
  exact ⟨inner, here, rfl, rfl⟩

theorem lower_read {targets : List Identifier}
    (lowered : (read position targets).lower record next = .ok (code, last)) :
    lowerRead record targets = .ok code ∧ last = next := by
  obtain ⟨inner, here, same⟩ := bind_eq_ok.mp lowered
  cases same
  exact ⟨here, rfl⟩

theorem lower_openFile {target : Identifier} {fileName : Expression}
    (lowered : (openFile position target fileName).lower record next = .ok (code, last)) :
    ∃ inner type, fileName.lower record = .ok (inner, type) ∧
      code = inner ++ [Instruction.openFile, .save target.name] ∧ last = next := by
  obtain ⟨⟨inner, type⟩, here, same⟩ := bind_eq_ok.mp lowered
  cases same
  exact ⟨inner, type, here, rfl, rfl⟩

theorem lower_fileOutput {file : Expression} {values : List Expression}
    (lowered : (fileOutput position file values).lower record next = .ok (code, last)) :
    ∃ handle type inner, file.lower record = .ok (handle, type) ∧
      lowerValues record values = .ok inner ∧
      code = handle ++ inner ++ [Instruction.appendFile values.length, .pop] ∧ last = next := by
  obtain ⟨⟨handle, type⟩, here, lowered⟩ := bind_eq_ok.mp lowered
  obtain ⟨inner, there, same⟩ := bind_eq_ok.mp lowered
  cases same
  exact ⟨handle, type, inner, here, there, rfl, rfl⟩

end Statement

theorem Tree.lower_eq_ok {tree : Tree} {program : Program}
    (lowered : tree.lower record = .ok program) :
    ∃ last, lowerAll record 0 tree = .ok (program.toList, last) := by
  obtain ⟨⟨code, last⟩, here, same⟩ := bind_eq_ok.mp lowered
  cases same
  exact ⟨last, here⟩

/-- Whether an instruction defines a label or may move control to one. -/
def Instruction.isControl (i : Instruction) : Bool :=
  i.target?.isSome || i.definedLabel?.isSome

/-- Code through which control passes from its first instruction to its last. -/
def Straight (code : List Instruction) : Prop :=
  ∀ i ∈ code, i.isControl = false

section Straight

variable {first second : List Instruction}

theorem Straight.nil : Straight [] :=
  List.forall_mem_nil _

theorem Straight.cons {i : Instruction} {rest : List Instruction} (plain : i.isControl = false)
    (later : Straight rest) : Straight (i :: rest) :=
  List.forall_mem_cons.mpr ⟨plain, later⟩

theorem Straight.append (straight : Straight first) (later : Straight second) :
    Straight (first ++ second) := by
  intro i member
  rcases List.mem_append.mp member with here | there
  · exact straight i here
  · exact later i there

theorem straight_widening {widening : List Instruction}
    (shape : widening = [] ∨ widening = [.widen]) : Straight widening := by
  rcases shape with rfl | rfl
  · exact .nil
  · exact .cons rfl .nil

theorem straight_join {operator : BinaryOperator} {type : StaticType} {place : Position}
    {join : List Instruction} (joined : operator.code type place = .ok join) : Straight join := by
  cases operator
  case equal =>
    obtain ⟨tag, _, same⟩ := bind_eq_ok.mp joined
    cases same
    exact .cons rfl .nil
  case notEqual =>
    obtain ⟨tag, _, same⟩ := bind_eq_ok.mp joined
    cases same
    exact .cons rfl (.cons rfl .nil)
  all_goals
    cases joined
    exact .cons rfl .nil

/-- Expressions emit no labels and no jumps. -/
theorem straight_of_emit {e : Expression} {emission : Emission}
    (emitted : e.emit record = .ok emission) : Straight emission.loaded := by
  induction e generalizing emission with
  | literal node value =>
    rw [Expression.emit_literal emitted]
    exact .cons rfl .nil
  | «variable» node name =>
    rw [Expression.emit_variable emitted]
    exact .cons rfl .nil
  | grouping node inner ih => exact ih emitted
  | binary node operator lhs rhs leftIH rightIH =>
    obtain ⟨left, right, leftWidening, rightWidening, join, type, place, leftEmitted, rightEmitted,
      leftShape, rightShape, joined, code⟩ := Expression.emit_binary emitted
    rw [code]
    have left := (leftIH leftEmitted).append (straight_widening leftShape)
    have right := (rightIH rightEmitted).append (straight_widening rightShape)
    exact (left.append right).append (straight_join joined)
  | unary node operator operand ih =>
    obtain ⟨inner, type, innerEmitted, code⟩ := Expression.emit_unary emitted
    rw [code]
    apply (ih innerEmitted).append
    cases operator <;> exact .cons rfl .nil
  | assignment node target value ih =>
    obtain ⟨inner, widening, innerEmitted, shape, code⟩ := Expression.emit_assignment emitted
    rw [code]
    exact ((ih innerEmitted).append (straight_widening shape)).append (.cons rfl (.cons rfl .nil))

theorem straight_of_lower {e : Expression} {type : StaticType}
    (lowered : e.lower record = .ok (code, type)) : Straight code := by
  obtain ⟨emission, emitted, rfl, _⟩ := Expression.lower_eq_ok lowered
  exact straight_of_emit emitted

theorem straight_of_lowerValues {values : List Expression}
    (lowered : lowerValues record values = .ok code) : Straight code := by
  induction values generalizing code with
  | nil =>
    cases lowered
    exact .nil
  | cons e rest ih =>
    obtain ⟨first, later, type, here, there, rfl⟩ := lowerValues_cons lowered
    exact (straight_of_lower here).append (ih there)

theorem straight_of_lowerRead {targets : List Identifier}
    (lowered : lowerRead record targets = .ok code) : Straight code := by
  induction targets generalizing code with
  | nil =>
    cases lowered
    exact .nil
  | cons target rest ih =>
    obtain ⟨type, tag, later, _, _, there, rfl⟩ := lowerRead_cons lowered
    exact .cons rfl (.cons rfl (ih there))

theorem straight_lowerDeclaration (type : PrimitiveType) (names : List Identifier) :
    Straight (lowerDeclaration type names) := by
  rw [lowerDeclaration]
  split
  · exact .nil
  · induction names with
    | nil => exact .nil
    | cons name rest ih => exact .cons rfl (.cons rfl ih)

/-- Whether a statement has no statements inside and is no branching. -/
def Statement.isSimple : Statement → Bool
  | .conditional .. | .loop .. | .block .. => false
  | _ => true

/-- The code of a simple statement is straight and takes no labels. -/
theorem straight_of_simple {s : Statement} (simple : s.isSimple = true)
    (lowered : s.lower record next = .ok (code, last)) : Straight code ∧ last = next := by
  cases s with
  | declaration position type names =>
    cases lowered
    exact ⟨straight_lowerDeclaration type names, rfl⟩
  | expression position value =>
    obtain ⟨first, type, here, rfl, rfl⟩ := Statement.lower_expression lowered
    exact ⟨(straight_of_lower here).append (.cons rfl .nil), rfl⟩
  | conditional | loop | block => cases simple
  | write position values =>
    obtain ⟨inner, here, rfl, rfl⟩ := Statement.lower_write lowered
    exact ⟨(straight_of_lowerValues here).append (.cons rfl .nil), rfl⟩
  | read position targets =>
    obtain ⟨here, rfl⟩ := Statement.lower_read lowered
    exact ⟨straight_of_lowerRead here, rfl⟩
  | openFile position target fileName =>
    obtain ⟨inner, type, here, rfl, rfl⟩ := Statement.lower_openFile lowered
    exact ⟨(straight_of_lower here).append (.cons rfl (.cons rfl .nil)), rfl⟩
  | fileOutput position file values =>
    obtain ⟨handle, type, inner, here, there, rfl, rfl⟩ := Statement.lower_fileOutput lowered
    exact ⟨((straight_of_lower here).append (straight_of_lowerValues there)).append
      (.cons rfl (.cons rfl .nil)), rfl⟩
  | empty position =>
    cases lowered
    exact ⟨.nil, rfl⟩

end Straight

end StackLang
