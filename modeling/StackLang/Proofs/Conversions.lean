import Mathlib.Data.List.Forall2
import StackLang.Proofs.SiteCode

/-!
# Where an int becomes a float

Two kinds of nodes ask for a conversion: a sum or an ordering of an int and a
float, and an assignment of an int to a float variable. The program of an
accepted tree converts exactly there. Its conversions, from the first to the
last, correspond to those nodes one to one, and each of them follows the code of
the int that the node converts.
-/
namespace StackLang

variable {record : TypeRecord} {policy : LogicalPolicy} {code : List Instruction}

/-- Whether an operator converts an operand of one type that meets an operand of another. -/
def BinaryOperator.converts (operator : BinaryOperator) (own other : StaticType) : Bool :=
  (operator.kind = .arithmetic || operator.kind = .relational) && own = .int && other = .float

/-- A node that converts an operand, and the operand. -/
structure Conversion where
  node : Expression
  operand : Expression

namespace Expression

/-- Arithmetic or an ordering, of an int and a float. -/
def isMixed (record : TypeRecord) : Expression → Bool
  | .binary _ operator lhs rhs =>
    operator.converts (record.typeOf lhs.id) (record.typeOf rhs.id) ||
      operator.converts (record.typeOf rhs.id) (record.typeOf lhs.id)
  | _ => false

/-- An assignment of an int to a float variable. -/
def isPromoting (record : TypeRecord) : Expression → Bool
  | .assignment _ target value =>
    record.symbols.typeOf? target.name = some .float && record.typeOf value.id = .int
  | _ => false

/-- The node asks for a conversion. -/
def isConverting (record : TypeRecord) (e : Expression) : Bool :=
  e.isMixed record || e.isPromoting record

/-- The expressions right inside an expression. -/
def operands : Expression → List Expression
  | .literal .. | .variable .. => []
  | .grouping _ inner => [inner]
  | .binary _ _ lhs rhs => [lhs, rhs]
  | .unary _ _ operand => [operand]
  | .assignment _ _ value => [value]

/-- The conversions in an expression. Those of an operand come before that of the operand itself. -/
def conversions (record : TypeRecord) : Expression → List Conversion
  | .literal .. | .variable .. => []
  | .grouping _ inner => inner.conversions record
  | .binary node operator lhs rhs =>
    let left := record.typeOf lhs.id
    let right := record.typeOf rhs.id
    let whole : Expression := .binary node operator lhs rhs
    lhs.conversions record ++ (if operator.converts left right then [⟨whole, lhs⟩] else []) ++
      (rhs.conversions record ++ if operator.converts right left then [⟨whole, rhs⟩] else [])
  | .unary _ _ operand => operand.conversions record
  | .assignment node target value =>
    let whole : Expression := .assignment node target value
    value.conversions record ++ if whole.isPromoting record then [⟨whole, value⟩] else []

end Expression

/-- The conversion is one of an operand of its node. It is done at the place, where the code of
the operand as an int has just come to its end. -/
structure Conversion.DoneAt (record : TypeRecord) (code : List Instruction)
    (conversion : Conversion) (place : Nat) : Prop where
  inside : conversion.operand ∈ conversion.node.operands
  done : code[place]? = some .widen
  behind : ∃ own, conversion.operand.lower record = .ok (own, .int) ∧ own <:+ code.take place

/-- The conversions in some code are the given ones, in their order. -/
def Converts (record : TypeRecord) (code : List Instruction) (conversions : List Conversion) :
    Prop :=
  List.Forall₂ (Conversion.DoneAt record code) conversions (code.findIdxs Instruction.isWiden)

section Composition

variable {first second : List Instruction} {conversions others : List Conversion}

namespace Conversion.DoneAt

variable {conversion : Conversion} {place : Nat}

theorem append_right (done : conversion.DoneAt record first place) :
    conversion.DoneAt record (first ++ second) place := by
  obtain ⟨own, lowered, suffix⟩ := done.behind
  have within : place < first.length := (List.getElem?_eq_some_iff.mp done.done).1
  refine ⟨done.inside, ?_, own, lowered, ?_⟩
  · rw [List.getElem?_append_left within]
    exact done.done
  · rwa [List.take_append_of_le_length (Nat.le_of_lt within)]

theorem append_left (done : conversion.DoneAt record second place) :
    conversion.DoneAt record (first ++ second) (place + first.length) := by
  obtain ⟨own, lowered, suffix⟩ := done.behind
  refine ⟨done.inside, ?_, own, lowered, ?_⟩
  · rw [List.getElem?_append_right (Nat.le_add_left _ _), Nat.add_sub_cancel]
    exact done.done
  · rw [Nat.add_comm, List.take_length_add_append]
    exact suffix.trans (List.suffix_append _ _)

end Conversion.DoneAt

namespace Converts

theorem append (converts : Converts record first conversions)
    (later : Converts record second others) :
    Converts record (first ++ second) (conversions ++ others) := by
  rw [Converts, List.findIdxs_append, List.findIdxs_start (s := 0 + first.length), Nat.zero_add]
  refine List.rel_append (converts.imp fun _ _ done => done.append_right) ?_
  exact List.forall₂_map_right_iff.mpr (later.imp fun _ _ done => done.append_left)

theorem of_plain (plain : ∀ i ∈ code, i.isWiden = false) : Converts record code [] := by
  rw [Converts, List.findIdxs_eq_nil_iff.mpr plain]
  exact .nil

theorem append_plain (converts : Converts record first conversions)
    (plain : ∀ i ∈ second, i.isWiden = false) : Converts record (first ++ second) conversions := by
  rw [← List.append_nil conversions]
  exact converts.append (.of_plain plain)

/-- A conversion right behind the code of its operand. -/
theorem widen {conversion : Conversion} (converts : Converts record first conversions)
    (inside : conversion.operand ∈ conversion.node.operands)
    (lowered : conversion.operand.lower record = .ok (first, .int)) :
    Converts record (first ++ [.widen]) (conversions ++ [conversion]) := by
  rw [Converts, List.findIdxs_append]
  refine List.rel_append (converts.imp fun _ _ done => done.append_right) ?_
  refine .cons ⟨inside, ?_, first, lowered, ?_⟩ .nil
  · rw [Nat.zero_add]
    exact List.getElem?_concat_length
  · simp only [Nat.zero_add, List.take_left, List.suffix_rfl]

end Converts

end Composition

section Nodes

/-- Only an int that meets a float is widened. -/
theorem widening_eq (own other : StaticType) :
    widening own other = if own = .int ∧ other = .float then [.widen] else [] := by
  cases own <;> cases other <;> rfl

/-- Operators that convert nothing have operands of one type. -/
theorem BinaryOperator.Types.converts_iff {operator : BinaryOperator}
    {left right type : StaticType} (types : operator.Types policy left right type) :
    (operator.converts left right = true ↔ left = .int ∧ right = .float) ∧
      (operator.converts right left = true ↔ right = .int ∧ left = .float) := by
  cases types with
  | arithmetic kind | relational kind => simp [converts, kind]
  | concat kind => simp [converts, kind]
  | equality kind | logical kind => cases left <;> simp [converts, kind]

theorem isWiden_joining {operator : BinaryOperator} {type : StaticType} :
    ∀ i ∈ operator.joining type, i.isWiden = false := by
  intro i member
  cases operator with
  | equal =>
    obtain ⟨tag, _, rfl⟩ := Option.map_eq_some_iff.mp (Option.mem_toList.mp member)
    rfl
  | notEqual =>
    rcases List.mem_append.mp member with compares | negates
    · obtain ⟨tag, _, rfl⟩ := Option.map_eq_some_iff.mp (Option.mem_toList.mp compares)
      rfl
    · cases List.mem_singleton.mp negates
      rfl
  | _ =>
    cases List.mem_singleton.mp member
    rfl

/-- An operand with what widens it, where its node asks for a conversion of it. -/
theorem Converts.operand {operand : Expression} {own other : StaticType} {asks : Bool}
    {conversions : List Conversion} (node : Expression)
    (converts : Converts record (operand.code record) conversions)
    (inside : operand ∈ node.operands)
    (lowered : operand.lower record = .ok (operand.code record, own))
    (agree : asks = true ↔ own = .int ∧ other = .float) :
    Converts record (operand.code record ++ widening own other)
      (conversions ++ if asks then [⟨node, operand⟩] else []) := by
  rw [widening_eq]
  by_cases mixed : own = .int ∧ other = .float
  · rw [if_pos mixed, if_pos (agree.mpr mixed)]
    exact converts.widen inside (mixed.1 ▸ lowered)
  · rw [if_neg mixed, if_neg fun asked => mixed (agree.mp asked), List.append_nil,
      List.append_nil]
    exact converts

/-- The code of an annotated expression converts what its nodes ask to be converted. -/
theorem Expression.Annotated.converts {types : Declarations} (holds : record.symbols.Holds types)
    {e : Expression} {type : StaticType} (annotated : e.Annotated record policy type) :
    Converts record (e.code record) (e.conversions record) := by
  induction annotated with
  | literal | «variable» => exact .of_plain (List.forall_mem_singleton.mpr rfl)
  | grouping _ _ _ ih => exact ih
  | @binary node operator lhs rhs left right type lhsPart rhsPart operands known leftIH rightIH =>
    obtain ⟨first, second⟩ := operands.converts_iff
    rw [code, conversions, lhsPart.known, rhsPart.known]
    have left := leftIH.operand (.binary node operator lhs rhs) List.mem_cons_self
      (lhsPart.lower holds) first
    have right := rightIH.operand (.binary node operator lhs rhs)
      (List.mem_cons_of_mem _ List.mem_cons_self) (rhsPart.lower holds) second
    exact (left.append right).append_plain isWiden_joining
  | @unary node operator operand inner type part types known ih =>
    refine Converts.append_plain ih ?_
    cases operator <;> exact List.forall_mem_singleton.mpr rfl
  | @assignment node target value declaredType type declared part accepts known ih =>
    have asks : (Expression.assignment node target value).isPromoting record = true ↔
        type = .int ∧ declaredType = .float := by
      simp [isPromoting, declared, part.known, and_comm]
    rw [code, conversions, part.known, known]
    have saved := ih.operand (.assignment node target value) List.mem_cons_self
      (part.lower holds) asks
    refine saved.append_plain (List.forall_mem_cons.mpr ⟨rfl, ?_⟩)
    exact List.forall_mem_singleton.mpr rfl

/-- Code that is woven from expressions converts what they ask to be converted. -/
theorem Woven.converts {types : Declarations} (holds : record.symbols.Holds types)
    {expressions : List Expression} (woven : Woven record expressions code)
    (annotated : ∀ e ∈ expressions, ∃ type, e.Annotated record policy type) :
    Converts record code (expressions.flatMap (Expression.conversions record)) := by
  induction woven with
  | nil => exact .of_plain (List.forall_mem_nil _)
  | instruction plain _ ih =>
    have own : Converts record [_] [] := .of_plain (List.forall_mem_singleton.mpr plain)
    exact own.append (ih annotated)
  | expression e _ ih =>
    obtain ⟨⟨type, own⟩, others⟩ := List.forall_mem_cons.mp annotated
    rw [List.flatMap_cons]
    exact (own.converts holds).append (ih others)

end Nodes

section Sites

/-- What two operands ask for is asked for by their node, and by at most one of them. -/
theorem nodes_binary (record : TypeRecord) (node : Node) (operator : BinaryOperator)
    (lhs rhs : Expression) :
    let whole : Expression := .binary node operator lhs rhs
    let left := record.typeOf lhs.id
    let right := record.typeOf rhs.id
    (if operator.converts left right then [whole] else []) ++
        (if operator.converts right left then [whole] else []) =
      [whole].filter (Expression.isConverting record) := by
  intro whole left right
  have asks : whole.isConverting record =
      (operator.converts left right || operator.converts right left) := Bool.or_false _
  rw [List.filter_singleton, asks]
  cases first : operator.converts left right with
  | false => cases operator.converts right left <;> rfl
  | true =>
    have single : operator.converts right left = false := by
      simp only [BinaryOperator.converts, Bool.and_eq_true, decide_eq_true_eq] at first ⊢
      simp [first.2]
    rw [single]
    rfl

theorem map_node_ite (asks : Bool) (node operand : Expression) :
    (if asks then [Conversion.mk node operand] else []).map Conversion.node =
      if asks then [node] else [] := by
  cases asks <;> rfl

/-- Every node that asks for a conversion has one, and no node has another. -/
theorem Expression.nodes_conversions (record : TypeRecord) (e : Expression) :
    ((e.conversions record).map Conversion.node).Perm (e.parts.filter (isConverting record)) := by
  induction e with
  | literal | «variable» => exact .nil
  | grouping node inner ih | unary node _ inner ih =>
    rw [parts, List.filter_append]
    exact ih.trans (List.append_nil _ ▸ .refl _)
  | binary node operator lhs rhs leftIH rightIH =>
    rw [parts, List.filter_append, List.filter_append, ← nodes_binary, conversions]
    simp only [List.map_append, List.append_assoc, map_node_ite]
    refine leftIH.append ?_
    rw [← List.append_assoc, ← List.append_assoc]
    exact (List.perm_append_comm.trans (rightIH.append_right _)).append_right _
  | assignment node target value ih =>
    rw [parts, List.filter_append, conversions, List.map_append, map_node_ite]
    refine ih.append ?_
    have asks : (Expression.assignment node target value).isConverting record =
        (Expression.assignment node target value).isPromoting record := Bool.false_or _
    rw [List.filter_singleton, asks]
    cases (Expression.assignment node target value).isPromoting record <;> exact .refl _

/-- The two kinds of nodes that ask for conversions have nothing in common. -/
theorem Expression.countP_isConverting (record : TypeRecord) (parts : List Expression) :
    parts.countP (isConverting record) =
      parts.countP (isMixed record) + parts.countP (isPromoting record) := by
  induction parts with
  | nil => rfl
  | cons e rest ih =>
    rw [List.countP_cons, List.countP_cons, List.countP_cons, ih, isConverting]
    have either : e.isMixed record = false ∨ e.isPromoting record = false := by
      cases e <;> simp [isMixed, isPromoting]
    rcases either with unmixed | kept
    · rw [unmixed, Bool.false_or]
      simp only [Bool.false_eq_true, if_false]
      omega
    · rw [kept, Bool.or_false]
      simp only [Bool.false_eq_true, if_false]
      omega

end Sites

namespace Tree

variable {options : CheckOptions} {tree : Tree}

/-- The conversions in a tree, in the order of the text. -/
def conversions (record : TypeRecord) (tree : Tree) : List Conversion :=
  tree.expressions.flatMap (Expression.conversions record)

/-- The nodes of the conversions are those of the sites that ask for one. -/
theorem nodes_conversions (record : TypeRecord) (tree : Tree) :
    ((tree.conversions record).map Conversion.node).Perm
      ((tree.sites.map Prod.snd).filter (Expression.isConverting record)) := by
  rw [sites_eq, conversions]
  induction tree.expressions with
  | nil => exact .nil
  | cons e rest ih =>
    rw [List.flatMap_cons, List.flatMap_cons, List.map_append, List.filter_append]
    exact (e.nodes_conversions record).append ih

/--
An accepted tree has a program that converts ints to floats as often as there are
mixed pairs of operands and assignments of ints to float variables in the tree.
The conversions of the program are those of these nodes, each of which has one
of its operands converted where the code of the operand ends, and no others.
-/
theorem converts_where_asked (options : CheckOptions) (tree : Tree) (record : TypeRecord)
    (checked : tree.check options = .ok record) (distinct : tree.ids.Nodup) :
    ∃ program, tree.compile options = .ok program ∧
      program.toList.countP Instruction.isWiden =
        tree.sites.countP (fun site => site.2.isMixed record) +
          tree.sites.countP (fun site => site.2.isPromoting record) ∧
      ((tree.conversions record).map Conversion.node).Perm
        ((tree.sites.map Prod.snd).filter (Expression.isConverting record)) ∧
      List.Forall₂ (Conversion.DoneAt record program.toList) (tree.conversions record)
        (program.toList.findIdxs Instruction.isWiden) ∧
      ∀ site ∈ tree.sites, ∃ type, site.2.HasOnlyType options.logical site.1 type ∧
        record.typeOf site.2.id = type.static := by
  obtain ⟨program, compiled, woven⟩ := exists_woven distinct checked
  have known := Statement.annotated_expressionsAll (fun s _ own => own.expressions)
    (Tree.annotated distinct checked)
  have converts := woven.converts (holds_check checked) known
  have nodes := nodes_conversions record tree
  refine ⟨program, compiled, ?_, nodes, converts, typeOf_sites distinct checked⟩
  calc program.toList.countP Instruction.isWiden
      = (program.toList.findIdxs Instruction.isWiden).length := List.length_findIdxs.symm
    _ = (tree.conversions record).length := converts.length_eq.symm
    _ = ((tree.sites.map Prod.snd).filter (Expression.isConverting record)).length := by
      rw [← nodes.length_eq, List.length_map]
    _ = (tree.sites.map Prod.snd).countP (Expression.isMixed record) +
        (tree.sites.map Prod.snd).countP (Expression.isPromoting record) := by
      rw [← List.countP_eq_length_filter, Expression.countP_isConverting]
    _ = _ := by
      rw [List.countP_map, List.countP_map]
      rfl

/-- An int is compared with a float: `write 1 < 2.5;`. -/
theorem converts_where_asked_ordering :
    let at0 : Position := ⟨1, 0⟩
    let one : Expression := .literal ⟨0, at0⟩ (.int 1)
    let less : Expression := .binary ⟨2, at0⟩ .less one (.literal ⟨1, at0⟩ (.float 2.5))
    let tree : Tree := [.write at0 [less]]
    tree.ids.Nodup ∧ ∃ record program, tree.check .standard = .ok record ∧
      tree.compile .standard = .ok program ∧ program.toList.countP Instruction.isWiden = 1 ∧
      ∃ place, Conversion.DoneAt record program.toList ⟨less, one⟩ place := by
  intro at0 one less tree
  have distinct : tree.ids.Nodup := by decide
  obtain ⟨record, checked, int, float⟩ : ∃ record, tree.check .standard = .ok record ∧
      record.typeOf 0 = .int ∧ record.typeOf 1 = .float := by
    have clean : (checkAll .standard .empty tree).diagnostics = [] := rfl
    have types : ((checkAll .standard .empty tree).types.map Prod.fst).Nodup := distinct
    exact ⟨_, check_eq_ok.mpr ⟨clean, rfl⟩, TypeRecord.typeOf_ofFindings types (by decide),
      TypeRecord.typeOf_ofFindings types (by decide)⟩
  obtain ⟨program, compiled, _, _, done, _⟩ :=
    converts_where_asked .standard tree record checked distinct
  have single : tree.conversions record = [⟨less, one⟩] := by
    simp [conversions, tree, less, one, Tree.expressions, Statement.expressionsAll,
      Statement.expressions, Expression.conversions, Expression.id, Expression.node, int, float,
      BinaryOperator.converts, BinaryOperator.kind]
  have places := done.length_eq
  rw [single] at done places
  obtain ⟨place, _, first, _, _⟩ := List.forall₂_cons_left_iff.mp done
  exact ⟨distinct, record, program, checked, compiled, List.length_findIdxs.symm.trans places.symm,
    place, first⟩

end Tree

end StackLang
