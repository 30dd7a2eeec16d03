import StackLang.Proofs.SiteCode

/-!
# Chains of assignments

A chain `a = b = c = value` can be lowered by a loop: the value is computed once,
saved to the innermost target first, and loaded again for each target further
out. It can also be lowered by recursion, each assignment from the code of its
own value. Both give the same instructions, whatever parentheses stand between
the links. The type that the loop carries along is the one that the record has
for the inner assignment.
-/
namespace StackLang

variable {record : TypeRecord} {policy : LogicalPolicy}

/-- The name that an instruction saves to. -/
def Instruction.savedName? : Instruction → Option String
  | .save name => some name
  | _ => none

/-- What a chain adds to the code of its value. -/
def Instruction.isChainLink : Instruction → Bool
  | .widen | .save _ | .load _ => true
  | _ => false

namespace Expression

/-- The targets of a chain, the outermost first. -/
def targets : Expression → List Identifier
  | .assignment _ target value => target :: value.targets
  | .grouping _ inner => inner.targets
  | _ => []

/-- The value at the end of a chain, without the parentheses around it. -/
def core : Expression → Expression
  | .assignment _ _ value => value.core
  | .grouping _ inner => inner.core
  | e => e

/-- An expression that is neither an assignment nor in parentheses. -/
def isCore : Expression → Bool
  | .assignment .. | .grouping .. => false
  | _ => true

theorem isCore_core (e : Expression) : e.core.isCore = true := by
  induction e with
  | grouping _ _ ih | assignment _ _ _ ih => exact ih
  | _ => rfl

/-- Saves what was computed to one more target. -/
def saveTo (record : TypeRecord) (emission : Emission) (target : Identifier) :
    Except LoweringError Emission := do
  return emission.save target.name (← record.variableType target)

/-- A chain by a loop over its targets, from the innermost to the outermost. -/
def lowerChain (record : TypeRecord) (e : Expression) :
    Except LoweringError (List Instruction) := do
  let (code, type) ← e.core.lower record
  let emission ← e.targets.reverse.foldlM (saveTo record) ⟨code, type, none⟩
  return emission.loaded

section Loop

variable {e : Expression} {emission : Emission}

/-- The recursion does what the loop does. -/
theorem emit_eq_foldlM (record : TypeRecord) (e : Expression) :
    e.emit record = (do
      let emission ← e.core.emit record
      e.targets.reverse.foldlM (saveTo record) emission) := by
  induction e with
  | grouping node inner ih => exact ih
  | assignment node target value ih =>
    rw [emit, ih]
    simp only [targets, core, List.reverse_cons, List.foldlM_append, List.foldlM_cons,
      List.foldlM_nil, bind_assoc, bind_pure]
    rfl
  | _ => exact (bind_pure _).symm

/-- Whatever is emitted has been saved nowhere and has the type of the node. -/
def Returns (record : TypeRecord) (node : Node) (emitted : Except LoweringError Emission) : Prop :=
  ∀ emission, emitted = .ok emission →
    emission.savedIn = none ∧ record.resolvedType node = .ok emission.type

theorem Returns.bind {α : Type} {node : Node} {first : Except LoweringError α}
    {next : α → Except LoweringError Emission} (later : ∀ a, Returns record node (next a)) :
    Returns record node (first >>= next) := by
  intro emission emitted
  obtain ⟨a, _, emitted⟩ := bind_eq_ok.mp emitted
  exact later a emission emitted

theorem returns_last (record : TypeRecord) (node : Node) (code : List Instruction) :
    Returns record node (do
      return ⟨code, ← record.resolvedType node, none⟩) := by
  intro emission emitted
  obtain ⟨type, known, same⟩ := bind_eq_ok.mp emitted
  cases same
  exact ⟨rfl, known⟩

/-- At the end of a chain nothing has been saved, and the type is the recorded one. -/
theorem returns_of_isCore (record : TypeRecord) (core : e.isCore = true) :
    Returns record e.node (e.emit record) := by
  cases e with
  | literal | «variable» => exact returns_last record _ _
  | grouping | assignment => cases core
  | binary node operator lhs rhs =>
    rw [emit]
    cases operator.kind with
    | concat | logical =>
      exact .bind fun _ => .bind fun _ => .bind fun _ => .bind fun _ => .bind fun _ =>
        returns_last record node _
    | arithmetic | equality | relational =>
      exact .bind fun _ => .bind fun _ => .bind fun _ => .bind fun _ => .bind fun _ =>
        .bind fun _ => .bind fun _ => returns_last record node _
  | unary node operator operand =>
    exact .bind fun _ => .bind fun _ => returns_last record node _

theorem layers_of_isCore (core : e.isCore = true) : e.layers = [e.node] := by
  cases e with
  | grouping | assignment => cases core
  | _ => rfl

/-- What is lowered at the end of a chain is what the loop starts with. -/
theorem emit_eq_lower (record : TypeRecord) (core : e.isCore = true) :
    e.emit record = (do
      let (code, type) ← e.lower record
      return ⟨code, type, none⟩) := by
  cases emitted : e.emit record with
  | error error => simp only [lower, emitted, bind, Except.bind]
  | ok emission =>
    obtain ⟨unsaved, known⟩ := returns_of_isCore record core emission emitted
    obtain ⟨code, type, savedIn⟩ := emission
    cases unsaved
    have lowered : e.lower record = .ok (code, type) := by
      refine bind_eq_ok.mpr ⟨_, emitted, ?_⟩
      rw [settle, layers_of_isCore core]
      refine bind_eq_ok.mpr ⟨⟨⟩, forM_resolved (List.forall_mem_singleton.mpr ⟨type, known⟩), ?_⟩
      rw [known]
      simp [Emission.loaded, bind, Except.bind, pure, Except.pure]
    rw [lowered]
    rfl

theorem settle_assignment (record : TypeRecord) (node : Node) (target : Identifier)
    (value : Expression) (emission : Emission) :
    (assignment node target value).settle record emission = (do
      return (emission.loaded, ← record.resolvedType node)) := by
  have layer : ([node].forM fun node => discard (record.resolvedType node)) =
      (discard (record.resolvedType node) : Except LoweringError PUnit) := by
    simp only [List.forM_eq_forM, List.forM_cons, List.forM_nil, bind_pure_unit]
  have own : (assignment node target value).layers = [node] := rfl
  rw [settle, own, layer]
  change (do
    discard (record.resolvedType node)
    return (emission.loaded, ← record.resolvedType node)) = _
  cases record.resolvedType node <;> rfl

/-- An assignment is lowered by the loop, whatever the record says of it. -/
theorem lower_assignment_eq_chain (record : TypeRecord) (node : Node) (target : Identifier)
    (value : Expression) :
    (assignment node target value).lower record = (do
      let code ← (assignment node target value).lowerChain record
      return (code, ← record.resolvedType node)) := by
  rw [lower, emit_eq_foldlM, emit_eq_lower record (isCore_core _), lowerChain]
  simp only [bind_assoc, pure_bind, settle_assignment]

end Loop

section Code

variable {e : Expression} {type : StaticType}

theorem ungrouped_mem_parts (e : Expression) : e.ungrouped ∈ e.parts := by
  induction e with
  | grouping node inner ih => exact List.mem_append_left _ ih
  | _ => exact mem_parts _

theorem core_mem_parts (e : Expression) : e.core ∈ e.parts := by
  induction e with
  | grouping node inner ih | assignment node _ inner ih => exact List.mem_append_left _ ih
  | _ => exact mem_parts _

/-- Parentheses leave no trace in the code. -/
theorem code_ungrouped (record : TypeRecord) (e : Expression) :
    e.ungrouped.code record = e.code record := by
  induction e with
  | grouping node inner ih => exact ih
  | _ => rfl

theorem Annotated.ungrouped (annotated : e.Annotated record policy type) :
    e.ungrouped.Annotated record policy type := by
  induction annotated with
  | grouping node part known ih => exact ih
  | literal node value known => exact .literal node value known
  | «variable» node name declared known => exact .variable node name declared known
  | binary node lhs rhs types known => exact .binary node lhs rhs types known
  | unary node part types known => exact .unary node part types known
  | assignment node declared part accepts known =>
    exact .assignment node declared part accepts known

/-- Behind the value at the end of a chain come its targets, each saved once. -/
theorem code_core (record : TypeRecord) (e : Expression) :
    ∃ tail, e.code record = e.core.code record ++ tail ∧
      tail.filterMap Instruction.savedName? = e.targets.reverse.map Identifier.name ∧
      ∀ i ∈ tail, i.isChainLink = true := by
  induction e with
  | grouping node inner ih => exact ih
  | assignment node target value ih =>
    obtain ⟨tail, split, saved, links⟩ := ih
    have own : (widening (record.typeOf value.id) (record.typeOf node.id)).filterMap
          Instruction.savedName? = [] ∧
        ∀ i ∈ widening (record.typeOf value.id) (record.typeOf node.id), i.isChainLink = true := by
      rcases widening_cases (record.typeOf value.id) (record.typeOf node.id) with none | one
      · rw [none]
        exact ⟨rfl, List.forall_mem_nil _⟩
      · rw [one]
        exact ⟨rfl, List.forall_mem_singleton.mpr rfl⟩
    refine ⟨tail ++ widening (record.typeOf value.id) (record.typeOf node.id) ++
      [.save target.name, .load target.name], ?_, ?_, ?_⟩
    · rw [code, core, split]
      simp only [List.append_assoc]
    · rw [List.filterMap_append, List.filterMap_append, saved, own.1, targets, List.reverse_cons,
        List.map_append, List.append_nil]
      rfl
    · refine List.forall_mem_append.mpr ⟨List.forall_mem_append.mpr ⟨links, own.2⟩, ?_⟩
      exact List.forall_mem_cons.mpr ⟨rfl, List.forall_mem_singleton.mpr rfl⟩
  | _ => exact ⟨[], (List.append_nil _).symm, rfl, List.forall_mem_nil _⟩

end Code

end Expression

theorem widening_static (own other : PrimitiveType) :
    widening own.static other.static = if other = .float ∧ own = .int then [.widen] else [] := by
  cases own <;> cases other <;> rfl

/--
An accepted tree has a program in which every assignment, wherever it stands, has the code of the
recursive scheme: that of its value, a conversion if the variable is a float one and the value an
int, and a save and a load of the variable. The loop over the chain that begins there gives the
same code: that of the value at the end of the chain, and behind it only what saves the value to
each target, the innermost first, and loads it again.
-/
theorem Tree.lowers_chains (options : CheckOptions) (tree : Tree) (record : TypeRecord)
    (checked : tree.check options = .ok record) (distinct : tree.ids.Nodup) :
    ∃ program, tree.compile options = .ok program ∧
      ∀ site ∈ tree.sites, ∀ node target value, site.2 = .assignment node target value →
        ∃ declared type inner, ∃ code : List Instruction,
          site.1.lookup target.name = some declared ∧
          value.HasOnlyType options.logical site.1 type ∧
          value.lower record = .ok (inner, type.static) ∧
          value.ungrouped.lower record = .ok (inner, type.static) ∧
          (site.1, value.ungrouped) ∈ tree.sites ∧
          code = inner ++ (if declared = .float ∧ type = .int then [.widen] else []) ++
            [.save target.name, .load target.name] ∧
          site.2.lower record = .ok (code, declared.static) ∧
          site.2.lowerChain record = .ok code ∧ code <:+: program.toList ∧
          ∃ first tail own, site.2.core.lower record = .ok (first, own) ∧ code = first ++ tail ∧
            tail.filterMap Instruction.savedName? =
              site.2.targets.reverse.map Identifier.name ∧
            ∀ i ∈ tail, i.isChainLink = true := by
  obtain ⟨program, compiled, woven⟩ := exists_woven distinct checked
  have holds := holds_check checked
  refine ⟨program, compiled, ?_⟩
  rintro ⟨names, whole⟩ member node target value rfl
  obtain ⟨outer, outermost, inside, _, annotated⟩ := annotated_of_mem_sites distinct checked member
  obtain ⟨own, only, ownKnown⟩ := typeOf_sites distinct checked _ member
  have valueSite : (names, value) ∈ tree.sites :=
    tree.closed_sites _ member value (List.mem_append_left _ value.mem_parts)
  obtain ⟨type, valueOnly, valueKnown⟩ := typeOf_sites distinct checked _ valueSite
  obtain ⟨tail, split, saved, links⟩ :=
    Expression.code_core record (.assignment node target value)
  obtain ⟨coreType, coreAnnotated⟩ :=
    annotated.of_mem_parts (Expression.core_mem_parts (.assignment node target value))
  have lowered := annotated.lower holds
  have chained := Expression.lower_assignment_eq_chain record node target value
  rw [lowered] at chained
  obtain ⟨code, looped, same⟩ := bind_eq_ok.mp chained.symm
  obtain ⟨_, _, same⟩ := bind_eq_ok.mp same
  cases same
  cases only.1 with
  | assignment _ declared part takes =>
    cases annotated with
    | assignment _ declaredRecord valueAnnotated accepts known =>
      cases known.symm.trans ownKnown
      cases valueAnnotated.known.symm.trans valueKnown
      refine ⟨_, type, value.code record, (Expression.assignment node target value).code record,
        declared, valueOnly, valueAnnotated.lower holds, ?_, ?_, ?_, lowered, looped, ?_,
        _, tail, coreType, coreAnnotated.lower holds, split, saved, links⟩
      · rw [← Expression.code_ungrouped record value]
        exact valueAnnotated.ungrouped.lower holds
      · exact tree.closed_sites _ valueSite _ value.ungrouped_mem_parts
      · rw [Expression.code, valueAnnotated.known, known, widening_static]
      · exact (Expression.code_infix record inside).trans (woven.code_infix outermost)

/-- An int variable and then a float one are given an int: `b = (a = 1);`. -/
theorem Tree.lowers_chains_grouped :
    let at0 : Position := ⟨1, 0⟩
    let a : Identifier := ⟨"a", at0⟩
    let b : Identifier := ⟨"b", at0⟩
    let inner : Expression := .assignment ⟨1, at0⟩ a (.literal ⟨0, at0⟩ (.int 1))
    let whole : Expression := .assignment ⟨3, at0⟩ b (.grouping ⟨2, at0⟩ inner)
    let tree : Tree := [.declaration at0 .int [a], .declaration at0 .float [b],
      .expression at0 whole]
    tree.ids.Nodup ∧ ∃ record program code, tree.check .standard = .ok record ∧
      tree.compile .standard = .ok program ∧ inner.lower record = .ok (code, .int) ∧
      whole.lower record = .ok (code ++ [.widen, .save "b", .load "b"], .float) ∧
      whole.lowerChain record = .ok (code ++ [.widen, .save "b", .load "b"]) := by
  intro at0 a b inner whole tree
  have distinct : tree.ids.Nodup := by decide
  have int : inner.HasType .matchingTypes [("a", .int), ("b", .float)] .int :=
    .assignment ⟨1, at0⟩ (by decide) (.int ⟨0, at0⟩ 1) (.inl rfl)
  have typed : tree.WellTyped .matchingTypes [("a", .int), ("b", .float)] :=
    .cons (.declaration at0 (by decide) (by decide)) <|
      .cons (.declaration at0 (by decide) (by decide)) <|
      .cons (.expression at0 (.assignment ⟨3, at0⟩ (by decide) (.grouping ⟨2, at0⟩ int)
        (.inr ⟨rfl, rfl⟩))) .nil
  obtain ⟨record, checked⟩ : ∃ record, tree.check .standard = .ok record :=
    exists_check_iff.mpr ⟨_, typed⟩
  obtain ⟨program, compiled, chains⟩ := lowers_chains .standard tree record checked distinct
  have site : ([("a", .int), ("b", .float)], whole) ∈ tree.sites :=
    .tail _ (.tail _ (.tail _ (.head _)))
  obtain ⟨declared, type, code, _, found, only, _, lowered, _, rfl, all, looped, _⟩ :=
    chains _ site _ _ _ rfl
  cases found
  obtain rfl := only.2 _ (.grouping ⟨2, at0⟩ int)
  rw [if_pos ⟨rfl, rfl⟩, List.append_assoc] at all looped
  exact ⟨distinct, record, program, code, checked, compiled, lowered, all, looped⟩

end StackLang
