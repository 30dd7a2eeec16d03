import StackLang.Proofs.DeclaredNames

/-!
# Annotated trees

What a type record says of a tree that it describes: every node has the type that
its rule gives to it, every name has its declared type, and no rule finds a
fault. Checking yields such a record if no two nodes share an identity. All that
comes after checking can be told from the annotation alone.
-/
namespace StackLang

/-- The types that a binary operator takes and the type it gives. -/
inductive BinaryOperator.Types (policy : LogicalPolicy) (operator : BinaryOperator) :
    StaticType → StaticType → StaticType → Prop
  | arithmetic (kind : operator.kind = .arithmetic) {left right type : StaticType}
    (promotes : StaticType.promote? left right = some type)
    (integer : operator = .modulus → type = .int) : Types policy operator left right type
  | concat (kind : operator.kind = .concat) : Types policy operator .string .string .string
  | equality (kind : operator.kind = .equality) {type : StaticType} (plain : type ≠ .file) :
    Types policy operator type type .bool
  | relational (kind : operator.kind = .relational) {left right : StaticType}
    (lhsNumeric : left.isNumeric = true) (rhsNumeric : right.isNumeric = true) :
    Types policy operator left right .bool
  | logical (kind : operator.kind = .logical) {type : StaticType}
    (truths : policy = .requireBool → type = .bool) : Types policy operator type type type

/-- The type that a unary operator takes and the type it gives. -/
inductive UnaryOperator.Types : UnaryOperator → StaticType → StaticType → Prop
  | not : Types .not .bool .bool
  | negate {type : StaticType} (numeric : type.isNumeric = true) : Types .negate type type

/-- The record knows an expression with all of its parts, and the expression has a type. -/
inductive Expression.Annotated (record : TypeRecord) (policy : LogicalPolicy) :
    Expression → StaticType → Prop
  | literal (node : Node) (value : Value) (known : record.typeOf node.id = .ofValue value) :
    Annotated record policy (.literal node value) (.ofValue value)
  | «variable» (node : Node) (name : Identifier) {type : StaticType}
    (declared : record.symbols.typeOf? name.name = some type)
    (known : record.typeOf node.id = type) :
    Annotated record policy (.variable node name) type
  | grouping (node : Node) {inner : Expression} {type : StaticType}
    (part : Annotated record policy inner type) (known : record.typeOf node.id = type) :
    Annotated record policy (.grouping node inner) type
  | binary (node : Node) {operator : BinaryOperator} {lhs rhs : Expression}
    {left right type : StaticType} (lhsPart : Annotated record policy lhs left)
    (rhsPart : Annotated record policy rhs right)
    (types : operator.Types policy left right type)
    (known : record.typeOf node.id = type) :
    Annotated record policy (.binary node operator lhs rhs) type
  | unary (node : Node) {operator : UnaryOperator} {operand : Expression} {inner type : StaticType}
    (part : Annotated record policy operand inner)
    (types : operator.Types inner type)
    (known : record.typeOf node.id = type) :
    Annotated record policy (.unary node operator operand) type
  | assignment (node : Node) {target : Identifier} {value : Expression}
    {declaredType type : StaticType}
    (declared : record.symbols.typeOf? target.name = some declaredType)
    (part : Annotated record policy value type) (accepts : declaredType.accepts type = true)
    (known : record.typeOf node.id = declaredType) :
    Annotated record policy (.assignment node target value) declaredType

/-- The record knows all values of a list, and their types pass a test. -/
def AnnotatedValues (record : TypeRecord) (policy : LogicalPolicy) (passes : StaticType → Prop)
    (values : List Expression) : Prop :=
  ∀ e ∈ values, ∃ type, e.Annotated record policy type ∧ passes type

/-- Types that an output to a file takes. -/
def StaticType.IsWritable (type : StaticType) : Prop :=
  type = .int ∨ type = .float ∨ type = .string

namespace Statement

mutual

/-- The record knows all expressions and names of a statement, and they have the types asked for. -/
def Annotated (record : TypeRecord) (policy : LogicalPolicy) : Statement → Prop
  | .declaration _ type names =>
    ∀ name ∈ names, record.symbols.typeOf? name.name = some type.static
  | .expression _ value => ∃ type, value.Annotated record policy type
  | .conditional _ condition positive negative =>
    condition.Annotated record policy .bool ∧ positive.Annotated record policy ∧
      match negative with
      | none => True
      | some negative => negative.Annotated record policy
  | .loop _ condition body =>
    condition.Annotated record policy .bool ∧ body.Annotated record policy
  | .block _ body => AnnotatedAll record policy body
  | .write _ values => AnnotatedValues record policy (· ≠ .file) values
  | .read _ targets =>
    ∀ target ∈ targets, ∃ type, record.symbols.typeOf? target.name = some type ∧ type ≠ .file
  | .openFile _ target fileName =>
    record.symbols.typeOf? target.name = some .file ∧ fileName.Annotated record policy .string
  | .fileOutput _ file values =>
    file.Annotated record policy .file ∧ AnnotatedValues record policy StaticType.IsWritable values
  | .empty _ => True

def AnnotatedAll (record : TypeRecord) (policy : LogicalPolicy) : List Statement → Prop
  | [] => True
  | s :: rest => s.Annotated record policy ∧ AnnotatedAll record policy rest

end

theorem annotated_conditional {record : TypeRecord} {policy : LogicalPolicy} {position : Position}
    {condition : Expression} {positive : Statement} {negative : Option Statement} :
    (conditional position condition positive negative).Annotated record policy ↔
      condition.Annotated record policy .bool ∧ positive.Annotated record policy ∧
        AnnotatedAll record policy negative.toList := by
  cases negative <;> simp [Annotated, AnnotatedAll]

end Statement

variable {options : CheckOptions} {record : TypeRecord}

/-- A record of findings has the type that was found for a node, unless another node has its id. -/
theorem TypeRecord.typeOf_ofFindings {findings : Findings}
    (distinct : (findings.types.map Prod.fst).Nodup) {id : NodeId} {type : StaticType}
    (found : (id, type) ∈ findings.types) : (TypeRecord.ofFindings findings).typeOf id = type := by
  refine Std.HashMap.getD_ofList_of_mem (beq_self_eq_true id) ?_ found
  refine (List.pairwise_map.mp distinct).imp fun differs => ?_
  exact beq_false_of_ne differs

theorem Expression.ids_judge (symbols : SymbolTable) (e : Expression) :
    (e.judge options symbols).types.map Prod.fst = e.ids := by
  induction e with
  | literal | «variable» => rfl
  | grouping node inner ih | unary node _ inner ih | assignment node _ inner ih =>
    simp [judge, Judgement.ofNode, ids, ih]
  | binary node operator lhs rhs leftIH rightIH =>
    simp [judge, Judgement.ofNode, ids, leftIH, rightIH]

theorem ids_judgeAll (symbols : SymbolTable) (fault : StaticType → Option DiagnosticCause)
    (values : List Expression) :
    (judgeAll options symbols fault values).types.map Prod.fst =
      values.flatMap Expression.ids := by
  induction values with
  | nil => rfl
  | cons e rest ih => simp [judgeAll, Findings.judged, Expression.ids_judge, ih]

theorem types_declareAll (symbols : SymbolTable) (type : StaticType) (names : List Identifier) :
    (declareAll symbols type names).types = [] := by
  induction names generalizing symbols with
  | nil => rfl
  | cons name rest ih =>
    rw [declareAll]
    split
    · exact ih _
    · exact ih _

theorem ids_checkAll {body : List Statement}
    (each : ∀ s ∈ body, ∀ symbols, (s.check options symbols).types.map Prod.fst = s.ids)
    (symbols : SymbolTable) :
    (checkAll options symbols body).types.map Prod.fst = Statement.idsAll body := by
  induction body generalizing symbols with
  | nil => rfl
  | cons s rest ih =>
    obtain ⟨own, others⟩ := List.forall_mem_cons.mp each
    simp [checkAll, Findings.following, Statement.idsAll, own, ih others]

theorem Statement.ids_check (s : Statement) (symbols : SymbolTable) :
    (s.check options symbols).types.map Prod.fst = s.ids := by
  induction s generalizing symbols with
  | declaration position type names => simp [check, types_declareAll, ids]
  | conditional position condition positive negative positiveIH negativeIH =>
    cases negative with
    | none => simp [check, Findings.judged, Expression.ids_judge, positiveIH, ids]
    | some negative =>
      have inner := negativeIH negative List.mem_cons_self
      simp [check, Findings.judged, Findings.following, Expression.ids_judge, positiveIH, inner,
        ids]
  | loop position condition body ih =>
    simp [check, Findings.judged, Expression.ids_judge, ih, ids]
  | block position body ih => exact ids_checkAll (fun s member => ih s member) symbols
  | expression position value =>
    simp [check, Findings.judged, Findings.start, Expression.ids_judge, ids]
  | write position values => exact ids_judgeAll symbols _ values
  | read | empty => rfl
  | openFile position target fileName => exact Expression.ids_judge symbols fileName
  | fileOutput position file values =>
    simp [check, Findings.judged, Expression.ids_judge, ids_judgeAll, ids]

namespace StaticType

theorem promote?_proper {left right type : StaticType}
    (promotes : promote? left right = some type) : type ≠ .error := by
  rintro rfl
  cases left <;> cases right <;> cases promotes

end StaticType

theorem BinaryOperator.Types.proper {policy : LogicalPolicy} {operator : BinaryOperator}
    {left right type : StaticType} (types : operator.Types policy left right type)
    (leftProper : left ≠ .error) : type ≠ .error := by
  cases types with
  | arithmetic _ promotes => exact StaticType.promote?_proper promotes
  | concat | equality | relational => nofun
  | logical => exact leftProper

theorem UnaryOperator.Types.proper {operator : UnaryOperator} {inner type : StaticType}
    (types : operator.Types inner type) (innerProper : inner ≠ .error) : type ≠ .error := by
  cases types with
  | not => nofun
  | negate => exact innerProper

namespace Ruling

variable {type : StaticType}

theorem silences_eq_false (proper : type ≠ .error) : options.silences type = false := by
  cases type with
  | error => exact absurd rfl proper
  | _ => exact Bool.and_false _

section Binary

variable {operator : BinaryOperator} {left right : StaticType} {policy : LogicalPolicy}

theorem arithmetic_types (kind : operator.kind = .arithmetic)
    (faultless : (arithmetic operator left right).fault = none) :
    operator.Types policy left right (arithmetic operator left right).type := by
  unfold arithmetic at faultless ⊢
  cases promotes : StaticType.promote? left right with
  | none =>
    rw [promotes] at faultless
    cases faultless
  | some type =>
    simp only [promotes] at faultless ⊢
    split at faultless
    · cases faultless
    next allowed =>
      rw [if_neg allowed]
      refine .arithmetic kind promotes fun modulus => ?_
      by_cases int : type = .int
      · exact int
      · exact absurd ⟨modulus, int⟩ allowed

theorem concat_types (kind : operator.kind = .concat)
    (faultless : (concat operator left right).fault = none) :
    operator.Types policy left right (concat operator left right).type := by
  unfold concat at faultless ⊢
  split at faultless
  next both =>
    rw [if_pos both, both.1, both.2]
    exact .concat kind
  next => cases faultless

theorem equality_types (kind : operator.kind = .equality)
    (faultless : (equality operator left right).fault = none) :
    operator.Types policy left right (equality operator left right).type := by
  unfold equality at faultless ⊢
  split at faultless
  · cases faultless
  next same =>
    split at faultless
    · cases faultless
    next plain =>
      rw [if_neg same, if_neg plain, ← Decidable.not_not.mp same]
      exact .equality kind plain

theorem relational_types (kind : operator.kind = .relational)
    (faultless : (relational operator left right).fault = none) :
    operator.Types policy left right (relational operator left right).type := by
  unfold relational at faultless ⊢
  split at faultless
  next both =>
    rw [if_pos both]
    obtain ⟨lhsNumeric, rhsNumeric⟩ := (Bool.and_eq_true _ _).mp both
    exact .relational kind lhsNumeric rhsNumeric
  next => cases faultless

/-- Only the strict policy asks for truth values; both ask for one type. -/
theorem logical_types (kind : operator.kind = .logical)
    (faultless : (logical policy operator left right).fault = none) :
    operator.Types policy left right (logical policy operator left right).type := by
  unfold logical at faultless ⊢
  cases policy with
  | matchingTypes =>
    simp only [decide_eq_true_eq] at faultless ⊢
    split at faultless
    next same =>
      rw [if_pos same, same]
      refine .logical kind fun strict => ?_
      cases strict
    next => cases faultless
  | requireBool =>
    simp only [Bool.and_eq_true, decide_eq_true_eq] at faultless ⊢
    split at faultless
    next both =>
      rw [if_pos both, both.1, both.2]
      exact .logical kind fun _ => rfl
    next => cases faultless

/-- A rule that finds no fault in proper operands has a type for them. -/
theorem binary_types (leftProper : left ≠ .error) (rightProper : right ≠ .error)
    (faultless : (binary options operator left right).fault = none) :
    operator.Types options.logical left right (binary options operator left right).type := by
  unfold binary at faultless ⊢
  rw [silences_eq_false leftProper, silences_eq_false rightProper] at faultless ⊢
  simp only [Bool.or_self, Bool.false_eq_true, if_false] at faultless ⊢
  cases kind : operator.kind with
  | arithmetic =>
    rw [kind] at faultless
    exact arithmetic_types kind faultless
  | concat =>
    rw [kind] at faultless
    exact concat_types kind faultless
  | equality =>
    rw [kind] at faultless
    exact equality_types kind faultless
  | relational =>
    rw [kind] at faultless
    exact relational_types kind faultless
  | logical =>
    rw [kind] at faultless
    exact logical_types kind faultless

end Binary

theorem unary_types {operator : UnaryOperator} (proper : type ≠ .error)
    (faultless : (unary options operator type).fault = none) :
    operator.Types type (unary options operator type).type := by
  unfold unary at faultless ⊢
  rw [silences_eq_false proper] at faultless ⊢
  simp only [Bool.false_eq_true, if_false] at faultless ⊢
  cases operator with
  | not =>
    dsimp only at faultless ⊢
    split at faultless
    next bool =>
      rw [if_pos bool, bool]
      exact .not
    next => cases faultless
  | negate =>
    dsimp only at faultless ⊢
    split at faultless
    next numeric =>
      rw [if_pos numeric]
      exact .negate numeric
    next => cases faultless

theorem accepts_of_assignment {target : StaticType} (targetProper : target ≠ .error)
    (proper : type ≠ .error) (faultless : (assignment options target type).fault = none) :
    target.accepts type = true := by
  rw [assignment] at faultless
  rw [silences_eq_false targetProper, silences_eq_false proper] at faultless
  split at faultless
  next accepts => exact accepts
  next => cases faultless

theorem type_assignment (options : CheckOptions) (target value : StaticType) :
    (assignment options target value).type = target := by
  rw [assignment]
  split <;> rfl

end Ruling

section Judged

variable {symbols : SymbolTable} {types : Declarations}

theorem diagnostics_ofNode {node : Node} {ruling : Ruling} {diagnostics : List Diagnostic}
    {types : List (NodeId × StaticType)}
    (clean : (Judgement.ofNode node ruling diagnostics types).diagnostics = []) :
    diagnostics = [] ∧ ruling.fault = none := by
  obtain ⟨parts, own⟩ := List.append_eq_nil_iff.mp clean
  exact ⟨parts, eq_none_of_diagnostics own⟩

theorem declared_of_lookup {name : Identifier}
    (clean : (Ruling.lookup symbols name.name).diagnostics name.position = []) :
    symbols.typeOf? name.name = some (Ruling.lookup symbols name.name).type := by
  unfold Ruling.lookup at clean ⊢
  cases known : symbols.typeOf? name.name with
  | none => rw [known] at clean; cases clean
  | some type => rfl

/-- What the record has to agree with: the names in scope and the types of some nodes. -/
structure TypeRecord.Keeps (record : TypeRecord) (symbols : SymbolTable)
    (types : List (NodeId × StaticType)) : Prop where
  declared : ∀ name type, symbols.typeOf? name = some type →
    record.symbols.typeOf? name = some type
  known : ∀ id type, (id, type) ∈ types → record.typeOf id = type

theorem TypeRecord.Keeps.of_subset {found fewer : List (NodeId × StaticType)}
    (keeps : record.Keeps symbols found) (part : fewer ⊆ found) : record.Keeps symbols fewer :=
  ⟨keeps.declared, fun id type member => keeps.known id type (part member)⟩

/-- An expression without diagnostics is annotated with its type, which is no error. -/
theorem Expression.annotated_judge (holds : symbols.Holds types) {e : Expression}
    (clean : (e.judge options symbols).diagnostics = [])
    (keeps : record.Keeps symbols (e.judge options symbols).types) :
    e.Annotated record options.logical (e.judge options symbols).type ∧
      (e.judge options symbols).type ≠ .error := by
  induction e with
  | literal node value =>
    refine ⟨.literal node value (keeps.known _ _ List.mem_cons_self), ?_⟩
    cases value <;> nofun
  | «variable» node name =>
    obtain ⟨clean, _⟩ := diagnostics_ofNode clean
    have declared := declared_of_lookup clean
    exact ⟨.variable node name (keeps.declared _ _ declared) (keeps.known _ _ List.mem_cons_self),
      SymbolTable.ne_error_of_holds holds declared⟩
  | grouping node inner ih =>
    obtain ⟨clean, _⟩ := diagnostics_ofNode clean
    obtain ⟨part, proper⟩ := ih clean (keeps.of_subset (List.subset_append_left _ _))
    have known := keeps.known _ _ (List.mem_append_right _ List.mem_cons_self)
    exact ⟨.grouping node part known, proper⟩
  | binary node operator lhs rhs leftIH rightIH =>
    obtain ⟨clean, faultless⟩ := diagnostics_ofNode clean
    obtain ⟨lhsClean, rhsClean⟩ := List.append_eq_nil_iff.mp clean
    have operands := keeps.of_subset (List.subset_append_left _ _)
    obtain ⟨lhsPart, lhsProper⟩ :=
      leftIH lhsClean (operands.of_subset (List.subset_append_left _ _))
    obtain ⟨rhsPart, rhsProper⟩ :=
      rightIH rhsClean (operands.of_subset (List.subset_append_right _ _))
    have types := Ruling.binary_types lhsProper rhsProper faultless
    exact ⟨.binary node lhsPart rhsPart types
      (keeps.known _ _ (List.mem_append_right _ List.mem_cons_self)), types.proper lhsProper⟩
  | unary node operator operand ih =>
    obtain ⟨clean, faultless⟩ := diagnostics_ofNode clean
    obtain ⟨part, proper⟩ := ih clean (keeps.of_subset (List.subset_append_left _ _))
    have types := Ruling.unary_types proper faultless
    exact ⟨.unary node part types
      (keeps.known _ _ (List.mem_append_right _ List.mem_cons_self)), types.proper proper⟩
  | assignment node target value ih =>
    obtain ⟨clean, faultless⟩ := diagnostics_ofNode clean
    obtain ⟨clean, found⟩ := List.append_eq_nil_iff.mp clean
    obtain ⟨part, proper⟩ := ih clean (keeps.of_subset (List.subset_append_left _ _))
    have declared := declared_of_lookup found
    have targetProper := SymbolTable.ne_error_of_holds holds declared
    have accepts := Ruling.accepts_of_assignment targetProper proper faultless
    have type : ((assignment node target value).judge options symbols).type =
        (Ruling.lookup symbols target.name).type := Ruling.type_assignment options _ _
    have known := keeps.known _ _ (List.mem_append_right _ List.mem_cons_self)
    rw [type]
    exact ⟨.assignment node (keeps.declared _ _ declared) part accepts (known.trans type),
      targetProper⟩

/-- A record that agrees with a table agrees with every table that led to it. -/
theorem TypeRecord.Keeps.earlier {later : SymbolTable} {more : Declarations}
    {found : List (NodeId × StaticType)} (holds : symbols.Holds types)
    (laterHolds : later.Holds (types ++ more)) (keeps : record.Keeps later found) :
    record.Keeps symbols found :=
  ⟨fun name type known => keeps.declared name type
    (SymbolTable.typeOf?_of_holds holds laterHolds known), keeps.known⟩

theorem annotated_judgeAll {fault : StaticType → Option DiagnosticCause}
    {passes : StaticType → Prop} (holds : symbols.Holds types)
    (sound : ∀ type, type ≠ .error → fault type = none → passes type) {values : List Expression}
    (clean : (judgeAll options symbols fault values).diagnostics = [])
    (keeps : record.Keeps symbols (judgeAll options symbols fault values).types) :
    AnnotatedValues record options.logical passes values := by
  induction values with
  | nil => exact List.forall_mem_nil _
  | cons e rest ih =>
    obtain ⟨own, faultless, later⟩ := diagnostics_judged clean
    obtain ⟨part, proper⟩ :=
      e.annotated_judge holds own (keeps.of_subset (List.subset_append_left _ _))
    have others := ih later (keeps.of_subset (List.subset_append_right _ _))
    exact List.forall_mem_cons.mpr ⟨⟨_, part, sound _ proper faultless⟩, others⟩

theorem declared_declareAll {type : PrimitiveType} {names : List Identifier}
    (holds : symbols.Holds types)
    (clean : (declareAll symbols type.static names).diagnostics = []) :
    ∀ name ∈ names,
      (declareAll symbols type.static names).symbols.typeOf? name.name = some type.static := by
  induction names generalizing symbols types with
  | nil => exact List.forall_mem_nil _
  | cons name rest ih =>
    unfold declareAll at clean ⊢
    cases declared : symbols.declare ⟨name.name, type.static, name.position⟩ with
    | error previous =>
      rw [declared] at clean
      cases clean
    | ok later =>
      rw [declared] at clean
      dsimp only at clean ⊢
      have grown := SymbolTable.holds_declare holds declared
      refine List.forall_mem_cons.mpr ⟨?_, ih grown clean⟩
      refine SymbolTable.typeOf?_of_holds grown (holds_declareAll grown clean) ?_
      rw [SymbolTable.typeOf?, SymbolTable.get?_declare_self declared]
      rfl

end Judged

namespace Fault

variable {type : StaticType}

theorem condition_eq_none {kind : ConditionKind} (proper : type ≠ .error)
    (faultless : condition options kind type = none) : type = .bool := by
  rw [condition] at faultless
  rw [Ruling.silences_eq_false proper] at faultless
  simpa using faultless

theorem fileName_eq_none (proper : type ≠ .error)
    (faultless : fileName options type = none) : type = .string := by
  rw [fileName] at faultless
  rw [Ruling.silences_eq_false proper] at faultless
  simpa using faultless

theorem outputTarget_eq_none (proper : type ≠ .error)
    (faultless : outputTarget options type = none) : type = .file := by
  rw [outputTarget] at faultless
  rw [Ruling.silences_eq_false proper] at faultless
  simpa using faultless

theorem written_eq_none (proper : type ≠ .error)
    (faultless : written options type = none) : type.IsWritable := by
  rw [written] at faultless
  rw [Ruling.silences_eq_false proper] at faultless
  cases type with
  | int => exact .inl rfl
  | float => exact .inr (.inl rfl)
  | string => exact .inr (.inr rfl)
  | error => exact absurd rfl proper
  | _ => cases faultless

theorem printed_eq_none (faultless : printed type = none) : type ≠ .file := by
  simpa [printed] using faultless

theorem readTarget_eq_none {name : String} (faultless : readTarget name type = none) :
    type ≠ .file := by
  simpa [readTarget] using faultless

theorem openTarget_eq_none {name : String} (proper : type ≠ .error)
    (faultless : openTarget name type = none) : type = .file := by
  cases type with
  | file => rfl
  | error => exact absurd rfl proper
  | _ => cases faultless

end Fault

section Checked

variable {symbols : SymbolTable} {types : Declarations}

theorem annotated_condition (holds : symbols.Holds types) {condition : Expression}
    {kind : ConditionKind} (clean : (condition.judge options symbols).diagnostics = [])
    (faultless : Fault.condition options kind (condition.judge options symbols).type = none)
    (keeps : record.Keeps symbols (condition.judge options symbols).types) :
    condition.Annotated record options.logical .bool := by
  obtain ⟨part, proper⟩ := condition.annotated_judge holds clean keeps
  rwa [Fault.condition_eq_none proper faultless] at part

theorem annotated_read (targets : List Identifier)
    (clean : targets.flatMap (readDiagnostics symbols) = [])
    (declared : ∀ name type, symbols.typeOf? name = some type →
      record.symbols.typeOf? name = some type) :
    ∀ target ∈ targets, ∃ type,
      record.symbols.typeOf? target.name = some type ∧ type ≠ .file := by
  intro target member
  have none := List.flatMap_eq_nil_iff.mp clean target member
  obtain ⟨found, plain⟩ := List.append_eq_nil_iff.mp none
  exact ⟨_, declared _ _ (declared_of_lookup found),
    Fault.readTarget_eq_none (eq_none_of_diagnostics plain)⟩

theorem annotated_checkAll {body : List Statement}
    (each : ∀ s ∈ body, ∀ {symbols types}, SymbolTable.Holds symbols types →
      (s.check options symbols).diagnostics = [] →
      record.Keeps (s.check options symbols).symbols (s.check options symbols).types →
      s.Annotated record options.logical)
    (holds : symbols.Holds types) (clean : (checkAll options symbols body).diagnostics = [])
    (keeps : record.Keeps (checkAll options symbols body).symbols
      (checkAll options symbols body).types) :
    Statement.AnnotatedAll record options.logical body := by
  induction body generalizing symbols types with
  | nil => exact trivial
  | cons s rest ih =>
    obtain ⟨own, others⟩ := List.forall_mem_cons.mp each
    obtain ⟨here, there⟩ := diagnostics_following clean
    have grown := holds_check holds here
    have all := holds_checkAll grown there
    -- What the first statement sees is what the last table knows of it.
    exact ⟨own holds here ((keeps.earlier grown all).of_subset (List.subset_append_left _ _)),
      ih others grown there (keeps.of_subset (List.subset_append_right _ _))⟩

theorem TypeRecord.Keeps.before_check {s : Statement} {found : List (NodeId × StaticType)}
    (holds : symbols.Holds types) (clean : (s.check options symbols).diagnostics = [])
    (keeps : record.Keeps (s.check options symbols).symbols found) : record.Keeps symbols found :=
  keeps.earlier holds (holds_check holds clean)

/-- A statement without diagnostics is annotated by every record that keeps what was found. -/
theorem Statement.annotated_check (s : Statement) (holds : symbols.Holds types)
    (clean : (s.check options symbols).diagnostics = [])
    (keeps : record.Keeps (s.check options symbols).symbols (s.check options symbols).types) :
    s.Annotated record options.logical := by
  induction s generalizing symbols types with
  | declaration position type names =>
    intro name member
    exact keeps.declared _ _ (declared_declareAll holds clean name member)
  | expression position value =>
    have before := keeps.before_check holds clean
    obtain ⟨own, _, _⟩ := diagnostics_judged clean
    exact ⟨_, (value.annotated_judge holds own
      (before.of_subset (List.subset_append_left _ _))).1⟩
  | conditional position condition positive negative positiveIH negativeIH =>
    have before := keeps.before_check holds clean
    cases negative with
    | none =>
      obtain ⟨own, faultless, later⟩ := diagnostics_judged clean
      have test := before.of_subset (List.subset_append_left _ _)
      exact ⟨annotated_condition holds own faultless test,
        positiveIH holds later (keeps.of_subset (List.subset_append_right _ _)), trivial⟩
    | some negative =>
      obtain ⟨own, faultless, later⟩ := diagnostics_judged clean
      obtain ⟨here, there⟩ := diagnostics_following later
      have test := before.of_subset (List.subset_append_left _ _)
      have branches := keeps.of_subset (List.subset_append_right _ _)
      have grown := StackLang.holds_check holds here
      have first := (branches.before_check grown there).of_subset (List.subset_append_left _ _)
      have second := branches.of_subset (List.subset_append_right _ _)
      exact ⟨annotated_condition holds own faultless test, positiveIH holds here first,
        negativeIH negative List.mem_cons_self grown there second⟩
  | loop position condition body ih =>
    have before := keeps.before_check holds clean
    obtain ⟨own, faultless, later⟩ := diagnostics_judged clean
    have test := before.of_subset (List.subset_append_left _ _)
    exact ⟨annotated_condition holds own faultless test,
      ih holds later (keeps.of_subset (List.subset_append_right _ _))⟩
  | block position body ih =>
    exact annotated_checkAll (fun s member => ih s member) holds clean keeps
  | write position values =>
    have before := keeps.before_check holds clean
    exact annotated_judgeAll holds (fun type _ => Fault.printed_eq_none) clean before
  | read position targets => exact annotated_read targets clean keeps.declared
  | openFile position target fileName =>
    obtain ⟨clean, name⟩ := List.append_eq_nil_iff.mp clean
    obtain ⟨clean, file⟩ := List.append_eq_nil_iff.mp clean
    obtain ⟨own, found⟩ := List.append_eq_nil_iff.mp clean
    have declared := declared_of_lookup found
    have targetProper := SymbolTable.ne_error_of_holds holds declared
    rw [Fault.openTarget_eq_none targetProper (eq_none_of_diagnostics file)] at declared
    obtain ⟨part, proper⟩ := fileName.annotated_judge holds own keeps
    rw [Fault.fileName_eq_none proper (eq_none_of_diagnostics name)] at part
    exact ⟨keeps.declared _ _ declared, part⟩
  | fileOutput position file values =>
    have before := keeps.before_check holds clean
    obtain ⟨own, faultless, later⟩ := diagnostics_judged clean
    obtain ⟨part, proper⟩ := file.annotated_judge holds own
      (before.of_subset (List.subset_append_left _ _))
    rw [Fault.outputTarget_eq_none proper faultless] at part
    exact ⟨part, annotated_judgeAll holds (fun type => Fault.written_eq_none) later
      (before.of_subset (List.subset_append_right _ _))⟩
  | empty position => exact trivial

/-- The record of a well-typed tree whose nodes have identities of their own describes the tree. -/
theorem Tree.annotated {tree : Tree} (distinct : tree.ids.Nodup)
    (checked : tree.check options = .ok record) :
    Statement.AnnotatedAll record options.logical tree := by
  unfold Tree.check at checked
  dsimp only at checked
  split at checked
  next clean =>
    cases checked
    refine annotated_checkAll (fun s _ _ _ holds => s.annotated_check holds) SymbolTable.holds_empty
      (List.isEmpty_iff.mp clean) ⟨fun _ _ known => known, fun id type found => ?_⟩
    refine TypeRecord.typeOf_ofFindings ?_ found
    rw [ids_checkAll fun s _ symbols => s.ids_check symbols]
    exact distinct
  next => cases checked

end Checked

end StackLang
