import StackLang.Lowering
import StackLang.Proofs.PlainCode
import StackLang.Proofs.TypeRules

/-!
# Which trees are accepted

The checker decides the type system: a tree has no diagnostics exactly if it is
well typed, its table then lists the declared names in order, and its record has
the type of every expression. Each direction has to cross the error type. Where
nothing was reported no node has it, so that no rule was silenced; and where the
rules apply it never comes up. What is accepted is also lowered.
-/
namespace StackLang

namespace PrimitiveType

variable {left right target value : PrimitiveType}

theorem static_ne_error (type : PrimitiveType) : type.static ≠ .error := by
  cases type <;> simp [static]

theorem static_inj : left.static = right.static ↔ left = right := by
  cases left <;> cases right <;> simp [static]

theorem isNumeric_static : left.static.isNumeric = true ↔ left.IsNumeric := by
  cases left <;> simp [static, StaticType.isNumeric, IsNumeric]

theorem accepts_static : target.static.accepts value.static = true ↔ target.Takes value := by
  cases target <;> cases value <;> simp [static, StaticType.accepts, Takes]

theorem promote?_static (lhsNumeric : left.IsNumeric) (rhsNumeric : right.IsNumeric) :
    StaticType.promote? left.static right.static = some (left.wider right).static := by
  rcases lhsNumeric with rfl | rfl <;> rcases rhsNumeric with rfl | rfl <;> rfl

theorem promote?_static_eq_some {type : StaticType}
    (promotes : StaticType.promote? left.static right.static = some type) :
    left.IsNumeric ∧ right.IsNumeric ∧ type = (left.wider right).static := by
  have both := (StaticType.promote?_isSome_iff left.static right.static).mp (by simp [promotes])
  have lhsNumeric := isNumeric_static.mp both.1
  have rhsNumeric := isNumeric_static.mp both.2
  rw [promote?_static lhsNumeric rhsNumeric] at promotes
  exact ⟨lhsNumeric, rhsNumeric, (Option.some.inj promotes).symm⟩

theorem wider_eq_int (same : left.wider right = .int) (lhsNumeric : left.IsNumeric)
    (rhsNumeric : right.IsNumeric) : left = .int ∧ right = .int := by
  rcases lhsNumeric with rfl | rfl <;> rcases rhsNumeric with rfl | rfl
  · exact ⟨rfl, rfl⟩
  · cases same
  · cases same
  · cases same

end PrimitiveType

section Rules

variable {options : CheckOptions} {policy : LogicalPolicy}

/-- Of declared types the two accounts of a binary operator say the same. -/
theorem BinaryOperator.Types.rule {operator : BinaryOperator} {left right : PrimitiveType}
    {result : StaticType} (types : operator.Types policy left.static right.static result) :
    ∃ type, operator.Rule policy left right type ∧ result = type.static := by
  generalize lhs : left.static = first at types
  generalize rhs : right.static = second at types
  cases types with
  | arithmetic kind promotes integer =>
    subst lhs rhs
    obtain ⟨lhsNumeric, rhsNumeric, rfl⟩ := PrimitiveType.promote?_static_eq_some promotes
    by_cases remainder : operator = .modulus
    · subst remainder
      have wider : left.wider right = .int := PrimitiveType.static_inj.mp (integer rfl)
      obtain ⟨rfl, rfl⟩ := PrimitiveType.wider_eq_int wider lhsNumeric rhsNumeric
      exact ⟨.int, .modulus, rfl⟩
    · refine ⟨left.wider right, .arithmetic ?_ lhsNumeric rhsNumeric, rfl⟩
      cases operator <;> simp [BinaryOperator.kind] at kind remainder ⊢
  | concat kind =>
    obtain rfl : left = .string := PrimitiveType.static_inj.mp lhs
    obtain rfl : right = .string := PrimitiveType.static_inj.mp rhs
    obtain rfl : operator = .concat := by cases operator <;> simp [BinaryOperator.kind] at kind ⊢
    exact ⟨.string, .concat, rfl⟩
  | equality kind plain =>
    obtain rfl : left = right := PrimitiveType.static_inj.mp (lhs.trans rhs.symm)
    refine ⟨.bool, .equality ?_ ?_, rfl⟩
    · cases operator <;> simp [BinaryOperator.kind] at kind ⊢
    · rintro rfl
      exact plain lhs.symm
  | relational kind lhsNumeric rhsNumeric =>
    subst lhs rhs
    refine ⟨.bool, .ordering ?_ (PrimitiveType.isNumeric_static.mp lhsNumeric)
      (PrimitiveType.isNumeric_static.mp rhsNumeric), rfl⟩
    cases operator <;> simp [BinaryOperator.kind] at kind ⊢
  | logical kind truths =>
    obtain rfl : left = right := PrimitiveType.static_inj.mp (lhs.trans rhs.symm)
    have applies : operator ∈ [BinaryOperator.and, .or] := by
      cases operator <;> simp [BinaryOperator.kind] at kind ⊢
    cases policy with
    | matchingTypes => exact ⟨left, .matching rfl applies, lhs.symm⟩
    | requireBool =>
      obtain rfl : left = .bool := PrimitiveType.static_inj.mp (lhs.trans (truths rfl))
      exact ⟨.bool, .truths rfl applies, lhs.symm⟩

theorem UnaryOperator.Types.rule {operator : UnaryOperator} {inner : PrimitiveType}
    {result : StaticType} (types : operator.Types inner.static result) :
    ∃ type, operator.Rule inner type ∧ result = type.static := by
  generalize same : inner.static = first at types
  cases types with
  | not =>
    obtain rfl : inner = .bool := PrimitiveType.static_inj.mp same
    exact ⟨.bool, .not, rfl⟩
  | negate numeric =>
    subst same
    exact ⟨inner, .negate (PrimitiveType.isNumeric_static.mp numeric), rfl⟩

namespace Ruling

theorem silences_static (type : PrimitiveType) : options.silences type.static = false :=
  silences_eq_false type.static_ne_error

/-- Where a rule applies, the checker has nothing to report. -/
theorem binary_of_rule {operator : BinaryOperator} {left right type : PrimitiveType}
    (rule : operator.Rule options.logical left right type) :
    binary options operator left.static right.static = sound type.static := by
  unfold binary
  rw [silences_static, silences_static, Bool.or_self, if_neg Bool.false_ne_true]
  cases rule with
  | arithmetic applies lhsNumeric rhsNumeric =>
    have kind : operator.kind = .arithmetic ∧ operator ≠ .modulus := by
      cases operator <;> simp [BinaryOperator.kind] at applies ⊢
    simp [kind, arithmetic, PrimitiveType.promote?_static lhsNumeric rhsNumeric]
  | modulus | concat => rfl
  | equality applies plain =>
    have kind : operator.kind = .equality := by
      cases operator <;> simp [BinaryOperator.kind] at applies ⊢
    have other : left.static ≠ .file := fun same => plain (PrimitiveType.static_inj.mp same)
    rw [kind]
    dsimp only [equality]
    rw [if_neg (not_not_intro rfl), if_neg other]
    rfl
  | ordering applies lhsNumeric rhsNumeric =>
    have kind : operator.kind = .relational := by
      cases operator <;> simp [BinaryOperator.kind] at applies ⊢
    rw [kind]
    dsimp only [relational]
    rw [PrimitiveType.isNumeric_static.mpr lhsNumeric,
      PrimitiveType.isNumeric_static.mpr rhsNumeric]
    rfl
  | matching lenient applies =>
    have kind : operator.kind = .logical := by
      cases operator <;> simp [BinaryOperator.kind] at applies ⊢
    simp [kind, logical, lenient]
  | truths strict applies =>
    have kind : operator.kind = .logical := by
      cases operator <;> simp [BinaryOperator.kind] at applies ⊢
    simp [kind, logical, strict, PrimitiveType.static]

theorem rule_of_binary {operator : BinaryOperator} {left right : PrimitiveType}
    (faultless : (binary options operator left.static right.static).fault = none) :
    ∃ type, operator.Rule options.logical left right type ∧
      (binary options operator left.static right.static).type = type.static :=
  (binary_types left.static_ne_error right.static_ne_error faultless).rule

theorem unary_of_rule {operator : UnaryOperator} {inner type : PrimitiveType}
    (rule : operator.Rule inner type) :
    unary options operator inner.static = sound type.static := by
  unfold unary
  rw [silences_static, if_neg Bool.false_ne_true]
  cases rule with
  | not => rfl
  | negate numeric => simp [PrimitiveType.isNumeric_static.mpr numeric]

theorem rule_of_unary {operator : UnaryOperator} {inner : PrimitiveType}
    (faultless : (unary options operator inner.static).fault = none) :
    ∃ type, operator.Rule inner type ∧
      (unary options operator inner.static).type = type.static :=
  (unary_types inner.static_ne_error faultless).rule

theorem assignment_of_takes {target value : PrimitiveType} (takes : target.Takes value) :
    assignment options target.static value.static = sound target.static := by
  simp [assignment, PrimitiveType.accepts_static.mpr takes]

end Ruling

end Rules

section Judged

variable {options : CheckOptions} {symbols : SymbolTable} {names : Declarations}

namespace SymbolTable.Holds

theorem lookup (holds : symbols.Holds names) {name : String} {type : PrimitiveType}
    (declared : names.lookup name = some type) :
    Ruling.lookup symbols name = .sound type.static := by
  rw [Ruling.lookup, holds.typeOf, declared]
  rfl

theorem declared (holds : symbols.Holds names) {name : Identifier}
    (clean : (Ruling.lookup symbols name.name).diagnostics name.position = []) :
    ∃ type, names.lookup name.name = some type ∧
      (Ruling.lookup symbols name.name).type = type.static := by
  have known := declared_of_lookup clean
  rw [holds.typeOf] at known
  obtain ⟨type, declared, same⟩ := Option.map_eq_some_iff.mp known
  exact ⟨type, declared, same.symm⟩

theorem get?_eq_none (holds : symbols.Holds names) {name : String} :
    symbols.get? name = none ↔ names.lookup name = none := by
  have known := holds.typeOf name
  rw [SymbolTable.typeOf?] at known
  constructor
  · intro absent
    rw [absent] at known
    exact Option.map_eq_none_iff.mp known.symm
  · intro fresh
    rw [fresh] at known
    exact Option.map_eq_none_iff.mp known

end SymbolTable.Holds

/-- After one more declaration a name is still new if it was, and is not the declared one. -/
theorem Declarations.lookup_concat_eq_none {name other : String} {type : PrimitiveType} :
    (names ++ [(name, type)]).lookup other = none ↔ names.lookup other = none ∧ name ≠ other := by
  rw [List.lookup_append, Option.or_eq_none_iff, List.lookup_cons]
  by_cases same : other = name
  · simp [same]
  · have differs : (other == name) = false := by simpa using same
    simp [differs, Ne.symm same]

namespace Expression

/-- What is judged without a diagnostic has a type, and the judgement is that type. -/
theorem hasType_of_judge (holds : symbols.Holds names) {e : Expression}
    (clean : (e.judge options symbols).diagnostics = []) :
    ∃ type, e.HasType options.logical names type ∧
      (e.judge options symbols).type = type.static := by
  induction e with
  | literal node value =>
    cases value with
    | int n => exact ⟨.int, .int node n, rfl⟩
    | float x => exact ⟨.float, .float node x, rfl⟩
    | bool b => exact ⟨.bool, .bool node b, rfl⟩
    | string s => exact ⟨.string, .string node s, rfl⟩
  | «variable» node name =>
    obtain ⟨clean, _⟩ := diagnostics_ofNode clean
    obtain ⟨type, declared, same⟩ := holds.declared clean
    exact ⟨type, .variable node declared, same⟩
  | grouping node inner ih =>
    obtain ⟨clean, _⟩ := diagnostics_ofNode clean
    obtain ⟨type, part, same⟩ := ih clean
    exact ⟨type, .grouping node part, same⟩
  | binary node operator lhs rhs leftIH rightIH =>
    obtain ⟨clean, faultless⟩ := diagnostics_ofNode clean
    obtain ⟨lhsClean, rhsClean⟩ := List.append_eq_nil_iff.mp clean
    obtain ⟨left, lhsPart, lhsType⟩ := leftIH lhsClean
    obtain ⟨right, rhsPart, rhsType⟩ := rightIH rhsClean
    rw [lhsType, rhsType] at faultless
    obtain ⟨type, rule, same⟩ := Ruling.rule_of_binary faultless
    refine ⟨type, .binary node lhsPart rhsPart rule, ?_⟩
    rw [judge, Judgement.ofNode, lhsType, rhsType]
    exact same
  | unary node operator operand ih =>
    obtain ⟨clean, faultless⟩ := diagnostics_ofNode clean
    obtain ⟨inner, part, innerType⟩ := ih clean
    rw [innerType] at faultless
    obtain ⟨type, rule, same⟩ := Ruling.rule_of_unary faultless
    refine ⟨type, .unary node part rule, ?_⟩
    rw [judge, Judgement.ofNode, innerType]
    exact same
  | assignment node target value ih =>
    obtain ⟨clean, faultless⟩ := diagnostics_ofNode clean
    obtain ⟨clean, found⟩ := List.append_eq_nil_iff.mp clean
    obtain ⟨type, part, valueType⟩ := ih clean
    obtain ⟨declaredType, declared, targetType⟩ := holds.declared found
    rw [valueType, targetType] at faultless
    have accepts := Ruling.accepts_of_assignment declaredType.static_ne_error
      type.static_ne_error faultless
    refine ⟨declaredType,
      .assignment node declared part (PrimitiveType.accepts_static.mp accepts), ?_⟩
    rw [judge, Judgement.ofNode, Ruling.type_assignment]
    exact targetType

/-- An expression that has a type is judged by it, and nothing is reported. -/
theorem HasType.judge (holds : symbols.Holds names) {e : Expression} {type : PrimitiveType}
    (typed : e.HasType options.logical names type) :
    (e.judge options symbols).type = type.static ∧ (e.judge options symbols).diagnostics = [] := by
  induction typed with
  | int | float | bool | string => exact ⟨rfl, rfl⟩
  | «variable» node declared =>
    rw [Expression.judge, holds.lookup declared]
    exact ⟨rfl, rfl⟩
  | grouping node part ih =>
    obtain ⟨same, clean⟩ := ih
    refine ⟨same, ?_⟩
    rw [Expression.judge, Judgement.ofNode, clean]
    rfl
  | binary node lhsPart rhsPart rule leftIH rightIH =>
    obtain ⟨lhsType, lhsClean⟩ := leftIH
    obtain ⟨rhsType, rhsClean⟩ := rightIH
    rw [Expression.judge, Judgement.ofNode, lhsType, rhsType, lhsClean, rhsClean,
      Ruling.binary_of_rule rule]
    exact ⟨rfl, rfl⟩
  | unary node part rule ih =>
    obtain ⟨innerType, clean⟩ := ih
    rw [Expression.judge, Judgement.ofNode, innerType, clean, Ruling.unary_of_rule rule]
    exact ⟨rfl, rfl⟩
  | assignment node declared part takes ih =>
    obtain ⟨valueType, clean⟩ := ih
    rw [Expression.judge, Judgement.ofNode, valueType, clean, holds.lookup declared]
    dsimp only [Ruling.sound]
    rw [Ruling.assignment_of_takes takes]
    exact ⟨rfl, rfl⟩

theorem hasOnlyType_of_judge (holds : symbols.Holds names) {e : Expression}
    (clean : (e.judge options symbols).diagnostics = []) :
    ∃ type, e.HasOnlyType options.logical names type ∧
      (e.judge options symbols).type = type.static := by
  obtain ⟨type, typed, same⟩ := hasType_of_judge holds clean
  refine ⟨type, ⟨typed, fun other also => ?_⟩, same⟩
  exact PrimitiveType.static_inj.mp ((also.judge holds).1.symm.trans same)

/-- A list of types names the one type that an expression has. -/
def Recorded (policy : LogicalPolicy) (names : Declarations) (types : List (NodeId × StaticType))
    (e : Expression) : Prop :=
  ∃ type, e.HasOnlyType policy names type ∧ (e.id, type.static) ∈ types

theorem Recorded.mono {policy : LogicalPolicy} {types more : List (NodeId × StaticType)}
    {e : Expression} (recorded : e.Recorded policy names types) (part : types ⊆ more) :
    e.Recorded policy names more := by
  obtain ⟨type, only, member⟩ := recorded
  exact ⟨type, only, part member⟩

theorem recorded_self (holds : symbols.Holds names) {e : Expression}
    (clean : (e.judge options symbols).diagnostics = []) :
    e.Recorded options.logical names (e.judge options symbols).types := by
  obtain ⟨type, only, same⟩ := hasOnlyType_of_judge holds clean
  refine ⟨type, only, ?_⟩
  rw [← same]
  -- A node is recorded after its parts, with the type of the whole.
  cases e <;> exact List.mem_append_right _ List.mem_cons_self

theorem recorded_parts (holds : symbols.Holds names) {e : Expression}
    (clean : (e.judge options symbols).diagnostics = []) :
    ∀ part ∈ e.parts, part.Recorded options.logical names (e.judge options symbols).types := by
  have whole := recorded_self holds clean
  induction e with
  | literal | «variable» => exact List.forall_mem_singleton.mpr whole
  | grouping node inner ih | unary node _ inner ih =>
    have parts := (diagnostics_ofNode clean).1
    refine List.forall_mem_append.mpr ⟨fun part member => ?_, List.forall_mem_singleton.mpr whole⟩
    exact (ih parts (recorded_self holds parts) part member).mono (List.subset_append_left _ _)
  | assignment node _ value ih =>
    have parts := (List.append_eq_nil_iff.mp (diagnostics_ofNode clean).1).1
    refine List.forall_mem_append.mpr ⟨fun part member => ?_, List.forall_mem_singleton.mpr whole⟩
    exact (ih parts (recorded_self holds parts) part member).mono (List.subset_append_left _ _)
  | binary node operator lhs rhs leftIH rightIH =>
    obtain ⟨left, right⟩ := List.append_eq_nil_iff.mp (diagnostics_ofNode clean).1
    refine List.forall_mem_append.mpr ⟨List.forall_mem_append.mpr ⟨fun part member => ?_,
      fun part member => ?_⟩, List.forall_mem_singleton.mpr whole⟩
    · refine (leftIH left (recorded_self holds left) part member).mono ?_
      exact List.subset_append_of_subset_left _ (List.subset_append_left _ _)
    · refine (rightIH right (recorded_self holds right) part member).mono ?_
      exact List.subset_append_of_subset_left _ (List.subset_append_right _ _)

/-- A test of judged types says of an expression what it says of the type that it has. -/
theorem judge_iff (holds : symbols.Holds names) {fault : StaticType → Option DiagnosticCause}
    {passes : PrimitiveType → Prop}
    (sound : ∀ type : PrimitiveType, fault type.static = none ↔ passes type) {e : Expression} :
    (e.judge options symbols).diagnostics = [] ∧ fault (e.judge options symbols).type = none ↔
      ∃ type, e.HasType options.logical names type ∧ passes type := by
  constructor
  · rintro ⟨clean, faultless⟩
    obtain ⟨type, typed, same⟩ := hasType_of_judge holds clean
    rw [same] at faultless
    exact ⟨type, typed, (sound type).mp faultless⟩
  · rintro ⟨type, typed, passed⟩
    obtain ⟨same, clean⟩ := typed.judge holds
    rw [same]
    exact ⟨clean, (sound type).mpr passed⟩

end Expression

end Judged

namespace Fault

variable {options : CheckOptions} (type : PrimitiveType)

theorem condition_static (kind : ConditionKind) :
    condition options kind type.static = none ↔ type = .bool := by
  rw [condition, Ruling.silences_static]
  cases type <;> simp [PrimitiveType.static]

theorem fileName_static : fileName options type.static = none ↔ type = .string := by
  rw [fileName, Ruling.silences_static]
  cases type <;> simp [PrimitiveType.static]

theorem outputTarget_static : outputTarget options type.static = none ↔ type = .file := by
  rw [outputTarget, Ruling.silences_static]
  cases type <;> simp [PrimitiveType.static]

theorem written_static : written options type.static = none ↔ type.IsWritten := by
  rw [written, Ruling.silences_static]
  cases type <;> simp [PrimitiveType.static, PrimitiveType.IsWritten]

theorem printed_static : printed type.static = none ↔ type ≠ .file := by
  cases type <;> simp [printed, PrimitiveType.static]

theorem readTarget_static (name : String) :
    readTarget name type.static = none ↔ type ≠ .file := by
  cases type <;> simp [readTarget, PrimitiveType.static]

theorem openTarget_static (name : String) :
    openTarget name type.static = none ↔ type = .file := by
  cases type <;> simp [openTarget, PrimitiveType.static, StaticType.isError]

end Fault

section Checked

variable {options : CheckOptions} {symbols : SymbolTable} {names : Declarations}

theorem diagnostics_judged_iff {judgement : Judgement} {position : Position}
    {fault : Option DiagnosticCause} {later : Findings} :
    (later.judged judgement position fault).diagnostics = [] ↔
      (judgement.diagnostics = [] ∧ fault = none) ∧ later.diagnostics = [] := by
  constructor
  · intro clean
    obtain ⟨own, faultless, rest⟩ := diagnostics_judged clean
    exact ⟨⟨own, faultless⟩, rest⟩
  · rintro ⟨⟨own, faultless⟩, rest⟩
    simp [Findings.judged, own, faultless, rest]

theorem diagnostics_following_iff {earlier later : Findings} :
    (earlier.following later).diagnostics = [] ↔
      earlier.diagnostics = [] ∧ later.diagnostics = [] :=
  List.append_eq_nil_iff

/-- A condition is accepted if it is a truth value. -/
theorem condition_iff (holds : symbols.Holds names) {e : Expression} {kind : ConditionKind}
    {position : Position} {later : Findings} :
    (later.judged (e.judge options symbols) position
      (Fault.condition options kind (e.judge options symbols).type)).diagnostics = [] ↔
      e.HasType options.logical names .bool ∧ later.diagnostics = [] := by
  rw [diagnostics_judged_iff, e.judge_iff holds fun type => Fault.condition_static type kind]
  simp

theorem judgeAll_iff (holds : symbols.Holds names) {fault : StaticType → Option DiagnosticCause}
    {passes : PrimitiveType → Prop}
    (sound : ∀ type : PrimitiveType, fault type.static = none ↔ passes type)
    {values : List Expression} :
    (judgeAll options symbols fault values).diagnostics = [] ↔
      HaveTypes options.logical names passes values := by
  induction values with
  | nil => exact iff_of_true rfl (List.forall_mem_nil _)
  | cons e rest ih =>
    rw [judgeAll, diagnostics_judged_iff, e.judge_iff holds sound, ih, HaveTypes, HaveTypes,
      List.forall_mem_cons]

theorem declareAll_iff (holds : symbols.Holds names) {type : PrimitiveType}
    {declared : List Identifier} :
    (declareAll symbols type.static declared).diagnostics = [] ↔
      (∀ name ∈ declared, names.lookup name.name = none) ∧
        (declared.map Identifier.name).Nodup := by
  induction declared generalizing symbols names with
  | nil => simp [declareAll, Findings.start]
  | cons name rest ih =>
    rw [List.forall_mem_cons, List.map_cons, List.nodup_cons, declareAll]
    cases added : symbols.declare ⟨name.name, type.static, name.position⟩ with
    | error previous =>
      have taken : names.lookup name.name ≠ none := fun fresh => by
        rw [SymbolTable.declare, holds.get?_eq_none.mpr fresh] at added
        cases added
      exact iff_of_false (List.cons_ne_nil _ _) fun both => taken both.1.1
    | ok later =>
      have grown := SymbolTable.holds_declare holds added
      have fresh := holds.get?_eq_none.mp (SymbolTable.declare_eq_ok added).1
      dsimp only
      rw [ih grown]
      simp only [Declarations.lookup_concat_eq_none, fresh, true_and]
      constructor
      · rintro ⟨others, distinct⟩
        refine ⟨fun other member => (others other member).1, fun member => ?_, distinct⟩
        obtain ⟨other, occurs, same⟩ := List.mem_map.mp member
        exact (others other occurs).2 same.symm
      · rintro ⟨others, absent, distinct⟩
        refine ⟨fun other member => ⟨others other member, fun same => ?_⟩, distinct⟩
        exact absent (List.mem_map.mpr ⟨other, member, same.symm⟩)

theorem readDiagnostics_iff (holds : symbols.Holds names) {target : Identifier} :
    readDiagnostics symbols target = [] ↔
      ∃ type, names.lookup target.name = some type ∧ type ≠ .file := by
  constructor
  · intro clean
    obtain ⟨found, readable⟩ := List.append_eq_nil_iff.mp clean
    obtain ⟨type, declared, same⟩ := holds.declared found
    have faultless := eq_none_of_diagnostics readable
    rw [same] at faultless
    exact ⟨type, declared, (Fault.readTarget_static type _).mp faultless⟩
  · rintro ⟨type, declared, plain⟩
    rw [readDiagnostics, holds.lookup declared]
    simp [Ruling.sound, Ruling.diagnostics, (Fault.readTarget_static type _).mpr plain]

theorem checkOpen_iff (holds : symbols.Holds names) {target : Identifier} {fileName : Expression} :
    (checkOpen options symbols target fileName).diagnostics = [] ↔
      names.lookup target.name = some .file ∧ fileName.HasType options.logical names .string := by
  constructor
  · intro clean
    obtain ⟨clean, text⟩ := List.append_eq_nil_iff.mp clean
    obtain ⟨clean, file⟩ := List.append_eq_nil_iff.mp clean
    obtain ⟨own, found⟩ := List.append_eq_nil_iff.mp clean
    obtain ⟨type, declared, same⟩ := holds.declared found
    have handle := eq_none_of_diagnostics file
    rw [same, Fault.openTarget_static] at handle
    subst handle
    refine ⟨declared, ?_⟩
    have named := (fileName.judge_iff holds Fault.fileName_static).mp
      ⟨own, eq_none_of_diagnostics text⟩
    simpa using named
  · rintro ⟨declared, named⟩
    obtain ⟨own, text⟩ := (fileName.judge_iff holds Fault.fileName_static).mpr ⟨_, named, rfl⟩
    rw [checkOpen, own, text, holds.lookup declared]
    rfl

namespace Statement

variable {policy : LogicalPolicy}

theorem TypedAll.later_eq {body : List Statement}
    (each : ∀ s ∈ body, ∀ {names later}, Statement.Typed policy names s later →
      later = names ++ s.declarations) {later : Declarations}
    (typed : TypedAll policy names body later) : later = names ++ declarationsAll body := by
  induction body generalizing names with
  | nil =>
    cases typed
    exact (List.append_nil _).symm
  | cons s rest ih =>
    obtain ⟨own, others⟩ := List.forall_mem_cons.mp each
    cases typed with
    | cons first last => rw [ih others last, own first, declarationsAll, List.append_assoc]

/-- The names in force after a statement are those before it and those it declares. -/
theorem Typed.later_eq {s : Statement} {later : Declarations}
    (typed : s.Typed policy names later) : later = names ++ s.declarations := by
  induction s generalizing names later with
  | declaration => cases typed; rfl
  | conditional position condition positive negative positiveIH negativeIH =>
    cases typed with
    | conditional _ _ branch => exact positiveIH branch
    | alternative _ _ branch other =>
      rw [negativeIH _ List.mem_cons_self other, positiveIH branch, List.append_assoc]
      rfl
  | loop position condition body ih =>
    cases typed with
    | loop _ _ inner => exact ih inner
  | block position body ih =>
    cases typed with
    | block _ inner => exact inner.later_eq fun s member => ih s member
  | expression | write | read | openFile | fileOutput | empty =>
    cases typed
    exact (List.append_nil _).symm

theorem checkAll_iff {body : List Statement}
    (each : ∀ s ∈ body, ∀ {symbols names}, SymbolTable.Holds symbols names →
      ((s.check options symbols).diagnostics = [] ↔ ∃ later, s.Typed options.logical names later))
    (holds : symbols.Holds names) :
    (checkAll options symbols body).diagnostics = [] ↔
      ∃ later, TypedAll options.logical names body later := by
  induction body generalizing symbols names with
  | nil => exact iff_of_true rfl ⟨names, .nil⟩
  | cons s rest ih =>
    obtain ⟨own, others⟩ := List.forall_mem_cons.mp each
    rw [checkAll, diagnostics_following_iff]
    constructor
    · rintro ⟨here, there⟩
      obtain ⟨between, first⟩ := (own holds).mp here
      have grown := holds_check holds here
      rw [← first.later_eq] at grown
      obtain ⟨later, last⟩ := (ih others grown).mp there
      exact ⟨later, .cons first last⟩
    · rintro ⟨later, typed⟩
      cases typed with
      | cons first last =>
        have here := (own holds).mpr ⟨_, first⟩
        have grown := holds_check holds here
        rw [← first.later_eq] at grown
        exact ⟨here, (ih others grown).mpr ⟨later, last⟩⟩

/-- A statement has no diagnostics exactly if it follows the rules. -/
theorem check_iff (s : Statement) (holds : symbols.Holds names) :
    (s.check options symbols).diagnostics = [] ↔ ∃ later, s.Typed options.logical names later := by
  induction s generalizing symbols names with
  | declaration position type declared =>
    rw [check, declareAll_iff holds]
    constructor
    · rintro ⟨fresh, distinct⟩
      exact ⟨_, .declaration position fresh distinct⟩
    · rintro ⟨later, typed⟩
      cases typed with
      | declaration _ fresh distinct => exact ⟨fresh, distinct⟩
  | expression position value =>
    constructor
    · intro clean
      obtain ⟨type, part, _⟩ := value.hasType_of_judge holds (diagnostics_judged clean).1
      exact ⟨names, .expression position part⟩
    · rintro ⟨later, typed⟩
      cases typed with
      | expression _ part =>
        exact diagnostics_judged_iff.mpr ⟨⟨(part.judge holds).2, rfl⟩, rfl⟩
  | conditional position condition positive negative positiveIH negativeIH =>
    cases negative with
    | none =>
      rw [check, condition_iff holds, positiveIH holds]
      constructor
      · rintro ⟨test, later, branch⟩
        exact ⟨later, .conditional position test branch⟩
      · rintro ⟨later, typed⟩
        cases typed with
        | conditional _ test branch => exact ⟨test, later, branch⟩
    | some negative =>
      have other {symbols names} (holds : SymbolTable.Holds symbols names) :=
        negativeIH negative (List.mem_singleton_self negative) holds
      rw [check, condition_iff holds, diagnostics_following_iff]
      constructor
      · rintro ⟨test, here, there⟩
        obtain ⟨between, branch⟩ := (positiveIH holds).mp here
        have grown := holds_check holds here
        rw [← branch.later_eq] at grown
        obtain ⟨later, last⟩ := (other grown).mp there
        exact ⟨later, .alternative position test branch last⟩
      · rintro ⟨later, typed⟩
        cases typed with
        | alternative _ test branch last =>
          have here := (positiveIH holds).mpr ⟨_, branch⟩
          have grown := holds_check holds here
          rw [← branch.later_eq] at grown
          exact ⟨test, here, (other grown).mpr ⟨later, last⟩⟩
  | loop position condition body ih =>
    rw [check, condition_iff holds, ih holds]
    constructor
    · rintro ⟨test, later, inner⟩
      exact ⟨later, .loop position test inner⟩
    · rintro ⟨later, typed⟩
      cases typed with
      | loop _ test inner => exact ⟨test, later, inner⟩
  | block position body ih =>
    rw [check, checkAll_iff (fun s member => ih s member) holds]
    constructor
    · rintro ⟨later, inner⟩
      exact ⟨later, .block position inner⟩
    · rintro ⟨later, typed⟩
      cases typed with
      | block _ inner => exact ⟨later, inner⟩
  | write position values =>
    rw [check, judgeAll_iff holds Fault.printed_static]
    constructor
    · intro parts
      exact ⟨names, .write position parts⟩
    · rintro ⟨later, typed⟩
      cases typed with
      | write _ parts => exact parts
  | read position targets =>
    rw [check, List.flatMap_eq_nil_iff]
    constructor
    · intro clean
      refine ⟨names, .read position fun target member => ?_⟩
      exact (readDiagnostics_iff holds).mp (clean target member)
    · rintro ⟨later, typed⟩ target member
      cases typed with
      | read _ declared => exact (readDiagnostics_iff holds).mpr (declared target member)
  | openFile position target fileName =>
    rw [check, checkOpen_iff holds]
    constructor
    · rintro ⟨declared, part⟩
      exact ⟨names, .openFile position declared part⟩
    · rintro ⟨later, typed⟩
      cases typed with
      | openFile _ declared part => exact ⟨declared, part⟩
  | fileOutput position file values =>
    rw [check, diagnostics_judged_iff, file.judge_iff holds Fault.outputTarget_static,
      judgeAll_iff holds Fault.written_static]
    constructor
    · rintro ⟨⟨_, handle, rfl⟩, parts⟩
      exact ⟨names, .fileOutput position handle parts⟩
    · rintro ⟨later, typed⟩
      cases typed with
      | fileOutput _ handle parts => exact ⟨⟨.file, handle, rfl⟩, parts⟩
  | empty position => exact iff_of_true rfl ⟨names, .empty position⟩

end Statement

/-- Each of some sites is recorded with the type that it has where it stands. -/
def RecordedSites (policy : LogicalPolicy) (types : List (NodeId × StaticType))
    (sites : List (Declarations × Expression)) : Prop :=
  ∀ site ∈ sites, site.2.Recorded policy site.1 types

namespace RecordedSites

variable {policy : LogicalPolicy} {types more : List (NodeId × StaticType)}
  {sites others : List (Declarations × Expression)}

theorem mono (recorded : RecordedSites policy types sites) (part : types ⊆ more) :
    RecordedSites policy more sites :=
  fun site member => (recorded site member).mono part

theorem append (first : RecordedSites policy types sites)
    (second : RecordedSites policy more others) :
    RecordedSites policy (types ++ more) (sites ++ others) :=
  List.forall_mem_append.mpr ⟨first.mono (List.subset_append_left _ _),
    second.mono (List.subset_append_right _ _)⟩

theorem of_parts {parts : List Expression}
    (recorded : ∀ part ∈ parts, part.Recorded policy names types) :
    RecordedSites policy types (parts.map (names, ·)) :=
  List.forall_mem_map.mpr recorded

end RecordedSites

theorem recorded_judge (holds : symbols.Holds names) {e : Expression}
    (clean : (e.judge options symbols).diagnostics = []) :
    RecordedSites options.logical (e.judge options symbols).types (e.parts.map (names, ·)) :=
  .of_parts (e.recorded_parts holds clean)

theorem recorded_judgeAll (holds : symbols.Holds names)
    {fault : StaticType → Option DiagnosticCause} {values : List Expression}
    (clean : (judgeAll options symbols fault values).diagnostics = []) :
    RecordedSites options.logical (judgeAll options symbols fault values).types
      ((values.flatMap Expression.parts).map (names, ·)) := by
  induction values with
  | nil => exact List.forall_mem_nil _
  | cons e rest ih =>
    obtain ⟨own, _, later⟩ := diagnostics_judged clean
    rw [List.flatMap_cons, List.map_append]
    exact (recorded_judge holds own).append (ih later)

theorem recorded_checkAll {body : List Statement}
    (each : ∀ s ∈ body, ∀ {symbols names}, SymbolTable.Holds symbols names →
      (s.check options symbols).diagnostics = [] →
      RecordedSites options.logical (s.check options symbols).types (s.sites names))
    (holds : symbols.Holds names) (clean : (checkAll options symbols body).diagnostics = []) :
    RecordedSites options.logical (checkAll options symbols body).types
      (Statement.sitesAll names body) := by
  induction body generalizing symbols names with
  | nil => exact List.forall_mem_nil _
  | cons s rest ih =>
    obtain ⟨own, others⟩ := List.forall_mem_cons.mp each
    obtain ⟨here, there⟩ := diagnostics_following clean
    exact (own holds here).append (ih others (holds_check holds here) there)

/-- Checking a statement without diagnostics records the type of every expression in it. -/
theorem Statement.recorded_check (s : Statement) (holds : symbols.Holds names)
    (clean : (s.check options symbols).diagnostics = []) :
    RecordedSites options.logical (s.check options symbols).types (s.sites names) := by
  induction s generalizing symbols names with
  | declaration | read | empty => exact List.forall_mem_nil _
  | expression position value =>
    have recorded := recorded_judge holds (diagnostics_judged clean).1
    exact recorded.mono (List.subset_append_left _ _)
  | conditional position condition positive negative positiveIH negativeIH =>
    cases negative with
    | none =>
      obtain ⟨own, _, later⟩ := diagnostics_judged clean
      exact (recorded_judge holds own).append (positiveIH holds later)
    | some negative =>
      obtain ⟨own, _, later⟩ := diagnostics_judged clean
      obtain ⟨here, there⟩ := diagnostics_following later
      have last := negativeIH negative List.mem_cons_self (holds_check holds here) there
      exact (recorded_judge holds own).append ((positiveIH holds here).append last)
  | loop position condition body ih =>
    obtain ⟨own, _, later⟩ := diagnostics_judged clean
    exact (recorded_judge holds own).append (ih holds later)
  | block position body ih => exact recorded_checkAll (fun s member => ih s member) holds clean
  | write position values => exact recorded_judgeAll holds clean
  | openFile position target fileName =>
    obtain ⟨clean, _⟩ := List.append_eq_nil_iff.mp clean
    obtain ⟨clean, _⟩ := List.append_eq_nil_iff.mp clean
    exact recorded_judge holds (List.append_eq_nil_iff.mp clean).1
  | fileOutput position file values =>
    obtain ⟨own, _, later⟩ := diagnostics_judged clean
    rw [sites, List.map_append]
    exact (recorded_judge holds own).append (recorded_judgeAll holds later)

end Checked

/-- The symbols of a table are the declarations, in their order. -/
def SymbolTable.Lists (table : SymbolTable) (names : Declarations) : Prop :=
  table.toList.map (fun symbol => (symbol.name, symbol.type)) =
    names.map fun declared => (declared.1, declared.2.static)

theorem SymbolTable.lists_declare {table later : SymbolTable} {names : Declarations}
    {name : String} {type : PrimitiveType} {position : Position} (lists : table.Lists names)
    (declared : table.declare ⟨name, type.static, position⟩ = .ok later) :
    later.Lists (names ++ [(name, type)]) := by
  rw [Lists, toList_declare declared, List.map_append, List.map_append, lists]
  rfl

namespace Tree

variable {options : CheckOptions} {tree : Tree} {record : TypeRecord}

theorem check_eq_ok : tree.check options = .ok record ↔
    (checkAll options .empty tree).diagnostics = [] ∧
      .ofFindings (checkAll options .empty tree) = record := by
  by_cases clean : (checkAll options .empty tree).diagnostics = []
  · simp [check, clean]
  · simp [check, clean]

theorem check_eq_error {diagnostics : List Diagnostic}
    (refused : tree.check options = .error diagnostics) : diagnostics ≠ [] := by
  rintro rfl
  by_cases clean : (checkAll options .empty tree).diagnostics = []
  · simp [check, clean] at refused
  · simp [check, clean] at refused

/-- All that checking has to say of a tree, which is nothing if the tree is accepted. -/
def diagnostics (options : CheckOptions) (tree : Tree) : List Diagnostic :=
  match tree.check options with
  | .ok _ => []
  | .error diagnostics => diagnostics

theorem diagnostics_eq (options : CheckOptions) (tree : Tree) :
    tree.diagnostics options = (checkAll options .empty tree).diagnostics := by
  by_cases clean : (checkAll options .empty tree).diagnostics = []
  · simp [diagnostics, check, clean]
  · simp [diagnostics, check, clean]

theorem diagnostics_eq_nil :
    tree.diagnostics options = [] ↔ ∃ record, tree.check options = .ok record := by
  simp [diagnostics_eq, check_eq_ok]

theorem compile_eq_ok {program : Program} : tree.compile options = .ok program ↔
    ∃ record, tree.check options = .ok record ∧ tree.lower record = .ok program := by
  rw [compile]
  cases tree.check options with
  | error diagnostics => simp
  | ok record =>
    simp only [Except.ok.injEq, exists_eq_left']
    cases tree.lower record <;> simp

theorem exists_check_iff :
    (∃ record, tree.check options = .ok record) ↔
      ∃ names, tree.WellTyped options.logical names := by
  simp only [check_eq_ok, exists_and_left, exists_eq', and_true]
  exact Statement.checkAll_iff (fun s _ => s.check_iff) SymbolTable.holds_empty

/-- A well-typed tree declares the names of its declarations, in their order. -/
theorem WellTyped.eq_declarations {policy : LogicalPolicy} {names : Declarations}
    (typed : tree.WellTyped policy names) : names = tree.declarations :=
  typed.later_eq fun _ _ => Statement.Typed.later_eq

/-- With identities of their own, all expressions keep in the record the one type they have. -/
theorem typeOf_sites (distinct : tree.ids.Nodup) (checked : tree.check options = .ok record) :
    ∀ site ∈ tree.sites, ∃ type, site.2.HasOnlyType options.logical site.1 type ∧
      record.typeOf site.2.id = type.static := by
  obtain ⟨clean, rfl⟩ := check_eq_ok.mp checked
  intro site member
  obtain ⟨type, only, found⟩ :=
    recorded_checkAll (fun s _ => s.recorded_check) SymbolTable.holds_empty clean site member
  refine ⟨type, only, TypeRecord.typeOf_ofFindings ?_ found⟩
  rw [ids_checkAll fun s _ symbols => s.ids_check symbols]
  exact distinct

/--
The checker accepts exactly the well-typed trees. The table of an accepted tree
lists its declarations in order and knows no other name, and the record has for
every expression the one type that it has where it stands.
-/
theorem check_decides (options : CheckOptions) (tree : Tree) :
    ((∃ record, tree.check options = .ok record) ↔
      ∃ names, tree.WellTyped options.logical names) ∧
    ∀ record, tree.check options = .ok record →
      tree.WellTyped options.logical tree.declarations ∧
      record.symbols.Lists tree.declarations ∧
      (∀ name, record.symbols.typeOf? name =
        (tree.declarations.lookup name).map PrimitiveType.static) ∧
      (tree.ids.Nodup → ∀ site ∈ tree.sites, ∃ type,
        site.2.HasOnlyType options.logical site.1 type ∧
          record.typeOf site.2.id = type.static) := by
  refine ⟨exists_check_iff, fun record checked => ⟨?_, ?_, ?_, ?_⟩⟩
  · obtain ⟨names, typed⟩ := exists_check_iff.mp ⟨record, checked⟩
    rwa [← typed.eq_declarations]
  · exact keeps_tree SymbolTable.lists_declare rfl checked
  · exact (holds_check checked).typeOf
  · exact fun distinct => typeOf_sites distinct checked

/--
Compiling ends in code or in diagnostics, of which there is at least one: what
the checker accepts is never beyond the generator.
-/
theorem compile_cases (options : CheckOptions) (tree : Tree) (distinct : tree.ids.Nodup) :
    ((∃ program, tree.compile options = .ok program) ∨
      ∃ diagnostics, tree.compile options = .error (.illTyped diagnostics) ∧ diagnostics ≠ []) ∧
    ∀ record, tree.check options = .ok record → ∃ program, tree.lower record = .ok program := by
  have lowers : ∀ record, tree.check options = .ok record →
      ∃ program, tree.lower record = .ok program := fun record checked => by
    obtain ⟨code, _, _, emitted⟩ := exists_lower checked distinct
    exact ⟨.ofList code, emitted⟩
  refine ⟨?_, lowers⟩
  rw [compile]
  cases checked : tree.check options with
  | ok record =>
    obtain ⟨program, emitted⟩ := lowers record checked
    refine .inl ⟨program, ?_⟩
    dsimp only
    rw [emitted]
  | error diagnostics => exact .inr ⟨diagnostics, rfl, check_eq_error checked⟩

/-- A float variable is given a sum of an int and a float, and is then compared and printed. -/
theorem compile_cases_sum :
    let at0 : Position := ⟨1, 0⟩
    let x : Identifier := ⟨"x", at0⟩
    let sum : Expression :=
      .binary ⟨2, at0⟩ .add (.literal ⟨0, at0⟩ (.int 1)) (.variable ⟨1, at0⟩ x)
    let test : Expression := .binary ⟨6, at0⟩ .equal (.variable ⟨4, at0⟩ x) (.variable ⟨5, at0⟩ x)
    let tree : Tree := [.declaration at0 .float [x],
      .expression at0 (.assignment ⟨3, at0⟩ x sum), .write at0 [test]]
    tree.ids.Nodup ∧ ∃ program, tree.compile ⟨.requireBool, true⟩ = .ok program := by
  intro at0 x sum test tree
  have distinct : tree.ids.Nodup := by decide
  refine ⟨distinct, ?_⟩
  have float : ∀ node, Expression.HasType .requireBool [("x", .float)] (.variable node x) .float :=
    fun node => .variable node (by decide)
  have added : sum.HasType .requireBool [("x", .float)] .float :=
    .binary ⟨2, at0⟩ (.int ⟨0, at0⟩ 1) (float ⟨1, at0⟩)
      (.arithmetic (by decide) (.inl rfl) (.inr rfl))
  have compared : test.HasType .requireBool [("x", .float)] .bool :=
    .binary ⟨6, at0⟩ (float ⟨4, at0⟩) (float ⟨5, at0⟩) (.equality (by decide) nofun)
  have typed : tree.WellTyped .requireBool [("x", .float)] :=
    .cons (.declaration at0 (by decide) (by decide)) <|
      .cons (.expression at0 (.assignment ⟨3, at0⟩ (by decide) added (.inl rfl))) <|
      .cons (.write at0 (List.forall_mem_singleton.mpr ⟨.bool, compared, nofun⟩)) .nil
  have accepted : ∃ record, tree.check ⟨.requireBool, true⟩ = .ok record :=
    exists_check_iff.mpr ⟨_, typed⟩
  obtain ⟨record, checked⟩ := accepted
  obtain ⟨program, emitted⟩ := (compile_cases _ tree distinct).2 record checked
  refine ⟨program, ?_⟩
  rw [compile, checked]
  dsimp only
  rw [emitted]

end Tree

end StackLang
