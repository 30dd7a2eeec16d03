import StackLang.Proofs.Suppression

/-!
# The two policies for logical operators

The strict policy asks the operands of a logical operator to be truth values, the
lenient one asks them to be alike. A tree passes the strict check exactly if it
passes the lenient one and all its logical operators are given the type of truth
values; nothing else is then found in either check. Where only the lenient check
is passed, an operator that is refused has the error type from there on. Whatever
is built on it is silenced, so that the refusals are all that is reported.
-/
namespace StackLang

/-- Whether an expression joins two operands by a logical operator. -/
def Expression.isLogical : Expression → Bool
  | .binary _ operator _ _ => operator.kind = .logical
  | _ => false

section Rules

variable {operator : BinaryOperator} {left right type : PrimitiveType} {names : Declarations}

/-- What the lenient policy allows is allowed by the strict one if it is about truth values. -/
theorem BinaryOperator.Rule.strict (rule : operator.Rule .matchingTypes left right type)
    (truths : operator.kind = .logical → type = .bool) :
    operator.Rule .requireBool left right type := by
  cases rule with
  | arithmetic applies lhsNumeric rhsNumeric => exact .arithmetic applies lhsNumeric rhsNumeric
  | modulus => exact .modulus
  | concat => exact .concat
  | equality applies plain => exact .equality applies plain
  | ordering applies lhsNumeric rhsNumeric => exact .ordering applies lhsNumeric rhsNumeric
  | matching _ applies =>
    have kind : operator.kind = .logical := by
      cases operator <;> simp [BinaryOperator.kind] at applies ⊢
    obtain rfl := truths kind
    exact .truths rfl applies
  | truths strict => cases strict

theorem BinaryOperator.Rule.eq_bool (rule : operator.Rule .requireBool left right type)
    (kind : operator.kind = .logical) : type = .bool := by
  cases rule with
  | equality | ordering | truths => rfl
  | arithmetic applies => cases operator <;> simp [BinaryOperator.kind] at applies kind
  | modulus | concat => cases kind
  | matching lenient => cases lenient

/-- An expression that is a truth value wherever it has a type, if it is a logical one. -/
def Expression.IsTruth (names : Declarations) (e : Expression) : Prop :=
  e.isLogical = true → ∀ type, e.HasType .matchingTypes names type → type = .bool

/-- The lenient type of an expression is its strict type if its logical parts are truth values. -/
theorem Expression.HasType.strict {e : Expression}
    (typed : e.HasType .matchingTypes names type)
    (truths : ∀ part ∈ e.parts, part.IsTruth names) : e.HasType .requireBool names type := by
  induction typed with
  | int node n => exact .int node n
  | float node x => exact .float node x
  | bool node b => exact .bool node b
  | string node s => exact .string node s
  | «variable» node declared => exact .variable node declared
  | grouping node part ih =>
    exact .grouping node (ih (List.forall_mem_append.mp truths).1)
  | binary node lhsPart rhsPart rule leftIH rightIH =>
    obtain ⟨operands, whole⟩ := List.forall_mem_append.mp truths
    obtain ⟨left, right⟩ := List.forall_mem_append.mp operands
    refine .binary node (leftIH left) (rightIH right) (rule.strict fun kind => ?_)
    exact whole _ List.mem_cons_self (by simpa [isLogical] using kind) _
      (.binary node lhsPart rhsPart rule)
  | unary node part rule ih =>
    exact .unary node (ih (List.forall_mem_append.mp truths).1) rule
  | assignment node declared part takes ih =>
    exact .assignment node declared (ih (List.forall_mem_append.mp truths).1) takes

theorem Expression.HasType.eq_bool {e : Expression} (typed : e.HasType .requireBool names type)
    (logical : e.isLogical = true) : type = .bool := by
  cases typed with
  | binary node lhsPart rhsPart rule => exact rule.eq_bool (by simpa [isLogical] using logical)
  | _ => cases logical

theorem HaveTypes.strict {passes : PrimitiveType → Prop} {values : List Expression}
    (typed : HaveTypes .matchingTypes names passes values)
    (truths : ∀ part ∈ values.flatMap Expression.parts, part.IsTruth names) :
    HaveTypes .requireBool names passes values := by
  intro e member
  obtain ⟨type, part, passed⟩ := typed e member
  refine ⟨type, part.strict fun inner inside => ?_, passed⟩
  exact truths inner (List.mem_flatMap.mpr ⟨e, member, inside⟩)

/-- The logical operators among some sites give truth values. -/
def TruthSites (sites : List (Declarations × Expression)) : Prop :=
  ∀ site ∈ sites, site.2.IsTruth site.1

theorem TruthSites.parts {parts : List Expression}
    (truths : TruthSites (parts.map (names, ·))) : ∀ part ∈ parts, part.IsTruth names :=
  fun _ member => truths _ (List.mem_map_of_mem member)

namespace Statement

theorem TypedAll.strict {body : List Statement}
    (each : ∀ s ∈ body, ∀ {names later}, s.Typed .matchingTypes names later →
      TruthSites (s.sites names) → s.Typed .requireBool names later)
    {later : Declarations} (typed : TypedAll .matchingTypes names body later)
    (truths : TruthSites (sitesAll names body)) : TypedAll .requireBool names body later := by
  induction body generalizing names with
  | nil =>
    cases typed
    exact .nil
  | cons s rest ih =>
    obtain ⟨own, others⟩ := List.forall_mem_cons.mp each
    obtain ⟨here, there⟩ := List.forall_mem_append.mp truths
    cases typed with
    | cons first last =>
      rw [← first.later_eq] at there
      exact .cons (own first here) (ih others last there)

theorem Typed.strict {s : Statement} {later : Declarations}
    (typed : s.Typed .matchingTypes names later) (truths : TruthSites (s.sites names)) :
    s.Typed .requireBool names later := by
  induction s generalizing names later with
  | declaration position type declared =>
    cases typed with
    | declaration _ fresh distinct => exact .declaration position fresh distinct
  | expression position value =>
    cases typed with
    | expression _ part => exact .expression position (part.strict truths.parts)
  | conditional position condition positive negative positiveIH negativeIH =>
    cases typed with
    | conditional _ test branch =>
      obtain ⟨own, first⟩ := List.forall_mem_append.mp truths
      exact .conditional position (test.strict (TruthSites.parts own)) (positiveIH branch first)
    | alternative _ test branch other =>
      obtain ⟨own, inner⟩ := List.forall_mem_append.mp truths
      obtain ⟨first, second⟩ := List.forall_mem_append.mp inner
      rw [← branch.later_eq] at second
      exact .alternative position (test.strict (TruthSites.parts own)) (positiveIH branch first)
        (negativeIH _ List.mem_cons_self other second)
  | loop position condition body ih =>
    cases typed with
    | loop _ test inner =>
      obtain ⟨own, first⟩ := List.forall_mem_append.mp truths
      exact .loop position (test.strict (TruthSites.parts own)) (ih inner first)
  | block position body ih =>
    cases typed with
    | block _ inner => exact .block position (inner.strict (fun s member => ih s member) truths)
  | write position values =>
    cases typed with
    | write _ parts => exact .write position (parts.strict truths.parts)
  | read position targets =>
    cases typed with
    | read _ declared => exact .read position declared
  | openFile position target fileName =>
    cases typed with
    | openFile _ declared part => exact .openFile position declared (part.strict truths.parts)
  | fileOutput position file values =>
    cases typed with
    | fileOutput _ handle parts =>
      obtain ⟨own, others⟩ := List.forall_mem_append.mp truths.parts
      exact .fileOutput position (handle.strict own) (parts.strict others)
  | empty position =>
    cases typed
    exact .empty position

end Statement

end Rules

section Clean

-- What the strict check finds nothing wrong with is found by the lenient check just so.
variable {cascade : Bool} {symbols : SymbolTable}

theorem Ruling.logical_lenient {operator : BinaryOperator} {lhs rhs : StaticType}
    (faultless : (logical .requireBool operator lhs rhs).fault = none) :
    logical .matchingTypes operator lhs rhs = logical .requireBool operator lhs rhs := by
  by_cases truths : lhs = .bool ∧ rhs = .bool
  · simp [logical, truths]
  · have refused : logical .requireBool operator lhs rhs =
        faulty .error (.logicalMismatch operator lhs rhs) := by simp [logical, truths]
    rw [refused] at faultless
    cases faultless

theorem Ruling.applied_lenient {operator : BinaryOperator} {lhs rhs : StaticType}
    (faultless : (applied .requireBool operator lhs rhs).fault = none) :
    applied .matchingTypes operator lhs rhs = applied .requireBool operator lhs rhs := by
  unfold applied at faultless ⊢
  cases kind : operator.kind with
  | logical =>
    rw [kind] at faultless
    exact logical_lenient faultless
  | _ => rfl

theorem Ruling.binary_lenient {operator : BinaryOperator} {lhs rhs : StaticType}
    (faultless : (binary ⟨.requireBool, cascade⟩ operator lhs rhs).fault = none) :
    binary ⟨.matchingTypes, cascade⟩ operator lhs rhs =
      binary ⟨.requireBool, cascade⟩ operator lhs rhs := by
  -- The operands are silenced under both policies or under none.
  cases silenced : CheckOptions.silences ⟨.matchingTypes, cascade⟩ lhs ||
      CheckOptions.silences ⟨.matchingTypes, cascade⟩ rhs with
  | true => exact (if_pos silenced).trans (if_pos silenced).symm
  | false =>
    have strict : binary ⟨.requireBool, cascade⟩ operator lhs rhs =
        applied .requireBool operator lhs rhs := binary_of_heard silenced
    rw [strict] at faultless ⊢
    rw [binary_of_heard silenced]
    exact applied_lenient faultless

theorem Expression.judge_lenient {e : Expression}
    (clean : (e.judge ⟨.requireBool, cascade⟩ symbols).diagnostics = []) :
    e.judge ⟨.matchingTypes, cascade⟩ symbols = e.judge ⟨.requireBool, cascade⟩ symbols := by
  induction e with
  | literal | «variable» => rfl
  | grouping node inner ih =>
    rw [judge, judge, ih (diagnostics_ofNode clean).1]
  | binary node operator lhs rhs leftIH rightIH =>
    obtain ⟨clean, faultless⟩ := diagnostics_ofNode clean
    obtain ⟨lhsClean, rhsClean⟩ := List.append_eq_nil_iff.mp clean
    rw [judge, judge, leftIH lhsClean, rightIH rhsClean, Ruling.binary_lenient faultless]
  | unary node operator operand ih =>
    rw [judge, judge, ih (diagnostics_ofNode clean).1]
    rfl
  | assignment node target value ih =>
    obtain ⟨clean, _⟩ := diagnostics_ofNode clean
    rw [judge, judge, ih (List.append_eq_nil_iff.mp clean).1]
    rfl

theorem judgeAll_lenient {fault : StaticType → Option DiagnosticCause} {values : List Expression}
    (clean : (judgeAll ⟨.requireBool, cascade⟩ symbols fault values).diagnostics = []) :
    judgeAll ⟨.matchingTypes, cascade⟩ symbols fault values =
      judgeAll ⟨.requireBool, cascade⟩ symbols fault values := by
  induction values with
  | nil => rfl
  | cons e rest ih =>
    obtain ⟨own, _, later⟩ := diagnostics_judged clean
    rw [judgeAll, judgeAll, ih later, e.judge_lenient own]

theorem checkAll_lenient {body : List Statement}
    (each : ∀ s ∈ body, ∀ {symbols},
      (s.check ⟨.requireBool, cascade⟩ symbols).diagnostics = [] →
      s.check ⟨.matchingTypes, cascade⟩ symbols = s.check ⟨.requireBool, cascade⟩ symbols)
    (clean : (checkAll ⟨.requireBool, cascade⟩ symbols body).diagnostics = []) :
    checkAll ⟨.matchingTypes, cascade⟩ symbols body =
      checkAll ⟨.requireBool, cascade⟩ symbols body := by
  induction body generalizing symbols with
  | nil => rfl
  | cons s rest ih =>
    obtain ⟨own, others⟩ := List.forall_mem_cons.mp each
    obtain ⟨here, there⟩ := diagnostics_following clean
    rw [checkAll, checkAll, own here, ih others there]

theorem Statement.check_lenient {s : Statement}
    (clean : (s.check ⟨.requireBool, cascade⟩ symbols).diagnostics = []) :
    s.check ⟨.matchingTypes, cascade⟩ symbols = s.check ⟨.requireBool, cascade⟩ symbols := by
  induction s generalizing symbols with
  | declaration | read | empty => rfl
  | expression position value =>
    rw [check, check, value.judge_lenient (diagnostics_judged clean).1]
  | conditional position condition positive negative positiveIH negativeIH =>
    cases negative with
    | none =>
      obtain ⟨own, _, later⟩ := diagnostics_judged clean
      rw [check, check, condition.judge_lenient own, positiveIH later]
      rfl
    | some negative =>
      obtain ⟨own, _, later⟩ := diagnostics_judged clean
      obtain ⟨here, there⟩ := diagnostics_following later
      rw [check, check, condition.judge_lenient own, positiveIH here,
        negativeIH negative List.mem_cons_self there]
      rfl
  | loop position condition body ih =>
    obtain ⟨own, _, later⟩ := diagnostics_judged clean
    rw [check, check, condition.judge_lenient own, ih later]
    rfl
  | block position body ih => exact checkAll_lenient (fun s member => ih s member) clean
  | write position values => exact judgeAll_lenient clean
  | openFile position target fileName =>
    obtain ⟨clean, _⟩ := List.append_eq_nil_iff.mp clean
    obtain ⟨clean, _⟩ := List.append_eq_nil_iff.mp clean
    rw [check, check, checkOpen, checkOpen,
      fileName.judge_lenient (List.append_eq_nil_iff.mp clean).1]
    rfl
  | fileOutput position file values =>
    obtain ⟨own, _, later⟩ := diagnostics_judged clean
    have others : judgeAll ⟨.matchingTypes, cascade⟩ symbols
        (Fault.written ⟨.matchingTypes, cascade⟩) values =
        judgeAll ⟨.requireBool, cascade⟩ symbols (Fault.written ⟨.requireBool, cascade⟩) values :=
      judgeAll_lenient later
    rw [check, check, file.judge_lenient own, others]
    rfl

end Clean

/-- What only the strict policy reports: operands that are alike and are no truth values. -/
def DiagnosticCause.IsStrict (cause : DiagnosticCause) : Prop :=
  ∃ operator type, cause = .logicalMismatch operator type type ∧ type ≠ .bool

/-- A type that is given, or withheld because of an earlier report. -/
def StaticType.GivenOrError (type given : StaticType) : Prop :=
  type = given ∨ type = .error

theorem StaticType.GivenOrError.eq {type given : StaticType} (either : type.GivenOrError given)
    (proper : type.isError = false) : type = given := by
  rcases either with same | rfl
  · exact same
  · cases proper

/-- A list of diagnostics of the strict policy alone. -/
def AreStrict (diagnostics : List Diagnostic) : Prop :=
  ∀ d ∈ diagnostics, d.cause.IsStrict

/-- A ruling that finds no fault but of the strict policy, and gives a type or withholds it. -/
structure Ruling.Restricts (ruling : Ruling) (type : StaticType) : Prop where
  type : ruling.type.GivenOrError type
  fault : ∀ cause, ruling.fault = some cause → cause.IsStrict

namespace Ruling

variable {lhs rhs given other type : StaticType} {symbols : SymbolTable}

theorem restricts_sound (type : StaticType) : (sound type).Restricts type :=
  ⟨.inl rfl, nofun⟩

theorem restricts_error (type : StaticType) : (sound .error).Restricts type :=
  ⟨.inr rfl, nofun⟩

theorem restricts_of_faultless {ruling : Ruling} (faultless : ruling.fault = none) :
    ruling.Restricts ruling.type :=
  ⟨.inl rfl, fun cause found => by rw [faultless] at found; cases found⟩

theorem restricts_logical {operator : BinaryOperator}
    (faultless : (logical .matchingTypes operator lhs rhs).fault = none) :
    (logical .requireBool operator lhs rhs).Restricts
      (logical .matchingTypes operator lhs rhs).type := by
  by_cases same : lhs = rhs
  · subst same
    have allowed : logical .matchingTypes operator lhs lhs = sound lhs := by simp [logical]
    rw [allowed]
    by_cases truth : lhs = .bool
    · subst truth
      exact restricts_sound .bool
    · have refused : logical .requireBool operator lhs lhs =
          faulty .error (.logicalMismatch operator lhs lhs) := by simp [logical, truth]
      rw [refused]
      refine ⟨.inr rfl, ?_⟩
      rintro _ ⟨⟩
      exact ⟨operator, lhs, rfl, truth⟩
  · have refused : logical .matchingTypes operator lhs rhs =
        faulty .error (.logicalMismatch operator lhs rhs) := by simp [logical, same]
    rw [refused] at faultless
    cases faultless

theorem restricts_applied {operator : BinaryOperator}
    (faultless : (applied .matchingTypes operator lhs rhs).fault = none) :
    (applied .requireBool operator lhs rhs).Restricts
      (applied .matchingTypes operator lhs rhs).type := by
  unfold applied at faultless ⊢
  cases kind : operator.kind with
  | logical =>
    rw [kind] at faultless
    exact restricts_logical faultless
  | _ =>
    rw [kind] at faultless
    exact restricts_of_faultless faultless

theorem type_binary {options : CheckOptions} {operator : BinaryOperator}
    (comparison : operator.kind = .equality ∨ operator.kind = .relational) :
    (binary options operator lhs rhs).type = .bool := by
  cases silenced : options.silences lhs || options.silences rhs with
  | true =>
    rw [binary, if_pos silenced]
    rcases comparison with kind | kind
    · rw [kind]
      rfl
    · rw [kind]
      rfl
  | false =>
    rw [binary_of_heard silenced, applied]
    rcases comparison with kind | kind
    · rw [kind]
      exact type_equality
    · rw [kind]
      exact type_relational

section Operands

variable (left : lhs.GivenOrError given) (right : rhs.GivenOrError other)
include left

theorem restricts_unary {operator : UnaryOperator}
    (faultless : (unary ⟨.matchingTypes, false⟩ operator given).fault = none) :
    (unary ⟨.requireBool, false⟩ operator lhs).Restricts
      (unary ⟨.matchingTypes, false⟩ operator given).type := by
  rcases left with rfl | rfl
  · exact restricts_of_faultless faultless
  · exact restricts_error _

theorem restricts_assignment {target : StaticType}
    (faultless : (assignment ⟨.matchingTypes, false⟩ target given).fault = none) :
    (assignment ⟨.requireBool, false⟩ target lhs).Restricts
      (assignment ⟨.matchingTypes, false⟩ target given).type := by
  rcases left with rfl | rfl
  · exact restricts_of_faultless faultless
  · have silent : assignment ⟨.requireBool, false⟩ target .error = sound target := by
      simp [assignment, CheckOptions.silences, StaticType.isError]
    rw [silent, type_assignment]
    exact restricts_sound target

include right

theorem restricts_binary {operator : BinaryOperator}
    (faultless : (binary ⟨.matchingTypes, false⟩ operator given other).fault = none) :
    (binary ⟨.requireBool, false⟩ operator lhs rhs).Restricts
      (binary ⟨.matchingTypes, false⟩ operator given other).type := by
  cases poisoned : lhs.isError || rhs.isError with
  | true =>
    have silenced : (CheckOptions.silences ⟨.requireBool, false⟩ lhs ||
        CheckOptions.silences ⟨.requireBool, false⟩ rhs) = true := poisoned
    rw [binary, if_pos silenced]
    cases kind : operator.kind with
    | equality =>
      rw [type_binary (.inl kind)]
      exact restricts_sound .bool
    | relational =>
      rw [type_binary (.inr kind)]
      exact restricts_sound .bool
    | _ => exact restricts_error _
  | false =>
    obtain ⟨leftHeard, rightHeard⟩ := Bool.or_eq_false_iff.mp poisoned
    obtain rfl := left.eq leftHeard
    obtain rfl := right.eq rightHeard
    have strict : binary ⟨.requireBool, false⟩ operator lhs rhs =
        applied .requireBool operator lhs rhs := binary_of_heard poisoned
    have lenient : binary ⟨.matchingTypes, false⟩ operator lhs rhs =
        applied .matchingTypes operator lhs rhs := binary_of_heard poisoned
    rw [lenient] at faultless ⊢
    rw [strict]
    exact restricts_applied faultless

end Operands

theorem Restricts.diagnostics {ruling : Ruling} (restricts : ruling.Restricts type)
    (position : Position) : AreStrict (ruling.diagnostics position) := by
  intro d member
  obtain ⟨cause, found, rfl⟩ := List.mem_map.mp member
  exact restricts.fault cause (Option.mem_toList.mp found)

end Ruling

section Accepted

variable {symbols : SymbolTable}

theorem AreStrict.append {first second : List Diagnostic} (areStrict : AreStrict first)
    (later : AreStrict second) : AreStrict (first ++ second) :=
  List.forall_mem_append.mpr ⟨areStrict, later⟩

theorem areStrict_of_eq_nil {diagnostics : List Diagnostic} (clean : diagnostics = []) :
    AreStrict diagnostics := by
  subst clean
  exact List.forall_mem_nil _

/-- What the lenient check accepts has its type in the strict check, or is refused for its own. -/
theorem Expression.judge_strict {e : Expression}
    (clean : (e.judge ⟨.matchingTypes, false⟩ symbols).diagnostics = []) :
    (e.judge ⟨.requireBool, false⟩ symbols).type.GivenOrError
        (e.judge ⟨.matchingTypes, false⟩ symbols).type ∧
      AreStrict (e.judge ⟨.requireBool, false⟩ symbols).diagnostics := by
  induction e with
  | literal node value => exact ⟨.inl rfl, areStrict_of_eq_nil rfl⟩
  | «variable» node name => exact ⟨.inl rfl, areStrict_of_eq_nil clean⟩
  | grouping node inner ih =>
    obtain ⟨type, strict⟩ := ih (diagnostics_ofNode clean).1
    exact ⟨type, strict.append (areStrict_of_eq_nil rfl)⟩
  | binary node operator lhs rhs leftIH rightIH =>
    obtain ⟨clean, faultless⟩ := diagnostics_ofNode clean
    obtain ⟨lhsClean, rhsClean⟩ := List.append_eq_nil_iff.mp clean
    obtain ⟨left, lhsStrict⟩ := leftIH lhsClean
    obtain ⟨right, rhsStrict⟩ := rightIH rhsClean
    have restricts := Ruling.restricts_binary left right faultless
    exact ⟨restricts.type, (lhsStrict.append rhsStrict).append (restricts.diagnostics _)⟩
  | unary node operator operand ih =>
    obtain ⟨clean, faultless⟩ := diagnostics_ofNode clean
    obtain ⟨type, strict⟩ := ih clean
    have restricts := Ruling.restricts_unary type faultless
    exact ⟨restricts.type, strict.append (restricts.diagnostics _)⟩
  | assignment node target value ih =>
    obtain ⟨clean, faultless⟩ := diagnostics_ofNode clean
    obtain ⟨own, found⟩ := List.append_eq_nil_iff.mp clean
    obtain ⟨type, strict⟩ := ih own
    have restricts := Ruling.restricts_assignment type faultless
    exact ⟨restricts.type,
      (strict.append (areStrict_of_eq_nil found)).append (restricts.diagnostics _)⟩

/-- A test that is silent about the error type finds nothing in a type that was withheld. -/
theorem areStrict_judged (fault : StaticType → Option DiagnosticCause)
    (silent : fault .error = none) {e : Expression} {position : Position} {later given : Findings}
    (clean : (given.judged (e.judge ⟨.matchingTypes, false⟩ symbols) position
      (fault (e.judge ⟨.matchingTypes, false⟩ symbols).type)).diagnostics = [])
    (rest : given.diagnostics = [] → AreStrict later.diagnostics) :
    AreStrict (later.judged (e.judge ⟨.requireBool, false⟩ symbols) position
      (fault (e.judge ⟨.requireBool, false⟩ symbols).type)).diagnostics := by
  obtain ⟨own, faultless, last⟩ := diagnostics_judged clean
  obtain ⟨type, strict⟩ := e.judge_strict own
  have none : fault (e.judge ⟨.requireBool, false⟩ symbols).type = none := by
    rcases type with same | withheld
    · rw [same, faultless]
    · rw [withheld, silent]
  rw [none]
  exact (strict.append (areStrict_of_eq_nil rfl)).append (rest last)

theorem areStrict_judgeAll (fault : StaticType → Option DiagnosticCause)
    (silent : fault .error = none) {values : List Expression}
    (clean : (judgeAll ⟨.matchingTypes, false⟩ symbols fault values).diagnostics = []) :
    AreStrict (judgeAll ⟨.requireBool, false⟩ symbols fault values).diagnostics := by
  induction values with
  | nil => exact areStrict_of_eq_nil rfl
  | cons e rest ih => exact areStrict_judged fault silent clean ih

theorem symbols_checkAll {options other : CheckOptions} {body : List Statement}
    (each : ∀ s ∈ body, ∀ symbols,
      (s.check options symbols).symbols = (s.check other symbols).symbols)
    (symbols : SymbolTable) :
    (checkAll options symbols body).symbols = (checkAll other symbols body).symbols := by
  induction body generalizing symbols with
  | nil => rfl
  | cons s rest ih =>
    obtain ⟨own, others⟩ := List.forall_mem_cons.mp each
    simp only [checkAll, Findings.following, own symbols, ih others]

/-- Which names are declared does not depend on the options. -/
theorem Statement.symbols_check {options other : CheckOptions} (s : Statement)
    (symbols : SymbolTable) :
    (s.check options symbols).symbols = (s.check other symbols).symbols := by
  induction s generalizing symbols with
  | declaration | expression | read | openFile | empty => rfl
  | conditional position condition positive negative positiveIH negativeIH =>
    cases negative with
    | none => exact positiveIH symbols
    | some negative =>
      have second := negativeIH negative List.mem_cons_self
      simp only [check, Findings.judged, Findings.following, positiveIH symbols, second]
  | loop position condition body ih => exact ih symbols
  | block position body ih => exact symbols_checkAll (fun s member => ih s member) symbols
  | write position values | fileOutput position _ values =>
    exact (symbols_judgeAll values).trans (symbols_judgeAll values).symm

theorem areStrict_checkAll {body : List Statement}
    (each : ∀ s ∈ body, ∀ {symbols}, (s.check ⟨.matchingTypes, false⟩ symbols).diagnostics = [] →
      AreStrict (s.check ⟨.requireBool, false⟩ symbols).diagnostics)
    (clean : (checkAll ⟨.matchingTypes, false⟩ symbols body).diagnostics = []) :
    AreStrict (checkAll ⟨.requireBool, false⟩ symbols body).diagnostics := by
  induction body generalizing symbols with
  | nil => exact areStrict_of_eq_nil rfl
  | cons s rest ih =>
    obtain ⟨own, others⟩ := List.forall_mem_cons.mp each
    obtain ⟨here, there⟩ := diagnostics_following clean
    rw [s.symbols_check symbols] at there
    exact (own here).append (ih others there)

/-- Of a statement that the lenient check accepts the strict one reports nothing else. -/
theorem Statement.areStrict_check {s : Statement}
    (clean : (s.check ⟨.matchingTypes, false⟩ symbols).diagnostics = []) :
    AreStrict (s.check ⟨.requireBool, false⟩ symbols).diagnostics := by
  induction s generalizing symbols with
  | declaration | read | empty => exact areStrict_of_eq_nil clean
  | expression position value =>
    exact areStrict_judged (fun _ => none) rfl clean fun _ => areStrict_of_eq_nil rfl
  | conditional position condition positive negative positiveIH negativeIH =>
    cases negative with
    | none =>
      exact areStrict_judged (Fault.condition ⟨.matchingTypes, false⟩ .conditional) rfl
        clean positiveIH
    | some negative =>
      refine areStrict_judged (Fault.condition ⟨.matchingTypes, false⟩ .conditional) rfl
        clean fun later => ?_
      obtain ⟨here, there⟩ := diagnostics_following later
      rw [positive.symbols_check symbols] at there
      exact (positiveIH here).append (negativeIH negative List.mem_cons_self there)
  | loop position condition body ih =>
    exact areStrict_judged (Fault.condition ⟨.matchingTypes, false⟩ .loop) rfl clean ih
  | block position body ih => exact areStrict_checkAll (fun s member => ih s member) clean
  | write position values => exact areStrict_judgeAll Fault.printed rfl clean
  | openFile position target fileName =>
    obtain ⟨before, text⟩ := List.append_eq_nil_iff.mp clean
    obtain ⟨before, file⟩ := List.append_eq_nil_iff.mp before
    obtain ⟨own, found⟩ := List.append_eq_nil_iff.mp before
    obtain ⟨type, strict⟩ := fileName.judge_strict own
    have none : Fault.fileName ⟨.requireBool, false⟩
        (fileName.judge ⟨.requireBool, false⟩ symbols).type = none := by
      rcases type with same | withheld
      · rw [same]
        exact eq_none_of_diagnostics text
      · rw [withheld]
        rfl
    rw [check, checkOpen, found, file, none]
    exact ((strict.append (areStrict_of_eq_nil rfl)).append
      (areStrict_of_eq_nil rfl)).append (areStrict_of_eq_nil rfl)
  | fileOutput position file values =>
    exact areStrict_judged (Fault.outputTarget ⟨.matchingTypes, false⟩) rfl clean
      (areStrict_judgeAll (Fault.written ⟨.matchingTypes, false⟩) rfl)

end Accepted

/--
The strict check of a tree succeeds exactly if the lenient one does and records a truth value for
every logical operator. The records are then the same, and so are the programs. Where only the
lenient check succeeds, the strict one reports nothing but operands of a logical operator that
are alike and no truth values.
-/
theorem Tree.check_requireBool (tree : Tree) (distinct : tree.ids.Nodup) (cascade : Bool) :
    (∀ record, tree.check ⟨.requireBool, cascade⟩ = .ok record ↔
      tree.check ⟨.matchingTypes, cascade⟩ = .ok record ∧
        ∀ site ∈ tree.sites, site.2.isLogical = true → record.typeOf site.2.id = .bool) ∧
    (∀ record, tree.check ⟨.requireBool, cascade⟩ = .ok record →
      ∃ program, tree.compile ⟨.requireBool, cascade⟩ = .ok program ∧
        tree.compile ⟨.matchingTypes, cascade⟩ = .ok program) ∧
    ∀ record diagnostics, tree.check ⟨.matchingTypes, cascade⟩ = .ok record →
      tree.check ⟨.requireBool, false⟩ = .error diagnostics →
      ∀ d ∈ diagnostics, ∃ operator type,
        d.cause = .logicalMismatch operator type type ∧ type ≠ .bool := by
  have lenient : ∀ record, tree.check ⟨.requireBool, cascade⟩ = .ok record →
      tree.check ⟨.matchingTypes, cascade⟩ = .ok record := by
    intro record checked
    obtain ⟨clean, rfl⟩ := check_eq_ok.mp checked
    have same := checkAll_lenient (fun s _ _ => s.check_lenient) clean
    rw [← same] at clean ⊢
    exact check_eq_ok.mpr ⟨clean, rfl⟩
  refine ⟨fun record => ⟨fun checked => ⟨lenient record checked, ?_⟩, ?_⟩, ?_, ?_⟩
  · intro site member logical
    obtain ⟨type, only, known⟩ := typeOf_sites distinct checked site member
    rw [known, only.1.eq_bool logical]
    rfl
  · rintro ⟨checked, truths⟩
    obtain ⟨names, typed⟩ := exists_check_iff.mp ⟨record, checked⟩
    have sites : TruthSites tree.sites := by
      intro site member logical type typed
      obtain ⟨own, only, known⟩ := typeOf_sites distinct checked site member
      rw [only.2 type typed]
      exact PrimitiveType.static_inj.mp (known.symm.trans (truths site member logical))
    have strict : tree.WellTyped .requireBool names :=
      typed.strict (fun _ _ => Statement.Typed.strict) sites
    obtain ⟨other, accepted⟩ : ∃ record, tree.check ⟨.requireBool, cascade⟩ = .ok record :=
      exists_check_iff.mpr ⟨names, strict⟩
    have same := (lenient other accepted).symm.trans checked
    cases same
    exact accepted
  · intro record checked
    obtain ⟨code, _, _, emitted⟩ := exists_lower checked distinct
    exact ⟨.ofList code, compile_eq_ok.mpr ⟨record, checked, emitted⟩,
      compile_eq_ok.mpr ⟨record, lenient record checked, emitted⟩⟩
  · intro record diagnostics checked refused
    -- Whether cascades are reported does not matter to what is accepted.
    have typed := exists_check_iff.mp ⟨record, checked⟩
    obtain ⟨other, accepted⟩ : ∃ record, tree.check ⟨.matchingTypes, false⟩ = .ok record :=
      exists_check_iff.mpr typed
    have strict := areStrict_checkAll (fun s _ _ => s.areStrict_check) (check_eq_ok.mp accepted).1
    rw [← diagnostics_eq] at strict
    rwa [Tree.diagnostics, refused] at strict

/-- A comparison hides that one of its operands was refused: `write (1 && 2) == 3;`. -/
theorem Tree.check_requireBool_ints :
    let at0 : Position := ⟨1, 0⟩
    let both : Expression :=
      .binary ⟨2, at0⟩ .and (.literal ⟨0, at0⟩ (.int 1)) (.literal ⟨1, at0⟩ (.int 2))
    let tree : Tree := [.write at0 [.binary ⟨5, at0⟩ .equal (.grouping ⟨3, at0⟩ both)
      (.literal ⟨4, at0⟩ (.int 3))]]
    tree.ids.Nodup ∧ ∃ record diagnostics, tree.check ⟨.matchingTypes, false⟩ = .ok record ∧
      tree.check ⟨.requireBool, false⟩ = .error diagnostics ∧ diagnostics.length = 1 ∧
      ∀ d ∈ diagnostics, ∃ operator type,
        d.cause = .logicalMismatch operator type type ∧ type ≠ .bool := by
  intro at0 both tree
  have distinct : tree.ids.Nodup := by decide
  have clean : (checkAll ⟨.matchingTypes, false⟩ .empty tree).diagnostics = [] := rfl
  have checked := check_eq_ok.mpr ⟨clean, rfl⟩
  have refused : tree.check ⟨.requireBool, false⟩ =
      .error [⟨at0, .logicalMismatch .and .int .int⟩] := rfl
  exact ⟨distinct, _, _, checked, refused, rfl,
    (check_requireBool tree distinct false).2.2 _ _ checked refused⟩

end StackLang
