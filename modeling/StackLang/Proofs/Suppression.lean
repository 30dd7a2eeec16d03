import StackLang.Proofs.Acceptance

/-!
# What suppression leaves out

A diagnostic that mentions the error type is a consequence of another one. The
checker can be told to report such consequences too. If it is not, it reports the
others in the same order and finds the same names and types: a rule that is
silenced by an operand gives the type that it would have given, and what it would
have reported mentions the error type. Since no consequence comes without
something it follows from, the same trees are accepted in both modes.
-/
namespace StackLang

/-- Whether a cause stands by itself and does not follow from an earlier report. -/
def DiagnosticCause.isPrimary (cause : DiagnosticCause) : Bool :=
  !cause.mentionsError

def Diagnostic.isPrimary (diagnostic : Diagnostic) : Bool :=
  diagnostic.cause.isPrimary

/-- The reports of a fault that stand by themselves. -/
theorem filter_reported (fault : Option DiagnosticCause) (position : Position) :
    (fault.toList.map (Diagnostic.mk position)).filter Diagnostic.isPrimary =
      (fault.filter DiagnosticCause.isPrimary).toList.map (Diagnostic.mk position) := by
  cases fault with
  | none => rfl
  | some cause =>
    cases primary : cause.isPrimary with
    | true => simp [Diagnostic.isPrimary, Option.filter, primary]
    | false => simp [Diagnostic.isPrimary, Option.filter, primary]

namespace Ruling

/-- A ruling that keeps to itself what follows from an earlier report. -/
def quieted (ruling : Ruling) : Ruling :=
  ⟨ruling.type, ruling.fault.filter DiagnosticCause.isPrimary⟩

variable {ruling : Ruling} {operator : BinaryOperator} {lhs rhs : StaticType}

theorem diagnostics_quieted (ruling : Ruling) (position : Position) :
    ruling.quieted.diagnostics position =
      (ruling.diagnostics position).filter Diagnostic.isPrimary :=
  (filter_reported ruling.fault position).symm

theorem quieted_of_primary
    (primary : ∀ cause, ruling.fault = some cause → cause.mentionsError = false) :
    ruling.quieted = ruling := by
  obtain ⟨type, _ | cause⟩ := ruling
  · rfl
  · simp [quieted, Option.filter, DiagnosticCause.isPrimary, primary cause rfl]

theorem quieted_of_consequence
    (consequence : ∀ cause, ruling.fault = some cause → cause.mentionsError = true) :
    ruling.quieted = sound ruling.type := by
  obtain ⟨type, _ | cause⟩ := ruling
  · rfl
  · simp [quieted, sound, Option.filter, DiagnosticCause.isPrimary, consequence cause rfl]

theorem quieted_lookup (symbols : SymbolTable) (name : String) :
    (lookup symbols name).quieted = lookup symbols name := by
  rw [lookup]
  cases symbols.typeOf? name <;> rfl

/-- A ruling on two operands whose fault mentions the error type exactly if one of them has it. -/
def Traces (ruling : Ruling) (lhs rhs : StaticType) : Prop :=
  ∀ cause, ruling.fault = some cause → cause.mentionsError = (lhs.isError || rhs.isError)

theorem traces_sound (type : StaticType) : (sound type).Traces lhs rhs :=
  nofun

theorem traces_faulty {type : StaticType} {cause : DiagnosticCause}
    (mentions : cause.mentionsError = (lhs.isError || rhs.isError)) :
    (faulty type cause).Traces lhs rhs := by
  rintro _ ⟨⟩
  exact mentions

theorem traces_arithmetic : (arithmetic operator lhs rhs).Traces lhs rhs := by
  rw [arithmetic]
  cases promotes : StaticType.promote? lhs rhs with
  | none => exact traces_faulty rfl
  | some type =>
    have both := (StaticType.promote?_isSome_iff lhs rhs).mp (by simp [promotes])
    dsimp only
    split
    · refine traces_faulty ?_
      -- Operands that have a common type are numbers.
      cases lhs <;> cases rhs <;> simp_all [StaticType.isNumeric, StaticType.isError,
        DiagnosticCause.mentionsError]
    · exact traces_sound _

theorem traces_concat : (concat operator lhs rhs).Traces lhs rhs := by
  rw [concat]
  split
  · exact traces_sound _
  · exact traces_faulty rfl

theorem traces_equality : (equality operator lhs rhs).Traces lhs rhs := by
  rw [equality]
  split
  · exact traces_faulty rfl
  · split
    · exact traces_faulty rfl
    · exact traces_sound _

theorem traces_relational : (relational operator lhs rhs).Traces lhs rhs := by
  rw [relational]
  split
  · exact traces_sound _
  · exact traces_faulty rfl

theorem traces_logical {policy : LogicalPolicy} :
    (logical policy operator lhs rhs).Traces lhs rhs := by
  unfold logical
  cases policy with
  | matchingTypes =>
    dsimp only
    split
    · exact traces_sound _
    · exact traces_faulty rfl
  | requireBool =>
    dsimp only
    split
    · exact traces_sound _
    · exact traces_faulty rfl

theorem type_equality : (equality operator lhs rhs).type = .bool := by
  rw [equality]
  split
  · rfl
  · split <;> rfl

theorem type_relational : (relational operator lhs rhs).type = .bool := by
  rw [relational]
  split <;> rfl

section Poisoned

variable (poisoned : (lhs.isError || rhs.isError) = true)
include poisoned

/-- Operands with the error type have no common type. -/
theorem type_arithmetic_of_poisoned : (arithmetic operator lhs rhs).type = .error := by
  have none : StaticType.promote? lhs rhs = none := by
    cases lhs <;> cases rhs <;> first | rfl | cases poisoned
  rw [arithmetic, none]
  rfl

theorem type_concat_of_poisoned : (concat operator lhs rhs).type = .error := by
  rw [concat, if_neg]
  · rfl
  · rintro ⟨rfl, rfl⟩
    cases poisoned

theorem type_logical_of_poisoned {policy : LogicalPolicy} :
    (logical policy operator lhs rhs).type = .error := by
  unfold logical
  cases policy with
  | matchingTypes =>
    by_cases same : lhs = rhs
    · subst same
      simpa [sound] using (StaticType.isError_iff lhs).mp (by simpa using poisoned)
    · simp [same, faulty]
  | requireBool =>
    have other : ¬ (lhs = .bool ∧ rhs = .bool) := by
      rintro ⟨rfl, rfl⟩
      cases poisoned
    simp [other, faulty]

end Poisoned

/-- The rule for an operator, whatever its operands are. -/
def applied (policy : LogicalPolicy) (operator : BinaryOperator) (lhs rhs : StaticType) : Ruling :=
  match operator.kind with
  | .arithmetic => arithmetic operator lhs rhs
  | .concat => concat operator lhs rhs
  | .equality => equality operator lhs rhs
  | .relational => relational operator lhs rhs
  | .logical => logical policy operator lhs rhs

theorem traces_applied (policy : LogicalPolicy) (operator : BinaryOperator)
    (lhs rhs : StaticType) : (applied policy operator lhs rhs).Traces lhs rhs := by
  rw [applied]
  cases operator.kind with
  | arithmetic => exact traces_arithmetic
  | concat => exact traces_concat
  | equality => exact traces_equality
  | relational => exact traces_relational
  | logical => exact traces_logical

theorem binary_of_heard {options : CheckOptions}
    (heard : (options.silences lhs || options.silences rhs) = false) :
    binary options operator lhs rhs = applied options.logical operator lhs rhs := by
  rw [binary, heard, applied]
  cases operator.kind <;> rfl

/-- The type that a silenced operator is given is the one that its rule arrives at. -/
theorem binary_of_silenced {options : CheckOptions}
    (silenced : (options.silences lhs || options.silences rhs) = true)
    (poisoned : (lhs.isError || rhs.isError) = true) :
    binary options operator lhs rhs =
      sound (applied options.logical operator lhs rhs).type := by
  rw [binary, if_pos silenced, applied]
  cases operator.kind with
  | arithmetic => exact congrArg sound (type_arithmetic_of_poisoned poisoned).symm
  | concat => exact congrArg sound (type_concat_of_poisoned poisoned).symm
  | equality => exact congrArg sound type_equality.symm
  | relational => exact congrArg sound type_relational.symm
  | logical => exact congrArg sound (type_logical_of_poisoned poisoned).symm

theorem binary_quiet (policy : LogicalPolicy) (operator : BinaryOperator)
    (lhs rhs : StaticType) :
    binary ⟨policy, false⟩ operator lhs rhs = (binary ⟨policy, true⟩ operator lhs rhs).quieted := by
  have traces := traces_applied policy operator lhs rhs
  have full : binary ⟨policy, true⟩ operator lhs rhs = applied policy operator lhs rhs :=
    binary_of_heard rfl
  rw [full]
  cases poisoned : lhs.isError || rhs.isError with
  | false =>
    have quiet : binary ⟨policy, false⟩ operator lhs rhs = applied policy operator lhs rhs :=
      binary_of_heard poisoned
    rw [quiet, quieted_of_primary]
    exact fun cause found => (traces cause found).trans poisoned
  | true =>
    have quiet : binary ⟨policy, false⟩ operator lhs rhs =
        sound (applied policy operator lhs rhs).type := binary_of_silenced poisoned poisoned
    rw [quiet, quieted_of_consequence]
    exact fun cause found => (traces cause found).trans poisoned

theorem unary_quiet (policy : LogicalPolicy) (operator : UnaryOperator) (operand : StaticType) :
    unary ⟨policy, false⟩ operator operand = (unary ⟨policy, true⟩ operator operand).quieted := by
  cases operator <;> cases operand <;> rfl

theorem assignment_quiet (policy : LogicalPolicy) (target value : StaticType) :
    assignment ⟨policy, false⟩ target value =
      (assignment ⟨policy, true⟩ target value).quieted := by
  cases target <;> cases value <;> rfl

end Ruling

namespace Fault

variable (policy : LogicalPolicy) (type : StaticType)

theorem condition_quiet (kind : ConditionKind) :
    condition ⟨policy, false⟩ kind type =
      (condition ⟨policy, true⟩ kind type).filter DiagnosticCause.isPrimary := by
  cases type <;> rfl

theorem fileName_quiet :
    fileName ⟨policy, false⟩ type =
      (fileName ⟨policy, true⟩ type).filter DiagnosticCause.isPrimary := by
  cases type <;> rfl

theorem outputTarget_quiet :
    outputTarget ⟨policy, false⟩ type =
      (outputTarget ⟨policy, true⟩ type).filter DiagnosticCause.isPrimary := by
  cases type <;> rfl

theorem written_quiet :
    written ⟨policy, false⟩ type =
      (written ⟨policy, true⟩ type).filter DiagnosticCause.isPrimary := by
  cases type <;> rfl

theorem printed_quiet : printed type = (printed type).filter DiagnosticCause.isPrimary := by
  cases type <;> rfl

theorem readTarget_quiet (name : String) :
    readTarget name type = (readTarget name type).filter DiagnosticCause.isPrimary := by
  cases type <;> rfl

theorem openTarget_quiet (name : String) :
    openTarget name type = (openTarget name type).filter DiagnosticCause.isPrimary := by
  cases type <;> rfl

end Fault

/-- A judgement without the diagnostics that follow from others. -/
def Judgement.quieted (judgement : Judgement) : Judgement :=
  { judgement with diagnostics := judgement.diagnostics.filter Diagnostic.isPrimary }

theorem Judgement.quieted_ofNode (node : Node) (ruling : Ruling) (diagnostics : List Diagnostic)
    (types : List (NodeId × StaticType)) :
    (ofNode node ruling diagnostics types).quieted =
      ofNode node ruling.quieted (diagnostics.filter Diagnostic.isPrimary) types := by
  simp [quieted, ofNode, Ruling.quieted, ← Ruling.diagnostics_quieted]

/-- Without cascades an expression is judged as with them, but for what follows from others. -/
theorem Expression.judge_quiet (policy : LogicalPolicy) (symbols : SymbolTable) (e : Expression) :
    e.judge ⟨policy, false⟩ symbols = (e.judge ⟨policy, true⟩ symbols).quieted := by
  induction e with
  | literal node value => rfl
  | «variable» node name =>
    rw [judge, judge, Judgement.quieted_ofNode, ← Ruling.diagnostics_quieted,
      Ruling.quieted_lookup]
    rfl
  | grouping node inner ih =>
    rw [judge, judge, Judgement.quieted_ofNode, ih]
    rfl
  | binary node operator lhs rhs leftIH rightIH =>
    rw [judge, judge, Judgement.quieted_ofNode, List.filter_append, leftIH, rightIH,
      ← Ruling.binary_quiet]
    rfl
  | unary node operator operand ih =>
    rw [judge, judge, Judgement.quieted_ofNode, ih, ← Ruling.unary_quiet]
    rfl
  | assignment node target value ih =>
    rw [judge, judge, Judgement.quieted_ofNode, List.filter_append, ih, ← Ruling.assignment_quiet,
      ← Ruling.diagnostics_quieted, Ruling.quieted_lookup]
    rfl

namespace Findings

/-- Findings without the diagnostics that follow from others. -/
def quieted (findings : Findings) : Findings :=
  { findings with diagnostics := findings.diagnostics.filter Diagnostic.isPrimary }

theorem quieted_judged (judgement : Judgement) (position : Position)
    (fault : Option DiagnosticCause) (later : Findings) :
    (later.judged judgement position fault).quieted =
      later.quieted.judged judgement.quieted position
        (fault.filter DiagnosticCause.isPrimary) := by
  simp [quieted, judged, Judgement.quieted, ← filter_reported]

theorem quieted_following (earlier later : Findings) :
    (earlier.following later).quieted = earlier.quieted.following later.quieted := by
  simp [quieted, following]

end Findings

/-- A second declaration does not follow from an earlier report. -/
theorem quieted_declareAll (symbols : SymbolTable) (type : StaticType)
    (names : List Identifier) :
    (declareAll symbols type names).quieted = declareAll symbols type names := by
  induction names generalizing symbols with
  | nil => rfl
  | cons name rest ih =>
    rw [declareAll]
    split
    next later _ => exact ih later
    next =>
      have own := congrArg Findings.diagnostics (ih symbols)
      simp only [Findings.quieted] at own ⊢
      rw [List.filter_cons_of_pos rfl, own]

theorem quieted_readDiagnostics (symbols : SymbolTable) (target : Identifier) :
    (readDiagnostics symbols target).filter Diagnostic.isPrimary =
      readDiagnostics symbols target := by
  rw [readDiagnostics, List.filter_append, ← Ruling.diagnostics_quieted, Ruling.quieted_lookup,
    filter_reported, ← Fault.readTarget_quiet]

section Checked

variable (policy : LogicalPolicy) (symbols : SymbolTable)

theorem judgeAll_quiet {fault full : StaticType → Option DiagnosticCause}
    (quiet : ∀ type, fault type = (full type).filter DiagnosticCause.isPrimary)
    (values : List Expression) :
    judgeAll ⟨policy, false⟩ symbols fault values =
      (judgeAll ⟨policy, true⟩ symbols full values).quieted := by
  induction values with
  | nil => rfl
  | cons e rest ih =>
    rw [judgeAll, judgeAll, Findings.quieted_judged, ih, e.judge_quiet, quiet]
    rfl

theorem checkOpen_quiet (target : Identifier) (fileName : Expression) :
    checkOpen ⟨policy, false⟩ symbols target fileName =
      (checkOpen ⟨policy, true⟩ symbols target fileName).quieted := by
  simp only [checkOpen, Findings.quieted, List.filter_append, filter_reported,
    ← Ruling.diagnostics_quieted, Ruling.quieted_lookup, ← Fault.openTarget_quiet,
    fileName.judge_quiet, Judgement.quieted, Fault.fileName_quiet]

theorem checkAll_quiet {body : List Statement}
    (each : ∀ s ∈ body, ∀ symbols,
      s.check ⟨policy, false⟩ symbols = (s.check ⟨policy, true⟩ symbols).quieted) :
    checkAll ⟨policy, false⟩ symbols body = (checkAll ⟨policy, true⟩ symbols body).quieted := by
  induction body generalizing symbols with
  | nil => rfl
  | cons s rest ih =>
    obtain ⟨own, others⟩ := List.forall_mem_cons.mp each
    rw [checkAll, checkAll, Findings.quieted_following, ← ih _ others, own]
    rfl

/-- Without cascades a statement is checked as with them, but for what follows from others. -/
theorem Statement.check_quiet (s : Statement) :
    s.check ⟨policy, false⟩ symbols = (s.check ⟨policy, true⟩ symbols).quieted := by
  induction s generalizing symbols with
  | declaration position type names => exact (quieted_declareAll symbols type.static names).symm
  | expression position value =>
    rw [check, check, Findings.quieted_judged, value.judge_quiet]
    rfl
  | conditional position condition positive negative positiveIH negativeIH =>
    cases negative with
    | none =>
      rw [check, check, Findings.quieted_judged, condition.judge_quiet, Fault.condition_quiet,
        positiveIH]
      rfl
    | some negative =>
      have second := negativeIH negative List.mem_cons_self
      rw [check, check, Findings.quieted_judged, Findings.quieted_following,
        condition.judge_quiet, Fault.condition_quiet, positiveIH, second]
      rfl
  | loop position condition body ih =>
    rw [check, check, Findings.quieted_judged, condition.judge_quiet, Fault.condition_quiet, ih]
    rfl
  | block position body ih => exact checkAll_quiet policy symbols fun s member => ih s member
  | write position values => exact judgeAll_quiet policy symbols Fault.printed_quiet values
  | read position targets =>
    simp only [check, Findings.quieted, List.filter_flatMap, quieted_readDiagnostics]
  | openFile position target fileName => exact checkOpen_quiet policy symbols target fileName
  | fileOutput position file values =>
    rw [check, check, Findings.quieted_judged, file.judge_quiet, Fault.outputTarget_quiet,
      judgeAll_quiet policy symbols (Fault.written_quiet policy)]
    rfl
  | empty position => rfl

end Checked

/--
Without cascades the checker reports, in order, what it reports with them and does not mention the
error type. It finds the same names and types in both modes, and accepts and compiles the same
trees to the same programs.
-/
theorem Tree.diagnostics_quiet (policy : LogicalPolicy) (tree : Tree) :
    let quiet : CheckOptions := ⟨policy, false⟩
    let full : CheckOptions := ⟨policy, true⟩
    tree.diagnostics quiet =
        (tree.diagnostics full).filter (fun d => !d.cause.mentionsError) ∧
      (∀ d ∈ tree.diagnostics quiet, d.cause.mentionsError = false) ∧
      (tree.diagnostics quiet = [] ↔ tree.diagnostics full = []) ∧
      (checkAll quiet .empty tree).symbols = (checkAll full .empty tree).symbols ∧
      (checkAll quiet .empty tree).types = (checkAll full .empty tree).types ∧
      (∀ record, tree.check quiet = .ok record ↔ tree.check full = .ok record) ∧
      ∀ program, tree.compile quiet = .ok program ↔ tree.compile full = .ok program := by
  intro quiet full
  have same : checkAll quiet .empty tree = (checkAll full .empty tree).quieted :=
    checkAll_quiet policy .empty fun s _ symbols => s.check_quiet policy symbols
  have filtered : tree.diagnostics quiet =
      (tree.diagnostics full).filter (fun d => !d.cause.mentionsError) := by
    rw [tree.diagnostics_eq, tree.diagnostics_eq, same]
    rfl
  have empty : tree.diagnostics quiet = [] ↔ tree.diagnostics full = [] := by
    rw [diagnostics_eq_nil, diagnostics_eq_nil, exists_check_iff, exists_check_iff]
  have checks : ∀ record, tree.check quiet = .ok record ↔ tree.check full = .ok record := by
    intro record
    rw [check_eq_ok, check_eq_ok, ← diagnostics_eq, ← diagnostics_eq, empty, same]
    rfl
  refine ⟨filtered, fun d member => ?_, empty, ?_, ?_, checks, fun program => ?_⟩
  · rw [filtered, List.mem_filter] at member
    simpa using member.2
  · rw [same]
    rfl
  · rw [same]
    rfl
  · simp only [compile_eq_ok, checks]

end StackLang
