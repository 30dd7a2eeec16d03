import StackLang.Proofs.Acceptance

/-!
# Names without types

Which names are declared twice and which are used without a declaration can be
told from the order in which a tree mentions its names. A walk over the mentions
knows of no types and no options. The checker declares and looks up every name
when the walk comes to it, whatever it has found wrong before. So what it reports
of names is what the walk finds, in the same order.
-/
namespace StackLang

/-- A name as a walk through a tree comes to it. -/
inductive Mention where
  | declared (name : Identifier)
  | used (name : Identifier)

namespace Mention

def declares : Mention → List String
  | .declared name => [name.name]
  | .used _ => []

/-- What is wrong with a mention behind the declarations of some names. -/
def fault? (ahead : List String) : Mention → Option Diagnostic
  | .declared name =>
    if name.name ∈ ahead then some ⟨name.position, .duplicateDeclaration name.name⟩ else none
  | .used name =>
    if name.name ∈ ahead then none else some ⟨name.position, .undeclaredVariable name.name⟩

end Mention

/-- What a walk behind the declarations of some names finds wrong. -/
def nameFaults (ahead : List String) : List Mention → List Diagnostic
  | [] => []
  | mention :: rest => (mention.fault? ahead).toList ++ nameFaults (ahead ++ mention.declares) rest

/-- The names an expression uses, those of its operands first. -/
def Expression.mentions : Expression → List Mention
  | .literal _ _ => []
  | .variable _ name => [.used name]
  | .grouping _ inner => inner.mentions
  | .binary _ _ lhs rhs => lhs.mentions ++ rhs.mentions
  | .unary _ _ operand => operand.mentions
  | .assignment _ target value => value.mentions ++ [.used target]

mutual

/-- The names a statement declares and uses, in the order of a walk through all of its parts. -/
def Statement.mentions : Statement → List Mention
  | .declaration _ _ names => names.map .declared
  | .expression _ value => value.mentions
  | .conditional _ condition positive negative =>
    match negative with
    | none => condition.mentions ++ positive.mentions
    | some negative => condition.mentions ++ (positive.mentions ++ negative.mentions)
  | .loop _ condition body => condition.mentions ++ body.mentions
  | .block _ body => Statement.mentionsAll body
  | .write _ values => values.flatMap Expression.mentions
  | .read _ targets => targets.map .used
  | .openFile _ target fileName => fileName.mentions ++ [.used target]
  | .fileOutput _ file values => file.mentions ++ values.flatMap Expression.mentions
  | .empty _ => []

def Statement.mentionsAll : List Statement → List Mention
  | [] => []
  | s :: rest => s.mentions ++ Statement.mentionsAll rest

end

def Tree.mentions (tree : Tree) : List Mention :=
  Statement.mentionsAll tree

/-- The names that are declared in a walk. -/
def declaredIn (mentions : List Mention) : List String :=
  mentions.flatMap Mention.declares

theorem nameFaults_append (ahead : List String) (first second : List Mention) :
    nameFaults ahead (first ++ second) =
      nameFaults ahead first ++ nameFaults (ahead ++ declaredIn first) second := by
  induction first generalizing ahead with
  | nil => simp [nameFaults, declaredIn]
  | cons mention rest ih => simp [nameFaults, declaredIn, ih]

theorem declaredIn_append (first second : List Mention) :
    declaredIn (first ++ second) = declaredIn first ++ declaredIn second :=
  List.flatMap_append

/-- An expression declares nothing. -/
theorem Expression.declaredIn_mentions (e : Expression) : declaredIn e.mentions = [] := by
  induction e with
  | literal => rfl
  | «variable» => rfl
  | grouping node inner ih => exact ih
  | binary node operator lhs rhs leftIH rightIH =>
    rw [mentions, declaredIn_append, leftIH, rightIH]
    rfl
  | unary node operator operand ih => exact ih
  | assignment node target value ih =>
    rw [mentions, declaredIn_append, ih]
    rfl

theorem declaredIn_values (values : List Expression) :
    declaredIn (values.flatMap Expression.mentions) = [] := by
  induction values with
  | nil => rfl
  | cons e rest ih => rw [List.flatMap_cons, declaredIn_append, e.declaredIn_mentions, ih]; rfl

theorem declaredIn_used (targets : List Identifier) : declaredIn (targets.map .used) = [] := by
  induction targets with
  | nil => rfl
  | cons target rest ih => exact ih

/-- Behind an expression the walk knows the names that it knew before. -/
theorem nameFaults_expression (ahead : List String) (e : Expression) (later : List Mention) :
    nameFaults ahead (e.mentions ++ later) =
      nameFaults ahead e.mentions ++ nameFaults ahead later := by
  rw [nameFaults_append, e.declaredIn_mentions, List.append_nil]

/-- Whether a cause concerns the declaration of a name. -/
def DiagnosticCause.concernsName : DiagnosticCause → Bool
  | .duplicateDeclaration _ | .undeclaredVariable _ => true
  | _ => false

def Diagnostic.concernsName (diagnostic : Diagnostic) : Bool :=
  diagnostic.cause.concernsName

/-- The diagnostics that concern the declaration of a name. -/
def ofNames (diagnostics : List Diagnostic) : List Diagnostic :=
  diagnostics.filter Diagnostic.concernsName

theorem ofNames_append (first second : List Diagnostic) :
    ofNames (first ++ second) = ofNames first ++ ofNames second :=
  List.filter_append ..

/-- A rule that finds nothing wrong, or something that concerns no declaration. -/
def SparesNames (fault : Option DiagnosticCause) : Prop :=
  ∀ cause, fault = some cause → cause.concernsName = false

theorem sparesNames_none : SparesNames none :=
  nofun

theorem sparesNames_some {cause : DiagnosticCause} (spares : cause.concernsName = false) :
    SparesNames (some cause) := by
  rintro _ ⟨⟩
  exact spares

theorem ofNames_reported {fault : Option DiagnosticCause} (spares : SparesNames fault)
    (position : Position) : ofNames (fault.toList.map (Diagnostic.mk position)) = [] := by
  cases fault with
  | none => rfl
  | some cause => simp [ofNames, Diagnostic.concernsName, spares cause rfl]

namespace Ruling

variable (operator : BinaryOperator) (lhs rhs : StaticType)

theorem sparesNames_arithmetic : SparesNames (arithmetic operator lhs rhs).fault := by
  rw [arithmetic]
  split
  · exact sparesNames_some rfl
  · split
    · exact sparesNames_some rfl
    · exact sparesNames_none

theorem sparesNames_concat : SparesNames (concat operator lhs rhs).fault := by
  rw [concat]
  split
  · exact sparesNames_none
  · exact sparesNames_some rfl

theorem sparesNames_equality : SparesNames (equality operator lhs rhs).fault := by
  rw [equality]
  split
  · exact sparesNames_some rfl
  · split
    · exact sparesNames_some rfl
    · exact sparesNames_none

theorem sparesNames_relational : SparesNames (relational operator lhs rhs).fault := by
  rw [relational]
  split
  · exact sparesNames_none
  · exact sparesNames_some rfl

theorem sparesNames_logical (policy : LogicalPolicy) :
    SparesNames (logical policy operator lhs rhs).fault := by
  unfold logical
  cases policy with
  | matchingTypes =>
    dsimp only
    split
    · exact sparesNames_none
    · exact sparesNames_some rfl
  | requireBool =>
    dsimp only
    split
    · exact sparesNames_none
    · exact sparesNames_some rfl

theorem sparesNames_binary (options : CheckOptions) :
    SparesNames (binary options operator lhs rhs).fault := by
  rw [binary]
  split
  · cases operator.kind <;> exact sparesNames_none
  · cases operator.kind with
    | arithmetic => exact sparesNames_arithmetic operator lhs rhs
    | concat => exact sparesNames_concat operator lhs rhs
    | equality => exact sparesNames_equality operator lhs rhs
    | relational => exact sparesNames_relational operator lhs rhs
    | logical => exact sparesNames_logical operator lhs rhs options.logical

theorem sparesNames_unary (options : CheckOptions) (operator : UnaryOperator)
    (operand : StaticType) : SparesNames (unary options operator operand).fault := by
  unfold unary
  split
  · exact sparesNames_none
  · cases operator with
    | not =>
      dsimp only
      split
      · exact sparesNames_none
      · exact sparesNames_some rfl
    | negate =>
      dsimp only
      split
      · exact sparesNames_none
      · exact sparesNames_some rfl

theorem sparesNames_assignment (options : CheckOptions) (target value : StaticType) :
    SparesNames (assignment options target value).fault := by
  rw [assignment]
  split
  · exact sparesNames_none
  · exact sparesNames_some rfl

end Ruling

namespace Fault

variable (options : CheckOptions) (type : StaticType)

/-- A test that is passed, or failed for a cause that concerns no declaration. -/
theorem sparesNames_test {passed : Prop} [Decidable passed] {cause : DiagnosticCause}
    (spares : cause.concernsName = false) :
    SparesNames (if passed then none else some cause) := by
  split
  · exact sparesNames_none
  · exact sparesNames_some spares

theorem sparesNames_condition (kind : ConditionKind) :
    SparesNames (condition options kind type) :=
  sparesNames_test rfl

theorem sparesNames_printed : SparesNames (printed type) := by
  rw [printed]
  split
  · exact sparesNames_some rfl
  · exact sparesNames_none

theorem sparesNames_readTarget (name : String) : SparesNames (readTarget name type) := by
  rw [readTarget]
  split
  · exact sparesNames_some rfl
  · exact sparesNames_none

theorem sparesNames_openTarget (name : String) : SparesNames (openTarget name type) :=
  sparesNames_test rfl

theorem sparesNames_fileName : SparesNames (fileName options type) :=
  sparesNames_test rfl

theorem sparesNames_outputTarget : SparesNames (outputTarget options type) :=
  sparesNames_test rfl

theorem sparesNames_written : SparesNames (written options type) :=
  sparesNames_test rfl

end Fault

/-- A table that knows the names of some declarations and no others. -/
def SymbolTable.Knows (table : SymbolTable) (ahead : List String) : Prop :=
  ∃ types : Declarations, table.Holds types ∧ ∀ name, types.lookup name = none ↔ name ∉ ahead

namespace SymbolTable

variable {table later : SymbolTable} {ahead : List String}

theorem knows_empty : empty.Knows [] :=
  ⟨[], holds_empty, fun _ => ⟨fun _ => List.not_mem_nil, fun _ => rfl⟩⟩

theorem Knows.get?_eq_none (knows : table.Knows ahead) {name : String} :
    table.get? name = none ↔ name ∉ ahead := by
  obtain ⟨types, holds, known⟩ := knows
  rw [holds.get?_eq_none, known]

theorem Knows.typeOf?_eq_none (knows : table.Knows ahead) {name : String} :
    table.typeOf? name = none ↔ name ∉ ahead := by
  rw [typeOf?, Option.map_eq_none_iff, knows.get?_eq_none]

/-- A new name is known from its declaration on. -/
theorem Knows.declare (knows : table.Knows ahead) {name : Identifier} {type : PrimitiveType}
    (declared : table.declare ⟨name.name, type.static, name.position⟩ = .ok later) :
    later.Knows (ahead ++ [name.name]) := by
  obtain ⟨types, holds, known⟩ := knows
  refine ⟨_, holds_declare holds declared, fun other => ?_⟩
  rw [Declarations.lookup_concat_eq_none, known]
  simp [eq_comm]

/-- A second declaration is nothing new. -/
theorem Knows.again (knows : table.Knows ahead) {name : String} (twice : name ∈ ahead) :
    table.Knows (ahead ++ [name]) := by
  obtain ⟨types, holds, known⟩ := knows
  refine ⟨types, holds, fun other => ?_⟩
  rw [known, List.mem_append, List.mem_singleton]
  constructor
  · rintro unknown (before | rfl)
    · exact unknown before
    · exact unknown twice
  · exact fun unknown before => unknown (.inl before)

end SymbolTable

section Walk

variable {options : CheckOptions} {symbols : SymbolTable} {ahead : List String}

/-- A name is looked up just as the walk would. -/
theorem ofNames_lookup (knows : symbols.Knows ahead) (name : Identifier) :
    ofNames ((Ruling.lookup symbols name.name).diagnostics name.position) =
      nameFaults ahead [.used name] := by
  have unknown : symbols.typeOf? name.name = none ↔ name.name ∉ ahead := knows.typeOf?_eq_none
  rw [Ruling.lookup]
  cases found : symbols.typeOf? name.name with
  | none => simp [nameFaults, Mention.fault?, unknown.mp found, Ruling.faulty, Ruling.diagnostics,
      ofNames, Diagnostic.concernsName, DiagnosticCause.concernsName]
  | some type =>
    have declared : name.name ∈ ahead := by
      by_cases other : name.name ∈ ahead
      · exact other
      · rw [unknown.mpr other] at found
        cases found
    simp [nameFaults, Mention.fault?, declared, Ruling.sound, Ruling.diagnostics, ofNames]

/-- A node reports of names what its parts do, unless its own rule is about one. -/
theorem ofNames_ofNode (node : Node) {ruling : Ruling} (spares : SparesNames ruling.fault)
    (diagnostics : List Diagnostic) (types : List (NodeId × StaticType)) :
    ofNames (Judgement.ofNode node ruling diagnostics types).diagnostics = ofNames diagnostics := by
  rw [Judgement.ofNode, ofNames_append, Ruling.diagnostics, ofNames_reported spares,
    List.append_nil]

/-- Of the names in an expression the checker reports what the walk finds. -/
theorem Expression.ofNames_judge (knows : symbols.Knows ahead) (e : Expression) :
    ofNames (e.judge options symbols).diagnostics = nameFaults ahead e.mentions := by
  induction e with
  | literal node value => rfl
  | «variable» node name =>
    exact (ofNames_ofNode node sparesNames_none _ _).trans (ofNames_lookup knows name)
  | grouping node inner ih => exact (ofNames_ofNode node sparesNames_none _ _).trans ih
  | binary node operator lhs rhs leftIH rightIH =>
    refine (ofNames_ofNode node (Ruling.sparesNames_binary _ _ _ _) _ _).trans ?_
    rw [ofNames_append, leftIH, rightIH, mentions, nameFaults_expression]
  | unary node operator operand ih =>
    exact (ofNames_ofNode node (Ruling.sparesNames_unary _ _ _) _ _).trans ih
  | assignment node target value ih =>
    refine (ofNames_ofNode node (Ruling.sparesNames_assignment _ _ _) _ _).trans ?_
    rw [ofNames_append, ih, ofNames_lookup knows, mentions, nameFaults_expression]

theorem ofNames_judged {judgement : Judgement} {position : Position}
    {fault : Option DiagnosticCause} (spares : SparesNames fault) (later : Findings) :
    ofNames (later.judged judgement position fault).diagnostics =
      ofNames judgement.diagnostics ++ ofNames later.diagnostics := by
  rw [Findings.judged, ofNames_append, ofNames_append, ofNames_reported spares, List.append_nil]

theorem ofNames_judgeAll (knows : symbols.Knows ahead)
    {fault : StaticType → Option DiagnosticCause} (spares : ∀ type, SparesNames (fault type))
    (values : List Expression) :
    ofNames (judgeAll options symbols fault values).diagnostics =
      nameFaults ahead (values.flatMap Expression.mentions) := by
  induction values with
  | nil => rfl
  | cons e rest ih =>
    rw [judgeAll, ofNames_judged (spares _), e.ofNames_judge knows, ih, List.flatMap_cons,
      nameFaults_expression]

theorem ofNames_readDiagnostics (knows : symbols.Knows ahead) (targets : List Identifier) :
    ofNames (targets.flatMap (readDiagnostics symbols)) =
      nameFaults ahead (targets.map .used) := by
  induction targets with
  | nil => rfl
  | cons target rest ih =>
    have own : ofNames (readDiagnostics symbols target) = nameFaults ahead [.used target] := by
      rw [readDiagnostics, ofNames_append, ofNames_lookup knows,
        ofNames_reported (Fault.sparesNames_readTarget _ _), List.append_nil]
    have split : (target :: rest).map Mention.used = [.used target] ++ rest.map .used := rfl
    rw [List.flatMap_cons, ofNames_append, own, ih, split, nameFaults_append]
    simp [declaredIn, Mention.declares]

theorem ofNames_checkOpen (knows : symbols.Knows ahead) (target : Identifier)
    (fileName : Expression) :
    ofNames (checkOpen options symbols target fileName).diagnostics =
      nameFaults ahead (fileName.mentions ++ [.used target]) := by
  rw [checkOpen, ofNames_append, ofNames_append, ofNames_append, fileName.ofNames_judge knows,
    ofNames_lookup knows, ofNames_reported (Fault.sparesNames_openTarget _ _),
    ofNames_reported (Fault.sparesNames_fileName _ _), List.append_nil, List.append_nil,
    nameFaults_expression]

/-- The checker follows a walk: it knows the same names behind it and reports the same of them. -/
structure Findings.Follows (findings : Findings) (ahead : List String)
    (mentions : List Mention) : Prop where
  knows : findings.symbols.Knows (ahead ++ declaredIn mentions)
  faults : ofNames findings.diagnostics = nameFaults ahead mentions

namespace Findings

theorem Follows.following {earlier later : Findings} {first second : List Mention}
    (before : earlier.Follows ahead first)
    (after : later.Follows (ahead ++ declaredIn first) second) :
    (earlier.following later).Follows ahead (first ++ second) := by
  constructor
  · rw [declaredIn_append, ← List.append_assoc]
    exact after.knows
  · rw [nameFaults_append, ← before.faults, ← after.faults]
    exact ofNames_append ..

/-- An expression is judged ahead of other findings, with a verdict on its type. -/
theorem Follows.judged {later : Findings} {mentions : List Mention}
    (after : later.Follows ahead mentions) (knows : symbols.Knows ahead) (e : Expression)
    {position : Position} {fault : Option DiagnosticCause} (spares : SparesNames fault) :
    (later.judged (e.judge options symbols) position fault).Follows ahead
      (e.mentions ++ mentions) := by
  constructor
  · rw [declaredIn_append, e.declaredIn_mentions]
    exact after.knows
  · rw [ofNames_judged spares, e.ofNames_judge knows, after.faults, nameFaults_expression]

/-- Findings that leave the table as it is follow a walk that declares nothing. -/
theorem Follows.of_unchanged {findings : Findings} {mentions : List Mention}
    (knows : symbols.Knows ahead) (unchanged : findings.symbols = symbols)
    (undeclared : declaredIn mentions = [])
    (faults : ofNames findings.diagnostics = nameFaults ahead mentions) :
    findings.Follows ahead mentions := by
  refine ⟨?_, faults⟩
  rw [unchanged, undeclared, List.append_nil]
  exact knows

end Findings

/-- A name is declared, or reported if it has been declared before, also in the same list. -/
theorem follows_declareAll (knows : symbols.Knows ahead) (type : PrimitiveType)
    (names : List Identifier) :
    (declareAll symbols type.static names).Follows ahead (names.map .declared) := by
  induction names generalizing symbols ahead with
  | nil => exact .of_unchanged knows rfl rfl rfl
  | cons name rest ih =>
    have split : (name :: rest).map Mention.declared = [.declared name] ++ rest.map .declared := rfl
    rw [declareAll, split]
    cases declared : symbols.declare ⟨name.name, type.static, name.position⟩ with
    | ok later =>
      have fresh : name.name ∉ ahead :=
        knows.get?_eq_none.mp (SymbolTable.declare_eq_ok declared).1
      have own : (Findings.start later).Follows ahead [.declared name] := by
        refine ⟨knows.declare declared, ?_⟩
        simp [nameFaults, Mention.fault?, fresh, Findings.start, ofNames]
      exact own.following (ih (knows.declare declared))
    | error previous =>
      have twice : name.name ∈ ahead := by
        by_cases fresh : name.name ∈ ahead
        · exact fresh
        · rw [SymbolTable.declare, knows.get?_eq_none.mpr fresh] at declared
          cases declared
      have own : (⟨symbols, [⟨name.position, .duplicateDeclaration name.name⟩], []⟩ :
          Findings).Follows ahead [.declared name] :=
        ⟨knows.again twice, by simp [nameFaults, Mention.fault?, twice, ofNames,
          Diagnostic.concernsName, DiagnosticCause.concernsName]⟩
      exact own.following (ih (knows.again twice))

theorem follows_checkAll {body : List Statement}
    (each : ∀ s ∈ body, ∀ {symbols ahead}, symbols.Knows ahead →
      (s.check options symbols).Follows ahead s.mentions) (knows : symbols.Knows ahead) :
    (checkAll options symbols body).Follows ahead (Statement.mentionsAll body) := by
  induction body generalizing symbols ahead with
  | nil => exact .of_unchanged knows rfl rfl rfl
  | cons s rest ih =>
    obtain ⟨own, others⟩ := List.forall_mem_cons.mp each
    exact (own knows).following (ih others (own knows).knows)

/-- Checking a statement follows the walk through it, whatever is wrong with it. -/
theorem Statement.follows_check (s : Statement) (knows : symbols.Knows ahead) :
    (s.check options symbols).Follows ahead s.mentions := by
  induction s generalizing symbols ahead with
  | declaration position type names => exact follows_declareAll knows type names
  | expression position value =>
    have nothing : (Findings.start symbols).Follows ahead [] :=
      .of_unchanged knows rfl rfl rfl
    have judged : ((Findings.start symbols).judged (value.judge options symbols)
        value.position none).Follows ahead (value.mentions ++ []) :=
      nothing.judged knows value sparesNames_none
    rwa [List.append_nil] at judged
  | conditional position condition positive negative positiveIH negativeIH =>
    have spares := Fault.sparesNames_condition options
      (condition.judge options symbols).type .conditional
    cases negative with
    | none => exact (positiveIH knows).judged knows condition spares
    | some negative =>
      have first := positiveIH knows
      have second := negativeIH negative List.mem_cons_self first.knows
      exact (first.following second).judged knows condition spares
  | loop position condition body ih =>
    exact (ih knows).judged knows condition (Fault.sparesNames_condition _ _ _)
  | block position body ih => exact follows_checkAll (fun s member => ih s member) knows
  | write position values =>
    exact .of_unchanged knows (symbols_judgeAll values) (declaredIn_values values)
      (ofNames_judgeAll knows Fault.sparesNames_printed values)
  | read position targets =>
    exact .of_unchanged knows rfl (declaredIn_used targets)
      (ofNames_readDiagnostics knows targets)
  | openFile position target fileName =>
    refine .of_unchanged knows rfl ?_ (ofNames_checkOpen knows target fileName)
    rw [mentions, declaredIn_append, fileName.declaredIn_mentions]
    rfl
  | fileOutput position file values =>
    have written : (judgeAll options symbols (Fault.written options) values).Follows ahead
        (values.flatMap Expression.mentions) :=
      .of_unchanged knows (symbols_judgeAll values) (declaredIn_values values)
        (ofNames_judgeAll knows (Fault.sparesNames_written options) values)
    exact written.judged knows file (Fault.sparesNames_outputTarget _ _)
  | empty position => exact .of_unchanged knows rfl rfl rfl

end Walk

/--
What the checker reports of second declarations and of names without a declaration is what a walk
over the names finds that sees neither types nor options: the same names at the same positions in
the same order, and nothing else.
-/
theorem Tree.names_checked (options : CheckOptions) (tree : Tree) :
    (tree.diagnostics options).filter Diagnostic.concernsName = nameFaults [] tree.mentions := by
  have follows : (checkAll options .empty tree).Follows [] tree.mentions :=
    follows_checkAll (fun s _ => s.follows_check) SymbolTable.knows_empty
  rw [tree.diagnostics_eq]
  exact follows.faults

end StackLang
