import StackLang.Proofs.Acceptance

/-!
# The bare form of a tree

A tree in its bare form has no parentheses, and neither positions nor identities.
Checking a tree reports what checking its bare form does, and gives the same types
to what is left of its nodes. An accepted tree with identities of its own has
code that its bare form and its symbols determine. The types of the operands are
found by way of the identities, which differ from tree to tree, but every
identity leads to the type that the names in force give to its node.
-/
namespace StackLang

def Position.origin : Position :=
  ⟨0, 0⟩

def Node.blank : Node :=
  ⟨0, .origin⟩

def Identifier.bare (name : Identifier) : Identifier :=
  ⟨name.name, .origin⟩

theorem Identifier.name_of_bare {name other : Identifier} (same : name.bare = other.bare) :
    name.name = other.name :=
  (Identifier.mk.inj same).1

/-- An expression without parentheses, and without what sets its nodes and names apart. -/
def Expression.bare : Expression → Expression
  | .literal _ value => .literal .blank value
  | .variable _ name => .variable .blank name.bare
  | .grouping _ inner => inner.bare
  | .binary _ operator lhs rhs => .binary .blank operator lhs.bare rhs.bare
  | .unary _ operator operand => .unary .blank operator operand.bare
  | .assignment _ target value => .assignment .blank target.bare value.bare

namespace Statement

mutual

def bare : Statement → Statement
  | .declaration _ type names => .declaration .origin type (names.map Identifier.bare)
  | .expression _ value => .expression .origin value.bare
  | .conditional _ condition positive negative =>
    .conditional .origin condition.bare positive.bare (bareOption negative)
  | .loop _ condition body => .loop .origin condition.bare body.bare
  | .block _ body => .block .origin (bareAll body)
  | .write _ values => .write .origin (values.map Expression.bare)
  | .read _ targets => .read .origin (targets.map Identifier.bare)
  | .openFile _ target fileName => .openFile .origin target.bare fileName.bare
  | .fileOutput _ file values => .fileOutput .origin file.bare (values.map Expression.bare)
  | .empty _ => .empty .origin

def bareOption : Option Statement → Option Statement
  | none => none
  | some s => some s.bare

def bareAll : List Statement → List Statement
  | [] => []
  | s :: rest => s.bare :: bareAll rest

end

end Statement

/-- The form of a tree in which no node or name differs from another by its place. -/
def Tree.bare (tree : Tree) : Tree :=
  Statement.bareAll tree

/-- The identities of the nodes that are no parentheses, those of its parts first. -/
def Expression.coreIds : Expression → List NodeId
  | .literal node _ | .variable node _ => [node.id]
  | .grouping _ inner => inner.coreIds
  | .binary node _ lhs rhs => lhs.coreIds ++ rhs.coreIds ++ [node.id]
  | .unary node _ operand => operand.coreIds ++ [node.id]
  | .assignment node _ value => value.coreIds ++ [node.id]

namespace Statement

mutual

def coreIds : Statement → List NodeId
  | .expression _ value => value.coreIds
  | .conditional _ condition positive negative =>
    condition.coreIds ++ (positive.coreIds ++ coreIdsOption negative)
  | .loop _ condition body => condition.coreIds ++ body.coreIds
  | .block _ body => coreIdsAll body
  | .write _ values => values.flatMap Expression.coreIds
  | .openFile _ _ fileName => fileName.coreIds
  | .fileOutput _ file values => file.coreIds ++ values.flatMap Expression.coreIds
  | .declaration .. | .read .. | .empty _ => []

def coreIdsOption : Option Statement → List NodeId
  | none => []
  | some s => s.coreIds

def coreIdsAll : List Statement → List NodeId
  | [] => []
  | s :: rest => s.coreIds ++ coreIdsAll rest

end

end Statement

/-- The identities of all nodes of a tree that are no parentheses, in the order of the text. -/
def Tree.coreIds (tree : Tree) : List NodeId :=
  Statement.coreIdsAll tree

def Diagnostic.bare (diagnostic : Diagnostic) : Diagnostic :=
  ⟨.origin, diagnostic.cause⟩

def Symbol.bare (symbol : Symbol) : Symbol :=
  { symbol with position := .origin }

namespace SymbolTable

/-- A table that does not know where its names were declared. -/
def bare (table : SymbolTable) : SymbolTable :=
  ⟨table.symbols.map Symbol.bare, table.places⟩

theorem get?_bare (table : SymbolTable) (name : String) :
    table.bare.get? name = (table.get? name).map Symbol.bare := by
  simp only [bare, get?]
  cases table.places[name]? <;> simp

theorem typeOf?_bare (table : SymbolTable) (name : String) :
    table.bare.typeOf? name = table.typeOf? name := by
  rw [typeOf?, typeOf?, get?_bare, Option.map_map]
  rfl

theorem bare_empty : empty.bare = empty := by
  simp [bare, empty]

theorem declare_bare (table : SymbolTable) (symbol : Symbol) :
    table.bare.declare symbol.bare =
      match table.declare symbol with
      | .ok later => .ok later.bare
      | .error previous => .error previous.bare := by
  have known : table.bare.get? symbol.bare.name = (table.get? symbol.name).map Symbol.bare :=
    table.get?_bare symbol.name
  rw [declare, declare, known]
  cases table.get? symbol.name with
  | some previous => rfl
  | none => simp [bare, Symbol.bare]

end SymbolTable

theorem Ruling.lookup_bare (symbols : SymbolTable) (name : String) :
    lookup symbols.bare name = lookup symbols name := by
  rw [lookup, lookup, symbols.typeOf?_bare]

theorem reported_bare (fault : Option DiagnosticCause) (position : Position) :
    (fault.toList.map (Diagnostic.mk position)).map Diagnostic.bare =
      fault.toList.map (Diagnostic.mk .origin) := by
  cases fault <;> rfl

theorem Ruling.diagnostics_bare (ruling : Ruling) (position : Position) :
    (ruling.diagnostics position).map Diagnostic.bare = ruling.diagnostics .origin :=
  reported_bare ruling.fault position

namespace Expression

theorem position_bare (e : Expression) : e.bare.position = .origin := by
  induction e with
  | grouping node inner ih => exact ih
  | _ => rfl

theorem judge_bare (options : CheckOptions) (symbols : SymbolTable) (e : Expression) :
    (e.bare.judge options symbols.bare).type = (e.judge options symbols).type ∧
      (e.bare.judge options symbols.bare).diagnostics =
        (e.judge options symbols).diagnostics.map Diagnostic.bare := by
  induction e with
  | literal node value => exact ⟨rfl, rfl⟩
  | «variable» node name =>
    simp only [bare, judge, Judgement.ofNode, Identifier.bare, Ruling.lookup_bare,
      List.map_append, Ruling.diagnostics_bare, true_and]
    rfl
  | grouping node inner ih =>
    refine ⟨ih.1, ih.2.trans ?_⟩
    simp [judge, Judgement.ofNode, Ruling.diagnostics, Ruling.sound]
  | binary node operator lhs rhs leftIH rightIH =>
    simp only [bare, judge, Judgement.ofNode, leftIH, rightIH, List.map_append,
      Ruling.diagnostics_bare, true_and]
    rfl
  | unary node operator operand ih =>
    simp only [bare, judge, Judgement.ofNode, ih, List.map_append, Ruling.diagnostics_bare,
      true_and]
    rfl
  | assignment node target value ih =>
    simp only [bare, judge, Judgement.ofNode, ih, Identifier.bare, Ruling.lookup_bare,
      List.map_append, Ruling.diagnostics_bare, true_and]
    rfl

end Expression

/-- Findings that differ in the places of what was found, and in the nodes that have types. -/
structure Findings.Bares (bare findings : Findings) : Prop where
  symbols : bare.symbols = findings.symbols.bare
  diagnostics : bare.diagnostics = findings.diagnostics.map Diagnostic.bare

namespace Findings.Bares

variable {bare findings later bareLater : Findings}

theorem start (symbols : SymbolTable) : (Findings.start symbols.bare).Bares (.start symbols) :=
  ⟨rfl, rfl⟩

theorem judged (bares : bare.Bares findings) (options : CheckOptions) (symbols : SymbolTable)
    (e : Expression) (fault : StaticType → Option DiagnosticCause) (position : Position) :
    (bare.judged (e.bare.judge options symbols.bare) .origin
        (fault (e.bare.judge options symbols.bare).type)).Bares
      (findings.judged (e.judge options symbols) position
        (fault (e.judge options symbols).type)) := by
  obtain ⟨type, diagnostics⟩ := e.judge_bare options symbols
  refine ⟨bares.symbols, ?_⟩
  simp only [Findings.judged, type, diagnostics, bares.diagnostics, List.map_append, reported_bare]

theorem following (bares : bare.Bares findings) (rest : bareLater.Bares later) :
    (bare.following bareLater).Bares (findings.following later) := by
  refine ⟨rest.symbols, ?_⟩
  simp only [Findings.following, bares.diagnostics, rest.diagnostics, List.map_append]

end Findings.Bares

section Checked

variable (options : CheckOptions) (symbols : SymbolTable)

theorem bares_declareAll (type : StaticType) (names : List Identifier) :
    (declareAll symbols.bare type (names.map Identifier.bare)).Bares
      (declareAll symbols type names) := by
  induction names generalizing symbols with
  | nil => exact .start symbols
  | cons name rest ih =>
    have declares := symbols.declare_bare ⟨name.name, type, name.position⟩
    rw [List.map_cons, declareAll, declareAll]
    cases declared : symbols.declare ⟨name.name, type, name.position⟩ with
    | ok later =>
      rw [declared] at declares
      have bare : symbols.bare.declare ⟨name.bare.name, type, name.bare.position⟩ =
          .ok later.bare := declares
      rw [bare]
      exact ih later
    | error previous =>
      rw [declared] at declares
      have bare : symbols.bare.declare ⟨name.bare.name, type, name.bare.position⟩ =
          .error previous.bare := declares
      rw [bare]
      have others := ih symbols
      refine ⟨others.symbols, ?_⟩
      simp only [others.diagnostics, List.map_cons]
      rfl

theorem bares_judgeAll (fault : StaticType → Option DiagnosticCause) (values : List Expression) :
    (judgeAll options symbols.bare fault (values.map Expression.bare)).Bares
      (judgeAll options symbols fault values) := by
  induction values with
  | nil => exact .start symbols
  | cons e rest ih =>
    rw [List.map_cons, judgeAll, judgeAll, e.position_bare]
    exact ih.judged options symbols e fault e.position

theorem readDiagnostics_bare (target : Identifier) :
    readDiagnostics symbols.bare target.bare =
      (readDiagnostics symbols target).map Diagnostic.bare := by
  simp only [readDiagnostics, Identifier.bare, Ruling.lookup_bare, List.map_append,
    Ruling.diagnostics_bare, reported_bare]

theorem bares_checkAll {body : List Statement}
    (each : ∀ s ∈ body, ∀ symbols : SymbolTable,
      (s.bare.check options symbols.bare).Bares (s.check options symbols)) :
    (checkAll options symbols.bare (Statement.bareAll body)).Bares
      (checkAll options symbols body) := by
  induction body generalizing symbols with
  | nil => exact .start symbols
  | cons s rest ih =>
    obtain ⟨own, others⟩ := List.forall_mem_cons.mp each
    rw [Statement.bareAll, checkAll, checkAll, (own symbols).symbols]
    exact (own symbols).following (ih _ others)

/-- Checking finds in the bare form of a statement what it finds in the statement. -/
theorem Statement.bares_check (s : Statement) :
    (s.bare.check options symbols.bare).Bares (s.check options symbols) := by
  induction s generalizing symbols with
  | declaration position type names => exact bares_declareAll symbols type.static names
  | expression position value =>
    rw [bare, check, check, value.position_bare]
    exact (Findings.Bares.start symbols).judged options symbols value (fun _ => none) _
  | conditional position condition positive negative positiveIH negativeIH =>
    have first := positiveIH symbols
    cases negative with
    | none =>
      exact first.judged options symbols condition (Fault.condition options .conditional) position
    | some negative =>
      have second := negativeIH negative List.mem_cons_self
        (positive.check options symbols).symbols
      rw [← first.symbols] at second
      exact (first.following second).judged options symbols condition
        (Fault.condition options .conditional) position
  | loop position condition body ih =>
    exact (ih symbols).judged options symbols condition (Fault.condition options .loop) position
  | block position body ih => exact bares_checkAll options symbols fun s member => ih s member
  | write position values => exact bares_judgeAll options symbols Fault.printed values
  | read position targets =>
    refine ⟨rfl, ?_⟩
    simp only [bare, check, List.flatMap_map, List.map_flatMap, readDiagnostics_bare]
  | openFile position target fileName =>
    obtain ⟨type, diagnostics⟩ := fileName.judge_bare options symbols
    refine ⟨rfl, ?_⟩
    simp only [bare, check, checkOpen, Identifier.bare, type, diagnostics, Ruling.lookup_bare,
      fileName.position_bare, List.map_append, Ruling.diagnostics_bare, reported_bare]
  | fileOutput position file values =>
    rw [bare, check, check, file.position_bare]
    exact (bares_judgeAll options symbols (Fault.written options) values).judged options symbols
      file (Fault.outputTarget options) _
  | empty position => exact .start symbols

end Checked

/-- A record has every type that was found for a node. -/
def TypeRecord.Knows (record : TypeRecord) (types : List (NodeId × StaticType)) : Prop :=
  ∀ id type, (id, type) ∈ types → record.typeOf id = type

section Cores

variable {record : TypeRecord} {types more : List (NodeId × StaticType)}

theorem TypeRecord.knows_append :
    record.Knows (types ++ more) ↔ record.Knows types ∧ record.Knows more := by
  constructor
  · intro knows
    exact ⟨fun id type member => knows id type (List.mem_append_left _ member),
      fun id type member => knows id type (List.mem_append_right _ member)⟩
  · rintro ⟨first, second⟩ id type member
    rcases List.mem_append.mp member with here | there
    · exact first id type here
    · exact second id type there

theorem TypeRecord.knows_singleton {id : NodeId} {type : StaticType} :
    record.Knows [(id, type)] ↔ record.typeOf id = type := by
  simp [Knows]

variable (options : CheckOptions) {symbols : SymbolTable}

/-- The nodes of an expression that are no parentheses have the types of its bare form. -/
theorem Expression.typeOf_coreIds {e : Expression}
    (knows : record.Knows (e.judge options symbols).types) :
    e.coreIds.map record.typeOf = (e.bare.judge options symbols.bare).types.map Prod.snd := by
  have whole := (e.judge_bare options symbols).1
  induction e with
  | literal node value => exact congrArg (· :: []) (TypeRecord.knows_singleton.mp knows)
  | «variable» node name =>
    exact congrArg (· :: []) ((TypeRecord.knows_singleton.mp knows).trans whole.symm)
  | grouping node inner ih => exact ih (TypeRecord.knows_append.mp knows).1 whole
  | binary node operator lhs rhs leftIH rightIH =>
    obtain ⟨parts, own⟩ := TypeRecord.knows_append.mp knows
    obtain ⟨left, right⟩ := TypeRecord.knows_append.mp parts
    have type := (TypeRecord.knows_singleton.mp own).trans whole.symm
    simp only [coreIds, List.map_append, leftIH left (lhs.judge_bare options symbols).1,
      rightIH right (rhs.judge_bare options symbols).1, List.map_cons, List.map_nil, type]
    simp only [bare, judge, Judgement.ofNode, List.map_append, List.map_cons, List.map_nil]
  | unary node _ inner ih | assignment node _ inner ih =>
    obtain ⟨parts, own⟩ := TypeRecord.knows_append.mp knows
    have type := (TypeRecord.knows_singleton.mp own).trans whole.symm
    simp only [coreIds, List.map_append, ih parts (inner.judge_bare options symbols).1,
      List.map_cons, List.map_nil, type]
    simp only [bare, judge, Judgement.ofNode, List.map_append, List.map_cons, List.map_nil]

theorem typeOf_coreIds_judgeAll {fault : StaticType → Option DiagnosticCause}
    {values : List Expression}
    (knows : record.Knows (judgeAll options symbols fault values).types) :
    (values.flatMap Expression.coreIds).map record.typeOf =
      (judgeAll options symbols.bare fault (values.map Expression.bare)).types.map Prod.snd := by
  induction values with
  | nil => rfl
  | cons e rest ih =>
    obtain ⟨own, others⟩ := TypeRecord.knows_append.mp knows
    simp only [List.flatMap_cons, List.map_append, List.map_cons, judgeAll, Findings.judged,
      e.typeOf_coreIds options own, ih others]

theorem typeOf_coreIds_checkAll {body : List Statement}
    (each : ∀ s ∈ body, ∀ {symbols : SymbolTable},
      record.Knows (s.check options symbols).types →
      s.coreIds.map record.typeOf = (s.bare.check options symbols.bare).types.map Prod.snd)
    (knows : record.Knows (checkAll options symbols body).types) :
    (Statement.coreIdsAll body).map record.typeOf =
      (checkAll options symbols.bare (Statement.bareAll body)).types.map Prod.snd := by
  induction body generalizing symbols with
  | nil => rfl
  | cons s rest ih =>
    obtain ⟨own, others⟩ := List.forall_mem_cons.mp each
    obtain ⟨here, there⟩ := TypeRecord.knows_append.mp knows
    simp only [Statement.coreIdsAll, Statement.bareAll, checkAll, Findings.following,
      List.map_append, (s.bares_check options symbols).symbols, own here, ih others there]

theorem Statement.typeOf_coreIds {s : Statement}
    (knows : record.Knows (s.check options symbols).types) :
    s.coreIds.map record.typeOf = (s.bare.check options symbols.bare).types.map Prod.snd := by
  induction s generalizing symbols with
  | declaration position type names =>
    exact (congrArg (List.map Prod.snd) (types_declareAll _ _ _)).symm
  | expression position value =>
    obtain ⟨own, _⟩ := TypeRecord.knows_append.mp knows
    simp only [coreIds, value.typeOf_coreIds options own, bare, check, Findings.judged,
      Findings.start, List.append_nil]
  | conditional position condition positive negative positiveIH negativeIH =>
    cases negative with
    | none =>
      obtain ⟨own, first⟩ := TypeRecord.knows_append.mp knows
      simp only [coreIds, coreIdsOption, bare, bareOption, check, Findings.judged,
        List.map_append, condition.typeOf_coreIds options own, positiveIH first, List.append_nil]
    | some negative =>
      obtain ⟨own, inner⟩ := TypeRecord.knows_append.mp knows
      obtain ⟨first, second⟩ := TypeRecord.knows_append.mp inner
      simp only [coreIds, coreIdsOption, bare, bareOption, check, Findings.judged,
        Findings.following, List.map_append, condition.typeOf_coreIds options own,
        positiveIH first, negativeIH negative List.mem_cons_self second,
        (positive.bares_check options symbols).symbols]
  | loop position condition body ih =>
    obtain ⟨own, first⟩ := TypeRecord.knows_append.mp knows
    simp only [coreIds, bare, check, Findings.judged, List.map_append,
      condition.typeOf_coreIds options own, ih first]
  | block position body ih =>
    exact typeOf_coreIds_checkAll options (fun s member => ih s member) knows
  | write position values => exact typeOf_coreIds_judgeAll options knows
  | read | empty => rfl
  | openFile position target fileName => exact fileName.typeOf_coreIds options knows
  | fileOutput position file values =>
    obtain ⟨own, others⟩ := TypeRecord.knows_append.mp knows
    simp only [coreIds, bare, check, Findings.judged, List.map_append,
      file.typeOf_coreIds options own, typeOf_coreIds_judgeAll options others]

end Cores

section Lowered

variable {options : CheckOptions} {record other : TypeRecord} {names : Declarations}

/-- The type that a record has for an expression is one that the expression has by the rules. -/
theorem Expression.Annotated.hasType {policy : LogicalPolicy} (holds : record.symbols.Holds names)
    {e : Expression} {type : StaticType} (annotated : e.Annotated record policy type) :
    ∃ own, e.HasType policy names own ∧ type = own.static := by
  induction annotated with
  | literal node value known =>
    cases value with
    | int n => exact ⟨.int, .int node n, rfl⟩
    | float x => exact ⟨.float, .float node x, rfl⟩
    | bool b => exact ⟨.bool, .bool node b, rfl⟩
    | string s => exact ⟨.string, .string node s, rfl⟩
  | «variable» node name declared known =>
    rw [holds.typeOf] at declared
    obtain ⟨own, found, rfl⟩ := Option.map_eq_some_iff.mp declared
    exact ⟨own, .variable node found, rfl⟩
  | grouping node part known ih =>
    obtain ⟨own, typed, same⟩ := ih
    exact ⟨own, .grouping node typed, same⟩
  | binary node lhsPart rhsPart types known leftIH rightIH =>
    obtain ⟨left, lhsTyped, rfl⟩ := leftIH
    obtain ⟨right, rhsTyped, rfl⟩ := rightIH
    obtain ⟨own, rule, same⟩ := types.rule
    exact ⟨own, .binary node lhsTyped rhsTyped rule, same⟩
  | unary node part types known ih =>
    obtain ⟨inner, typed, rfl⟩ := ih
    obtain ⟨own, rule, same⟩ := types.rule
    exact ⟨own, .unary node typed rule, same⟩
  | assignment node declared part accepts known ih =>
    obtain ⟨value, typed, rfl⟩ := ih
    rw [holds.typeOf] at declared
    obtain ⟨own, found, rfl⟩ := Option.map_eq_some_iff.mp declared
    exact ⟨own, .assignment node found typed (PrimitiveType.accepts_static.mp accepts), rfl⟩

namespace Expression

/-- The code of an expression by its form and the types that its parts are judged to have. -/
def judgedCode (options : CheckOptions) (symbols : SymbolTable) : Expression → List Instruction
  | .literal _ value => [.push value]
  | .variable _ name => [.load name.name]
  | .grouping _ inner => inner.judgedCode options symbols
  | .binary _ operator lhs rhs =>
    let left := (lhs.judge options symbols).type
    let right := (rhs.judge options symbols).type
    lhs.judgedCode options symbols ++ widening left right ++
      (rhs.judgedCode options symbols ++ widening right left) ++ operator.joining (left.join right)
  | .unary _ operator operand =>
    operand.judgedCode options symbols ++ operator.code (operand.judge options symbols).type
  | .assignment _ target value =>
    value.judgedCode options symbols ++
      widening (value.judge options symbols).type (Ruling.lookup symbols target.name).type ++
      [.save target.name, .load target.name]

variable {e f : Expression} {type otherType : StaticType}

theorem Annotated.judge_type (holds : record.symbols.Holds names)
    (annotated : e.Annotated record options.logical type) :
    (e.judge options record.symbols).type = type := by
  obtain ⟨own, typed, rfl⟩ := annotated.hasType holds
  exact (typed.judge holds).1

/-- The identities of the nodes do not matter to the code, only the types found by way of them. -/
theorem Annotated.code_eq (holds : record.symbols.Holds names)
    (annotated : e.Annotated record options.logical type) :
    e.code record = e.judgedCode options record.symbols := by
  induction annotated with
  | literal | «variable» => rfl
  | grouping node part known ih => exact ih
  | binary node lhsPart rhsPart types known leftIH rightIH =>
    rw [code, judgedCode, leftIH, rightIH, lhsPart.known, rhsPart.known,
      lhsPart.judge_type holds, rhsPart.judge_type holds]
  | unary node part types known ih =>
    rw [code, judgedCode, ih, part.known, part.judge_type holds]
  | @assignment node target value declaredType type declared part accepts known ih =>
    have found : Ruling.lookup record.symbols target.name = .sound declaredType := by
      rw [Ruling.lookup, declared]
    rw [code, judgedCode, ih, part.known, known, part.judge_type holds, found]
    rfl

theorem judgedCode_bare (options : CheckOptions) (symbols : SymbolTable) (e : Expression) :
    e.bare.judgedCode options symbols.bare = e.judgedCode options symbols := by
  induction e with
  | literal | «variable» => rfl
  | grouping node inner ih => exact ih
  | binary node operator lhs rhs leftIH rightIH =>
    simp only [bare, judgedCode, leftIH, rightIH, judge_bare]
  | unary node operator operand ih => simp only [bare, judgedCode, ih, judge_bare]
  | assignment node target value ih =>
    simp only [bare, judgedCode, ih, judge_bare, Identifier.bare, Ruling.lookup_bare]

end Expression

theorem variableType_eq_ok {name : Identifier} {type : StaticType} :
    record.variableType name = .ok type ↔ record.symbols.typeOf? name.name = some type := by
  rw [TypeRecord.variableType]
  cases record.symbols.typeOf? name.name <;> simp

theorem lowerRead_of_bare (symbols : record.symbols.bare = other.symbols.bare)
    {targets others : List Identifier} {code : List Instruction}
    (same : targets.map Identifier.bare = others.map Identifier.bare)
    (lowered : lowerRead record targets = .ok code) : lowerRead other others = .ok code := by
  induction targets generalizing others code with
  | nil =>
    cases others with
    | nil => exact lowered
    | cons => cases same
  | cons target rest ih =>
    cases others with
    | nil => cases same
    | cons twin later =>
      obtain ⟨first, remaining⟩ := List.cons.inj same
      obtain ⟨type, tag, code, known, tagged, there, rfl⟩ := lowerRead_cons lowered
      have name := Identifier.name_of_bare first
      have found : other.variableType twin = .ok type := by
        rw [variableType_eq_ok, ← SymbolTable.typeOf?_bare] at known ⊢
        rwa [← symbols, ← name]
      have encoded : encodedTag type twin.position = .ok tag := by rw [encodedTag, tagged]
      rw [name]
      exact bind_eq_ok.mpr ⟨type, found, bind_eq_ok.mpr ⟨tag, encoded,
        bind_eq_ok.mpr ⟨code, ih remaining there, rfl⟩⟩⟩

theorem lowerDeclaration_bare (type : PrimitiveType) (names : List Identifier) :
    lowerDeclaration type (names.map Identifier.bare) = lowerDeclaration type names := by
  rw [lowerDeclaration, lowerDeclaration]
  cases type.static.tag? with
  | none => rfl
  | some tag => exact List.flatMap_map ..

theorem lowerAll_of_bare {body others : List Statement}
    (each : ∀ s ∈ body, ∀ {t : Statement}, s.bare = t.bare → s.Annotated record options.logical →
      t.Annotated other options.logical → ∀ next, s.lower record next = t.lower other next)
    (same : Statement.bareAll body = Statement.bareAll others)
    (annotated : Statement.AnnotatedAll record options.logical body)
    (otherwise : Statement.AnnotatedAll other options.logical others) (next : Label) :
    lowerAll record next body = lowerAll other next others := by
  induction body generalizing others next with
  | nil =>
    cases others with
    | nil => rfl
    | cons => cases same
  | cons s rest ih =>
    cases others with
    | nil => cases same
    | cons t later =>
      obtain ⟨first, remaining⟩ := List.cons.inj same
      obtain ⟨own, each⟩ := List.forall_mem_cons.mp each
      simp only [lowerAll, own first annotated.1 otherwise.1,
        ih each remaining annotated.2 otherwise.2]

variable {more : Declarations} (holds : record.symbols.Holds names)
  (otherHolds : other.symbols.Holds more) (symbols : record.symbols.bare = other.symbols.bare)

include holds otherHolds symbols

/-- Annotated expressions of one bare form have the same code. -/
theorem Expression.lower_of_bare {e f : Expression} {type otherType : StaticType}
    (same : e.bare = f.bare) (annotated : e.Annotated record options.logical type)
    (otherwise : f.Annotated other options.logical otherType) : e.lower record = f.lower other := by
  have code : e.code record = f.code other := by
    rw [annotated.code_eq holds, otherwise.code_eq otherHolds,
      ← judgedCode_bare options record.symbols, ← judgedCode_bare options other.symbols, same,
      symbols]
  have types : type = otherType := by
    rw [← annotated.judge_type holds, ← otherwise.judge_type otherHolds,
      ← (judge_bare options record.symbols e).1, ← (judge_bare options other.symbols f).1, same,
      symbols]
  rw [annotated.lower holds, otherwise.lower otherHolds, code, types]

theorem lowerValues_of_bare {passes : StaticType → Prop} {values others : List Expression}
    (same : values.map Expression.bare = others.map Expression.bare)
    (annotated : AnnotatedValues record options.logical passes values)
    (otherwise : AnnotatedValues other options.logical passes others) :
    lowerValues record values = lowerValues other others := by
  induction values generalizing others with
  | nil =>
    cases others with
    | nil => rfl
    | cons => cases same
  | cons e rest ih =>
    cases others with
    | nil => cases same
    | cons f later =>
      obtain ⟨first, remaining⟩ := List.cons.inj same
      obtain ⟨⟨_, own, _⟩, annotated⟩ := List.forall_mem_cons.mp annotated
      obtain ⟨⟨_, also, _⟩, otherwise⟩ := List.forall_mem_cons.mp otherwise
      rw [lowerValues, lowerValues,
        Expression.lower_of_bare holds otherHolds symbols first own also,
        ih remaining annotated otherwise]

/-- Annotated statements of one bare form have the same code. -/
theorem Statement.lower_of_bare {s t : Statement} (same : s.bare = t.bare)
    (annotated : s.Annotated record options.logical)
    (otherwise : t.Annotated other options.logical) (next : Label) :
    s.lower record next = t.lower other next := by
  have sameCode {e f : Expression} {type otherType : StaticType} (same : e.bare = f.bare)
      (own : e.Annotated record options.logical type)
      (also : f.Annotated other options.logical otherType) : e.lower record = f.lower other :=
    Expression.lower_of_bare holds otherHolds symbols same own also
  induction s generalizing t next with
  | declaration position type names =>
    cases t with
    | declaration place other others =>
      obtain ⟨_, rfl, names⟩ := Statement.declaration.inj same
      rw [lower, lower, ← lowerDeclaration_bare, names, lowerDeclaration_bare]
    | _ => cases same
  | expression position value =>
    cases t with
    | expression place twin =>
      obtain ⟨_, same⟩ := Statement.expression.inj same
      obtain ⟨type, annotated⟩ := annotated
      obtain ⟨otherType, otherwise⟩ := otherwise
      rw [lower, lower, sameCode same annotated otherwise]
    | _ => cases same
  | conditional position condition positive negative positiveIH negativeIH =>
    cases t with
    | conditional place test first second =>
      obtain ⟨_, tested, chosen, others⟩ := Statement.conditional.inj same
      obtain ⟨condition, branch, rest⟩ := annotated_conditional.mp annotated
      obtain ⟨test, twin, later⟩ := annotated_conditional.mp otherwise
      have tests := sameCode tested condition test
      have branches := positiveIH chosen branch twin
      cases negative with
      | none =>
        cases second with
        | none => simp only [lower, tests, branches]
        | some => cases others
      | some negative =>
        cases second with
        | none => cases others
        | some second =>
          have alternatives :=
            negativeIH negative List.mem_cons_self (Option.some.inj others) rest.1 later.1
          simp only [lower, tests, branches, alternatives]
    | _ => cases same
  | loop position condition body ih =>
    cases t with
    | loop place test inner =>
      obtain ⟨_, tested, repeated⟩ := Statement.loop.inj same
      have tests := sameCode tested annotated.1 otherwise.1
      have bodies := ih repeated annotated.2 otherwise.2
      simp only [lower, tests, bodies]
    | _ => cases same
  | block position body ih =>
    cases t with
    | block place others =>
      obtain ⟨_, same⟩ := Statement.block.inj same
      exact lowerAll_of_bare (fun s member _ => ih s member) same annotated otherwise next
    | _ => cases same
  | write position values =>
    cases t with
    | write place others =>
      obtain ⟨_, same⟩ := Statement.write.inj same
      have length : values.length = others.length := by simpa using congrArg List.length same
      rw [lower, lower, lowerValues_of_bare holds otherHolds symbols same annotated otherwise,
        length]
    | _ => cases same
  | read position targets =>
    cases t with
    | read place others =>
      obtain ⟨_, same⟩ := Statement.read.inj same
      obtain ⟨code, lowered⟩ := exists_lowerRead holds annotated
      rw [lower, lower, lowered, lowerRead_of_bare symbols same lowered]
    | _ => cases same
  | openFile position target fileName =>
    cases t with
    | openFile place twin text =>
      obtain ⟨_, target, same⟩ := Statement.openFile.inj same
      rw [lower, lower, sameCode same annotated.2 otherwise.2, Identifier.name_of_bare target]
    | _ => cases same
  | fileOutput position file values =>
    cases t with
    | fileOutput place handle others =>
      obtain ⟨_, handles, same⟩ := Statement.fileOutput.inj same
      have length : values.length = others.length := by simpa using congrArg List.length same
      rw [lower, lower, sameCode handles annotated.1 otherwise.1,
        lowerValues_of_bare holds otherHolds symbols same annotated.2 otherwise.2, length]
    | _ => cases same
  | empty position =>
    cases t with
    | empty place => rfl
    | _ => cases same

end Lowered

namespace Tree

variable {options : CheckOptions} {tree other : Tree}

theorem bares_check (options : CheckOptions) (tree : Tree) :
    (checkAll options .empty tree.bare).Bares (checkAll options .empty tree) := by
  have bares := bares_checkAll options .empty fun s (_ : s ∈ tree) symbols =>
    s.bares_check options symbols
  rwa [SymbolTable.bare_empty] at bares

theorem diagnostics_bare (options : CheckOptions) (tree : Tree) :
    tree.bare.diagnostics options = (tree.diagnostics options).map Diagnostic.bare := by
  rw [diagnostics_eq, diagnostics_eq]
  exact (tree.bares_check options).diagnostics

/-- Trees of one bare form have the same code, if their nodes have identities of their own. -/
theorem compile_of_bare (same : tree.bare = other.bare) (distinct : tree.ids.Nodup)
    (otherDistinct : other.ids.Nodup) {program : Program}
    (compiled : tree.compile options = .ok program) : other.compile options = .ok program := by
  obtain ⟨record, checked, lowered⟩ := compile_eq_ok.mp compiled
  have clean : other.diagnostics options = [] := by
    have none := diagnostics_eq_nil.mpr ⟨record, checked⟩
    rwa [← List.map_eq_nil_iff, ← diagnostics_bare, same, diagnostics_bare,
      List.map_eq_nil_iff] at none
  obtain ⟨otherRecord, otherChecked⟩ := diagnostics_eq_nil.mp clean
  have symbols : record.symbols.bare = otherRecord.symbols.bare := by
    obtain ⟨_, rfl⟩ := check_eq_ok.mp checked
    obtain ⟨_, rfl⟩ := check_eq_ok.mp otherChecked
    have bares := (tree.bares_check options).symbols
    rw [same, (other.bares_check options).symbols] at bares
    exact bares.symm
  have holds := holds_check checked
  have otherHolds := holds_check otherChecked
  have code : lowerAll record 0 tree = lowerAll otherRecord 0 other :=
    lowerAll_of_bare (fun s _ _ => Statement.lower_of_bare holds otherHolds symbols) same
      (annotated distinct checked) (annotated otherDistinct otherChecked) 0
  rw [lower, code] at lowered
  exact compile_eq_ok.mpr ⟨otherRecord, otherChecked, lowered⟩

theorem typeOf_coreIds (distinct : tree.ids.Nodup) :
    tree.coreIds.map (TypeRecord.ofFindings (checkAll options .empty tree)).typeOf =
      (checkAll options .empty tree.bare).types.map Prod.snd := by
  have knows : (TypeRecord.ofFindings (checkAll options .empty tree)).Knows
      (checkAll options .empty tree).types := by
    refine fun id type found => TypeRecord.typeOf_ofFindings ?_ found
    rw [ids_checkAll fun s _ symbols => s.ids_check symbols]
    exact distinct
  have types :=
    typeOf_coreIds_checkAll options (fun s _ _ => Statement.typeOf_coreIds options) knows
  rwa [SymbolTable.bare_empty] at types

/--
Parentheses, positions and identities do not matter. Two trees of one bare form get the same
reports in the same order, and the same types for their nodes that are no parentheses; and what
one of them is compiled to, the other one is.
-/
theorem bare_decides (options : CheckOptions) (same : tree.bare = other.bare)
    (distinct : tree.ids.Nodup) (otherDistinct : other.ids.Nodup) :
    (tree.diagnostics options).map Diagnostic.cause =
        (other.diagnostics options).map Diagnostic.cause ∧
      tree.coreIds.map (TypeRecord.ofFindings (checkAll options .empty tree)).typeOf =
        other.coreIds.map (TypeRecord.ofFindings (checkAll options .empty other)).typeOf ∧
      ∀ program, tree.compile options = .ok program ↔ other.compile options = .ok program := by
  refine ⟨?_, ?_, fun program => ⟨compile_of_bare same distinct otherDistinct,
    compile_of_bare same.symm otherDistinct distinct⟩⟩
  · have reports := congrArg (List.map Diagnostic.cause) (tree.diagnostics_bare options)
    rw [same, diagnostics_bare, List.map_map, List.map_map] at reports
    exact reports.symm
  · rw [typeOf_coreIds distinct, typeOf_coreIds otherDistinct, same]

/-- An assignment with and without parentheses as the value of another one: `b = (a = 1);`. -/
theorem bare_decides_chain :
    let here : Position := ⟨1, 0⟩
    let there : Position := ⟨2, 4⟩
    let a (place : Position) : Identifier := ⟨"a", place⟩
    let b (place : Position) : Identifier := ⟨"b", place⟩
    let inner : Expression := .assignment ⟨1, here⟩ (a here) (.literal ⟨0, here⟩ (.int 1))
    let moved : Expression := .assignment ⟨7, there⟩ (a there) (.literal ⟨6, here⟩ (.int 1))
    let tree : Tree := [.declaration here .int [a here], .declaration here .float [b here],
      .expression here (.assignment ⟨3, here⟩ (b here) (.grouping ⟨2, here⟩ inner))]
    let other : Tree := [.declaration there .int [a there], .declaration there .float [b here],
      .expression there (.assignment ⟨5, there⟩ (b there) moved)]
    tree.bare = other.bare ∧ tree.ids.Nodup ∧ other.ids.Nodup ∧
      ∃ program, tree.compile .standard = .ok program ∧ other.compile .standard = .ok program := by
  intro here there a b inner moved tree other
  have same : tree.bare = other.bare := rfl
  have distinct : tree.ids.Nodup := by decide
  have otherDistinct : other.ids.Nodup := by decide
  have int : inner.HasType .matchingTypes [("a", .int), ("b", .float)] .int :=
    .assignment ⟨1, here⟩ (by decide) (.int ⟨0, here⟩ 1) (.inl rfl)
  have typed : tree.WellTyped .matchingTypes [("a", .int), ("b", .float)] :=
    .cons (.declaration here (by decide) (by decide)) <|
      .cons (.declaration here (by decide) (by decide)) <|
      .cons (.expression here (.assignment ⟨3, here⟩ (by decide) (.grouping ⟨2, here⟩ int)
        (.inr ⟨rfl, rfl⟩))) .nil
  obtain ⟨record, checked⟩ : ∃ record, tree.check .standard = .ok record :=
    exists_check_iff.mpr ⟨_, typed⟩
  obtain ⟨code, _, _, lowered⟩ := exists_lower checked distinct
  have compiled := compile_eq_ok.mpr ⟨record, checked, lowered⟩
  exact ⟨same, distinct, otherDistinct, .ofList code, compiled,
    ((bare_decides .standard same distinct otherDistinct).2.2 _).mp compiled⟩

end Tree

end StackLang
