import StackLang.Proofs.Annotation

/-!
# Annotated expressions evaluate to their types

An annotated expression evaluates to a slot of its type and keeps the store in
order, or it fails for one of few reasons. A wrong kind of operand is among them
only where the logical operators may be given operands that are no truth values.
-/
namespace StackLang

/-- The static type of what a slot holds. -/
def SlotKind.type : SlotKind → StaticType
  | .int => .int
  | .float => .float
  | .bool => .bool
  | .string => .string
  | .file => .file

/-- Every name in a store is a known one and its slot has the known type. -/
def SymbolTable.Describes (symbols : SymbolTable) (store : Store) : Prop :=
  ∀ name slot, store.get? name = some slot → symbols.typeOf? name = some slot.kind.type

/-- What may go wrong in a tree that passed under a policy. -/
inductive LogicalPolicy.Permits (policy : LogicalPolicy) : Cause → Prop
  | divisionByZero : Permits policy .divisionByZero
  | uninitializedVariable (name : String) : Permits policy (.uninitializedVariable name)
  | inputParse (tag : TypeTag) (text : String) : Permits policy (.inputParse tag text)
  | endOfInput : Permits policy .endOfInput
  | system (error : SystemError) : Permits policy (.system error)
  | typeMismatch {opcode : Opcode} (lenient : policy = .matchingTypes)
    (logical : opcode = .and ∨ opcode = .or) (expected : Expected) (found : SlotKind) :
    Permits policy (.typeMismatch opcode expected found)

theorem SlotKind.type_ne_error (kind : SlotKind) : kind.type ≠ .error := by
  cases kind <;> nofun

theorem SlotKind.type_inj {kind other : SlotKind} (same : kind.type = other.type) :
    kind = other := by
  cases kind <;> cases other <;> first | rfl | cases same

theorem Value.kind_type (value : Value) : (Slot.value value).kind.type = .ofValue value := by
  cases value <;> rfl

namespace Slot

variable {slot : Slot}

/-- An operand of one type after it was converted for an operand of another. -/
def widened (own other : StaticType) : Slot → Slot
  | .value (.int n) =>
    if own.needsWidening other then .value (.float (nearestFloat n)) else .value (.int n)
  | slot => slot

theorem eq_int (kind : slot.kind.type = .int) : ∃ n, slot = .value (.int n) := by
  rcases slot with ⟨n | x | b | s⟩ | path
  case value.int => exact ⟨n, rfl⟩
  all_goals cases kind

theorem eq_float (kind : slot.kind.type = .float) : ∃ x, slot = .value (.float x) := by
  rcases slot with ⟨n | x | b | s⟩ | path
  case value.float => exact ⟨x, rfl⟩
  all_goals cases kind

theorem eq_bool (kind : slot.kind.type = .bool) : ∃ b, slot = .value (.bool b) := by
  rcases slot with ⟨n | x | b | s⟩ | path
  case value.bool => exact ⟨b, rfl⟩
  all_goals cases kind

theorem eq_string (kind : slot.kind.type = .string) : ∃ s, slot = .value (.string s) := by
  rcases slot with ⟨n | x | b | s⟩ | path
  case value.string => exact ⟨s, rfl⟩
  all_goals cases kind

theorem eq_file (kind : slot.kind.type = .file) : ∃ path, slot = .file path := by
  rcases slot with ⟨n | x | b | s⟩ | path
  case file => exact ⟨path, rfl⟩
  all_goals cases kind

theorem eq_value (plain : slot.kind.type ≠ .file) : ∃ value, slot = .value value := by
  cases slot with
  | value value => exact ⟨value, rfl⟩
  | file path => exact absurd rfl plain

end Slot

namespace SymbolTable.Describes

variable {symbols : SymbolTable} {store : Store}

theorem empty (symbols : SymbolTable) : symbols.Describes .empty := by
  intro name slot found
  cases found

theorem set (describes : symbols.Describes store) {name : String} {slot : Slot}
    (known : symbols.typeOf? name = some slot.kind.type) :
    symbols.Describes (store.set name slot) := by
  intro other held found
  by_cases same : other = name
  · subst same
    rw [Store.get?_set_self] at found
    cases found
    exact known
  · rw [Store.get?_set_of_ne store slot same] at found
    exact describes other held found

end SymbolTable.Describes

/-- A result is as described, or else a permitted failure. -/
def LogicalPolicy.Ensures {α : Type} (policy : LogicalPolicy) (post : α → Prop) :
    Except Cause α → Prop
  | .ok result => post result
  | .error cause => policy.Permits cause

theorem LogicalPolicy.Ensures.bind {α β : Type} {policy : LogicalPolicy} {post : α → Prop}
    {next : β → Prop} {first : Except Cause α} {rest : α → Except Cause β}
    (ensures : policy.Ensures post first)
    (later : ∀ result, post result → policy.Ensures next (rest result)) :
    policy.Ensures next (first >>= rest) := by
  cases first with
  | ok result => exact later result ensures
  | error cause => exact ensures

/-- A result is a value of a type. -/
abbrev IsValue (policy : LogicalPolicy) (type : StaticType) (result : Except Cause Value) : Prop :=
  policy.Ensures (fun value => StaticType.ofValue value = type) result

section Operators

variable {policy : LogicalPolicy} {left right type : StaticType} {lhs rhs : Slot}

/-- Operands of numeric types are two ints or two floats once they are widened. -/
theorem NumberPair.of_promote (lhsKind : lhs.kind.type = left) (rhsKind : rhs.kind.type = right)
    (promotes : StaticType.promote? left right = some type) :
    (type = .int ∧ ∃ a b, lhs.widened left right = .value (.int a) ∧
      rhs.widened right left = .value (.int b) ∧ ofSlots? lhs rhs = some (.ints a b)) ∨
    (type = .float ∧ ∃ x y, lhs.widened left right = .value (.float x) ∧
      rhs.widened right left = .value (.float y) ∧ ofSlots? lhs rhs = some (.floats x y)) := by
  cases left <;> cases right <;> cases promotes
  case int.int =>
    obtain ⟨a, rfl⟩ := Slot.eq_int lhsKind
    obtain ⟨b, rfl⟩ := Slot.eq_int rhsKind
    exact .inl ⟨rfl, a, b, rfl, rfl, rfl⟩
  case int.float =>
    obtain ⟨a, rfl⟩ := Slot.eq_int lhsKind
    obtain ⟨y, rfl⟩ := Slot.eq_float rhsKind
    exact .inr ⟨rfl, nearestFloat a, y, rfl, rfl, rfl⟩
  case float.int =>
    obtain ⟨x, rfl⟩ := Slot.eq_float lhsKind
    obtain ⟨b, rfl⟩ := Slot.eq_int rhsKind
    exact .inr ⟨rfl, x, nearestFloat b, rfl, rfl, rfl⟩
  case float.float =>
    obtain ⟨x, rfl⟩ := Slot.eq_float lhsKind
    obtain ⟨y, rfl⟩ := Slot.eq_float rhsKind
    exact .inr ⟨rfl, x, y, rfl, rfl, rfl⟩

theorem isValue_computeInts (policy : LogicalPolicy) (operator : BinaryOperator) (a b : Int64) :
    IsValue policy .int (operator.computeInts a b) := by
  rw [BinaryOperator.computeInts]
  cases operator.integer? a.toInt b.toInt with
  | some n => rfl
  | none => exact .divisionByZero

theorem isValue_computeFloats (policy : LogicalPolicy) {operator : BinaryOperator}
    (kind : operator.kind = .arithmetic) (divides : operator ≠ .modulus) (x y : Float) :
    IsValue policy .float (operator.computeFloats x y) := by
  cases operator with
  | add | subtract | multiply | divide => rfl
  | modulus => exact absurd rfl divides
  | _ => cases kind

/-- Two slots of one type can be compared unless they are files. -/
theorem BinaryOperator.equals?_isSome (lhsKind : lhs.kind.type = type)
    (rhsKind : rhs.kind.type = type) (plain : type ≠ .file) : (equals? lhs rhs).isSome := by
  cases type with
  | int =>
    obtain ⟨a, rfl⟩ := Slot.eq_int lhsKind
    obtain ⟨b, rfl⟩ := Slot.eq_int rhsKind
    rfl
  | float =>
    obtain ⟨x, rfl⟩ := Slot.eq_float lhsKind
    obtain ⟨y, rfl⟩ := Slot.eq_float rhsKind
    rfl
  | bool =>
    obtain ⟨a, rfl⟩ := Slot.eq_bool lhsKind
    obtain ⟨b, rfl⟩ := Slot.eq_bool rhsKind
    rfl
  | string =>
    obtain ⟨s, rfl⟩ := Slot.eq_string lhsKind
    obtain ⟨t, rfl⟩ := Slot.eq_string rhsKind
    rfl
  | file => exact absurd rfl plain
  | error => exact absurd lhsKind lhs.kind.type_ne_error

/-- Logical operators give a truth value for truth values and refuse what else can occur. -/
theorem isValue_logical {operator : BinaryOperator} (kind : operator.kind = .logical)
    (truths : policy = .requireBool → type = .bool) (lhsKind : lhs.kind.type = type)
    (rhsKind : rhs.kind.type = type) : IsValue policy type (operator.logical lhs rhs) := by
  by_cases bool : type = .bool
  · subst bool
    obtain ⟨a, rfl⟩ := Slot.eq_bool lhsKind
    obtain ⟨b, rfl⟩ := Slot.eq_bool rhsKind
    rfl
  · have lenient : policy = .matchingTypes := by
      cases policy with
      | matchingTypes => rfl
      | requireBool => exact absurd (truths rfl) bool
    have opcode : operator.opcode = .and ∨ operator.opcode = .or := by
      cases operator with
      | and => exact .inl rfl
      | or => exact .inr rfl
      | _ => cases kind
    have refused : ∃ slot : Slot,
        operator.logical lhs rhs = .error (slot.refusal operator.opcode (.kind .bool)) := by
      subst lhsKind
      rcases lhs with ⟨n | x | b | s⟩ | path
      case value.bool => exact absurd rfl bool
      all_goals exact ⟨_, rfl⟩
    obtain ⟨slot, refused⟩ := refused
    rw [refused]
    exact .typeMismatch lenient opcode _ _

/-- An operator with a type computes a value of that type, or fails as permitted. -/
theorem BinaryOperator.isValue_evaluate {operator : BinaryOperator}
    (types : operator.Types policy left right type) (lhsKind : lhs.kind.type = left)
    (rhsKind : rhs.kind.type = right) : IsValue policy type (operator.evaluate lhs rhs) := by
  unfold evaluate
  cases types with
  | arithmetic kind promotes integer =>
    rw [kind]
    rcases NumberPair.of_promote lhsKind rhsKind promotes with
      ⟨rfl, a, b, _, _, pair⟩ | ⟨rfl, x, y, _, _, pair⟩
    · simp only [pair]
      exact isValue_computeInts policy operator a b
    · have divides : operator ≠ .modulus := fun modulus => nomatch integer modulus
      simp only [pair]
      exact isValue_computeFloats policy kind divides x y
  | concat kind =>
    rw [kind]
    obtain ⟨s, rfl⟩ := Slot.eq_string lhsKind
    obtain ⟨t, rfl⟩ := Slot.eq_string rhsKind
    rfl
  | equality kind plain =>
    rw [kind]
    obtain ⟨same, found⟩ := Option.isSome_iff_exists.mp (equals?_isSome lhsKind rhsKind plain)
    simp only [found]
    rfl
  | relational kind lhsNumeric rhsNumeric =>
    rw [kind]
    obtain ⟨joint, promotes⟩ := Option.isSome_iff_exists.mp
      ((StaticType.promote?_isSome_iff left right).mpr ⟨lhsNumeric, rhsNumeric⟩)
    rcases NumberPair.of_promote lhsKind rhsKind promotes with
      ⟨_, a, b, _, _, pair⟩ | ⟨_, x, y, _, _, pair⟩
    · simp only [pair]
      rfl
    · simp only [pair]
      rfl
  | logical kind truths =>
    rw [kind]
    exact isValue_logical kind truths lhsKind rhsKind

theorem UnaryOperator.isValue_evaluate (policy : LogicalPolicy) {operator : UnaryOperator}
    {slot : Slot} {inner : StaticType} (types : operator.Types inner type)
    (kind : slot.kind.type = inner) : IsValue policy type (operator.evaluate slot) := by
  cases types with
  | not =>
    obtain ⟨b, rfl⟩ := Slot.eq_bool kind
    rfl
  | negate numeric =>
    cases type with
    | int =>
      obtain ⟨n, rfl⟩ := Slot.eq_int kind
      rfl
    | float =>
      obtain ⟨x, rfl⟩ := Slot.eq_float kind
      rfl
    | _ => cases numeric

end Operators

section Expressions

variable {record : TypeRecord} {policy : LogicalPolicy} {types : Declarations} {store : Store}

/-- What is stored in a variable has the type of the variable. -/
theorem Slot.storedAs_of_accepts {symbols : SymbolTable} (holds : symbols.Holds types)
    {name : String} {declared type : StaticType} (known : symbols.typeOf? name = some declared)
    {slot : Slot} (kind : slot.kind.type = type) (accepts : declared.accepts type = true) :
    slot.storedAs (types.lookup name) = slot.widened type declared ∧
      (slot.widened type declared).kind.type = declared := by
  rw [holds.typeOf] at known
  obtain ⟨own, found, rfl⟩ := Option.map_eq_some_iff.mp known
  rw [found]
  subst kind
  rcases slot with ⟨n | x | b | s⟩ | path
  case value.int =>
    cases own with
    | int | float => exact ⟨rfl, rfl⟩
    | _ => cases accepts
  all_goals
    cases own <;> first | exact ⟨rfl, rfl⟩ | cases accepts

/-- A slot of a type, and a store in which everything has its type. -/
def IsTyped (symbols : SymbolTable) (type : StaticType) (result : Slot × Store) : Prop :=
  result.1.kind.type = type ∧ symbols.Describes result.2

/-- An annotated expression evaluates to its type and leaves the store in order. -/
theorem Expression.Annotated.ensures_eval (holds : record.symbols.Holds types) {e : Expression}
    {type : StaticType} (annotated : e.Annotated record policy type)
    (describes : record.symbols.Describes store) :
    policy.Ensures (IsTyped record.symbols type) (e.eval types store) := by
  induction annotated generalizing store with
  | literal node value known => exact ⟨value.kind_type, describes⟩
  | @«variable» node name type declared known =>
    rw [eval]
    cases found : store.get? name.name with
    | none => exact .uninitializedVariable name.name
    | some slot =>
      have kind := describes name.name slot found
      rw [declared] at kind
      exact ⟨(Option.some.inj kind).symm, describes⟩
  | grouping node part known ih => exact ih describes
  | binary node lhsPart rhsPart operands known leftIH rightIH =>
    apply (leftIH describes).bind
    rintro ⟨left, middle⟩ ⟨leftKind, describes⟩
    apply (rightIH describes).bind
    rintro ⟨right, later⟩ ⟨rightKind, describes⟩
    apply (BinaryOperator.isValue_evaluate operands leftKind rightKind).bind
    intro value type
    exact ⟨value.kind_type.trans type, describes⟩
  | unary node part operand known ih =>
    apply (ih describes).bind
    rintro ⟨slot, later⟩ ⟨kind, describes⟩
    apply (UnaryOperator.isValue_evaluate policy operand kind).bind
    intro value type
    exact ⟨value.kind_type.trans type, describes⟩
  | assignment node declared part accepts known ih =>
    apply (ih describes).bind
    rintro ⟨slot, later⟩ ⟨kind, describes⟩
    obtain ⟨stored, storedKind⟩ := Slot.storedAs_of_accepts holds declared kind accepts
    rw [← stored] at storedKind
    refine ⟨storedKind, describes.set ?_⟩
    rw [declared, ← storedKind]

end Expressions

end StackLang
