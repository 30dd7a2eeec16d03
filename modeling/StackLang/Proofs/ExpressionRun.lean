import StackLang.Proofs.Course
import StackLang.Proofs.PlainCode
import StackLang.Proofs.Segment
import StackLang.Proofs.TypedEvaluation

/-!
# Expressions on the machine

Plain code does on the machine what evaluation does on the tree: it leaves the
slot on top of the stack it found, with the same store, or it fails for the same
cause. The types of the operands decide which instructions there are, and the
kinds of the slots follow the types, so each instruction meets what it asks for.
-/
namespace StackLang

/-- The operator of the tree that is performed by an instruction. -/
def ArithmeticOperator.symbol : ArithmeticOperator → BinaryOperator
  | .add => .add
  | .sub => .subtract
  | .mul => .multiply
  | .div => .divide

def OrderingOperator.symbol : OrderingOperator → BinaryOperator
  | .less => .less
  | .greater => .greater

theorem ArithmeticOperator.joining_symbol (operator : ArithmeticOperator) (type : StaticType) :
    operator.symbol.joining type = [.arithmetic operator (.ofStatic type)] := by
  cases operator <;> rfl

theorem OrderingOperator.joining_symbol (operator : OrderingOperator) (type : StaticType) :
    operator.symbol.joining type = [.ordering operator (.ofStatic type)] := by
  cases operator <;> rfl

section Arithmetic

variable (a b : Int64) (x y : Float)

theorem toInt_eq_zero_iff : b.toInt = 0 ↔ b = 0 := by
  rw [← Int64.toInt_inj]
  rfl

theorem ofInt_tdiv : Int64.ofInt (a.toInt.tdiv b.toInt) = a / b := by
  rw [← Int64.toInt_inj, Int64.toInt_ofInt, Int64.toInt_div]

theorem ofInt_tmod : Int64.ofInt (a.toInt.tmod b.toInt) = a % b := by
  rw [← Int64.toInt_mod, Int64.ofInt_toInt]

/-- Arithmetic on words is exact arithmetic reduced to words. -/
theorem computeInts_symbol (operator : ArithmeticOperator) :
    operator.symbol.computeInts a b = Value.int <$> operator.onInts a b := by
  cases operator with
  | add =>
    have sum : Int64.ofInt (a.toInt + b.toInt) = a + b := by simp
    exact congrArg (fun n => Except.ok (Value.int n)) sum
  | sub =>
    have difference : Int64.ofInt (a.toInt - b.toInt) = a - b := by simp
    exact congrArg (fun n => Except.ok (Value.int n)) difference
  | mul =>
    have product : Int64.ofInt (a.toInt * b.toInt) = a * b := by simp
    exact congrArg (fun n => Except.ok (Value.int n)) product
  | div =>
    unfold BinaryOperator.computeInts ArithmeticOperator.symbol BinaryOperator.integer?
      ArithmeticOperator.onInts
    by_cases zero : b = 0
    · simp only [toInt_eq_zero_iff, zero, if_true]
      rfl
    · simp only [toInt_eq_zero_iff, zero, if_false, ofInt_tdiv]
      rfl

theorem computeInts_modulus :
    BinaryOperator.modulus.computeInts a b = Value.int <$> remainder a b := by
  unfold BinaryOperator.computeInts BinaryOperator.integer? remainder
  by_cases zero : b = 0
  · simp only [toInt_eq_zero_iff, zero, if_true]
    rfl
  · simp only [toInt_eq_zero_iff, zero, if_false, ofInt_tmod]
    rfl

theorem computeFloats_symbol (operator : ArithmeticOperator) :
    operator.symbol.computeFloats x y = .ok (.float (operator.onFloats x y)) := by
  cases operator <;> rfl

theorem compareInts_symbol (operator : OrderingOperator) :
    operator.symbol.compareInts a b = operator.onInts a b := by
  cases operator with
  | less => exact decide_eq_decide.mpr Int64.lt_iff_toInt_lt.symm
  | greater => exact decide_eq_decide.mpr Int64.lt_iff_toInt_lt.symm

theorem compareFloats_symbol (operator : OrderingOperator) :
    operator.symbol.compareFloats x y = operator.onFloats x y := by
  cases operator <;> rfl

end Arithmetic

theorem BinaryOperator.arithmetic_cases {operator : BinaryOperator}
    (kind : operator.kind = .arithmetic) :
    operator = .modulus ∨ ∃ instruction : ArithmeticOperator, operator = instruction.symbol := by
  cases operator with
  | add => exact .inr ⟨.add, rfl⟩
  | subtract => exact .inr ⟨.sub, rfl⟩
  | multiply => exact .inr ⟨.mul, rfl⟩
  | divide => exact .inr ⟨.div, rfl⟩
  | modulus => exact .inl rfl
  | _ => cases kind

theorem BinaryOperator.relational_cases {operator : BinaryOperator}
    (kind : operator.kind = .relational) :
    ∃ instruction : OrderingOperator, operator = instruction.symbol := by
  cases operator with
  | less => exact ⟨.less, rfl⟩
  | greater => exact ⟨.greater, rfl⟩
  | _ => cases kind

theorem Slot.widened_self (type : StaticType) (slot : Slot) : slot.widened type type = slot := by
  rcases slot with ⟨n | x | b | s⟩ | path
  case value.int => cases type <;> rfl
  all_goals rfl

section Run

variable {World : Type} [Host World] {machine : Machine} {symbols : SymbolTable}
variable {policy : LogicalPolicy} {start stop : Nat} {stack : Stack} {store : Store} {slot : Slot}

/-- Code that widens leaves the operand as the other one needs it. -/
theorem travels_widening (world : World) {own other : StaticType}
    (segment : machine.program.Segment start (widening own other) stop)
    (kind : slot.kind.type = own) (describes : symbols.Describes store) :
    ∃ n, machine.Travels symbols.Describes n ⟨start, slot :: stack, store⟩ world
      ⟨stop, slot.widened own other :: stack, store⟩ world := by
  by_cases mixed : own = .int ∧ other = .float
  · obtain ⟨rfl, rfl⟩ := mixed
    obtain ⟨n, rfl⟩ := Slot.eq_int kind
    obtain ⟨found, rfl⟩ := Program.segment_singleton.mp segment
    exact ⟨1, Machine.travels_of_proceed world found rfl describes describes⟩
  · have nothing : widening own other = [] ∧ slot.widened own other = slot := by
      subst kind
      rcases slot with ⟨n | x | b | s⟩ | path
      case value.int =>
        cases other with
        | float => exact absurd ⟨rfl, rfl⟩ mixed
        | _ => exact ⟨rfl, rfl⟩
      all_goals cases other <;> exact ⟨rfl, rfl⟩
    rw [nothing.1] at segment
    rw [nothing.2]
    cases segment
    exact ⟨0, .stay describes⟩

/-- A row of instructions that computes a value from two operands, the right one on top. -/
def Machine.Joins (machine : Machine) (symbols : SymbolTable) (policy : LogicalPolicy)
    (start stop : Nat) (lhs rhs : Slot) (result : Except Cause Value) : Prop :=
  ∀ (World : Type) [Host World] (world : World) (bound : Nat) (stack : Stack) (store : Store),
    symbols.Describes store →
    machine.Reproduces symbols.Describes policy.Permits bound ⟨start, rhs :: lhs :: stack, store⟩
      world (fun value => ⟨stop, .value value :: stack, store⟩) (.ofResult world result)

theorem Frame.combine_of_pops {α : Type} {frame : Frame} {pop : Stack → Except Cause (α × Stack)}
    {compute : α → α → Except Cause Value} {below rest : Stack} {l r : α}
    (right : pop frame.stack = .ok (r, below)) (left : pop below = .ok (l, rest)) :
    frame.combine pop compute = (fun value => frame.leave rest value) <$> compute l r := by
  rw [combine]
  rw [right]
  simp only [bind, Except.bind]
  rw [left]
  dsimp only
  cases compute l r <;> rfl

variable {lhs rhs : Slot} {i : Instruction}

/-- An instruction that combines two operands joins slots that hold them. -/
theorem joins_of_combine {α : Type} {pop : Stack → Except Cause (α × Stack)}
    {compute : α → α → Except Cause Value} {l r : α}
    (found : machine.program.instructions[start]? = some i)
    (acts : ∀ frame, i.act machine.labels frame = atOnce (frame.combine pop compute))
    (right : ∀ below, pop (rhs :: below) = .ok (r, below))
    (left : ∀ below, pop (lhs :: below) = .ok (l, below))
    (permits : ∀ cause, compute l r = .error cause → policy.Permits cause) :
    machine.Joins symbols policy start (start + 1) lhs rhs (compute l r) := by
  intro World _ world bound stack store describes
  refine Machine.reproduces_of_atOnce bound world found ?_ describes (fun _ _ => describes) permits
  rw [acts, Frame.combine_of_pops (right _) (left _)]
  rfl

/-- The same for a combination that cannot fail. -/
theorem joins_of_value {α : Type} (pop : Stack → Except Cause (α × Stack)) (value : α → α → Value)
    {l r : α} (found : machine.program.instructions[start]? = some i)
    (acts : ∀ frame, i.act machine.labels frame =
      atOnce (frame.combine pop fun lhs rhs => .ok (value lhs rhs)))
    (right : ∀ below, pop (rhs :: below) = .ok (r, below))
    (left : ∀ below, pop (lhs :: below) = .ok (l, below)) :
    machine.Joins symbols policy start (start + 1) lhs rhs (.ok (value l r)) :=
  joins_of_combine found acts right left nofun

section Operators

variable {a b : Int64} {x y : Float}

theorem joins_ints {operator : ArithmeticOperator}
    (found : machine.program.instructions[start]? = some (.arithmetic operator .int)) :
    machine.Joins symbols policy start (start + 1) (.value (.int a)) (.value (.int b))
      (operator.symbol.computeInts a b) := by
  have permits := isValue_computeInts policy operator.symbol a b
  rw [computeInts_symbol] at permits ⊢
  have acts : ∀ frame, (Instruction.arithmetic operator .int).act machine.labels frame =
      atOnce (frame.combine (Stack.popInt (Instruction.arithmetic operator .int).opcode)
        fun lhs rhs => .int <$> operator.onInts lhs rhs) := fun _ => rfl
  apply joins_of_combine found acts (fun _ => rfl) (fun _ => rfl)
  intro cause failed
  rw [failed] at permits
  exact permits

theorem joins_modulus (found : machine.program.instructions[start]? = some .modulo) :
    machine.Joins symbols policy start (start + 1) (.value (.int a)) (.value (.int b))
      (BinaryOperator.modulus.computeInts a b) := by
  have permits := isValue_computeInts policy .modulus a b
  rw [computeInts_modulus] at permits ⊢
  have acts : ∀ frame, Instruction.modulo.act machine.labels frame =
      atOnce (frame.combine (Stack.popInt .mod) fun lhs rhs => .int <$> remainder lhs rhs) :=
    fun _ => rfl
  apply joins_of_combine found acts (fun _ => rfl) (fun _ => rfl)
  intro cause failed
  rw [failed] at permits
  exact permits

theorem joins_floats {operator : ArithmeticOperator}
    (found : machine.program.instructions[start]? = some (.arithmetic operator .float)) :
    machine.Joins symbols policy start (start + 1) (.value (.float x)) (.value (.float y))
      (operator.symbol.computeFloats x y) := by
  rw [computeFloats_symbol]
  exact joins_of_value (Stack.popFloat _) (fun x y => .float (operator.onFloats x y)) found
    (fun _ => rfl) (fun _ => rfl) (fun _ => rfl)

theorem joins_orderedInts {operator : OrderingOperator}
    (found : machine.program.instructions[start]? = some (.ordering operator .int)) :
    machine.Joins symbols policy start (start + 1) (.value (.int a)) (.value (.int b))
      (.ok (.bool (operator.symbol.compareInts a b))) := by
  rw [compareInts_symbol]
  exact joins_of_value (Stack.popInt _) (fun a b => .bool (operator.onInts a b)) found
    (fun _ => rfl) (fun _ => rfl) (fun _ => rfl)

theorem joins_orderedFloats {operator : OrderingOperator}
    (found : machine.program.instructions[start]? = some (.ordering operator .float)) :
    machine.Joins symbols policy start (start + 1) (.value (.float x)) (.value (.float y))
      (.ok (.bool (operator.symbol.compareFloats x y))) := by
  rw [compareFloats_symbol]
  exact joins_of_value (Stack.popFloat _) (fun x y => .bool (operator.onFloats x y)) found
    (fun _ => rfl) (fun _ => rfl) (fun _ => rfl)

theorem joins_concat {s t : String}
    (found : machine.program.instructions[start]? = some .concat) :
    machine.Joins symbols policy start (start + 1) (.value (.string s)) (.value (.string t))
      (.ok (.string (s ++ t))) := by
  have joined : machine.Joins symbols policy start (start + 1) (.value (.string s))
      (.value (.string t)) (.ok (.string ((Value.string s).text ++ (Value.string t).text))) :=
    joins_of_value (Stack.popValue .concat) (fun s t => .string (s.text ++ t.text)) found
      (fun _ => rfl) (fun _ => rfl) (fun _ => rfl)
  exact joined

/-- Equality by a tag compares two slots of the type that has the tag. -/
theorem joins_equal {type : StaticType} {tag : TypeTag} (tagged : type.tag? = some tag)
    (lhsKind : lhs.kind.type = type) (rhsKind : rhs.kind.type = type)
    (found : machine.program.instructions[start]? = some (.equal tag)) :
    ∃ same, BinaryOperator.equals? lhs rhs = some same ∧
      machine.Joins symbols policy start (start + 1) lhs rhs (.ok (.bool same)) := by
  cases type with
  | int =>
    cases tagged
    obtain ⟨a, rfl⟩ := Slot.eq_int lhsKind
    obtain ⟨b, rfl⟩ := Slot.eq_int rhsKind
    exact ⟨a == b, rfl,
      joins_of_value (Stack.popInt .eq) (fun a b => .bool (a == b)) found
        (fun _ => rfl) (fun _ => rfl) (fun _ => rfl)⟩
  | float =>
    cases tagged
    obtain ⟨x, rfl⟩ := Slot.eq_float lhsKind
    obtain ⟨y, rfl⟩ := Slot.eq_float rhsKind
    exact ⟨x == y, rfl,
      joins_of_value (Stack.popFloat .eq) (fun x y => .bool (x == y)) found
        (fun _ => rfl) (fun _ => rfl) (fun _ => rfl)⟩
  | bool =>
    cases tagged
    obtain ⟨a, rfl⟩ := Slot.eq_bool lhsKind
    obtain ⟨b, rfl⟩ := Slot.eq_bool rhsKind
    exact ⟨a == b, rfl,
      joins_of_value (Stack.popBool .eq) (fun a b => .bool (a == b)) found
        (fun _ => rfl) (fun _ => rfl) (fun _ => rfl)⟩
  | string =>
    cases tagged
    obtain ⟨s, rfl⟩ := Slot.eq_string lhsKind
    obtain ⟨t, rfl⟩ := Slot.eq_string rhsKind
    exact ⟨s == t, rfl,
      joins_of_value (Stack.popString .eq) (fun s t => .bool (s == t)) found
        (fun _ => rfl) (fun _ => rfl) (fun _ => rfl)⟩
  | file | error => cases tagged

/-- A truth value that is computed is negated behind. -/
theorem joins_not {middle : Nat} {truth : Bool}
    (joins : machine.Joins symbols policy start middle lhs rhs (.ok (.bool truth)))
    (found : machine.program.instructions[middle]? = some .not) :
    machine.Joins symbols policy start (middle + 1) lhs rhs (.ok (.bool !truth)) := by
  intro World _ world bound stack store describes
  cases joins World world bound stack store describes with
  | done travels =>
    exact .done (travels.trans (Machine.travels_of_proceed world found rfl describes describes))

theorem joins_truths {operator : BinaryOperator} {a b : Bool} (kind : operator.kind = .logical)
    (segment : machine.program.Segment start (operator.joining .bool) stop) :
    machine.Joins symbols policy start stop (.value (.bool a)) (.value (.bool b))
      (operator.evaluate (.value (.bool a)) (.value (.bool b))) := by
  cases operator with
  | and =>
    obtain ⟨found, rfl⟩ := Program.segment_singleton.mp segment
    have joined : machine.Joins symbols policy start (start + 1) (.value (.bool a))
        (.value (.bool b)) (.ok (.bool (a && b))) :=
      joins_of_value (Stack.popBool .and) (fun a b => .bool (a && b)) found
        (fun _ => rfl) (fun _ => rfl) (fun _ => rfl)
    exact joined
  | or =>
    obtain ⟨found, rfl⟩ := Program.segment_singleton.mp segment
    have joined : machine.Joins symbols policy start (start + 1) (.value (.bool a))
        (.value (.bool b)) (.ok (.bool (a || b))) :=
      joins_of_value (Stack.popBool .or) (fun a b => .bool (a || b)) found
        (fun _ => rfl) (fun _ => rfl) (fun _ => rfl)
    exact joined
  | _ => cases kind

/-- Operands of one type that are no truth values are refused as they are on the tree. -/
theorem joins_refused {operator : BinaryOperator} {type : StaticType}
    (kind : operator.kind = .logical) (lenient : policy = .matchingTypes)
    (lhsKind : lhs.kind.type = type) (rhsKind : rhs.kind.type = type) (other : type ≠ .bool)
    (segment : machine.program.Segment start (operator.joining type) stop) :
    machine.Joins symbols policy start stop lhs rhs (operator.evaluate lhs rhs) := by
  have evaluated : operator.evaluate lhs rhs =
      .error (.typeMismatch operator.opcode (.kind .bool) lhs.kind) := by
    unfold BinaryOperator.evaluate
    rw [kind]
    subst lhsKind
    rcases lhs with ⟨n | x | b | s⟩ | path
    case value.bool => exact absurd rfl other
    all_goals rfl
  have sameKind : lhs.kind = rhs.kind := SlotKind.type_inj (lhsKind.trans rhsKind.symm)
  have popped : ∀ opcode stack, Stack.popBool opcode (rhs :: stack) =
      .error (.typeMismatch opcode (.kind .bool) rhs.kind) := by
    intro opcode stack
    subst rhsKind
    rcases rhs with ⟨n | x | b | s⟩ | path
    case value.bool => exact absurd rfl other
    all_goals rfl
  rw [evaluated, sameKind]
  cases operator with
  | and | or =>
    obtain ⟨found, rfl⟩ := Program.segment_singleton.mp segment
    intro World _ world bound stack store describes
    refine Machine.reproduces_of_atOnce bound world found ?_ describes (fun _ _ => describes) ?_
    · simp only [Instruction.act, Frame.combine, popped]
      rfl
    · intro cause failed
      cases failed
      exact .typeMismatch lenient (by simp [BinaryOperator.opcode]) _ _
  | _ => cases kind

end Operators

section Kinds

variable {operator : BinaryOperator} {left right type : StaticType}

theorem joins_arithmetic (kind : operator.kind = .arithmetic)
    (promotes : StaticType.promote? left right = some type)
    (integer : operator = .modulus → type = .int) (lhsKind : lhs.kind.type = left)
    (rhsKind : rhs.kind.type = right)
    (segment : machine.program.Segment start (operator.joining type) stop) :
    machine.Joins symbols policy start stop (lhs.widened left right) (rhs.widened right left)
      (operator.evaluate lhs rhs) := by
  unfold BinaryOperator.evaluate
  rw [kind]
  -- Either both operands are ints, or both are floats once one of them is widened.
  rcases NumberPair.of_promote lhsKind rhsKind promotes with
    ⟨rfl, a, b, lhsInt, rhsInt, pair⟩ | ⟨rfl, x, y, lhsFloat, rhsFloat, pair⟩
  · simp only [pair, lhsInt, rhsInt]
    rcases BinaryOperator.arithmetic_cases kind with rfl | ⟨instruction, rfl⟩
    · obtain ⟨found, rfl⟩ := Program.segment_singleton.mp segment
      exact joins_modulus found
    · rw [instruction.joining_symbol] at segment
      obtain ⟨found, rfl⟩ := Program.segment_singleton.mp segment
      exact joins_ints found
  · simp only [pair, lhsFloat, rhsFloat]
    rcases BinaryOperator.arithmetic_cases kind with rfl | ⟨instruction, rfl⟩
    · cases integer rfl
    · rw [instruction.joining_symbol] at segment
      obtain ⟨found, rfl⟩ := Program.segment_singleton.mp segment
      exact joins_floats found

theorem joins_relational (kind : operator.kind = .relational)
    (promotes : StaticType.promote? left right = some type) (lhsKind : lhs.kind.type = left)
    (rhsKind : rhs.kind.type = right)
    (segment : machine.program.Segment start (operator.joining type) stop) :
    machine.Joins symbols policy start stop (lhs.widened left right) (rhs.widened right left)
      (operator.evaluate lhs rhs) := by
  obtain ⟨instruction, rfl⟩ := BinaryOperator.relational_cases kind
  rw [instruction.joining_symbol] at segment
  obtain ⟨found, rfl⟩ := Program.segment_singleton.mp segment
  unfold BinaryOperator.evaluate
  rw [kind]
  rcases NumberPair.of_promote lhsKind rhsKind promotes with
    ⟨rfl, a, b, lhsInt, rhsInt, pair⟩ | ⟨rfl, x, y, lhsFloat, rhsFloat, pair⟩
  · simp only [pair, lhsInt, rhsInt]
    exact joins_orderedInts found
  · simp only [pair, lhsFloat, rhsFloat]
    exact joins_orderedFloats found

theorem joins_equality (kind : operator.kind = .equality) (plain : type ≠ .file)
    (lhsKind : lhs.kind.type = type) (rhsKind : rhs.kind.type = type)
    (segment : machine.program.Segment start (operator.joining type) stop) :
    machine.Joins symbols policy start stop lhs rhs (operator.evaluate lhs rhs) := by
  obtain ⟨tag, tagged⟩ : ∃ tag, type.tag? = some tag := by
    cases type with
    | file => exact absurd rfl plain
    | error => exact absurd lhsKind lhs.kind.type_ne_error
    | _ => exact ⟨_, rfl⟩
  unfold BinaryOperator.joining at segment
  unfold BinaryOperator.evaluate
  rw [kind]
  cases operator with
  | equal =>
    simp only [tagged] at segment
    obtain ⟨found, rfl⟩ := Program.segment_singleton.mp segment
    obtain ⟨same, compared, joins⟩ := joins_equal tagged lhsKind rhsKind found
    simp only [compared]
    exact joins
  | notEqual =>
    simp only [tagged] at segment
    obtain ⟨found, negated, rfl⟩ := segment
    obtain ⟨same, compared, joins⟩ := joins_equal tagged lhsKind rhsKind found
    simp only [compared]
    exact joins_not joins negated
  | _ => cases kind

theorem joins_logical (kind : operator.kind = .logical)
    (truths : policy = .requireBool → type = .bool) (lhsKind : lhs.kind.type = type)
    (rhsKind : rhs.kind.type = type)
    (segment : machine.program.Segment start (operator.joining type) stop) :
    machine.Joins symbols policy start stop lhs rhs (operator.evaluate lhs rhs) := by
  by_cases bool : type = .bool
  · subst bool
    obtain ⟨a, rfl⟩ := Slot.eq_bool lhsKind
    obtain ⟨b, rfl⟩ := Slot.eq_bool rhsKind
    exact joins_truths kind segment
  · have lenient : policy = .matchingTypes := by
      cases policy with
      | matchingTypes => rfl
      | requireBool => exact absurd (truths rfl) bool
    exact joins_refused kind lenient lhsKind rhsKind bool segment

theorem StaticType.join_of_promote (promotes : promote? left right = some type) :
    left.join right = type := by
  rw [join, promotes]
  rfl

/-- The plain code of an operator joins its operands as the operator is evaluated. -/
theorem joins_joining (operands : operator.Types policy left right type)
    (lhsKind : lhs.kind.type = left) (rhsKind : rhs.kind.type = right)
    (segment : machine.program.Segment start (operator.joining (left.join right)) stop) :
    machine.Joins symbols policy start stop (lhs.widened left right) (rhs.widened right left)
      (operator.evaluate lhs rhs) := by
  cases operands with
  | arithmetic kind promotes integer =>
    rw [StaticType.join_of_promote promotes] at segment
    exact joins_arithmetic kind promotes integer lhsKind rhsKind segment
  | concat kind =>
    obtain ⟨s, rfl⟩ := Slot.eq_string lhsKind
    obtain ⟨t, rfl⟩ := Slot.eq_string rhsKind
    cases operator with
    | concat =>
      obtain ⟨found, rfl⟩ := Program.segment_singleton.mp segment
      exact joins_concat found
    | _ => cases kind
  | equality kind plain =>
    rw [StaticType.join_self] at segment
    rw [Slot.widened_self, Slot.widened_self]
    exact joins_equality kind plain lhsKind rhsKind segment
  | relational kind lhsNumeric rhsNumeric =>
    have numeric := (StaticType.promote?_isSome_iff left right).mpr ⟨lhsNumeric, rhsNumeric⟩
    obtain ⟨joint, promotes⟩ := Option.isSome_iff_exists.mp numeric
    rw [StaticType.join_of_promote promotes] at segment
    exact joins_relational kind promotes lhsKind rhsKind segment
  | logical kind truths =>
    rw [StaticType.join_self] at segment
    rw [Slot.widened_self, Slot.widened_self]
    exact joins_logical kind truths lhsKind rhsKind segment

end Kinds

theorem reproduces_unary {operator : UnaryOperator} {inner type : StaticType} (bound : Nat)
    (world : World) (operand : operator.Types inner type) (kind : slot.kind.type = inner)
    (segment : machine.program.Segment start (operator.code inner) stop)
    (describes : symbols.Describes store) :
    machine.Reproduces symbols.Describes policy.Permits bound ⟨start, slot :: stack, store⟩ world
      (fun value => ⟨stop, .value value :: stack, store⟩)
      (.ofResult world (operator.evaluate slot)) := by
  cases operand with
  | not =>
    obtain ⟨found, rfl⟩ := Program.segment_singleton.mp segment
    obtain ⟨truth, rfl⟩ := Slot.eq_bool kind
    exact .done (Machine.travels_of_proceed world found rfl describes describes)
  | negate numeric =>
    obtain ⟨found, rfl⟩ := Program.segment_singleton.mp segment
    cases inner with
    | int =>
      obtain ⟨n, rfl⟩ := Slot.eq_int kind
      have negated : UnaryOperator.negate.evaluate (.value (.int n)) = .ok (.int (-n)) := by
        have opposite : Int64.ofInt (-n.toInt) = -n := by simp
        exact congrArg (fun n => Except.ok (Value.int n)) opposite
      rw [negated]
      exact .done (Machine.travels_of_proceed world found rfl describes describes)
    | float =>
      obtain ⟨x, rfl⟩ := Slot.eq_float kind
      exact .done (Machine.travels_of_proceed world found rfl describes describes)
    | _ => cases numeric

variable {record : TypeRecord} {types : Declarations}

theorem act_load_of_bound {labels : LabelTable} {frame : Frame} {name : String}
    (bound : frame.store.get? name = some slot) :
    (Instruction.load name).act labels frame =
      .ok (.proceed (frame.advance (slot :: frame.stack))) := by
  simp only [Instruction.act, bound]
  rfl

theorem act_load_of_unbound {labels : LabelTable} {frame : Frame} {name : String}
    (unbound : frame.store.get? name = none) :
    (Instruction.load name).act labels frame = atOnce (.error (.uninitializedVariable name)) := by
  simp only [Instruction.act, unbound]
  rfl

theorem Expression.Annotated.kind_of_eval (holds : record.symbols.Holds types) {e : Expression}
    {type : StaticType} (annotated : e.Annotated record policy type)
    (describes : record.symbols.Describes store) {result : Slot × Store}
    (evaluated : e.eval types store = .ok result) : result.1.kind.type = type := by
  have typed := annotated.ensures_eval holds describes
  rw [evaluated] at typed
  exact typed.1

/-- The code of an annotated expression leaves on the stack what the expression evaluates to. -/
theorem Expression.Annotated.reproduces (holds : record.symbols.Holds types) {e : Expression}
    {type : StaticType} (annotated : e.Annotated record policy type)
    (segment : machine.program.Segment start (e.code record) stop) (stack : Stack)
    (describes : record.symbols.Describes store) (bound : Nat) (world : World) :
    machine.Reproduces record.symbols.Describes policy.Permits bound ⟨start, stack, store⟩ world
      (fun result => ⟨stop, result.1 :: stack, result.2⟩)
      (.ofResult world (e.eval types store)) := by
  induction annotated generalizing start stop stack store with
  | literal node value known =>
    obtain ⟨found, rfl⟩ := Program.segment_singleton.mp segment
    exact .done (Machine.travels_of_proceed world found rfl describes describes)
  | @«variable» node name type declared known =>
    obtain ⟨found, rfl⟩ := Program.segment_singleton.mp segment
    rw [eval]
    cases held : store.get? name.name with
    | some slot =>
      exact .done (Machine.travels_of_proceed world found (act_load_of_bound held) describes
        describes)
    | none =>
      exact .failed (.stay describes)
        (Machine.step_of_atOnce world found (act_load_of_unbound held)) (.uninitializedVariable _)
  | grouping node part known ih => exact ih segment stack describes
  | @binary node operator lhs rhs left right type lhsPart rhsPart operands known leftIH rightIH =>
    rw [code] at segment
    rw [lhsPart.known, rhsPart.known] at segment
    simp only [Program.segment_append] at segment
    obtain ⟨p₄, ⟨p₂, ⟨p₁, lhsSegment, lhsWidening⟩, p₃, rhsSegment, rhsWidening⟩, joining⟩ :=
      segment
    rw [eval]
    -- The left operand is widened before the right one is computed, on top of it.
    refine ((leftIH lhsSegment stack describes).thenTravels fun result evaluated keeps =>
      travels_widening world lhsWidening (lhsPart.kind_of_eval holds describes evaluated)
        keeps).bind ?_
    rintro ⟨lhsSlot, middle⟩ lhsEvaluated middleDescribes
    refine ((rightIH rhsSegment _ middleDescribes).thenTravels fun result evaluated keeps =>
      travels_widening world rhsWidening (rhsPart.kind_of_eval holds middleDescribes evaluated)
        keeps).bind ?_
    rintro ⟨rhsSlot, later⟩ rhsEvaluated laterDescribes
    have lhsKind := lhsPart.kind_of_eval holds describes lhsEvaluated
    have rhsKind := rhsPart.kind_of_eval holds middleDescribes rhsEvaluated
    have joins : machine.Joins record.symbols policy p₄ stop (lhsSlot.widened left right)
        (rhsSlot.widened right left) (operator.evaluate lhsSlot rhsSlot) :=
      joins_joining operands lhsKind rhsKind joining
    exact (joins World world bound stack later laterDescribes).bind
      fun value _ keeps => .done (.stay keeps)
  | @unary node operator operand inner type part operands known ih =>
    rw [code] at segment
    rw [part.known] at segment
    obtain ⟨middle, segment, operation⟩ := Program.segment_append.mp segment
    rw [eval]
    apply (ih segment stack describes).bind
    rintro ⟨slot, later⟩ evaluated keeps
    have kind := part.kind_of_eval holds describes evaluated
    exact (reproduces_unary bound world operands kind operation keeps).bind
      fun value _ keeps => .done (.stay keeps)
  | @assignment node target value declaredType type declared part accepts known ih =>
    rw [code] at segment
    rw [part.known, known] at segment
    simp only [Program.segment_append] at segment
    obtain ⟨p₂, ⟨p₁, segment, widens⟩, saves, loads, rfl⟩ := segment
    rw [eval]
    refine ((ih segment stack describes).thenTravels fun result evaluated keeps =>
      travels_widening world widens (part.kind_of_eval holds describes evaluated) keeps).bind ?_
    rintro ⟨slot, later⟩ evaluated keeps
    have kind : slot.kind.type = type := part.kind_of_eval holds describes evaluated
    obtain ⟨stored, storedKind⟩ := Slot.storedAs_of_accepts holds declared kind accepts
    have after : record.symbols.Describes
        (later.set target.name (slot.widened type declaredType)) :=
      keeps.set (by rw [declared, storedKind])
    have saved := Machine.travels_of_proceed world saves rfl keeps after
    have bound := Store.get?_set_self later target.name (slot.widened type declaredType)
    have loaded := Machine.travels_of_proceed world loads (act_load_of_bound bound) saved.good_last
      saved.good_last
    dsimp only
    rw [stored]
    exact .done (saved.trans loaded)

end Run

end StackLang
