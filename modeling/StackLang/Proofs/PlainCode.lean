import StackLang.Proofs.Annotation
import StackLang.Proofs.LoweredCode

/-!
# The plain code of an expression

The code of an expression told by recursion over its form: operands first, each
widened if the other one has the wider type, then the operator. The generator
takes another way, which keeps back the load behind an assignment and asks the
record for every type it meets. For an annotated expression it arrives at the
plain code, and so every annotated statement has code.
-/
namespace StackLang

/-- The instructions that join two operands of one type. -/
def BinaryOperator.joining (operator : BinaryOperator) (type : StaticType) : List Instruction :=
  let tag := NumericTag.ofStatic type
  match operator with
  | .add => [.arithmetic .add tag]
  | .subtract => [.arithmetic .sub tag]
  | .multiply => [.arithmetic .mul tag]
  | .divide => [.arithmetic .div tag]
  | .modulus => [.modulo]
  | .less => [.ordering .less tag]
  | .greater => [.ordering .greater tag]
  | .equal => (type.tag?.map Instruction.equal).toList
  | .notEqual => (type.tag?.map Instruction.equal).toList ++ [Instruction.not]
  | .concat => [.concat]
  | .and => [.and]
  | .or => [.or]

/-- The type that two operands are brought to. -/
def StaticType.join (left right : StaticType) : StaticType :=
  (promote? left right).getD left

theorem StaticType.join_self (type : StaticType) : type.join type = type := by
  cases type <;> rfl

namespace Expression

/-- The code that computes an expression by its form and the recorded types. -/
def code (record : TypeRecord) : Expression → List Instruction
  | .literal _ value => [.push value]
  | .variable _ name => [.load name.name]
  | .grouping _ inner => inner.code record
  | .binary _ operator lhs rhs =>
    let left := record.typeOf lhs.id
    let right := record.typeOf rhs.id
    lhs.code record ++ widening left right ++ (rhs.code record ++ widening right left) ++
      operator.joining (left.join right)
  | .unary _ operator operand => operand.code record ++ operator.code (record.typeOf operand.id)
  | .assignment node target value =>
    value.code record ++ widening (record.typeOf value.id) (record.typeOf node.id) ++
      [.save target.name, .load target.name]

end Expression

/-- Operators are joined by plain code where equality has a tag to compare by. -/
theorem BinaryOperator.code_eq_joining {operator : BinaryOperator} {type : StaticType}
    (tagged : operator.kind = .equality → type.tag?.isSome) (place : Position) :
    operator.code type place = .ok (operator.joining type) := by
  cases operator with
  | equal | notEqual =>
    obtain ⟨tag, known⟩ := Option.isSome_iff_exists.mp (tagged rfl)
    simp only [BinaryOperator.code, encodedTag, joining, known]
    rfl
  | _ => rfl

theorem widening_self (type : StaticType) : widening type type = [] := by
  cases type <;> rfl

namespace BinaryOperator.Types

variable {policy : LogicalPolicy} {operator : BinaryOperator} {left right type : StaticType}

theorem tagged (types : operator.Types policy left right type) (proper : left ≠ .error)
    (kind : operator.kind = .equality) : (left.join right).tag?.isSome := by
  cases types with
  | arithmetic other | concat other | relational other | logical other =>
    rw [kind] at other
    cases other
  | equality _ plain =>
    cases left with
    | file => exact absurd rfl plain
    | error => exact absurd rfl proper
    | _ => rfl

/-- Operators without conversions take two operands of one type. -/
theorem same (types : operator.Types policy left right type)
    (unmixed : operator.kind = .concat ∨ operator.kind = .logical) : left = right := by
  cases types with
  | concat | equality | logical => rfl
  | arithmetic kind | relational kind =>
    rw [kind] at unmixed
    rcases unmixed with impossible | impossible <;> cases impossible

end BinaryOperator.Types

section Annotated

variable {record : TypeRecord} {policy : LogicalPolicy} {types : Declarations}

theorem forM_resolved {nodes : List Node}
    (each : ∀ node ∈ nodes, ∃ type, record.resolvedType node = .ok type) :
    (nodes.forM fun node => discard (record.resolvedType node)) = .ok ⟨⟩ := by
  induction nodes with
  | nil => rfl
  | cons node rest ih =>
    obtain ⟨⟨type, resolved⟩, others⟩ := List.forall_mem_cons.mp each
    refine bind_eq_ok.mpr ⟨⟨⟩, ?_, ih others⟩
    dsimp only
    rw [resolved]
    rfl

namespace Expression.Annotated

variable {e : Expression} {type : StaticType}

theorem known (annotated : e.Annotated record policy type) : record.typeOf e.id = type := by
  cases annotated <;> assumption

theorem proper (holds : record.symbols.Holds types) (annotated : e.Annotated record policy type) :
    type ≠ .error := by
  induction annotated with
  | literal _ value => cases value <;> nofun
  | «variable» _ _ declared => exact SymbolTable.ne_error_of_holds holds declared
  | grouping _ _ _ ih => exact ih
  | binary _ _ _ types _ leftIH _ => exact types.proper leftIH
  | unary _ _ types _ ih => exact types.proper ih
  | assignment _ declared => exact SymbolTable.ne_error_of_holds holds declared

theorem resolved (holds : record.symbols.Holds types)
    (annotated : e.Annotated record policy type) : record.resolvedType e.node = .ok type := by
  have proper := annotated.proper holds
  have known : record.typeOf e.node.id = type := annotated.known
  rw [TypeRecord.resolvedType]
  rw [known]
  cases type with
  | error => exact absurd rfl proper
  | _ => rfl

theorem resolved_layers (holds : record.symbols.Holds types)
    (annotated : e.Annotated record policy type) :
    ∀ node ∈ e.layers, ∃ type, record.resolvedType node = .ok type := by
  induction e generalizing type with
  | grouping node inner ih =>
    intro layer member
    rcases List.mem_append.mp member with deeper | own
    · cases annotated with
      | grouping _ part _ => exact ih part layer deeper
    · cases List.mem_singleton.mp own
      exact ⟨type, annotated.resolved holds⟩
  | _ =>
    intro layer member
    cases List.mem_singleton.mp member
    exact ⟨type, annotated.resolved holds⟩

theorem settle (holds : record.symbols.Holds types) (annotated : e.Annotated record policy type)
    (emission : Emission) : e.settle record emission = .ok (emission.loaded, type) := by
  refine bind_eq_ok.mpr ⟨⟨⟩, forM_resolved (annotated.resolved_layers holds), ?_⟩
  exact bind_eq_ok.mpr ⟨type, annotated.resolved holds, rfl⟩

end Expression.Annotated

/-- An assignment widens what it saves if the types ask for it. -/
theorem Emission.save_of_accepts {emission : Emission} {target : String} {declared : StaticType}
    (accepts : declared.accepts emission.type = true) :
    (emission.save target declared).loaded =
      emission.loaded ++ widening emission.type declared ++
        [Instruction.save target, .load target] ∧
    (emission.save target declared).type = declared := by
  rw [StaticType.accepts] at accepts
  rcases (Bool.or_eq_true _ _).mp accepts with same | mixed
  · cases of_decide_eq_true same
    have kept : emission.save target emission.type =
        ⟨emission.loaded ++ [Instruction.save target], emission.type, some target⟩ := by
      rw [save]
      cases emission.type <;> rfl
    rw [kept, widening_self]
    exact ⟨by simp [loaded], rfl⟩
  · obtain ⟨float, int⟩ := (Bool.and_eq_true _ _).mp mixed
    cases of_decide_eq_true float
    have int := of_decide_eq_true int
    have widened : emission.save target .float =
        ⟨emission.loaded ++ [Instruction.widen, .save target], .float, some target⟩ := by
      simp [save, int]
    rw [widened]
    exact ⟨by simp [loaded, int, widening, StaticType.needsWidening], rfl⟩

theorem Expression.Annotated.emit (holds : record.symbols.Holds types) {e : Expression}
    {type : StaticType} (annotated : e.Annotated record policy type) :
    ∃ emission, e.emit record = .ok emission ∧ emission.loaded = e.code record ∧
      emission.type = type := by
  have resolved := annotated.resolved holds
  induction annotated with
  | literal node value known =>
    refine ⟨⟨[.push value], .ofValue value, none⟩, ?_, rfl, rfl⟩
    exact bind_eq_ok.mpr ⟨_, resolved, rfl⟩
  | @«variable» node name type declared known =>
    refine ⟨⟨[.load name.name], type, none⟩, ?_, rfl, rfl⟩
    exact bind_eq_ok.mpr ⟨_, resolved, rfl⟩
  | grouping node part known ih => exact ih (part.resolved holds)
  | @binary node operator lhs rhs left right type lhsPart rhsPart operands known leftIH rightIH =>
    obtain ⟨first, firstEmitted, firstLoaded, _⟩ := leftIH (lhsPart.resolved holds)
    obtain ⟨second, secondEmitted, secondLoaded, _⟩ := rightIH (rhsPart.resolved holds)
    have joined := operator.code_eq_joining (operands.tagged (lhsPart.proper holds)) lhs.position
    refine ⟨⟨first.loaded ++ widening left right ++ (second.loaded ++ widening right left) ++
      operator.joining (left.join right), type, none⟩, ?_, ?_, rfl⟩
    · unfold Expression.emit
      cases kind : operator.kind with
      | concat | logical =>
        -- Both operands have one type here, so there is nothing to widen.
        obtain rfl : left = right := operands.same (by simp [kind])
        rw [StaticType.join_self] at joined ⊢
        rw [widening_self, List.append_nil, List.append_nil]
        exact bind_eq_ok.mpr ⟨_, firstEmitted, bind_eq_ok.mpr ⟨_, lhsPart.settle holds first,
          bind_eq_ok.mpr ⟨_, secondEmitted, bind_eq_ok.mpr ⟨_, rhsPart.settle holds second,
          bind_eq_ok.mpr ⟨_, joined, bind_eq_ok.mpr ⟨_, resolved, rfl⟩⟩⟩⟩⟩⟩
      | arithmetic | equality | relational =>
        exact bind_eq_ok.mpr ⟨_, lhsPart.resolved holds, bind_eq_ok.mpr ⟨_, rhsPart.resolved holds,
          bind_eq_ok.mpr ⟨_, firstEmitted, bind_eq_ok.mpr ⟨_, lhsPart.settle holds first,
          bind_eq_ok.mpr ⟨_, secondEmitted, bind_eq_ok.mpr ⟨_, rhsPart.settle holds second,
          bind_eq_ok.mpr ⟨_, joined, bind_eq_ok.mpr ⟨_, resolved, rfl⟩⟩⟩⟩⟩⟩⟩⟩
    · simp [Emission.loaded, code, lhsPart.known, rhsPart.known, ← firstLoaded, ← secondLoaded]
  | @unary node operator operand inner type part types known ih =>
    obtain ⟨emission, emitted, loaded, _⟩ := ih (part.resolved holds)
    refine ⟨⟨emission.loaded ++ operator.code inner, type, none⟩, ?_, ?_, rfl⟩
    · exact bind_eq_ok.mpr ⟨_, emitted, bind_eq_ok.mpr ⟨_, part.settle holds emission,
        bind_eq_ok.mpr ⟨_, resolved, rfl⟩⟩⟩
    · simp [Emission.loaded, code, part.known, ← loaded]
  | @assignment node target value declaredType type declared part accepts known ih =>
    obtain ⟨emission, emitted, loaded, rfl⟩ := ih (part.resolved holds)
    obtain ⟨saved, saveType⟩ := Emission.save_of_accepts accepts
    refine ⟨emission.save target.name declaredType, ?_, ?_, saveType⟩
    · refine bind_eq_ok.mpr ⟨_, emitted, bind_eq_ok.mpr ⟨declaredType, ?_, rfl⟩⟩
      rw [TypeRecord.variableType, declared]
    · rw [saved, loaded, code, part.known, known]

/-- An annotated expression is lowered to its plain code. -/
theorem Expression.Annotated.lower (holds : record.symbols.Holds types) {e : Expression}
    {type : StaticType} (annotated : e.Annotated record policy type) :
    e.lower record = .ok (e.code record, type) := by
  obtain ⟨emission, emitted, loaded, _⟩ := annotated.emit holds
  rw [← loaded]
  exact bind_eq_ok.mpr ⟨_, emitted, annotated.settle holds emission⟩

theorem AnnotatedValues.exists_lowerValues (holds : record.symbols.Holds types)
    {passes : StaticType → Prop} {values : List Expression}
    (annotated : AnnotatedValues record policy passes values) :
    ∃ code, lowerValues record values = .ok code := by
  induction values with
  | nil => exact ⟨[], rfl⟩
  | cons e rest ih =>
    obtain ⟨⟨type, own, _⟩, others⟩ := List.forall_mem_cons.mp annotated
    obtain ⟨later, lowered⟩ := ih others
    exact ⟨_, bind_eq_ok.mpr ⟨_, own.lower holds, bind_eq_ok.mpr ⟨later, lowered, rfl⟩⟩⟩

theorem exists_lowerRead (holds : record.symbols.Holds types) {targets : List Identifier}
    (declared : ∀ target ∈ targets, ∃ type,
      record.symbols.typeOf? target.name = some type ∧ type ≠ .file) :
    ∃ code, lowerRead record targets = .ok code := by
  induction targets with
  | nil => exact ⟨[], rfl⟩
  | cons target rest ih =>
    obtain ⟨⟨type, known, plain⟩, others⟩ := List.forall_mem_cons.mp declared
    obtain ⟨later, lowered⟩ := ih others
    have found : record.variableType target = .ok type := by rw [TypeRecord.variableType, known]
    have proper : type ≠ .error := SymbolTable.ne_error_of_holds holds known
    obtain ⟨tag, tagged⟩ : ∃ tag, encodedTag type target.position = .ok tag := by
      cases type with
      | file => exact absurd rfl plain
      | error => exact absurd rfl proper
      | _ => exact ⟨_, rfl⟩
    exact ⟨_, bind_eq_ok.mpr ⟨type, found, bind_eq_ok.mpr ⟨tag, tagged,
      bind_eq_ok.mpr ⟨later, lowered, rfl⟩⟩⟩⟩

theorem exists_lowerAll {body : List Statement}
    (each : ∀ s ∈ body, s.Annotated record policy → ∀ next : Label,
      ∃ result, s.lower record next = .ok result)
    (annotated : Statement.AnnotatedAll record policy body) (next : Label) :
    ∃ result, StackLang.lowerAll record next body = .ok result := by
  induction body generalizing next with
  | nil => exact ⟨_, rfl⟩
  | cons s rest ih =>
    obtain ⟨own, others⟩ := annotated
    obtain ⟨⟨first, middle⟩, here⟩ := each s List.mem_cons_self own next
    obtain ⟨⟨later, last⟩, there⟩ :=
      ih (fun s member => each s (List.mem_cons_of_mem _ member)) others middle
    exact ⟨_, bind_eq_ok.mpr ⟨_, here, bind_eq_ok.mpr ⟨_, there, rfl⟩⟩⟩

/-- An annotated statement has code. -/
theorem Statement.Annotated.exists_lower (holds : record.symbols.Holds types) {s : Statement}
    (annotated : s.Annotated record policy) (next : Label) :
    ∃ result, s.lower record next = .ok result := by
  induction s generalizing next with
  | declaration position type names => exact ⟨_, rfl⟩
  | expression position value =>
    obtain ⟨type, own⟩ := annotated
    exact ⟨_, bind_eq_ok.mpr ⟨_, own.lower holds, rfl⟩⟩
  | conditional position condition positive negative positiveIH negativeIH =>
    obtain ⟨test, branch, others⟩ := annotated_conditional.mp annotated
    obtain ⟨⟨first, middle⟩, chosen⟩ := positiveIH branch (next + 2)
    rw [lower]
    cases negative with
    | none => exact ⟨_, bind_eq_ok.mpr ⟨_, test.lower holds, bind_eq_ok.mpr ⟨_, chosen, rfl⟩⟩⟩
    | some negative =>
      obtain ⟨⟨second, last⟩, otherwise⟩ :=
        negativeIH negative (List.mem_singleton_self negative) others.1 middle
      exact ⟨_, bind_eq_ok.mpr ⟨_, test.lower holds, bind_eq_ok.mpr ⟨_, chosen,
        bind_eq_ok.mpr ⟨_, otherwise, rfl⟩⟩⟩⟩
  | loop position condition body ih =>
    obtain ⟨test, inner⟩ := annotated
    obtain ⟨⟨code, last⟩, repeated⟩ := ih inner (next + 2)
    exact ⟨_, bind_eq_ok.mpr ⟨_, test.lower holds, bind_eq_ok.mpr ⟨_, repeated, rfl⟩⟩⟩
  | block position body ih => exact exists_lowerAll (fun s member => ih s member) annotated next
  | write position values =>
    obtain ⟨code, lowered⟩ := AnnotatedValues.exists_lowerValues holds annotated
    exact ⟨_, bind_eq_ok.mpr ⟨code, lowered, rfl⟩⟩
  | read position targets =>
    obtain ⟨code, lowered⟩ := exists_lowerRead holds annotated
    exact ⟨_, bind_eq_ok.mpr ⟨code, lowered, rfl⟩⟩
  | openFile position target fileName =>
    exact ⟨_, bind_eq_ok.mpr ⟨_, annotated.2.lower holds, rfl⟩⟩
  | fileOutput position file values =>
    obtain ⟨handle, others⟩ := annotated
    obtain ⟨code, lowered⟩ := AnnotatedValues.exists_lowerValues holds others
    exact ⟨_, bind_eq_ok.mpr ⟨_, handle.lower holds, bind_eq_ok.mpr ⟨code, lowered, rfl⟩⟩⟩
  | empty position => exact ⟨_, rfl⟩

end Annotated

/-- A tree that is accepted has code, if the identities of its nodes are distinct. -/
theorem Tree.exists_lower {tree : Tree} {options : CheckOptions} {record : TypeRecord}
    (checked : tree.check options = .ok record) (distinct : tree.ids.Nodup) :
    ∃ code last, lowerAll record 0 tree = .ok (code, last) ∧
      tree.lower record = .ok (.ofList code) := by
  have holds := Tree.holds_check checked
  obtain ⟨⟨code, last⟩, lowered⟩ := exists_lowerAll (fun s _ own => own.exists_lower holds)
    (Tree.annotated distinct checked) 0
  exact ⟨code, last, lowered, bind_eq_ok.mpr ⟨_, lowered, rfl⟩⟩

end StackLang
