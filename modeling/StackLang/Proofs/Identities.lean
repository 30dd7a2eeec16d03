import Mathlib.Data.List.Nodup
import StackLang.Proofs.Conversions
import StackLang.Tree

/-!
# Identities of built trees

A builder gives no two expressions the same identity while there are identities
left. So what is put together from its pieces, each of them used once, has no
identity twice, and an expression has a greater one than all that is inside it.
It does not matter in which order the pieces are used, and which of them lie
ready meanwhile: these have identities of their own, all less than the next one.
-/
namespace StackLang

namespace Statement

/-- The expressions right inside a statement. -/
def values : Statement → List Expression
  | .expression _ value => [value]
  | .conditional _ condition _ _ | .loop _ condition _ => [condition]
  | .write _ values => values
  | .openFile _ _ fileName => [fileName]
  | .fileOutput _ file values => file :: values
  | .declaration .. | .block .. | .read .. | .empty _ => []

/-- The statements right inside a statement. -/
def inner : Statement → List Statement
  | .conditional _ _ positive negative => positive :: negative.toList
  | .loop _ _ body => [body]
  | .block _ body => body
  | .declaration .. | .expression .. | .write .. | .read .. | .openFile .. | .fileOutput ..
  | .empty _ => []

theorem expressionsAll_eq (body : List Statement) :
    expressionsAll body = body.flatMap Statement.expressions := by
  induction body with
  | nil => rfl
  | cons s rest ih => rw [expressionsAll, ih, List.flatMap_cons]

theorem expressions_eq (s : Statement) :
    s.expressions = s.values ++ s.inner.flatMap Statement.expressions := by
  cases s with
  | conditional position condition positive negative =>
    rw [expressions_conditional, expressionsAll_eq]
    rfl
  | block position body => exact expressionsAll_eq body
  | loop => simp [expressions, values, inner]
  | _ => exact (List.append_nil _).symm

theorem idsAll_eq {body : List Statement}
    (each : ∀ s ∈ body, s.ids = s.expressions.flatMap Expression.ids) :
    idsAll body = (expressionsAll body).flatMap Expression.ids := by
  induction body with
  | nil => rfl
  | cons s rest ih =>
    obtain ⟨own, others⟩ := List.forall_mem_cons.mp each
    rw [idsAll, expressionsAll, List.flatMap_append, own, ih others]

/-- The identities in a statement are those in its outermost expressions. -/
theorem ids_eq (s : Statement) : s.ids = s.expressions.flatMap Expression.ids := by
  induction s with
  | conditional position condition positive negative positiveIH negativeIH =>
    cases negative with
    | none => rw [ids, positiveIH, expressions, List.flatMap_cons]
    | some negative =>
      rw [ids, positiveIH, negativeIH negative List.mem_cons_self, expressions,
        List.flatMap_cons, List.flatMap_append]
  | loop position condition body ih => rw [ids, ih, expressions, List.flatMap_cons]
  | block position body ih => exact idsAll_eq ih
  | declaration | read | empty => rfl
  | expression | openFile => rw [ids, expressions, List.flatMap_singleton]
  | write position values => rfl
  | fileOutput position file values => rw [ids, expressions, List.flatMap_cons]

end Statement

theorem Tree.ids_eq (tree : Tree) : tree.ids = tree.expressions.flatMap Expression.ids :=
  Statement.idsAll_eq fun s _ => s.ids_eq

namespace Expression

/-- An expression has a greater identity than those inside it, and so have these themselves. -/
def Rises (e : Expression) : Prop :=
  ∀ part ∈ e.parts, ∀ inside ∈ part.operands.flatMap Expression.parts, inside.id < part.id

theorem parts_eq (e : Expression) :
    e.parts = e.operands.flatMap Expression.parts ++ [e] := by
  cases e <;> simp [parts, operands]

theorem ids_eq (e : Expression) : e.ids = e.operands.flatMap Expression.ids ++ [e.id] := by
  cases e <;> simp [ids, operands, id, node]

theorem ids_eq_map (e : Expression) : e.ids = e.parts.map Expression.id := by
  induction e with
  | literal | «variable» => rfl
  | grouping node inner ih | unary node _ inner ih | assignment node _ inner ih =>
    rw [ids, ih, parts, List.map_append]
    rfl
  | binary node operator lhs rhs leftIH rightIH =>
    rw [ids, leftIH, rightIH, parts, List.map_append, List.map_append]
    rfl

end Expression

/-- Calls of a builder that return an expression made of the given ones. -/
inductive ExpressionCall : List Expression → StateM Builder Expression → Prop
  | literal (value : Value) : ExpressionCall [] (Builder.literal value)
  | reference (name : String) : ExpressionCall [] (Builder.reference name)
  | grouping (inner : Expression) : ExpressionCall [inner] (Builder.grouping inner)
  | binary (operator : BinaryOperator) (lhs rhs : Expression) :
    ExpressionCall [lhs, rhs] (Builder.binary operator lhs rhs)
  | unary (operator : UnaryOperator) (operand : Expression) :
    ExpressionCall [operand] (Builder.unary operator operand)
  | assignment (target : String) (value : Expression) :
    ExpressionCall [value] (Builder.assignment target value)
  /-- Any other form that is put on a new node. -/
  | form {operands : List Expression} (make : Node → Expression)
    (own : ∀ node, (make node).node = node) (takes : ∀ node, (make node).operands = operands) :
    ExpressionCall operands (make <$> Builder.node)

/-- Calls of a builder that return a statement made of the given expressions and statements. -/
inductive StatementCall : List Expression → List Statement → StateM Builder Statement → Prop
  | declaration (type : PrimitiveType) (names : List String) :
    StatementCall [] [] (Builder.declaration type names)
  | read (targets : List String) : StatementCall [] [] (Builder.read targets)
  | openFile (target : String) (fileName : Expression) :
    StatementCall [fileName] [] (Builder.openFile target fileName)
  /-- Any form of statement at the position last set. -/
  | form {values : List Expression} {inner : List Statement} (make : Position → Statement)
    (takes : ∀ position, (make position).values = values ∧ (make position).inner = inner) :
    StatementCall values inner (Builder.statement make)

section Calls

variable {operands values : List Expression} {inner : List Statement}

/-- An expression gets the next identity, which is gone with that. -/
theorem ExpressionCall.built {call : StateM Builder Expression}
    (calls : ExpressionCall operands call) (builder : Builder) :
    (call builder).1.operands = operands ∧ (call builder).1.id = builder.nextId ∧
      (call builder).2.nextId = builder.nextId + 1 := by
  cases calls with
  | form make own takes =>
    exact ⟨takes _, congrArg Node.id (own ⟨builder.nextId, builder.position⟩), rfl⟩
  | _ => exact ⟨rfl, rfl, rfl⟩

/-- Names get the position last set, and change nothing. -/
theorem mapM_identifier (names : List String) (builder : Builder) :
    (names.mapM Builder.identifier : StateM Builder (List Identifier)) builder =
      (names.map (⟨·, builder.position⟩), builder) := by
  induction names with
  | nil => rfl
  | cons name rest ih =>
    have onward : (List.mapM Builder.identifier (name :: rest) : StateM Builder _) builder =
        (⟨name, builder.position⟩ :: (rest.mapM Builder.identifier builder).1,
          (rest.mapM Builder.identifier builder).2) := by
      rw [List.mapM_cons]
      rfl
    rw [onward, ih]
    rfl

/-- A statement uses up no identity. -/
theorem StatementCall.built {call : StateM Builder Statement}
    (calls : StatementCall values inner call) (builder : Builder) :
    (call builder).1.values = values ∧ (call builder).1.inner = inner ∧
      (call builder).2 = builder := by
  cases calls with
  | declaration type names =>
    exact ⟨rfl, rfl, congrArg Prod.snd (mapM_identifier names builder)⟩
  | read targets => exact ⟨rfl, rfl, congrArg Prod.snd (mapM_identifier targets builder)⟩
  | openFile target fileName => exact ⟨rfl, rfl, rfl⟩
  | form make takes => exact ⟨(takes _).1, (takes _).2, rfl⟩

end Calls

/-- Expressions whose identities are all different, with so many identities used up. -/
structure Numbered (count : Nat) (expressions : List Expression) : Prop where
  distinct : (expressions.flatMap Expression.ids).Nodup
  below : ∀ id ∈ expressions.flatMap Expression.ids, id.toNat < count
  rising : ∀ e ∈ expressions, e.Rises

namespace Numbered

variable {count : Nat} {expressions others : List Expression}

theorem perm (numbered : Numbered count expressions) (same : expressions.Perm others) :
    Numbered count others := by
  have ids := same.flatMap_right Expression.ids
  refine ⟨ids.nodup_iff.mp numbered.distinct, fun id member => ?_, fun e member => ?_⟩
  · exact numbered.below id (ids.mem_iff.mpr member)
  · exact numbered.rising e (same.mem_iff.mpr member)

/-- An expression that is made of some of them, with the next identity, takes their place. -/
theorem make {e : Expression} (numbered : Numbered count (e.operands ++ others))
    (next : e.id.toNat = count) : Numbered (count + 1) (e :: others) := by
  have ids : ((e :: others).flatMap Expression.ids).Perm
      (e.id :: (e.operands ++ others).flatMap Expression.ids) := by
    rw [List.flatMap_cons, Expression.ids_eq, List.append_assoc, List.singleton_append,
      List.flatMap_append]
    exact List.perm_middle
  refine ⟨ids.nodup_iff.mpr (List.nodup_cons.mpr ⟨fun used => ?_, numbered.distinct⟩),
    fun id member => ?_, List.forall_mem_cons.mpr ⟨?_, fun other member => ?_⟩⟩
  · exact absurd (numbered.below _ used) (by omega)
  · rcases List.mem_cons.mp (ids.mem_iff.mp member) with rfl | used
    · omega
    · exact Nat.lt_succ_of_lt (numbered.below id used)
  · intro part member inside within
    rw [Expression.parts_eq] at member
    rcases List.mem_append.mp member with deeper | own
    · obtain ⟨operand, taken, deep⟩ := List.mem_flatMap.mp deeper
      exact numbered.rising operand (List.mem_append_left _ taken) part deep inside within
    · cases List.mem_singleton.mp own
      obtain ⟨operand, taken, deep⟩ := List.mem_flatMap.mp within
      have used : inside.id ∈ (e.operands ++ others).flatMap Expression.ids := by
        refine List.mem_flatMap.mpr ⟨operand, List.mem_append_left _ taken, ?_⟩
        rw [Expression.ids_eq_map]
        exact List.mem_map_of_mem deep
      rw [UInt32.lt_iff_toNat_lt, next]
      exact numbered.below _ used
  · exact numbered.rising other (List.mem_append_right _ member)

end Numbered

/-- A builder with all that it has built and that is not part of anything else so far. -/
structure Workshop where
  builder : Builder
  expressions : List Expression
  statements : List Statement
  trees : List Tree

namespace Workshop

/--
What calls of a new builder lead to, of which so many returned an expression. What a call is given
is taken from what lies ready, wherever it lies, so that nothing is used a second time.
-/
inductive Built : Nat → Workshop → Prop
  | start : Built 0 ⟨.start, [], [], []⟩
  | moveTo {count : Nat} {workshop : Workshop} (built : Built count workshop)
    (position : Position) :
    Built count { workshop with builder := (Builder.moveTo position workshop.builder).2 }
  | expression {count : Nat} {workshop : Workshop} {operands rest : List Expression}
    {call : StateM Builder Expression} (built : Built count workshop)
    (calls : ExpressionCall operands call)
    (taken : workshop.expressions.Perm (operands ++ rest)) :
    Built (count + 1) { workshop with
      builder := (call workshop.builder).2
      expressions := (call workshop.builder).1 :: rest }
  | statement {count : Nat} {workshop : Workshop} {values rest : List Expression}
    {inner others : List Statement} {call : StateM Builder Statement}
    (built : Built count workshop) (calls : StatementCall values inner call)
    (taken : workshop.expressions.Perm (values ++ rest))
    (takenInner : workshop.statements.Perm (inner ++ others)) :
    Built count { workshop with
      builder := (call workshop.builder).2
      expressions := rest
      statements := (call workshop.builder).1 :: others }
  | tree {count : Nat} {workshop : Workshop} {body others : List Statement}
    (built : Built count workshop) (taken : workshop.statements.Perm (body ++ others)) :
    Built count { workshop with statements := others, trees := body :: workshop.trees }

/-- All identities in what lies ready. -/
def ids (workshop : Workshop) : List NodeId :=
  workshop.expressions.flatMap Expression.ids ++
    (workshop.statements.flatMap Statement.ids ++ workshop.trees.flatMap Tree.ids)

/-- The outermost expressions of what lies ready. -/
def outermost (workshop : Workshop) : List Expression :=
  workshop.expressions ++
    (workshop.statements.flatMap Statement.expressions ++ workshop.trees.flatMap Tree.expressions)

variable {count : Nat} {workshop : Workshop}

theorem ids_eq (workshop : Workshop) : workshop.ids = workshop.outermost.flatMap Expression.ids := by
  rw [ids, outermost, List.flatMap_append, List.flatMap_append, List.flatMap_assoc,
    List.flatMap_assoc, funext Statement.ids_eq, funext Tree.ids_eq]

/-- What a statement is made of only changes its place. -/
theorem perm_statement {values rest : List Expression} {inner others : List Statement}
    {made : Statement} (takes : made.values = values ∧ made.inner = inner)
    (taken : workshop.expressions.Perm (values ++ rest))
    (takenInner : workshop.statements.Perm (inner ++ others)) (builder : Builder) :
    workshop.outermost.Perm (outermost ⟨builder, rest, made :: others, workshop.trees⟩) := by
  obtain ⟨rfl, rfl⟩ := takes
  have statements := takenInner.flatMap_right Statement.expressions
  rw [List.flatMap_append] at statements
  rw [outermost, outermost, List.flatMap_cons, Statement.expressions_eq, List.append_assoc,
    List.append_assoc]
  refine (taken.append (statements.append_right _)).trans ?_
  rw [List.append_assoc, List.append_assoc]
  exact List.perm_append_comm_assoc _ _ _

theorem perm_tree {body others : List Statement}
    (taken : workshop.statements.Perm (body ++ others)) :
    workshop.outermost.Perm
      (outermost { workshop with statements := others, trees := body :: workshop.trees }) := by
  have statements := taken.flatMap_right Statement.expressions
  rw [List.flatMap_append] at statements
  rw [outermost, outermost, List.flatMap_cons, Tree.expressions, Statement.expressionsAll_eq]
  refine ((statements.append_right _).trans ?_).append_left _
  rw [List.append_assoc]
  exact List.perm_append_comm_assoc _ _ _

/-- Everything that lies ready is numbered by what has been built, and the next identity is free. -/
theorem numbered_of_built (built : Built count workshop) (few : count ≤ UInt32.size) :
    workshop.builder.nextId = .ofNat count ∧ Numbered count workshop.outermost := by
  induction built with
  | start => exact ⟨rfl, .nil, List.forall_mem_nil _, List.forall_mem_nil _⟩
  | moveTo built position ih => exact ih few
  | @expression count workshop operands rest call built calls taken ih =>
    obtain ⟨next, numbered⟩ := ih (Nat.le_of_succ_le few)
    obtain ⟨made, own, moved⟩ := calls.built workshop.builder
    refine ⟨?_, ?_⟩
    · rw [moved, next, UInt32.ofNat_add]
      rfl
    · have ready := numbered.perm (taken.append_right _)
      rw [List.append_assoc, ← made] at ready
      refine ready.make ?_
      rw [own, next, UInt32.toNat_ofNat_of_lt' few]
  | @statement count workshop values rest inner others call built calls taken takenInner ih =>
    obtain ⟨next, numbered⟩ := ih few
    obtain ⟨own, deeper, still⟩ := calls.built workshop.builder
    refine ⟨still.symm ▸ next, ?_⟩
    exact numbered.perm (perm_statement ⟨own, deeper⟩ taken takenInner _)
  | tree built taken ih =>
    obtain ⟨next, numbered⟩ := ih few
    exact ⟨next, numbered.perm (perm_tree taken)⟩

/--
A builder is called in any way, with fewer than 2^32 expressions built and each piece used at most
once. Then no identity occurs twice in all that lies ready, and so neither in a tree put together
from such pieces nor in two of these trees, and in such a tree an expression has a greater identity
than every expression inside it.
-/
theorem identities_distinct (built : Built count workshop) (few : count < UInt32.size) :
    workshop.ids.Nodup ∧
    (∀ tree ∈ workshop.trees, tree.ids.Nodup ∧
      ∀ outer ∈ tree.expressions, ∀ e ∈ outer.parts,
        ∀ inside ∈ e.operands.flatMap Expression.parts, inside.id < e.id) ∧
    workshop.trees.Pairwise fun tree other => tree.ids.Disjoint other.ids := by
  obtain ⟨_, numbered⟩ := numbered_of_built built (Nat.le_of_lt few)
  have distinct := numbered.distinct
  rw [← ids_eq] at distinct
  have trees := (List.nodup_append.mp (List.nodup_append.mp distinct).2.1).2.1
  obtain ⟨each, apart⟩ := List.nodup_flatMap.mp trees
  refine ⟨distinct, fun tree member => ⟨each tree member, fun outer inTree => ?_⟩, apart⟩
  have lies : outer ∈ workshop.outermost := List.mem_append_right _ (List.mem_append_right _
    (List.mem_flatMap.mpr ⟨tree, member, inTree⟩))
  exact numbered.rising outer lies

/-- A sum, whose operands were built at two positions, and another tree after it. -/
theorem identities_distinct_two_trees :
    let one : Expression := .literal ⟨0, ⟨1, 0⟩⟩ (.int 1)
    let x : Expression := .variable ⟨1, ⟨2, 4⟩⟩ ⟨"x", ⟨2, 4⟩⟩
    let sum : Expression := .binary ⟨2, ⟨2, 4⟩⟩ .add one x
    let truth : Expression := .literal ⟨3, ⟨2, 4⟩⟩ (.bool true)
    let first : Tree := [.expression ⟨2, 4⟩ sum]
    let second : Tree := [.write ⟨2, 4⟩ [truth]]
    let workshop : Workshop := ⟨⟨4, ⟨2, 4⟩⟩, [], [], [second, first]⟩
    Built 4 workshop ∧ 4 < UInt32.size ∧ first.ids.Nodup ∧ one.id < sum.id ∧ x.id < sum.id ∧
      second.ids.Disjoint first.ids := by
  intro one x sum truth first second workshop
  have few : 4 < UInt32.size := by decide
  have literal : Built 1 ⟨⟨1, ⟨1, 0⟩⟩, [one], [], []⟩ :=
    Built.start.expression (.literal (.int 1)) (.refl ([] ++ []))
  have reference : Built 2 ⟨⟨2, ⟨2, 4⟩⟩, [x, one], [], []⟩ :=
    (literal.moveTo ⟨2, 4⟩).expression (.reference "x") (.refl ([] ++ [one]))
  have added : Built 3 ⟨⟨3, ⟨2, 4⟩⟩, [sum], [], []⟩ :=
    reference.expression (.binary .add one x) (.swap one x ([] ++ []))
  have stated : Built 3 ⟨⟨3, ⟨2, 4⟩⟩, [], first, []⟩ :=
    added.statement (.form (.expression · sum) fun _ => ⟨rfl, rfl⟩) (.refl ([sum] ++ []))
      (.refl ([] ++ []))
  have other : Built 4 ⟨⟨4, ⟨2, 4⟩⟩, [truth], [], [first]⟩ :=
    (stated.tree (.refl (first ++ []))).expression (.literal (.bool true)) (.refl ([] ++ []))
  have written : Built 4 ⟨⟨4, ⟨2, 4⟩⟩, [], second, [first]⟩ :=
    other.statement (.form (.write · [truth]) fun _ => ⟨rfl, rfl⟩) (.refl ([truth] ++ []))
      (.refl ([] ++ []))
  have built : Built 4 workshop := written.tree (.refl (second ++ []))
  obtain ⟨_, trees, apart⟩ := identities_distinct built few
  obtain ⟨distinct, rising⟩ := trees first (by simp [workshop])
  have rises := rising sum (by simp [first, Tree.expressions, Statement.expressionsAll,
    Statement.expressions]) sum sum.mem_parts
  refine ⟨built, few, distinct, rises one ?_, rises x ?_,
    (List.pairwise_cons.mp apart).1 first List.mem_cons_self⟩
  · simp [sum, one, Expression.operands, Expression.parts]
  · simp [sum, one, x, Expression.operands, Expression.parts]

end Workshop

end StackLang
