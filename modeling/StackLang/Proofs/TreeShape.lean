import StackLang.Tree

/-!
# Induction over trees

Statements nest in blocks and in the two branches of a conditional. One
induction principle covers both; an absent branch counts as no statement.
-/
namespace StackLang

namespace Statement

/-- Induction over statements, with a hypothesis for every statement directly inside. -/
@[elab_as_elim, induction_eliminator]
theorem induct {motive : Statement → Prop}
    (declaration : ∀ position type names, motive (.declaration position type names))
    (expression : ∀ position value, motive (.expression position value))
    (conditional : ∀ position condition positive negative, motive positive →
      (∀ s ∈ Option.toList negative, motive s) →
      motive (.conditional position condition positive negative))
    (loop : ∀ position condition body, motive body → motive (.loop position condition body))
    (block : ∀ position body, (∀ s ∈ body, motive s) → motive (.block position body))
    (write : ∀ position values, motive (.write position values))
    (read : ∀ position targets, motive (.read position targets))
    (openFile : ∀ position target fileName, motive (.openFile position target fileName))
    (fileOutput : ∀ position file values, motive (.fileOutput position file values))
    (empty : ∀ position, motive (.empty position)) (s : Statement) : motive s :=
  @Statement.rec motive (fun negative => ∀ s ∈ Option.toList negative, motive s)
    (fun body => ∀ s ∈ body, motive s)
    declaration expression conditional loop block write read openFile fileOutput empty
    (fun _ member => nomatch member)
    (fun _ inner s member => by
      cases List.mem_singleton.mp member
      exact inner)
    (fun _ member => nomatch member)
    (fun _ _ head tail s member => by
      rcases List.mem_cons.mp member with rfl | later
      · exact head
      · exact tail s later)
    s

mutual

/-- How many conditionals and loops a statement consists of. -/
def branchings : Statement → Nat
  | .conditional _ _ positive negative =>
    match negative with
    | none => positive.branchings + 1
    | some negative => positive.branchings + negative.branchings + 1
  | .loop _ _ body => body.branchings + 1
  | .block _ body => branchingsAll body
  | .declaration .. | .expression .. | .write .. | .read .. | .openFile .. | .fileOutput ..
  | .empty _ => 0

def branchingsAll : List Statement → Nat
  | [] => 0
  | s :: rest => s.branchings + branchingsAll rest

end

theorem branchings_conditional (position : Position) (condition : Expression)
    (positive : Statement) (negative : Option Statement) :
    (conditional position condition positive negative).branchings =
      positive.branchings + branchingsAll negative.toList + 1 := by
  cases negative <;> simp [branchings, branchingsAll]

end Statement

/-- How many conditionals and loops a program has. -/
def Tree.branchings (tree : Tree) : Nat :=
  Statement.branchingsAll tree

/-- The identities of the nodes of an expression, those of its parts first. -/
def Expression.ids : Expression → List NodeId
  | .literal node _ | .variable node _ => [node.id]
  | .grouping node inner => inner.ids ++ [node.id]
  | .binary node _ lhs rhs => lhs.ids ++ rhs.ids ++ [node.id]
  | .unary node _ operand => operand.ids ++ [node.id]
  | .assignment node _ value => value.ids ++ [node.id]

namespace Statement

mutual

/-- The identities of all nodes in a statement, in the order of the text. -/
def ids : Statement → List NodeId
  | .expression _ value => value.ids
  | .conditional _ condition positive negative =>
    match negative with
    | none => condition.ids ++ positive.ids
    | some negative => condition.ids ++ (positive.ids ++ negative.ids)
  | .loop _ condition body => condition.ids ++ body.ids
  | .block _ body => idsAll body
  | .write _ values => values.flatMap Expression.ids
  | .openFile _ _ fileName => fileName.ids
  | .fileOutput _ file values => file.ids ++ values.flatMap Expression.ids
  | .declaration .. | .read .. | .empty _ => []

def idsAll : List Statement → List NodeId
  | [] => []
  | s :: rest => s.ids ++ idsAll rest

end

end Statement

/-- The identities of all nodes of a program. -/
def Tree.ids (tree : Tree) : List NodeId :=
  Statement.idsAll tree

end StackLang
