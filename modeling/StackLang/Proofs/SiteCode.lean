import StackLang.Proofs.Acceptance

/-!
# The code of the expressions of a tree

The code of a tree is woven from the code of its outermost expressions, in the
order of the text, and from instructions of the statements around them. No
statement widens anything by itself, and nothing comes between the instructions
of an expression, so that the code of an inner expression stands in the program
as it was emitted.
-/
namespace StackLang

variable {record : TypeRecord} {policy : LogicalPolicy} {code : List Instruction}

namespace Expression

variable {e part : Expression} {type : StaticType}

/-- A record that knows an expression knows all that is inside it. -/
theorem Annotated.of_mem_parts (annotated : e.Annotated record policy type)
    (member : part ∈ e.parts) : ∃ own, part.Annotated record policy own := by
  induction annotated with
  | literal node value known =>
    cases List.mem_singleton.mp member
    exact ⟨_, .literal node value known⟩
  | «variable» node name declared known =>
    cases List.mem_singleton.mp member
    exact ⟨_, .variable node name declared known⟩
  | grouping node inner known ih =>
    rcases List.mem_append.mp member with inside | own
    · exact ih inside
    · cases List.mem_singleton.mp own
      exact ⟨_, .grouping node inner known⟩
  | binary node lhs rhs types known leftIH rightIH =>
    rcases List.mem_append.mp member with inside | own
    · rcases List.mem_append.mp inside with left | right
      · exact leftIH left
      · exact rightIH right
    · cases List.mem_singleton.mp own
      exact ⟨_, .binary node lhs rhs types known⟩
  | unary node operand types known ih =>
    rcases List.mem_append.mp member with inside | own
    · exact ih inside
    · cases List.mem_singleton.mp own
      exact ⟨_, .unary node operand types known⟩
  | assignment node declared value accepts known ih =>
    rcases List.mem_append.mp member with inside | own
    · exact ih inside
    · cases List.mem_singleton.mp own
      exact ⟨_, .assignment node declared value accepts known⟩

theorem parts_subset (member : part ∈ e.parts) : part.parts ⊆ e.parts := by
  induction e with
  | literal | «variable» =>
    cases List.mem_singleton.mp member
    exact List.Subset.refl _
  | grouping node inner ih | unary node _ inner ih | assignment node _ inner ih =>
    rcases List.mem_append.mp member with inside | own
    · exact List.Subset.trans (ih inside) (List.subset_append_left _ _)
    · cases List.mem_singleton.mp own
      exact List.Subset.refl _
  | binary node operator lhs rhs leftIH rightIH =>
    rcases List.mem_append.mp member with inside | own
    · refine List.Subset.trans ?_ (List.subset_append_left _ _)
      rcases List.mem_append.mp inside with left | right
      · exact List.Subset.trans (leftIH left) (List.subset_append_left _ _)
      · exact List.Subset.trans (rightIH right) (List.subset_append_right _ _)
    · cases List.mem_singleton.mp own
      exact List.Subset.refl _

/-- The code of an expression holds the code of all that is inside it. -/
theorem code_infix (record : TypeRecord) (member : part ∈ e.parts) :
    part.code record <:+: e.code record := by
  induction e with
  | literal | «variable» =>
    cases List.mem_singleton.mp member
    exact List.infix_rfl
  | grouping node inner ih =>
    rcases List.mem_append.mp member with inside | own
    · exact ih inside
    · cases List.mem_singleton.mp own
      exact List.infix_rfl
  | binary node operator lhs rhs leftIH rightIH =>
    rcases List.mem_append.mp member with inside | own
    · rw [code]
      rcases List.mem_append.mp inside with left | right
      · refine (leftIH left).trans ?_
        simp only [List.append_assoc]
        exact (List.prefix_append _ _).isInfix
      · refine (rightIH right).trans ?_
        exact ((List.prefix_append _ _).isInfix.trans (List.suffix_append _ _).isInfix).trans
          (List.prefix_append _ _).isInfix
    · cases List.mem_singleton.mp own
      exact List.infix_rfl
  | unary node operator operand ih =>
    rcases List.mem_append.mp member with inside | own
    · exact (ih inside).trans (List.prefix_append _ _).isInfix
    · cases List.mem_singleton.mp own
      exact List.infix_rfl
  | assignment node target value ih =>
    rcases List.mem_append.mp member with inside | own
    · refine (ih inside).trans ?_
      rw [code, List.append_assoc]
      exact (List.prefix_append _ _).isInfix
    · cases List.mem_singleton.mp own
      exact List.infix_rfl

end Expression

/-- With an expression, what is inside it is among some sites. -/
def ClosedSites (sites : List (Declarations × Expression)) : Prop :=
  ∀ site ∈ sites, ∀ part ∈ site.2.parts, (site.1, part) ∈ sites

namespace ClosedSites

variable {sites others : List (Declarations × Expression)}

theorem append (closed : ClosedSites sites) (later : ClosedSites others) :
    ClosedSites (sites ++ others) := by
  intro site member part inside
  rcases List.mem_append.mp member with here | there
  · exact List.mem_append_left _ (closed site here part inside)
  · exact List.mem_append_right _ (later site there part inside)

theorem of_parts (names : Declarations) (e : Expression) :
    ClosedSites (e.parts.map (names, ·)) := by
  intro site member part inside
  obtain ⟨own, here, rfl⟩ := List.mem_map.mp member
  exact List.mem_map_of_mem (Expression.parts_subset here inside)

theorem of_values (names : Declarations) (values : List Expression) :
    ClosedSites ((values.flatMap Expression.parts).map (names, ·)) := by
  induction values with
  | nil => exact List.forall_mem_nil _
  | cons e rest ih =>
    rw [List.flatMap_cons, List.map_append]
    exact (of_parts names e).append ih

end ClosedSites

namespace Statement

theorem closed_sitesAll {body : List Statement}
    (each : ∀ s ∈ body, ∀ names, ClosedSites (s.sites names)) (names : Declarations) :
    ClosedSites (sitesAll names body) := by
  induction body generalizing names with
  | nil => exact List.forall_mem_nil _
  | cons s rest ih =>
    obtain ⟨own, others⟩ := List.forall_mem_cons.mp each
    exact (own names).append (ih others _)

theorem closed_sites (s : Statement) (names : Declarations) : ClosedSites (s.sites names) := by
  induction s generalizing names with
  | declaration | read | empty => exact List.forall_mem_nil _
  | expression position value | openFile position target value => exact .of_parts names value
  | conditional position condition positive negative positiveIH negativeIH =>
    cases negative with
    | none => exact (ClosedSites.of_parts names condition).append (positiveIH names)
    | some negative =>
      have other := negativeIH negative List.mem_cons_self (names ++ positive.declarations)
      exact (ClosedSites.of_parts names condition).append ((positiveIH names).append other)
  | loop position condition body ih =>
    exact (ClosedSites.of_parts names condition).append (ih names)
  | block position body ih => exact closed_sitesAll (fun s member => ih s member) names
  | write position values => exact .of_values names values
  | fileOutput position file values =>
    rw [sites, List.map_append]
    exact (ClosedSites.of_parts names file).append (.of_values names values)

mutual

/-- The outermost expressions of a statement, in the order of the text. -/
def expressions : Statement → List Expression
  | .expression _ value => [value]
  | .conditional _ condition positive negative =>
    match negative with
    | none => condition :: positive.expressions
    | some negative => condition :: (positive.expressions ++ negative.expressions)
  | .loop _ condition body => condition :: body.expressions
  | .block _ body => expressionsAll body
  | .write _ values => values
  | .openFile _ _ fileName => [fileName]
  | .fileOutput _ file values => file :: values
  | .declaration .. | .read .. | .empty _ => []

def expressionsAll : List Statement → List Expression
  | [] => []
  | s :: rest => s.expressions ++ expressionsAll rest

end

theorem expressions_conditional (position : Position) (condition : Expression)
    (positive : Statement) (negative : Option Statement) :
    (conditional position condition positive negative).expressions =
      condition :: (positive.expressions ++ expressionsAll negative.toList) := by
  cases negative <;> simp [expressions, expressionsAll]

theorem sitesAll_expressions {body : List Statement}
    (each : ∀ s ∈ body, ∀ names,
      (s.sites names).map Prod.snd = s.expressions.flatMap Expression.parts)
    (names : Declarations) :
    (sitesAll names body).map Prod.snd = (expressionsAll body).flatMap Expression.parts := by
  induction body generalizing names with
  | nil => rfl
  | cons s rest ih =>
    obtain ⟨own, others⟩ := List.forall_mem_cons.mp each
    simp only [sitesAll, expressionsAll, List.map_append, List.flatMap_append, own, ih others]

theorem map_snd_parts (names : Declarations) (parts : List Expression) :
    (parts.map (names, ·)).map Prod.snd = parts := by
  rw [List.map_map]
  exact List.map_id parts

/-- The sites of a statement are what is inside its outermost expressions. -/
theorem sites_expressions (s : Statement) (names : Declarations) :
    (s.sites names).map Prod.snd = s.expressions.flatMap Expression.parts := by
  induction s generalizing names with
  | conditional position condition positive negative positiveIH negativeIH =>
    cases negative with
    | none =>
      rw [sites, List.map_append, map_snd_parts, positiveIH]
      rfl
    | some negative =>
      have other := negativeIH negative List.mem_cons_self
      rw [sites, List.map_append, List.map_append, map_snd_parts, positiveIH, other,
        ← List.flatMap_append]
      rfl
  | loop position condition body ih =>
    rw [sites, List.map_append, map_snd_parts, ih]
    rfl
  | block position body ih => exact sitesAll_expressions (fun s member => ih s member) names
  | declaration | read | empty => rfl
  | expression position value | openFile position target value =>
    rw [sites, map_snd_parts, expressions, List.flatMap_singleton]
  | write position values => exact map_snd_parts names _
  | fileOutput position file values => exact map_snd_parts names _

theorem annotated_expressionsAll {body : List Statement}
    (each : ∀ s ∈ body, s.Annotated record policy →
      ∀ e ∈ s.expressions, ∃ type, e.Annotated record policy type)
    (annotated : AnnotatedAll record policy body) :
    ∀ e ∈ expressionsAll body, ∃ type, e.Annotated record policy type := by
  induction body with
  | nil => exact List.forall_mem_nil _
  | cons s rest ih =>
    obtain ⟨own, others⟩ := List.forall_mem_cons.mp each
    exact List.forall_mem_append.mpr ⟨own annotated.1, ih others annotated.2⟩

theorem annotated_values {passes : StaticType → Prop} {values : List Expression}
    (annotated : AnnotatedValues record policy passes values) :
    ∀ e ∈ values, ∃ type, e.Annotated record policy type := by
  intro e member
  obtain ⟨type, own, _⟩ := annotated e member
  exact ⟨type, own⟩

theorem Annotated.expressions {s : Statement} (annotated : s.Annotated record policy) :
    ∀ e ∈ s.expressions, ∃ type, e.Annotated record policy type := by
  induction s with
  | declaration | read | empty => exact List.forall_mem_nil _
  | expression position value => exact List.forall_mem_singleton.mpr annotated
  | conditional position condition positive negative positiveIH negativeIH =>
    obtain ⟨test, branch, others⟩ := annotated_conditional.mp annotated
    rw [expressions_conditional]
    refine List.forall_mem_cons.mpr ⟨⟨_, test⟩, List.forall_mem_append.mpr ⟨positiveIH branch, ?_⟩⟩
    exact annotated_expressionsAll negativeIH others
  | loop position condition body ih =>
    exact List.forall_mem_cons.mpr ⟨⟨_, annotated.1⟩, ih annotated.2⟩
  | block position body ih => exact annotated_expressionsAll ih annotated
  | write position values => exact annotated_values annotated
  | openFile position target fileName => exact List.forall_mem_singleton.mpr ⟨_, annotated.2⟩
  | fileOutput position file values =>
    exact List.forall_mem_cons.mpr ⟨⟨_, annotated.1⟩, annotated_values annotated.2⟩

end Statement

def Instruction.isWiden : Instruction → Bool
  | .widen => true
  | _ => false

/-- The code of expressions in their order, with other instructions than conversions around it. -/
inductive Woven (record : TypeRecord) : List Expression → List Instruction → Prop
  | nil : Woven record [] []
  | instruction {i : Instruction} {rest : List Expression} {code : List Instruction}
    (plain : i.isWiden = false) (later : Woven record rest code) : Woven record rest (i :: code)
  | expression (e : Expression) {rest : List Expression} {code : List Instruction}
    (later : Woven record rest code) : Woven record (e :: rest) (e.code record ++ code)

namespace Woven

variable {first second : List Expression} {later : List Instruction}

theorem append (woven : Woven record first code) (next : Woven record second later) :
    Woven record (first ++ second) (code ++ later) := by
  induction woven with
  | nil => exact next
  | instruction plain _ ih => exact .instruction plain ih
  | expression e _ ih =>
    rw [List.append_assoc]
    exact .expression e ih

/-- The code of an expression that is woven in stands there in one piece. -/
theorem code_infix (woven : Woven record first code) {e : Expression} (member : e ∈ first) :
    e.code record <:+: code := by
  induction woven with
  | nil => cases member
  | instruction _ _ ih => exact (ih member).trans (List.suffix_cons _ _).isInfix
  | expression own _ ih =>
    rcases List.mem_cons.mp member with rfl | later
    · exact (List.prefix_append _ _).isInfix
    · exact (ih later).trans (List.suffix_append _ _).isInfix

end Woven

/-- Instructions that a statement adds by itself. -/
theorem woven_read {targets : List Identifier} (lowered : lowerRead record targets = .ok code) :
    Woven record [] code := by
  induction targets generalizing code with
  | nil =>
    cases lowered
    exact .nil
  | cons target rest ih =>
    obtain ⟨type, tag, later, _, _, there, rfl⟩ := lowerRead_cons lowered
    exact .instruction rfl (.instruction rfl (ih there))

theorem woven_declaration (record : TypeRecord) (type : PrimitiveType) (names : List Identifier) :
    Woven record [] (lowerDeclaration type names) := by
  rw [lowerDeclaration]
  split
  · exact .nil
  · induction names with
    | nil => exact .nil
    | cons name rest ih => exact .instruction rfl (.instruction rfl ih)

section Lowered

variable {next last : Label} {types : Declarations}

theorem woven_of_lower (holds : record.symbols.Holds types) {e : Expression}
    {type own : StaticType} (annotated : e.Annotated record policy own)
    (lowered : e.lower record = .ok (code, type)) : Woven record [e] code := by
  rw [annotated.lower holds] at lowered
  cases lowered
  rw [← List.append_nil (e.code record)]
  exact .expression e .nil

theorem woven_of_lowerValues (holds : record.symbols.Holds types) {passes : StaticType → Prop}
    {values : List Expression} (annotated : AnnotatedValues record policy passes values)
    (lowered : lowerValues record values = .ok code) : Woven record values code := by
  induction values generalizing code with
  | nil =>
    cases lowered
    exact .nil
  | cons e rest ih =>
    obtain ⟨⟨type, own, _⟩, others⟩ := List.forall_mem_cons.mp annotated
    obtain ⟨first, later, _, here, there, rfl⟩ := lowerValues_cons lowered
    exact (woven_of_lower holds own here).append (ih others there)

theorem woven_of_lowerAll {body : List Statement}
    (each : ∀ s ∈ body, ∀ {next last code}, s.Annotated record policy →
      s.lower record next = .ok (code, last) → Woven record s.expressions code)
    (annotated : Statement.AnnotatedAll record policy body)
    (lowered : lowerAll record next body = .ok (code, last)) :
    Woven record (Statement.expressionsAll body) code := by
  induction body generalizing next code with
  | nil =>
    cases lowered
    exact .nil
  | cons s rest ih =>
    obtain ⟨own, others⟩ := List.forall_mem_cons.mp each
    obtain ⟨first, middle, later, here, there, rfl⟩ := lowerAll_cons lowered
    exact (own annotated.1 here).append (ih others annotated.2 there)

/-- The code of an annotated statement is woven from that of its expressions. -/
theorem Statement.woven_of_lower (holds : record.symbols.Holds types) {s : Statement}
    (annotated : s.Annotated record policy) (lowered : s.lower record next = .ok (code, last)) :
    Woven record s.expressions code := by
  induction s generalizing next last code with
  | declaration position type names =>
    cases lowered
    exact woven_declaration record type names
  | expression position value =>
    obtain ⟨type, own⟩ := annotated
    obtain ⟨first, _, here, rfl, _⟩ := lower_expression lowered
    exact (StackLang.woven_of_lower holds own here).append (.instruction rfl .nil)
  | conditional position condition positive negative positiveIH negativeIH =>
    obtain ⟨test, branch, others⟩ := annotated_conditional.mp annotated
    obtain ⟨code, _, first, middle, second, tested, chosen, otherwise, rfl⟩ :=
      lower_conditional lowered
    rw [expressions_conditional]
    have condition := (StackLang.woven_of_lower holds test tested).append
      (.instruction rfl .nil : Woven record [] [.jumpIfFalse next])
    have positive := (condition.append (positiveIH branch chosen)).append
      (.instruction rfl (.instruction rfl .nil) : Woven record [] [.jump (next + 1), .label next])
    have negative := positive.append
      (woven_of_lowerAll (fun s member => negativeIH s member) others otherwise)
    have whole := negative.append (.instruction rfl .nil : Woven record [] [.label (next + 1)])
    simpa [conditionalCode] using whole
  | loop position condition body ih =>
    obtain ⟨code, _, inner, tested, repeated, rfl⟩ := lower_loop lowered
    have condition := (StackLang.woven_of_lower holds annotated.1 tested).append
      (.instruction rfl .nil : Woven record [] [.jumpIfFalse (next + 1)])
    have body := (condition.append (ih annotated.2 repeated)).append
      (.instruction rfl (.instruction rfl .nil) : Woven record [] [.jump next, .label (next + 1)])
    have whole : Woven record _ ([.label next] ++ _) := .instruction rfl body
    simpa [loopCode, expressions] using whole
  | block position body ih =>
    exact woven_of_lowerAll (fun s member => ih s member) annotated lowered
  | write position values =>
    obtain ⟨inner, here, rfl, _⟩ := lower_write lowered
    have values := woven_of_lowerValues holds annotated here
    simpa [expressions] using values.append (.instruction rfl .nil)
  | read position targets => exact woven_read (lower_read lowered).1
  | openFile position target fileName =>
    obtain ⟨inner, _, here, rfl, _⟩ := lower_openFile lowered
    exact (StackLang.woven_of_lower holds annotated.2 here).append
      (.instruction rfl (.instruction rfl .nil))
  | fileOutput position file values =>
    obtain ⟨handle, _, inner, here, there, rfl, _⟩ := lower_fileOutput lowered
    have values := (StackLang.woven_of_lower holds annotated.1 here).append
      (woven_of_lowerValues holds annotated.2 there)
    simpa [expressions] using values.append (.instruction rfl (.instruction rfl .nil))
  | empty position =>
    cases lowered
    exact .nil

end Lowered

/-- The outermost expressions of a tree, in the order of the text. -/
def Tree.expressions (tree : Tree) : List Expression :=
  Statement.expressionsAll tree

namespace Tree

variable {options : CheckOptions} {tree : Tree}

theorem sites_eq (tree : Tree) :
    tree.sites.map Prod.snd = tree.expressions.flatMap Expression.parts :=
  Statement.sitesAll_expressions (fun s _ => s.sites_expressions) []

theorem closed_sites (tree : Tree) : ClosedSites tree.sites :=
  Statement.closed_sitesAll (fun s _ => s.closed_sites) []

theorem annotated_of_mem_sites (distinct : tree.ids.Nodup)
    (checked : tree.check options = .ok record) {site : Declarations × Expression}
    (member : site ∈ tree.sites) :
    ∃ e ∈ tree.expressions, site.2 ∈ e.parts ∧
      ∃ type, site.2.Annotated record options.logical type := by
  have inside := List.mem_map_of_mem (f := Prod.snd) member
  rw [sites_eq] at inside
  obtain ⟨e, outermost, part⟩ := List.mem_flatMap.mp inside
  obtain ⟨type, annotated⟩ := Statement.annotated_expressionsAll
    (fun s _ own => own.expressions) (Tree.annotated distinct checked) e outermost
  exact ⟨e, outermost, part, annotated.of_mem_parts part⟩

/-- An accepted tree has a program, which is woven from the code of its expressions. -/
theorem exists_woven (distinct : tree.ids.Nodup) (checked : tree.check options = .ok record) :
    ∃ program, tree.compile options = .ok program ∧
      Woven record tree.expressions program.toList := by
  obtain ⟨code, last, lowered, whole⟩ := exists_lower checked distinct
  refine ⟨.ofList code, compile_eq_ok.mpr ⟨record, checked, whole⟩, ?_⟩
  exact woven_of_lowerAll (fun s _ _ _ _ own => Statement.woven_of_lower (holds_check checked) own)
    (Tree.annotated distinct checked) lowered

end Tree

end StackLang
