import StackLang.Proofs.Acceptance
import StackLang.Proofs.CompiledRun

/-!
# Variables hold a value before they are used

Names are in force in the text behind their declaration, while control follows
branches and loops. The two agree where nothing but files is declared in a branch
or in the body of a loop: then every statement is reached with a value for each
name in force that is no file. An accepted tree of that shape fails over an unset
variable only if that is a file, and only if no file was stored in it before.
-/
namespace StackLang

namespace Declarations

def OnlyFiles (names : Declarations) : Prop :=
  ∀ declared ∈ names, declared.2 = .file

variable {names later more : Declarations} {name : String} {type : PrimitiveType}

theorem mem_of_lookup (declared : names.lookup name = some type) : (name, type) ∈ names := by
  obtain ⟨before, behind, rfl, _⟩ := List.lookup_eq_some_iff.mp declared
  exact List.mem_append_right _ List.mem_cons_self

theorem lookup_of_prefix (within : names <+: later) (declared : names.lookup name = some type) :
    later.lookup name = some type := by
  obtain ⟨more, rfl⟩ := within
  rw [List.lookup_append, declared]
  rfl

theorem onlyFiles_append :
    OnlyFiles (names ++ more) ↔ OnlyFiles names ∧ OnlyFiles more :=
  List.forall_mem_append

end Declarations

namespace Statement

mutual

/-- Nothing but files is declared in the branches and loops of a statement. -/
def DeclaresOutside : Statement → Prop
  | .conditional _ _ positive negative =>
    positive.declarations.OnlyFiles ∧
      match negative with
      | none => True
      | some negative => negative.declarations.OnlyFiles
  | .loop _ _ body => body.declarations.OnlyFiles
  | .block _ body => DeclaresOutsideAll body
  | .declaration .. | .expression .. | .write .. | .read .. | .openFile .. | .fileOutput ..
  | .empty _ => True

def DeclaresOutsideAll : List Statement → Prop
  | [] => True
  | s :: rest => s.DeclaresOutside ∧ DeclaresOutsideAll rest

end

theorem declaresOutsideAll_of_onlyFiles {body : List Statement}
    (each : ∀ s ∈ body, s.declarations.OnlyFiles → s.DeclaresOutside)
    (files : (declarationsAll body).OnlyFiles) : DeclaresOutsideAll body := by
  induction body with
  | nil => exact trivial
  | cons s rest ih =>
    obtain ⟨own, others⟩ := List.forall_mem_cons.mp each
    obtain ⟨here, there⟩ := Declarations.onlyFiles_append.mp files
    exact ⟨own here, ih others there⟩

theorem declaresOutside_of_onlyFiles {s : Statement} (files : s.declarations.OnlyFiles) :
    s.DeclaresOutside := by
  induction s with
  | conditional position condition positive negative =>
    cases negative with
    | none => exact ⟨files, trivial⟩
    | some negative => exact Declarations.onlyFiles_append.mp files
  | loop => exact files
  | block position body ih => exact declaresOutsideAll_of_onlyFiles ih files
  | _ => exact trivial

end Statement

/-- Nothing but files is declared in the branches and loops of a tree. -/
def Tree.DeclaresOutside (tree : Tree) : Prop :=
  Statement.DeclaresOutsideAll tree

/-- A store has a value for every one of some names that is no file. -/
def Store.Covers (store : Store) (names : Declarations) : Prop :=
  ∀ name type, names.lookup name = some type → type ≠ .file → store.get? name ≠ none

/-- A name that is bound stays bound. -/
theorem Store.get?_set_ne_none {store : Store} {name other : String} (slot : Slot)
    (bound : other = name ∨ store.get? other ≠ none) : (store.set name slot).get? other ≠ none := by
  by_cases same : other = name
  · rw [same, store.get?_set_self]
    nofun
  · rw [store.get?_set_of_ne slot same]
    exact bound.resolve_left same

theorem PrimitiveType.exists_tag {type : PrimitiveType} (plain : type ≠ .file) :
    ∃ tag, type.static.tag? = some tag := by
  cases type with
  | file => exact absurd rfl plain
  | _ => exact ⟨_, rfl⟩

/-- A declaration of anything but files binds its names. -/
theorem get?_reset_ne_none {type : PrimitiveType} (plain : type ≠ .file)
    {declared : List Identifier} {store : Store} {other : String}
    (bound : other ∈ declared.map Identifier.name ∨ store.get? other ≠ none) :
    (reset type declared store).get? other ≠ none := by
  obtain ⟨tag, tagged⟩ := PrimitiveType.exists_tag plain
  rw [reset, tagged]
  dsimp only
  induction declared generalizing store with
  | nil => exact bound.resolve_left List.not_mem_nil
  | cons name rest ih =>
    refine ih ?_
    rcases bound with member | kept
    · rcases List.mem_cons.mp member with rfl | later
      · exact .inr (Store.get?_set_ne_none _ (.inl rfl))
      · exact .inl later
    · exact .inr (Store.get?_set_ne_none _ (.inr kept))

namespace Store.Covers

variable {store : Store} {names later more : Declarations}

theorem nil (store : Store) : store.Covers [] := by
  intro name type declared
  cases declared

theorem set (covers : store.Covers names) (name : String) (slot : Slot) :
    (store.set name slot).Covers names :=
  fun other type declared plain =>
    get?_set_ne_none slot (.inr (covers other type declared plain))

theorem of_prefix (covers : store.Covers later) (within : names <+: later) : store.Covers names :=
  fun name type declared => covers name type (Declarations.lookup_of_prefix within declared)

/-- A declaration of files puts names in force that need no value. -/
theorem append_files (covers : store.Covers names) (files : more.OnlyFiles) :
    store.Covers (names ++ more) := by
  intro name type declared plain
  rw [List.lookup_append, Option.or_eq_some_iff] at declared
  rcases declared with before | ⟨_, new⟩
  · exact covers name type before plain
  · exact absurd (files _ (Declarations.mem_of_lookup new)) plain

theorem reset (covers : store.Covers names) (type : PrimitiveType) (declared : List Identifier) :
    (reset type declared store).Covers
      (names ++ declared.map fun name => (name.name, type)) := by
  by_cases file : type = .file
  · subst file
    refine covers.append_files fun entry member => ?_
    obtain ⟨name, _, rfl⟩ := List.mem_map.mp member
    rfl
  · intro other own known plain
    refine get?_reset_ne_none file ?_
    rw [List.lookup_append, Option.or_eq_some_iff] at known
    rcases known with before | ⟨_, new⟩
    · exact .inr (covers other own before plain)
    · obtain ⟨name, member, same⟩ := List.mem_map.mp (Declarations.mem_of_lookup new)
      cases same
      exact .inl (List.mem_map_of_mem member)

end Store.Covers

/-- Where a failure is over an unset variable, that is a file. -/
def Cause.BlamesFiles (types : Declarations) (cause : Cause) : Prop :=
  ∀ name, cause = .uninitializedVariable name → types.lookup name = some .file

/-- A result is as described, or else a failure blames no variable but a file. -/
def Spares {α : Type} (types : Declarations) (post : α → Prop) : Except Cause α → Prop
  | .ok result => post result
  | .error cause => cause.BlamesFiles types

theorem Spares.bind {α β : Type} {types : Declarations} {post : α → Prop} {next : β → Prop}
    {first : Except Cause α} {rest : α → Except Cause β} (spares : Spares types post first)
    (later : ∀ result, post result → Spares types next (rest result)) :
    Spares types next (first >>= rest) := by
  cases first with
  | ok result => exact later result spares
  | error cause => exact spares

theorem Spares.mono {α : Type} {types : Declarations} {post weaker : α → Prop}
    {result : Except Cause α} (spares : Spares types post result)
    (implied : ∀ result, post result → weaker result) : Spares types weaker result := by
  cases result with
  | ok result => exact implied result spares
  | error cause => exact spares

section Operators

variable {types : Declarations} {lhs rhs slot : Slot}

theorem spares_refusal {α : Type} {post : α → Prop} (slot : Slot) (opcode : Opcode)
    (expected : Expected) : Spares types post (.error (slot.refusal opcode expected)) :=
  nofun

theorem BinaryOperator.spares_evaluate (operator : BinaryOperator) :
    Spares types (fun _ => True) (operator.evaluate lhs rhs) := by
  unfold evaluate
  cases operator.kind with
  | arithmetic =>
    dsimp only
    rcases NumberPair.ofSlots? lhs rhs with _ | ⟨a, b⟩ | ⟨x, y⟩
    · exact spares_refusal _ _ _
    · dsimp only [computeInts]
      cases operator.integer? a.toInt b.toInt with
      | some n => exact trivial
      | none => nofun
    · cases operator <;> first | exact trivial | exact spares_refusal _ _ _
  | relational =>
    dsimp only
    rcases NumberPair.ofSlots? lhs rhs with _ | ⟨a, b⟩ | ⟨x, y⟩
    · exact spares_refusal _ _ _
    · exact trivial
    · exact trivial
  | equality =>
    dsimp only
    cases equals? lhs rhs with
    | none => exact spares_refusal _ _ _
    | some same => exact trivial
  | concat | logical =>
    rcases lhs with ⟨_ | _ | _ | _⟩ | _ <;> rcases rhs with ⟨_ | _ | _ | _⟩ | _ <;>
      first | exact trivial | exact spares_refusal _ _ _

theorem UnaryOperator.spares_evaluate (operator : UnaryOperator) :
    Spares types (fun _ => True) (operator.evaluate slot) := by
  rcases slot with ⟨_ | _ | _ | _⟩ | _ <;> cases operator <;>
    first | exact trivial | exact spares_refusal _ _ _

/-- A line is read as a value, or else the line is to blame. -/
theorem spares_readAs {type : PrimitiveType} (plain : type ≠ .file) (target line : String) :
    Spares types (fun _ => True) (readAs (some type) target line) := by
  obtain ⟨tag, tagged⟩ := PrimitiveType.exists_tag plain
  rw [readAs, Option.bind_some, tagged]
  dsimp only
  cases failed : Value.ofReply tag line with
  | ok value => exact trivial
  | error cause =>
    rintro name rfl
    -- The instruction that reads does not explain an unset variable.
    have explained : Instruction.Explains ⟨∅⟩ .start (.read tag) (.uninitializedVariable name) :=
      Instruction.explains_ofReply rfl failed
    cases explained with
    | unbound _ loads => cases loads

end Operators

section Expressions

variable {policy : LogicalPolicy} {types names : Declarations} {store : Store}

/-- An expression keeps the names in force covered. -/
theorem Expression.HasType.spares_eval (within : names <+: types) {e : Expression}
    {type : PrimitiveType} (typed : e.HasType policy names type) (covers : store.Covers names) :
    Spares types (fun result => result.2.Covers names) (e.eval types store) := by
  induction typed generalizing store with
  | int | float | bool | string => exact covers
  | @«variable» node name type declared =>
    rw [eval]
    cases found : store.get? name.name with
    | some slot => exact covers
    | none =>
      rintro _ ⟨⟩
      by_cases file : type = .file
      · rw [← file]
        exact Declarations.lookup_of_prefix within declared
      · exact absurd found (covers name.name type declared file)
  | grouping node part ih => exact ih covers
  | binary node lhsPart rhsPart rule leftIH rightIH =>
    apply (leftIH covers).bind
    rintro ⟨left, middle⟩ covers
    apply (rightIH covers).bind
    rintro ⟨right, later⟩ covers
    exact (BinaryOperator.spares_evaluate _).bind fun value _ => covers
  | unary node part rule ih =>
    apply (ih covers).bind
    rintro ⟨slot, later⟩ covers
    exact (UnaryOperator.spares_evaluate _).bind fun value _ => covers
  | @assignment node target value _ _ declared part takes ih =>
    apply (ih covers).bind
    rintro ⟨slot, later⟩ covers
    exact covers.set target.name _

namespace Expression

theorem spares_evalList (within : names <+: types) {passes : PrimitiveType → Prop}
    (opcode : Opcode) {values : List Expression} (typed : HaveTypes policy names passes values)
    (covers : store.Covers names) :
    Spares types (fun result => result.2.Covers names) (evalList types opcode values store) := by
  induction values generalizing store with
  | nil => exact covers
  | cons e rest ih =>
    obtain ⟨⟨type, own, _⟩, others⟩ := List.forall_mem_cons.mp typed
    apply (own.spares_eval within covers).bind
    rintro ⟨value | path, later⟩ covers
    · exact (ih others covers).bind fun result covers => covers
    · exact spares_refusal _ _ _

theorem spares_evalCondition (within : names <+: types) {e : Expression} {type : PrimitiveType}
    (typed : e.HasType policy names type) (covers : store.Covers names) :
    Spares types (fun result => result.2.Covers names) (e.evalCondition types store) := by
  apply (typed.spares_eval within covers).bind
  rintro ⟨⟨n | x | b | s⟩ | path, later⟩ covers
  case value.bool => exact covers
  all_goals exact spares_refusal _ _ _

theorem spares_evalFileName (within : names <+: types) {e : Expression} {type : PrimitiveType}
    (typed : e.HasType policy names type) (covers : store.Covers names) :
    Spares types (fun result => result.2.Covers names) (e.evalFileName types store) := by
  apply (typed.spares_eval within covers).bind
  rintro ⟨⟨n | x | b | s⟩ | path, later⟩ covers
  case value.string => exact covers
  all_goals exact spares_refusal _ _ _

theorem spares_evalOutput (within : names <+: types) {file : Expression} {type : PrimitiveType}
    (typed : file.HasType policy names type) {passes : PrimitiveType → Prop}
    {values : List Expression} (parts : HaveTypes policy names passes values)
    (covers : store.Covers names) :
    Spares types (fun result => result.2.2.Covers names)
      (file.evalOutput types values store) := by
  apply (typed.spares_eval within covers).bind
  rintro ⟨value | path, later⟩ covers
  · exact spares_refusal _ _ _
  · exact (spares_evalList within .fappend parts covers).bind fun result covers => covers

end Expression

end Expressions

/-- An end is as described, and a failure blames no variable but a file. -/
def Outcome.Spares {World α : Type} (types : Declarations) (post : α → Prop) :
    Outcome World α → Prop
  | .done result _ => post result
  | .failed cause _ => cause.BlamesFiles types
  | .exhausted => True

namespace Outcome

variable {World α β : Type} {types : Declarations} {post : α → Prop} {next : β → Prop}

theorem Spares.andThen {outcome : Outcome World α} {rest : α → World → Outcome World β}
    (spares : outcome.Spares types post)
    (later : ∀ result, post result → ∀ world, (rest result world).Spares types next) :
    (outcome.andThen rest).Spares types next := by
  cases outcome with
  | done result world => exact later result spares world
  | failed cause world => exact spares
  | exhausted => exact trivial

theorem Spares.mono {outcome : Outcome World α} {weaker : α → Prop}
    (spares : outcome.Spares types post) (implied : ∀ result, post result → weaker result) :
    outcome.Spares types weaker := by
  cases outcome with
  | done result world => exact implied result spares
  | failed cause world => exact spares
  | exhausted => exact trivial

theorem spares_ofResult {result : Except Cause α} (spares : StackLang.Spares types post result)
    (world : World) : (ofResult world result).Spares types post := by
  cases result with
  | ok result => exact spares
  | error cause => exact spares

theorem spares_request [Host World] (r : Request) (world : World) :
    (request r world).Spares types fun _ => True := by
  unfold request
  split
  · exact trivial
  · nofun

end Outcome

section Statements

variable {policy : LogicalPolicy} {types names later : Declarations} {store : Store}
variable {World : Type} [Host World]

open Outcome

theorem spares_readInto (within : names <+: types) {targets : List Identifier}
    (declared : ∀ target ∈ targets, ∃ type, names.lookup target.name = some type ∧ type ≠ .file)
    (covers : store.Covers names) (world : World) :
    (readInto types targets store world).Spares types fun store => store.Covers names := by
  induction targets generalizing store world with
  | nil => exact covers
  | cons target rest ih =>
    obtain ⟨⟨type, known, plain⟩, others⟩ := List.forall_mem_cons.mp declared
    apply (spares_request _ world).andThen
    rintro line - world
    rw [Declarations.lookup_of_prefix within known]
    apply (spares_ofResult (spares_readAs plain _ _) world).andThen
    rintro value - world
    exact ih others (covers.set target.name _) world

omit [Host World] in
/-- What test and body of a loop keep up, the loop keeps up. -/
theorem spares_iterate {test : Store → Except Cause (Bool × Store)}
    {body : Store → World → Outcome World Store} {good : Store → Prop}
    (tested : ∀ store, good store →
      StackLang.Spares types (fun result => good result.2) (test store))
    (kept : ∀ store, good store → ∀ world, (body store world).Spares types good) (rounds : Nat)
    (start : good store) (world : World) :
    (iterate test body rounds store world).Spares types good := by
  induction rounds generalizing store world with
  | zero => exact trivial
  | succ rounds ih =>
    apply (spares_ofResult (tested store start) world).andThen
    rintro ⟨truth, middle⟩ good world
    cases truth with
    | false => exact good
    | true => exact (kept middle good world).andThen fun store good world => ih good world

/-- The names in force only grow. -/
theorem Statement.Typed.grows {s : Statement} (typed : s.Typed policy names later) :
    names <+: later :=
  ⟨s.declarations, typed.later_eq.symm⟩

theorem Statement.TypedAll.grows {body : List Statement}
    (typed : Statement.TypedAll policy names body later) : names <+: later :=
  ⟨_, (typed.later_eq fun _ _ => Typed.later_eq).symm⟩

/-- A statement that declares files only is passed by without harm. -/
theorem Statement.Typed.covers {s : Statement} (typed : s.Typed policy names later)
    (files : s.declarations.OnlyFiles) (covers : store.Covers names) : store.Covers later := by
  rw [typed.later_eq]
  exact covers.append_files files

theorem Statement.TypedAll.spares_eval {body : List Statement} {rounds : Nat}
    (each : ∀ s ∈ body, ∀ {names later : Declarations} {store : Store} {world : World},
      s.Typed policy names later → later <+: types → s.DeclaresOutside → store.Covers names →
      (s.eval types rounds store world).Spares types fun store => store.Covers later)
    (typed : Statement.TypedAll policy names body later) (within : later <+: types)
    (outside : Statement.DeclaresOutsideAll body) (covers : store.Covers names) (world : World) :
    (evalAll types rounds body store world).Spares types fun store => store.Covers later := by
  induction body generalizing names store world with
  | nil =>
    cases typed
    exact covers
  | cons s rest ih =>
    obtain ⟨own, others⟩ := List.forall_mem_cons.mp each
    cases typed with
    | cons first last =>
      apply (own first (last.grows.trans within) outside.1 covers).andThen
      exact fun store covers world => ih others last outside.2 covers world

/-- A statement leaves the names covered that are in force behind it. -/
theorem Statement.Typed.spares_eval {s : Statement} (typed : s.Typed policy names later)
    (within : later <+: types) (outside : s.DeclaresOutside) (covers : store.Covers names)
    (rounds : Nat) (world : World) :
    (s.eval types rounds store world).Spares types fun store => store.Covers later := by
  induction s generalizing names later store world with
  | declaration position type declared =>
    cases typed
    exact covers.reset type declared
  | expression position value =>
    cases typed with
    | expression _ part =>
      apply (spares_ofResult (part.spares_eval within covers) world).andThen
      exact fun result covers world => covers
  | conditional position condition positive negative positiveIH negativeIH =>
    cases typed with
    | conditional _ test branch =>
      have before := branch.grows.trans within
      apply (spares_ofResult (Expression.spares_evalCondition before test covers) world).andThen
      rintro ⟨truth, store⟩ covers world
      cases truth with
      | false => exact branch.covers outside.1 covers
      | true =>
        exact positiveIH branch within (declaresOutside_of_onlyFiles outside.1) covers world
    | alternative _ test branch other =>
      have between := other.grows.trans within
      have before := branch.grows.trans between
      apply (spares_ofResult (Expression.spares_evalCondition before test covers) world).andThen
      rintro ⟨truth, store⟩ covers world
      cases truth with
      | false =>
        exact negativeIH _ List.mem_cons_self other within (declaresOutside_of_onlyFiles outside.2)
          (branch.covers outside.1 covers) world
      | true =>
        refine (positiveIH branch between (declaresOutside_of_onlyFiles outside.1) covers
          world).mono fun store covers => ?_
        exact other.covers outside.2 covers
  | loop position condition body ih =>
    cases typed with
    | loop _ test inner =>
      have before := inner.grows.trans within
      -- Files apart, the same names are in force before the loop and after its body.
      refine spares_iterate (fun store covers => ?_) (fun store covers world => ?_) rounds
        (inner.covers outside covers) world
      · have covers := covers.of_prefix inner.grows
        refine (Expression.spares_evalCondition before test covers).mono fun result covers => ?_
        exact inner.covers outside covers
      · exact ih inner within (declaresOutside_of_onlyFiles outside)
          (covers.of_prefix inner.grows) world
  | block position body ih =>
    cases typed with
    | block _ inner =>
      exact inner.spares_eval (fun s member _ _ _ _ typed within outside covers =>
        ih s member typed within outside covers _) within outside covers world
  | write position values =>
    cases typed with
    | write _ parts =>
      have evaluated := Expression.spares_evalList within .print parts covers
      apply (spares_ofResult evaluated world).andThen
      rintro ⟨printed, store⟩ covers world
      apply (spares_request _ world).andThen
      exact fun _ _ _ => covers
  | read position targets =>
    cases typed with
    | read _ declared => exact spares_readInto within declared covers world
  | openFile position target fileName =>
    cases typed with
    | openFile _ declared part =>
      have evaluated := Expression.spares_evalFileName within part covers
      apply (spares_ofResult evaluated world).andThen
      rintro ⟨path, store⟩ covers world
      apply (spares_request _ world).andThen
      exact fun _ _ _ => covers.set target.name _
  | fileOutput position file values =>
    cases typed with
    | fileOutput _ handle parts =>
      have evaluated := Expression.spares_evalOutput within handle parts covers
      apply (spares_ofResult evaluated world).andThen
      rintro ⟨path, written, store⟩ covers world
      apply (spares_request _ world).andThen
      exact fun _ _ _ => covers
  | empty position =>
    cases typed
    exact covers

end Statements

/-- A tree that declares all but files outside of branches and loops blames files only. -/
theorem Tree.WellTyped.spares_eval {policy : LogicalPolicy} {tree : Tree} {names : Declarations}
    (typed : tree.WellTyped policy names) (outside : tree.DeclaresOutside) {World : Type}
    [Host World] (rounds : Nat) (world : World) :
    (tree.eval rounds world).Spares tree.declarations fun _ => True := by
  obtain rfl := typed.eq_declarations
  have evaluated := Statement.TypedAll.spares_eval (fun s _ _ _ _ _ typed within outside covers =>
    typed.spares_eval within outside covers rounds _) typed (List.prefix_refl _) outside
    (.nil .empty) world
  apply evaluated.andThen
  intro store _ world
  exact (Outcome.spares_request _ world).andThen fun _ _ _ => trivial

namespace Machine

variable {World : Type} [Host World] {machine : Machine} {frame next last : Frame}
variable {world between later : World} {name : String}

theorem bound_of_step (stepped : machine.step frame world = (.running next, later))
    (bound : frame.store.get? name ≠ none) : next.store.get? name ≠ none := by
  obtain ⟨i, _, leads⟩ := leads_of_step stepped
  rcases leads.store with same | ⟨saved, slot, _, same⟩
  · rwa [same]
  · rw [same]
    exact Store.get?_set_ne_none slot (.inr bound)

/-- A variable is bound behind an instruction that saves to it. -/
theorem bound_of_save (saves : machine.program.instructions[frame.place]? = some (.save name))
    (stepped : machine.step frame world = (.running next, later)) :
    next.store.get? name ≠ none := by
  unfold step move at stepped
  rw [saves] at stepped
  dsimp only [Instruction.act] at stepped
  cases stack : frame.stack with
  | nil =>
    rw [stack] at stepped
    cases stepped
  | cons slot rest =>
    rw [stack] at stepped
    cases stepped
    exact Store.get?_set_ne_none slot (.inl rfl)

/-- A run that has come to a frame without a variable saved to it in no frame before. -/
theorem not_saved {m n : Nat} (going : machine.run m .start world = (.running frame, between))
    (reached : machine.run n .start world = (.running last, later)) (before : m < n)
    (missing : last.store.get? name = none) :
    machine.program.instructions[frame.place]? ≠ some (.save name) := by
  intro saves
  obtain ⟨rounds, rfl⟩ : ∃ rounds, n = m + (rounds + 1) := ⟨n - m - 1, by omega⟩
  rw [run_add _ going] at reached
  rcases run_succ_cases machine rounds frame between with
    ⟨next, after, stepped, run⟩ | ⟨status, after, _, still, run⟩
  · rw [run] at reached
    exact run_invariant (P := fun frame => frame.store.get? name ≠ none)
      (fun _ _ _ _ bound stepped => bound_of_step stepped bound) (bound_of_save saves stepped)
      reached missing
  · rw [run] at reached
    cases reached
    exact still last rfl

end Machine

/-- A program fails over a variable that it has not saved to in any frame of the run. -/
theorem Program.not_saved_of_fails {program : Program} {labels : LabelTable}
    (resolved : program.resolve = .ok labels) {World : Type} [Host World] {world later : World}
    {place : Nat} {name : String}
    (failed : program.Fails world (.atPlace place (.uninitializedVariable name)) later)
    {frame : Frame} {between : World} (reached : program.Reaches world frame between) :
    program.instructions[frame.place]? ≠ some (.save name) := by
  obtain ⟨n, ended⟩ := (fails_iff resolved).mp failed
  obtain ⟨k, last, before, going, stepped⟩ := Machine.last_step ended (Status.failed_ne_running _)
  obtain ⟨machine, m, known, passing⟩ := reached
  cases (load_eq_ok_iff resolved machine).mp known
  obtain ⟨cause, same, ends⟩ := Machine.ends_of_step stepped
  cases same
  cases ends with
  | instruction i found explained =>
    cases explained with
    | unbound name loads missing =>
      have ran := Machine.run_of_last_step going stepped (Status.failed_ne_running _)
      have within := Machine.lt_of_ended passing ran (Status.failed_ne_running _)
      rcases Nat.lt_or_eq_of_le (Nat.le_of_lt_succ within) with earlier | rfl
      · exact Machine.not_saved passing going earlier missing
      · -- The last frame of the run is the one that loads.
        rw [passing] at going
        cases going
        intro saves
        cases loads
        cases found.symm.trans saves

/--
A compiled tree that declares all but files outside of branches and loops never uses an int, a
float, a truth value or a string before it holds a value. What it may fail over is a file that was
neither opened nor assigned: no frame of the run was at an instruction that saves to it.
-/
theorem Tree.file_of_unset (tree : Tree) (options : CheckOptions) (record : TypeRecord)
    (checked : tree.check options = .ok record) (distinct : tree.ids.Nodup)
    (few : 2 * tree.branchings < UInt32.size) (outside : tree.DeclaresOutside) :
    ∃ program, tree.compile options = .ok program ∧
      ∀ (World : Type) [Host World] (world later : World) (place : Nat) (name : String),
        program.Fails world (.atPlace place (.uninitializedVariable name)) later →
        record.symbols.typeOf? name = some .file ∧
          ∀ frame between, program.Reaches world frame between →
            program.instructions[frame.place]? ≠ some (.save name) := by
  obtain ⟨program, labels, compiled, resolved, reproduces⟩ :=
    Tree.exists_compile checked distinct few
  refine ⟨program, compiled, fun World _ world later place name failed => ⟨?_, ?_⟩⟩
  · obtain ⟨names, typed⟩ := exists_check_iff.mp ⟨record, checked⟩
    obtain ⟨n, ended⟩ := (Program.fails_iff resolved).mp failed
    have follows : Machine.Follows ⟨program, labels⟩ options.logical.Permits (n + 1) world
        (tree.eval (n + 1) world) := (reproduces World (n + 1) world).follows .system
    obtain ⟨_, _, same, _, meant⟩ := follows.eq_failed ended
    cases same
    have spares := typed.spares_eval outside (n + 1) world
    rw [meant] at spares
    rw [(holds_check checked).typeOf, spares name rfl]
    rfl
  · exact fun frame between reached => Program.not_saved_of_fails resolved failed reached

/-- The tree of `file f; fappend f 1;` fails over its file. -/
theorem Tree.file_of_unset_append :
    let at0 : Position := ⟨1, 0⟩
    let f : Identifier := ⟨"f", at0⟩
    let tree : Tree := [.declaration at0 .file [f],
      .fileOutput at0 (.variable ⟨0, at0⟩ f) [.literal ⟨1, at0⟩ (.int 1)]]
    let world : Sandbox DirectoryTree := ⟨[], .unlimited, .scratch⟩
    ∃ record, tree.check .standard = .ok record ∧ tree.ids.Nodup ∧
      2 * tree.branchings < UInt32.size ∧ tree.DeclaresOutside ∧
      ∃ program place later, tree.compile .standard = .ok program ∧
        program.Fails world (.atPlace place (.uninitializedVariable "f")) later ∧
        record.symbols.typeOf? "f" = some .file ∧
        ∀ frame between, program.Reaches world frame between →
          program.instructions[frame.place]? ≠ some (.save "f") := by
  intro at0 f tree world
  have typed : tree.WellTyped .matchingTypes [("f", .file)] :=
    .cons (.declaration at0 (by decide) (by decide)) <|
      .cons (.fileOutput at0 (.variable ⟨0, at0⟩ (by decide))
        (List.forall_mem_singleton.mpr ⟨.int, .int ⟨1, at0⟩ 1, .inl rfl⟩)) .nil
  obtain ⟨record, checked⟩ : ∃ record, tree.check .standard = .ok record :=
    exists_check_iff.mpr ⟨_, typed⟩
  have distinct : tree.ids.Nodup := by decide
  have few : 2 * tree.branchings < UInt32.size := by decide
  have outside : tree.DeclaresOutside := ⟨trivial, trivial, trivial⟩
  obtain ⟨program, compiled, files⟩ := file_of_unset tree _ _ checked distinct few outside
  obtain ⟨_, labels, again, resolved, reproduces⟩ := exists_compile checked distinct few
  cases compiled.symm.trans again
  have meant : tree.eval 0 world = .failed (.uninitializedVariable "f") world := rfl
  have follows : Machine.Follows ⟨program, labels⟩ _ 0 world (tree.eval 0 world) :=
    (reproduces _ 0 world).follows .system
  rw [meant] at follows
  cases follows with
  | @failed n place _ _ ended permitted =>
    have failed := (Program.fails_iff resolved).mpr ⟨n, ended⟩
    exact ⟨record, checked, distinct, few, outside, program, place, world, compiled, failed,
      files _ world world place "f" failed⟩

end StackLang
