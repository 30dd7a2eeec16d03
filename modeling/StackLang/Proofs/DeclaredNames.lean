import StackLang.Proofs.Evaluation
import StackLang.Proofs.TreeShape
import StackLang.Typing

/-!
# Declared names

As long as nothing is reported, the table that checking builds up says of every
name what the declarations say that were met so far. A name that is known keeps
its type, since it has no second declaration.
-/
namespace StackLang

/-- A table that knows exactly the declared names, each with its declared type. -/
structure SymbolTable.Holds (table : SymbolTable) (types : Declarations) : Prop where
  inRange : ∀ (name : String) (place : Nat),
    table.places[name]? = some place → place < table.symbols.size
  typeOf : ∀ name, table.typeOf? name = (types.lookup name).map PrimitiveType.static

namespace SymbolTable

variable {table later : SymbolTable} {types more : Declarations} {name : String}

theorem holds_empty : empty.Holds [] := by
  refine ⟨fun name place found => ?_, fun name => ?_⟩
  · simp [empty] at found
  · rw [typeOf?, get?_empty]
    rfl

theorem declare_eq_ok {symbol : Symbol} (declared : table.declare symbol = .ok later) :
    table.get? symbol.name = none ∧
      later = ⟨table.symbols.push symbol, table.places.insert symbol.name table.symbols.size⟩ := by
  rw [declare] at declared
  split at declared
  · cases declared
  next unknown =>
    cases declared
    exact ⟨unknown, rfl⟩

theorem get?_declare_of_ne {symbol : Symbol}
    (inRange : ∀ place, table.places[name]? = some place → place < table.symbols.size)
    (declared : table.declare symbol = .ok later) (differs : symbol.name ≠ name) :
    later.get? name = table.get? name := by
  obtain ⟨_, rfl⟩ := declare_eq_ok declared
  have other : (symbol.name == name) = false := by simpa using differs
  simp only [get?, Std.HashMap.getElem?_insert, other, Bool.false_eq_true, if_false]
  cases found : table.places[name]? with
  | none => rfl
  | some place =>
    have inside := inRange place found
    simp only [Option.bind_some]
    rw [Array.getElem?_push_lt inside, Array.getElem?_eq_getElem inside]

theorem holds_declare {type : PrimitiveType} {position : Position} (holds : table.Holds types)
    (declared : table.declare ⟨name, type.static, position⟩ = .ok later) :
    later.Holds (types ++ [(name, type)]) := by
  obtain ⟨unknown, made⟩ := declare_eq_ok declared
  refine ⟨?_, fun other => ?_⟩
  · intro other place found
    rw [made] at found ⊢
    simp only [Std.HashMap.getElem?_insert, Array.size_push] at found ⊢
    split at found
    · cases found
      exact Nat.lt_succ_self _
    · exact Nat.lt_succ_of_lt (holds.inRange other place found)
  · rw [List.lookup_append]
    by_cases same : name = other
    · subst same
      have fresh : types.lookup name = none := by
        have known := holds.typeOf name
        rw [typeOf?, unknown] at known
        simpa using known.symm
      rw [typeOf?, get?_declare_self declared, fresh]
      simp [List.lookup_cons_self]
    · have differs : (other == name) = false := by simpa using Ne.symm same
      have kept : later.typeOf? other = table.typeOf? other := by
        rw [typeOf?, get?_declare_of_ne (holds.inRange other) declared same]
        rfl
      rw [kept, holds.typeOf]
      simp [List.lookup_cons, differs]

/-- A name that is known keeps its type. -/
theorem typeOf?_of_holds (holds : table.Holds types) (laterHolds : later.Holds (types ++ more))
    {type : StaticType} (known : table.typeOf? name = some type) :
    later.typeOf? name = some type := by
  rw [holds.typeOf] at known
  obtain ⟨declared, found, rfl⟩ := Option.map_eq_some_iff.mp known
  rw [laterHolds.typeOf, List.lookup_append, found]
  rfl

theorem ne_error_of_holds (holds : table.Holds types) {type : StaticType}
    (known : table.typeOf? name = some type) : type ≠ .error := by
  rw [holds.typeOf] at known
  obtain ⟨declared, _, rfl⟩ := Option.map_eq_some_iff.mp known
  cases declared <;> nofun

end SymbolTable

section Checked

variable {options : CheckOptions} {symbols : SymbolTable} {types : Declarations}

theorem symbols_judgeAll {fault : StaticType → Option DiagnosticCause}
    (values : List Expression) : (judgeAll options symbols fault values).symbols = symbols := by
  induction values with
  | nil => rfl
  | cons e rest ih => exact ih

theorem eq_none_of_diagnostics {position : Position} {fault : Option DiagnosticCause}
    (clean : fault.toList.map (Diagnostic.mk position) = []) : fault = none := by
  cases fault with
  | none => rfl
  | some cause => cases clean

theorem diagnostics_judged {judgement : Judgement} {position : Position}
    {fault : Option DiagnosticCause} {later : Findings}
    (clean : (later.judged judgement position fault).diagnostics = []) :
    judgement.diagnostics = [] ∧ fault = none ∧ later.diagnostics = [] := by
  obtain ⟨both, rest⟩ := List.append_eq_nil_iff.mp clean
  obtain ⟨parts, own⟩ := List.append_eq_nil_iff.mp both
  exact ⟨parts, eq_none_of_diagnostics own, rest⟩

theorem diagnostics_following {earlier later : Findings}
    (clean : (earlier.following later).diagnostics = []) :
    earlier.diagnostics = [] ∧ later.diagnostics = [] :=
  List.append_eq_nil_iff.mp clean

section Growth

-- A relation between a table and the names declared so far, which every new declaration keeps.
variable {Keeps : SymbolTable → Declarations → Prop}

theorem keeps_checkAll {body : List Statement}
    (each : ∀ s ∈ body, ∀ {symbols types}, Keeps symbols types →
      (s.check options symbols).diagnostics = [] →
      Keeps (s.check options symbols).symbols (types ++ s.declarations))
    (keeps : Keeps symbols types) (clean : (checkAll options symbols body).diagnostics = []) :
    Keeps (checkAll options symbols body).symbols (types ++ Statement.declarationsAll body) := by
  induction body generalizing symbols types with
  | nil => rwa [Statement.declarationsAll, List.append_nil]
  | cons s rest ih =>
    obtain ⟨own, others⟩ := List.forall_mem_cons.mp each
    obtain ⟨here, there⟩ := diagnostics_following clean
    have grown := ih others (own keeps here) there
    rwa [List.append_assoc] at grown

variable (grows : ∀ {table later : SymbolTable} {types : Declarations} {name : String}
  {type : PrimitiveType} {position : Position}, Keeps table types →
  table.declare ⟨name, type.static, position⟩ = .ok later → Keeps later (types ++ [(name, type)]))

include grows

theorem keeps_declareAll {type : PrimitiveType} {names : List Identifier}
    (keeps : Keeps symbols types)
    (clean : (declareAll symbols type.static names).diagnostics = []) :
    Keeps (declareAll symbols type.static names).symbols
      (types ++ names.map fun name => (name.name, type)) := by
  induction names generalizing symbols types with
  | nil => rwa [List.map_nil, List.append_nil]
  | cons name rest ih =>
    unfold declareAll at clean ⊢
    cases declared : symbols.declare ⟨name.name, type.static, name.position⟩ with
    | error previous =>
      rw [declared] at clean
      cases clean
    | ok later =>
      rw [declared] at clean
      dsimp only at clean ⊢
      have grown := ih (grows keeps declared) clean
      rwa [List.append_assoc] at grown

/-- A statement without diagnostics adds its declarations to the table, one by one. -/
theorem keeps_check {s : Statement} (keeps : Keeps symbols types)
    (clean : (s.check options symbols).diagnostics = []) :
    Keeps (s.check options symbols).symbols (types ++ s.declarations) := by
  induction s generalizing symbols types with
  | declaration position type names => exact keeps_declareAll grows keeps clean
  | conditional position condition positive negative positiveIH negativeIH =>
    cases negative with
    | none => exact positiveIH keeps (diagnostics_judged clean).2.2
    | some negative =>
      obtain ⟨here, there⟩ := diagnostics_following (diagnostics_judged clean).2.2
      have grown := negativeIH negative List.mem_cons_self (positiveIH keeps here) there
      rwa [List.append_assoc] at grown
  | loop position condition body ih => exact ih keeps (diagnostics_judged clean).2.2
  | block position body ih => exact keeps_checkAll (fun s member => ih s member) keeps clean
  | expression | read | openFile | empty => rwa [Statement.declarations, List.append_nil]
  | write position values | fileOutput position _ values =>
    rw [Statement.declarations, List.append_nil]
    change Keeps (judgeAll options symbols _ values).symbols types
    rwa [symbols_judgeAll]

/-- A tree without diagnostics fills the table it starts with by its declarations. -/
theorem keeps_tree {tree : Tree} {record : TypeRecord} (start : Keeps .empty [])
    (checked : tree.check options = .ok record) : Keeps record.symbols tree.declarations := by
  unfold Tree.check at checked
  dsimp only at checked
  split at checked
  next clean =>
    cases checked
    exact keeps_checkAll (fun s _ => keeps_check grows) start (List.isEmpty_iff.mp clean)
  next => cases checked

end Growth

theorem holds_declareAll {type : PrimitiveType} {names : List Identifier}
    (holds : symbols.Holds types)
    (clean : (declareAll symbols type.static names).diagnostics = []) :
    (declareAll symbols type.static names).symbols.Holds
      (types ++ names.map fun name => (name.name, type)) :=
  keeps_declareAll SymbolTable.holds_declare holds clean

theorem holds_checkAll {body : List Statement} (holds : symbols.Holds types)
    (clean : (checkAll options symbols body).diagnostics = []) :
    (checkAll options symbols body).symbols.Holds (types ++ Statement.declarationsAll body) :=
  keeps_checkAll (fun _ _ => keeps_check SymbolTable.holds_declare) holds clean

/-- The table knows the declarations of a statement without diagnostics. -/
theorem holds_check {s : Statement} (holds : symbols.Holds types)
    (clean : (s.check options symbols).diagnostics = []) :
    (s.check options symbols).symbols.Holds (types ++ s.declarations) :=
  keeps_check SymbolTable.holds_declare holds clean

/-- The table of a well-typed tree knows exactly the declared names. -/
theorem Tree.holds_check {tree : Tree} {record : TypeRecord}
    (checked : tree.check options = .ok record) : record.symbols.Holds tree.declarations :=
  keeps_tree SymbolTable.holds_declare SymbolTable.holds_empty checked

end Checked

end StackLang
