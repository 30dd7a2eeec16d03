import Mathlib.Data.Finset.Card
import StackLang.Names
import StackLang.Proofs.DeclaredNames

/-!
# Lists with an index of names

The table of interned names and the symbol table each keep a list beside a map
from names to places in the list, and write to one after the other. The two stay
inverse to each other whatever is put in, and however often. So a name has one
index for good, no other name has it, and a symbol is found under its name as it
was first declared.
-/
namespace StackLang

/-- A look-up gives each name of a list its place, and no other name anything. -/
def Indexes (find : String → Option Nat) (names : List String) : Prop :=
  ∀ name place, find name = some place ↔ names[place]? = some name

namespace Indexes

variable {find later : String → Option Nat} {names : List String} {name : String}

/-- A name that stood in two places would have both as its place. -/
theorem nodup (indexes : Indexes find names) : names.Nodup := by
  refine List.nodup_iff_getElem?_ne_getElem?.mpr fun first second less inside same => ?_
  have there := List.getElem?_eq_getElem inside
  have once := (indexes _ first).mpr (same.trans there)
  have again := (indexes _ second).mpr there
  have equal := Option.some.inj (once.symm.trans again)
  omega

theorem eq_none_iff (indexes : Indexes find names) : find name = none ↔ name ∉ names := by
  rw [Option.eq_none_iff_forall_ne_some, List.mem_iff_getElem?, not_exists]
  exact forall_congr' fun place => not_congr (indexes name place)

/-- A new name gets the place behind the last one. -/
theorem concat (indexes : Indexes find names) (new : name ∉ names)
    (enters : ∀ other, later other = if name = other then some names.length else find other) :
    Indexes later (names ++ [name]) := by
  intro other place
  rw [enters, List.getElem?_append]
  by_cases same : name = other
  · subst same
    rw [if_pos rfl, Option.some.injEq]
    split
    next inside =>
      have absent : names[place]? ≠ some name := fun there => new (List.mem_of_getElem? there)
      simp only [absent, iff_false]
      omega
    next outside =>
      rw [List.getElem?_singleton]
      split <;> simp <;> omega
  · rw [if_neg same, indexes]
    split
    next inside => rfl
    next outside =>
      rw [List.getElem?_eq_none (by omega), List.getElem?_singleton]
      split <;> simp [same]

end Indexes

/-- A list without repeats is as long as there are different names among those put in. -/
theorem length_eq_card {names given : List String} (nodup : names.Nodup)
    (same : ∀ name, name ∈ names ↔ name ∈ given) : names.length = given.toFinset.card := by
  rw [← List.toFinset_card_of_nodup nodup]
  congr 1
  ext name
  rw [List.mem_toFinset, List.mem_toFinset, same]

theorem card_le_of_subset {names given : List String} (subset : names ⊆ given) :
    names.toFinset.card ≤ given.toFinset.card := by
  refine Finset.card_le_card fun name member => ?_
  rw [List.mem_toFinset] at member ⊢
  exact subset member

namespace SymbolTable

/-- Puts a symbol into a table: the place behind the last one into the index, then the symbol there. -/
def append (symbol : Symbol) : EStateM Symbol SymbolTable Unit := do
  modify fun table => { table with places := table.places.insert symbol.name table.symbols.size }
  modify fun table => { table with symbols := table.symbols.push symbol }

/-- A declaration as it changes a table, with the symbol that has the name already as its failure. -/
def enter (symbol : Symbol) : EStateM Symbol SymbolTable Unit := do
  match (← get).get? symbol.name with
  | some previous => throw previous
  | none => append symbol

/-- For each of some declarations the symbol that was in its way, and the table that they leave. -/
def enterAll (table : SymbolTable) : List Symbol → List (Option Symbol) × SymbolTable
  | [] => ([], table)
  | symbol :: rest =>
    match enter symbol table with
    | .ok _ later => ((later.enterAll rest).1.cons none, (later.enterAll rest).2)
    | .error previous later => ((later.enterAll rest).1.cons previous, (later.enterAll rest).2)

variable {table later : SymbolTable} {symbol previous : Symbol} {calls : List Symbol}

theorem enter_eq (symbol : Symbol) (table : SymbolTable) :
    enter symbol table =
      (match table.get? symbol.name with
        | some previous => throw previous
        | none => append symbol : EStateM Symbol SymbolTable Unit) table := rfl

theorem enter_of_declare_eq_error (declared : table.declare symbol = .error previous) :
    enter symbol table = .error previous table := by
  rw [declare] at declared
  split at declared
  next known =>
    cases declared
    rw [enter_eq, known]
    rfl
  next => cases declared

theorem enter_of_declare_eq_ok (declared : table.declare symbol = .ok later) :
    enter symbol table = .ok () later := by
  obtain ⟨new, rfl⟩ := declare_eq_ok declared
  rw [enter_eq, new]
  rfl

/-- The index of a table has the place of every symbol under its name, and nothing else. -/
def IsIndexed (table : SymbolTable) : Prop :=
  Indexes (table.places[·]?) (table.toList.map Symbol.name)

theorem getElem?_names (table : SymbolTable) (place : Nat) :
    (table.toList.map Symbol.name)[place]? = table.symbols[place]?.map Symbol.name := by
  simp [toList]

namespace IsIndexed

variable {name : String} {place : Nat}

theorem places_iff (indexed : table.IsIndexed) :
    table.places[name]? = some place ↔
      ∃ symbol, table.symbols[place]? = some symbol ∧ symbol.name = name := by
  rw [← Option.map_eq_some_iff, ← getElem?_names]
  exact indexed name place

/-- A place found in the index can be looked up without a check. -/
theorem inRange (indexed : table.IsIndexed) (found : table.places[name]? = some place) :
    place < table.symbols.size := by
  obtain ⟨symbol, there, _⟩ := indexed.places_iff.mp found
  exact (Array.getElem?_eq_some_iff.mp there).1

theorem get?_eq_none_iff (indexed : table.IsIndexed) :
    table.get? name = none ↔ name ∉ table.toList.map Symbol.name := by
  rw [← Indexes.eq_none_iff indexed, get?]
  cases found : table.places[name]? with
  | none => simp
  | some place =>
    obtain ⟨symbol, there, _⟩ := indexed.places_iff.mp found
    simp [there]

theorem declare (indexed : table.IsIndexed) (declared : table.declare symbol = .ok later) :
    later.IsIndexed := by
  have new := indexed.get?_eq_none_iff.mp (declare_eq_ok declared).1
  rw [IsIndexed, toList_declare declared, List.map_append]
  refine Indexes.concat indexed new fun other => ?_
  obtain ⟨_, rfl⟩ := declare_eq_ok declared
  simp [Std.HashMap.getElem?_insert, toList]

end IsIndexed

/-- The first of some declarations that declares a name. -/
def firstOf? (calls : List Symbol) (name : String) : Option Symbol :=
  calls.find? fun symbol => symbol.name = name

theorem firstOf?_concat (calls : List Symbol) (symbol : Symbol) (name : String) :
    firstOf? (calls ++ [symbol]) name =
      (firstOf? calls name).or (if symbol.name = name then some symbol else none) := by
  rw [firstOf?, List.find?_append, List.find?_singleton]
  simp [firstOf?]

/-- What a table holds after some declarations. -/
structure Represents (table : SymbolTable) (calls : List Symbol) : Prop where
  indexed : table.IsIndexed
  first : ∀ name, table.get? name = firstOf? calls name

namespace Represents

theorem empty : SymbolTable.empty.Represents [] := by
  refine ⟨fun name place => ?_, get?_empty⟩
  simp [SymbolTable.empty, toList]

theorem mem_names_iff (represents : table.Represents calls) (name : String) :
    name ∈ table.toList.map Symbol.name ↔ name ∈ calls.map Symbol.name := by
  rw [← not_iff_not, ← represents.indexed.get?_eq_none_iff, represents.first]
  simp [firstOf?]

/-- A name that is known already has its first declaration among the earlier ones. -/
theorem refuse (represents : table.Represents calls)
    (declared : table.declare symbol = .error previous) :
    table.Represents (calls ++ [symbol]) := by
  refine ⟨represents.indexed, fun name => ?_⟩
  rw [firstOf?_concat, ← represents.first]
  by_cases same : symbol.name = name
  · subst same
    cases known : table.get? symbol.name with
    | none => simp [SymbolTable.declare, known] at declared
    | some previous => rfl
  · rw [if_neg same, Option.or_none]

theorem accept (represents : table.Represents calls)
    (declared : table.declare symbol = .ok later) : later.Represents (calls ++ [symbol]) := by
  refine ⟨represents.indexed.declare declared, fun name => ?_⟩
  rw [firstOf?_concat, ← represents.first]
  by_cases same : symbol.name = name
  · subst same
    rw [get?_declare_self declared, (declare_eq_ok declared).1, if_pos rfl, Option.none_or]
  · have inRange : ∀ place, table.places[name]? = some place → place < table.symbols.size :=
      fun place found => represents.indexed.inRange found
    rw [get?_declare_of_ne inRange declared same, if_neg same, Option.or_none]

theorem enterAll (represents : table.Represents calls) (more : List Symbol) :
    (table.enterAll more).2.Represents (calls ++ more) := by
  induction more generalizing table calls with
  | nil => rwa [List.append_nil]
  | cons symbol rest ih =>
    rw [List.append_cons]
    unfold SymbolTable.enterAll
    cases declared : table.declare symbol with
    | ok later =>
      rw [enter_of_declare_eq_ok declared]
      exact ih (represents.accept declared)
    | error previous =>
      rw [enter_of_declare_eq_error declared]
      exact ih (represents.refuse declared)

end Represents

/-- The symbols of a table are those it had and, in the order of the calls, those it took. -/
theorem toList_enterAll (table : SymbolTable) (calls : List Symbol) :
    (table.enterAll calls).2.toList = table.toList ++
      ((calls.zip (table.enterAll calls).1).filter fun call => call.2.isNone).map Prod.fst := by
  induction calls generalizing table with
  | nil => simp [enterAll]
  | cons symbol rest ih =>
    unfold enterAll
    cases declared : table.declare symbol with
    | ok later =>
      rw [enter_of_declare_eq_ok declared]
      simp [ih, toList_declare declared]
    | error previous =>
      rw [enter_of_declare_eq_error declared]
      simp [ih]

theorem length_enterAll (table : SymbolTable) (calls : List Symbol) :
    (table.enterAll calls).1.length = calls.length := by
  induction calls generalizing table with
  | nil => rfl
  | cons symbol rest ih =>
    unfold enterAll
    cases enter symbol table with
    | ok _ later => simp [ih]
    | error previous later => simp [ih]

/--
However often names are declared on a new table, its index has a name at a place just when the
symbol at that place has the name, and no name is there twice. The symbols are those of the
declarations that succeeded, in the order of these, and under every name its first declaration is
found, or nothing if there is none. There are as many symbols as different names were declared. A
further declaration of a known name fails with the first one, and the table stays as it was; one of
a new name succeeds.
-/
theorem represents_declarations (calls : List Symbol) :
    let replies := (empty.enterAll calls).1
    let table := (empty.enterAll calls).2
    (∀ name place, table.places[name]? = some place ↔
      ∃ symbol : Symbol, table.symbols[place]? = some symbol ∧ symbol.name = name) ∧
    (table.toList.map Symbol.name).Nodup ∧
    replies.length = calls.length ∧
    table.toList = ((calls.zip replies).filter fun call => call.2.isNone).map Prod.fst ∧
    (∀ name, table.get? name = firstOf? calls name ∧
      table.typeOf? name = (firstOf? calls name).map Symbol.type) ∧
    table.size = (calls.map Symbol.name).toFinset.card ∧
    ∀ symbol, match firstOf? calls symbol.name with
      | some first =>
        enter symbol table = .error first table ∧ table.declare symbol = .error first
      | none =>
        ∃ later, enter symbol table = .ok () later ∧ table.declare symbol = .ok later ∧
          later.toList = table.toList ++ [symbol] := by
  intro replies table
  have represents : table.Represents calls := Represents.empty.enterAll calls
  refine ⟨fun name place => represents.indexed.places_iff, Indexes.nodup represents.indexed,
    length_enterAll empty calls, toList_enterAll empty calls, fun name => ?_, ?_, fun symbol => ?_⟩
  · exact ⟨represents.first name, congrArg (Option.map Symbol.type) (represents.first name)⟩
  · have nodup := Indexes.nodup represents.indexed
    rw [← length_eq_card nodup represents.mem_names_iff, List.length_map]
    exact Array.length_toList.symm
  · rw [← represents.first]
    split
    next first known =>
      have refused : table.declare symbol = .error first := by rw [declare, known]
      exact ⟨enter_of_declare_eq_error refused, refused⟩
    next new =>
      obtain ⟨later, accepted⟩ : ∃ later, table.declare symbol = .ok later := by
        rw [declare, new]
        exact ⟨_, rfl⟩
      exact ⟨later, enter_of_declare_eq_ok accepted, accepted, toList_declare accepted⟩

-- A second declaration is answered by the first, whatever type it gives to the name.
example : (empty.enterAll [⟨"n", .int, ⟨1, 4⟩⟩, ⟨"n", .float, ⟨2, 6⟩⟩]).1 =
    [none, some ⟨"n", .int, ⟨1, 4⟩⟩] := by
  cbv

end SymbolTable

namespace NameTable

/-- The indices of names interned one after the other, and the table that this leaves. -/
def internAll (table : NameTable) : List String → List UInt32 × NameTable
  | [] => ([], table)
  | name :: rest =>
    let (index, later) := table.intern name
    ((later.internAll rest).1.cons index, (later.internAll rest).2)

variable {table : NameTable} {name : String} {index : UInt32} {given : List String}

theorem intern_of_new (new : table.index? name = none) :
    table.intern name = (.ofNat table.names.size, ⟨table.names.push name,
      table.indices.insert name (.ofNat table.names.size)⟩) := by
  rw [intern, new]

/-- An index once given is kept, whatever else is interned. -/
theorem index?_intern_of_index? (known : table.index? name = some index) (other : String) :
    (table.intern other).2.index? name = some index := by
  cases found : table.index? other with
  | some place => rwa [intern_of_index? found]
  | none =>
    have differs : other ≠ name := by
      rintro rfl
      rw [found] at known
      cases known
    rw [intern_of_new found]
    simpa [index?, Std.HashMap.getElem?_insert, differs] using known

theorem index?_internAll (known : table.index? name = some index) (given : List String) :
    (table.internAll given).2.index? name = some index := by
  induction given generalizing table with
  | nil => exact known
  | cons other rest ih => exact ih (index?_intern_of_index? known other)

/-- In the end every name has the index that was given for it. -/
theorem index?_of_mem_zip (table : NameTable) (given : List String) :
    ∀ call ∈ given.zip (table.internAll given).1,
      (table.internAll given).2.index? call.1 = some call.2 := by
  induction given generalizing table with
  | nil => exact List.forall_mem_nil _
  | cons name rest ih =>
    exact List.forall_mem_cons.mpr ⟨index?_internAll (index?_intern table name) rest, ih _⟩

theorem length_internAll (table : NameTable) (given : List String) :
    (table.internAll given).1.length = given.length := by
  induction given generalizing table with
  | nil => rfl
  | cons name rest ih => exact congrArg Nat.succ (ih _)

theorem internAll_take (table : NameTable) (given : List String) (count : Nat) :
    (table.internAll (given.take count)).1 = (table.internAll given).1.take count := by
  induction given generalizing table count with
  | nil => simp [internAll]
  | cons name rest ih =>
    cases count with
    | zero => rfl
    | succ count => exact congrArg (List.cons _) (ih _ count)

/-- What a table holds after some names were interned: each of them has a place, with its index. -/
structure Interned (table : NameTable) (given : List String) : Prop where
  inverse : Indexes (fun name => (table.index? name).map UInt32.toNat) table.names.toList
  same : ∀ name, name ∈ table.names.toList ↔ name ∈ given

namespace Interned

theorem empty : NameTable.empty.Interned [] := by
  refine ⟨fun name place => ?_, fun name => ?_⟩
  · simp [NameTable.empty, index?]
  · simp [NameTable.empty]

theorem index?_eq_none_iff (interned : table.Interned given) :
    table.index? name = none ↔ name ∉ given := by
  rw [← interned.same, ← interned.inverse.eq_none_iff, Option.map_eq_none_iff]

theorem index?_iff (interned : table.Interned given) :
    table.index? name = some index ↔ table.name? index = some name := by
  rw [name?, ← Array.getElem?_toList, ← interned.inverse name index.toNat]
  simp [Option.map_eq_some_iff, UInt32.toNat_inj]

/-- As long as there is an index for it, one more name keeps list and index inverse. -/
theorem intern (interned : table.Interned given)
    (few : (given ++ [name]).toFinset.card ≤ UInt32.size) :
    (table.intern name).2.Interned (given ++ [name]) := by
  cases found : table.index? name with
  | some index =>
    have known : name ∈ given := by
      by_contra new
      rw [interned.index?_eq_none_iff.mpr new] at found
      cases found
    rw [intern_of_index? found]
    refine ⟨interned.inverse, fun other => ?_⟩
    rw [interned.same, List.mem_append, List.mem_singleton]
    constructor
    · exact .inl
    · rintro (before | rfl)
      · exact before
      · exact known
  | none =>
    have new : name ∉ table.names.toList := by
      rw [interned.same]
      exact interned.index?_eq_none_iff.mp found
    have same : ∀ other, other ∈ table.names.toList ++ [name] ↔ other ∈ given ++ [name] := by
      intro other
      rw [List.mem_append, List.mem_append, interned.same]
    have room : table.names.size < UInt32.size := by
      have nodup : (table.names.toList ++ [name]).Nodup :=
        interned.inverse.nodup.append (List.nodup_singleton name) (List.disjoint_singleton.mpr new)
      have length := length_eq_card nodup same
      rw [List.length_append, List.length_singleton, Array.length_toList] at length
      omega
    rw [intern_of_new found]
    refine ⟨?_, ?_⟩
    · rw [Array.toList_push]
      refine interned.inverse.concat new fun other => ?_
      by_cases this : name = other
      · simp [index?, this, UInt32.toNat_ofNat_of_lt' room]
      · simp [index?, this, Std.HashMap.getElem?_insert]
    · rwa [Array.toList_push]

theorem internAll (interned : table.Interned given) (more : List String)
    (few : (given ++ more).toFinset.card ≤ UInt32.size) :
    (table.internAll more).2.Interned (given ++ more) := by
  induction more generalizing table given with
  | nil => rwa [List.append_nil]
  | cons name rest ih =>
    rw [List.append_cons] at few ⊢
    have fewer := card_le_of_subset (List.subset_append_left (given ++ [name]) rest)
    exact ih (interned.intern (Nat.le_trans fewer few)) few

end Interned

/-- Interning neither changes nor repeats what the table has: a new name goes behind the others. -/
theorem intern_cases (table : NameTable) (name : String) :
    match table.index? name with
    | some index => table.intern name = (index, table)
    | none => (table.intern name).2.names.toList = table.names.toList ++ [name] ∧
        ∀ other index, table.index? other = some index →
          (table.intern name).2.index? other = some index := by
  split
  next index known => exact intern_of_index? known
  next new =>
    refine ⟨?_, fun other index known => index?_intern_of_index? known name⟩
    rw [intern_of_new new, Array.toList_push]

/--
Fewer than 2^32 different names are interned one after the other on a new table. Two of the calls
give the same index just when they were given the same name. An index has its name from the call
that gave it on, and is shown as that name. The list of names and the map to their indices are
inverse to each other, and every name given is in the list once. One more call for a known name
gives its index and changes nothing; a new name goes to the end of the list, and the others keep
their indices.
-/
theorem indices_stand_for_names (given : List String) (few : given.toFinset.card < UInt32.size) :
    let indices := (empty.internAll given).1
    let table := (empty.internAll given).2
    let calls := given.zip indices
    indices.length = given.length ∧
    (∀ call ∈ calls, ∀ other ∈ calls, call.2 = other.2 ↔ call.1 = other.1) ∧
    (∀ count, ∀ call ∈ calls.take count, ∀ text,
      let later := (empty.internAll (given.take count)).2
      later.name? call.2 = some call.1 ∧ later.write? text call.2 = some (text ++ call.1)) ∧
    (∀ name place, (table.index? name).map UInt32.toNat = some place ↔
      table.names[place]? = some name) ∧
    (table.names.toList.Nodup ∧ ∀ name, name ∈ table.names.toList ↔ name ∈ given) ∧
    ∀ name, match table.index? name with
      | some index => table.intern name = (index, table)
      | none => (table.intern name).2.names.toList = table.names.toList ++ [name] ∧
          ∀ other index, table.index? other = some index →
            (table.intern name).2.index? other = some index := by
  intro indices table calls
  have interned : table.Interned given := Interned.empty.internAll given (Nat.le_of_lt few)
  refine ⟨length_internAll empty given, ?_, ?_, ?_, ⟨interned.inverse.nodup, interned.same⟩,
    table.intern_cases⟩
  · intro call member other otherMember
    have found := index?_of_mem_zip empty given call member
    have otherFound := index?_of_mem_zip empty given other otherMember
    constructor
    · intro same
      have named := interned.index?_iff.mp found
      rw [same, interned.index?_iff.mp otherFound] at named
      exact (Option.some.inj named).symm
    · intro same
      rw [same, otherFound] at found
      exact (Option.some.inj found).symm
  · intro count call member text later
    have fewer := card_le_of_subset (List.take_subset count given)
    have earlier : later.Interned (given.take count) :=
      Interned.empty.internAll _ (Nat.le_trans fewer (Nat.le_of_lt few))
    change call ∈ (List.zipWith Prod.mk given indices).take count at member
    rw [List.take_zipWith, ← internAll_take] at member
    have named := earlier.index?_iff.mp (index?_of_mem_zip empty _ call member)
    refine ⟨named, ?_⟩
    rw [write?, named]
    rfl
  · intro name place
    rw [← Array.getElem?_toList]
    exact interned.inverse name place

/-- A name that comes again has the index it had, and another name has another one. -/
theorem indices_stand_for_names_counter :
    let given := ["counter", "other_counter", "counter"]
    given.toFinset.card < UInt32.size ∧
      ∃ index other, (empty.internAll given).1 = [index, other, index] ∧ other ≠ index ∧
        (empty.internAll given).2.name? index = some "counter" := by
  intro given
  have few : given.toFinset.card < UInt32.size := by decide
  obtain ⟨length, told, kept, _⟩ := indices_stand_for_names given few
  obtain ⟨first, second, third, all⟩ := List.length_eq_three.mp length
  rw [all] at told kept
  have again : third = first := (told ("counter", third) (by simp [given]) ("counter", first)
    (by simp [given])).mpr rfl
  subst again
  refine ⟨few, third, second, all, ?_, (kept 3 ("counter", third) (by simp [given]) "").1⟩
  intro same
  have equal : "other_counter" = "counter" := (told ("other_counter", second) (by simp [given])
    ("counter", third) (by simp [given])).mp same
  exact absurd equal (by decide)

end NameTable

end StackLang
