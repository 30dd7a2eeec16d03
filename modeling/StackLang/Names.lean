import Std.Data.HashMap
import StackLang.Value

/-!
# Tables of names

Two tables keep names in the order they come and find each of them again: one
gives names their indices, the other has the declared names with their types.
-/
namespace StackLang

/-!
## Interned names

A table that gives every name one index, in the order the names first appear.
The list of names and the map from names to indices are inverse to each other.
-/

structure NameTable where
  names : Array String
  indices : Std.HashMap String UInt32

namespace NameTable

def empty : NameTable :=
  ⟨#[], ∅⟩

def name? (table : NameTable) (index : UInt32) : Option String :=
  table.names[index.toNat]?

/-- A text with the name that has an index behind it. -/
def write? (table : NameTable) (text : String) (index : UInt32) : Option String :=
  (table.name? index).map (text ++ ·)

def index? (table : NameTable) (name : String) : Option UInt32 :=
  table.indices[name]?

/-- The index of a name, which is added to the table if it is new. -/
def intern (table : NameTable) (name : String) : UInt32 × NameTable :=
  match table.index? name with
  | some index => (index, table)
  | none =>
    let index := UInt32.ofNat table.names.size
    (index, ⟨table.names.push name, table.indices.insert name index⟩)

theorem intern_of_index? {table : NameTable} {name : String} {index : UInt32}
    (h : table.index? name = some index) : table.intern name = (index, table) := by
  simp [intern, h]

/-- Right after it is interned a name is found under its index. -/
theorem index?_intern (table : NameTable) (name : String) :
    (table.intern name).2.index? name = some (table.intern name).1 := by
  cases known : table.index? name with
  | some index => simp [intern, known]
  | none => simp only [intern, known]; simp [index?]

end NameTable

/-!
## Symbol table

The declared names of a program with their types, in the order of declaration.
A name has one declaration, the first; a second one leaves the table as it is.
-/

structure Symbol where
  name : String
  type : StaticType
  position : Position
  deriving Repr, DecidableEq

structure SymbolTable where
  symbols : Array Symbol
  places : Std.HashMap String Nat

namespace SymbolTable

def empty : SymbolTable :=
  ⟨#[], ∅⟩

def get? (table : SymbolTable) (name : String) : Option Symbol :=
  table.places[name]?.bind fun place => table.symbols[place]?

def typeOf? (table : SymbolTable) (name : String) : Option StaticType :=
  (table.get? name).map Symbol.type

/-- Adds a symbol whose name is new; otherwise gives the symbol that has the name. -/
def declare (table : SymbolTable) (symbol : Symbol) : Except Symbol SymbolTable :=
  match table.get? symbol.name with
  | some previous => .error previous
  | none => .ok ⟨table.symbols.push symbol, table.places.insert symbol.name table.symbols.size⟩

def toList (table : SymbolTable) : List Symbol :=
  table.symbols.toList

def size (table : SymbolTable) : Nat :=
  table.symbols.size

theorem get?_empty (name : String) : empty.get? name = none := by
  simp [empty, get?]

theorem toList_declare {table later : SymbolTable} {symbol : Symbol}
    (h : table.declare symbol = .ok later) : later.toList = table.toList ++ [symbol] := by
  cases known : table.get? symbol.name with
  | some previous => simp [declare, known] at h
  | none =>
    simp only [declare, known, Except.ok.injEq] at h
    subst h
    simp [toList]

theorem get?_declare_self {table later : SymbolTable} {symbol : Symbol}
    (h : table.declare symbol = .ok later) : later.get? symbol.name = some symbol := by
  cases known : table.get? symbol.name with
  | some previous => simp [declare, known] at h
  | none =>
    simp only [declare, known, Except.ok.injEq] at h
    subst h
    simp [get?]

end SymbolTable

end StackLang
