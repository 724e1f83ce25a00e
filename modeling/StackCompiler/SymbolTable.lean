import Std.Data.TreeSet
import StackCompiler.Text.Quoted

/-!
# Symbol tables

A symbol table is a list of names without repetition that only grows at its end, so the position
of a name never changes.  Positions serve as memory slots of variables and as label numbers of
functions.

A table can also be filled with placeholder names up to a given position, for trees that come
without names.
-/

namespace StackCompiler

/-- Names in the order in which they were first seen. -/
structure SymbolTable where
  names : List String := []
deriving DecidableEq, Repr, Inhabited

namespace SymbolTable

/-- The number of names. -/
def size (table : SymbolTable) : Nat := table.names.length

/-- The position of a name. -/
def lookup? (table : SymbolTable) (name : String) : Option Nat :=
  table.names.idxOf? name

/-- The name at a position. -/
def resolve? (table : SymbolTable) (index : Nat) : Option String :=
  table.names[index]?

/-- Whether a position holds a name. -/
def containsIndex (table : SymbolTable) (index : Nat) : Bool :=
  index < table.size

/-- The position of a name, which is added at the end if it is new, and the table after that. -/
def intern (table : SymbolTable) (name : String) : Nat × SymbolTable :=
  match table.lookup? name with
  | some index => (index, table)
  | none => (table.size, { names := table.names ++ [name] })

/-- The table that holds the given names in the order of their first occurrence. -/
def ofNames (names : List String) : SymbolTable :=
  names.foldl (fun table name => (table.intern name).2) {}

/-- The name itself, or the first of `name_`, `name__`, … that is not taken, with at most the given
number of underscores. -/
def freshName (taken : String → Bool) (name : String) : (underscores : Nat) → String
  | 0 => name
  | underscores + 1 =>
    if taken name then freshName taken (name.push '_') underscores else name

/-- The table with every position up to and including `index` filled.  A new position `n` gets the
name `stem` followed by `n`, with underscores added while that name is taken.  Placeholders of
different positions differ, so only the names that were there before can be in the way. -/
def reserveThrough (table : SymbolTable) (index : Nat) (stem : String) : SymbolTable :=
  if index < table.size then table
  else
    let taken := Std.TreeSet.ofList table.names compare
    let placeholder (n : Nat) : String :=
      freshName taken.contains (stem ++ toString n) table.size
    let added := (List.range' table.size (index + 1 - table.size)).map placeholder
    { names := table.names ++ added }

/-- Each position with its name. -/
def entries (table : SymbolTable) : List (Nat × String) :=
  table.names.zipIdx.map fun (name, index) => (index, name)

/-- The table as messages show it. -/
def text (table : SymbolTable) : String :=
  let entry : Nat × String → String := fun (index, name) =>
    toString index ++ ": " ++ Text.quoted name
  "\x7b" ++ ", ".intercalate (table.entries.map entry) ++ "\x7d"

end SymbolTable

end StackCompiler
