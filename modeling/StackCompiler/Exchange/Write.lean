import StackCompiler.Exchange.Symbol
import StackCompiler.Tree.Unfolding

/-!
# Writing trees

A node is written as its tag, its payload and its two children between parentheses.  Names are
not written.
-/

namespace StackCompiler

/-- The symbols of an unfolding, in front of further symbols.  A link that leads outside the arena
or is not followed is written like an absent one. -/
def Unfolding.symbols : Unfolding → (further : List Exchange.Symbol) → List Exchange.Symbol
  | absent, further => .absent :: further
  | dangling _, further => .absent :: further
  | cut _, further => .absent :: further
  | node _ kind left right, further =>
    .opening :: .number (.ofInt kind.tag) :: .number kind.payload
      :: left.symbols (right.symbols (.closing :: further))

/-- The symbols of a tree. -/
def Tree.symbols (t : Tree) : List Exchange.Symbol :=
  t.unfolding.symbols []

/-- The text of a tree: its symbols separated by spaces, on one line. -/
def Tree.dump (t : Tree) : String :=
  " ".intercalate (t.symbols.map (·.text)) ++ "\n"

end StackCompiler
