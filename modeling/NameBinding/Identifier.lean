/-!
# Identifiers

Raw syntax writes variables as identifiers: any text but the empty one and the two that mean
something else, `_` and `U`. When terms are written out again, binders get identifiers that are
numbered in the order in which they are drawn.

Several holders may draw from one counter. A `Pool` keeps the counters, and a holder is an index
into it.
-/

namespace NameBinding

namespace Identifier

/-- Can a variable be written like this? -/
def isValid (text : String) : Bool := text != "" && text != "_" && text != "U"

/-- The identifier with a number: the stem, then the number in decimal. -/
def numbered (stem : String) (n : Nat) : String := stem ++ n.repr

/-- The stem where none is asked for. -/
def defaultStem : String := "x"

/-- A counter that hands out the numbered identifiers of one stem. -/
structure Counter where
  stem : String
  next : Nat

/-- Counters, each known by its index. -/
abbrev Pool := List Counter

namespace Pool

/-- A new counter at the end of the pool. -/
def add (pool : Pool) (stem : String) : Pool := pool ++ [⟨stem, 0⟩]

/-- The next identifier of the counter at an index. -/
def draw (pool : Pool) (i : Nat) : Option (String × Pool) :=
  match pool[i]? with
  | some c => some (numbered c.stem c.next, pool.set i { c with next := c.next + 1 })
  | none => none

end Pool

end Identifier

end NameBinding
