import NameBinding.OrderedSet

/-!
# Names

A name is a 64-bit number. A binding site introduces a name and an occurrence refers to it, and
both are written with the same type. Arithmetic on names wraps: the name after the largest one
is `0`.
-/

namespace NameBinding

/-- A variable's name, at a binding site as well as at an occurrence. -/
abbrev Name := UInt64

/-- A finite set of names. -/
abbrev NameSet := OrderedSet Name

namespace Name

/-- The name in decimal digits. -/
def digits (x : Name) : String := x.toNat.repr

/-- The name `x` seen from outside a binding site of `b`: nothing if `x` is bound there. -/
def unsink (b x : Name) : Option Name := if b = x then none else some x

end Name

end NameBinding
