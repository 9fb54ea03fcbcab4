import NameBinding.Error

/-!
# Taking S-expressions apart

Access to the text of an atom and to the items of a list, failing when the S-expression is of the
other kind or the index is past the end.
-/

namespace NameBinding.Sexp

/-- The text of an atom. -/
def text : Sexp → Except Error String
  | atom a => .ok a
  | list _ => .error .wrongShape

/-- The items of a list. -/
def items : Sexp → Except Error (List Sexp)
  | atom _ => .error .wrongShape
  | list xs => .ok xs

/-- The number of items of a list. -/
def size (x : Sexp) : Except Error Nat := do
  let xs ← x.items
  return xs.length

/-- The item of a list at an index, counted from zero. -/
def item (x : Sexp) (i : Nat) : Except Error Sexp := do
  let xs ← x.items
  match xs[i]? with
  | some y => return y
  | none => throw .outOfRange

/-- The list with one more item at its end. -/
def push (x y : Sexp) : Except Error Sexp := do
  let xs ← x.items
  return list (xs ++ [y])

end NameBinding.Sexp
