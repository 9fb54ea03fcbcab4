import NameBinding.Identifier
import NameBinding.Pattern
import NameBinding.Table

/-!
# Reading patterns

Raw patterns are `_`, an identifier, `(pair P Q)` and `(list x …)`. Reading one binds its
identifiers from left to right, each to a name that is fresh for the table so far, and gives the
table to use inside the pattern.
-/

namespace NameBinding

namespace Pattern

/-- Binds the entries of a list pattern from left to right. -/
def readEntries (t : Table) : List Sexp → Except Error (List Name × Table)
  | [] => .ok ([], t)
  | .atom a :: rest =>
    if Identifier.isValid a then do
      let (x, t) := t.bind a
      let (xs, t) ← readEntries t rest
      return (x :: xs, t)
    else .error (.malformed "list pattern entry" (.atom a))
  | .list xs :: _ => .error (.malformed "list pattern entry" (.list xs))

/-- The pattern that an S-expression writes, and the table inside it. -/
def read (t : Table) : Sexp → Except Error (Pattern × Table)
  | .atom a =>
    if a = "_" then .ok (wildcard, t)
    else if Identifier.isValid a then
      let (x, t) := t.bind a
      .ok (single x, t)
    else .error (.malformed "pattern" (.atom a))
  | .list (.atom head :: args) =>
    if head = "pair" then
      match args with
      | [l, r] => do
        let (p, t) ← read t l
        let (q, t) ← read t r
        return (pair p q, t)
      | _ => .error (.malformed "pair pattern" (.list (.atom head :: args)))
    else if head = "list" then do
      let (xs, t) ← readEntries t args
      return (list xs, t)
    else .error (.malformed "pattern" (.list (.atom head :: args)))
  | .list raw => .error (.malformed "pattern" (.list raw))

end Pattern

end NameBinding
