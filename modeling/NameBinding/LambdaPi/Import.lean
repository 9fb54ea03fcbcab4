import NameBinding.LambdaPi.Basic
import NameBinding.Pattern.Import

/-!
# Reading lambda-pi

The raw syntax of terms is `U`, an identifier, `(app f x)`, `(lam P b)`, `(pi P A B)`, `(pair a b)`,
`(product A B)`, `(first e)` and `(second e)`. Identifiers are resolved in a table. Plain children
are read before scoped ones, so in `(pi P A B)` the type `A` comes before the pattern `P`.
-/

namespace NameBinding

namespace LambdaPi

namespace Form

/-- The form that a word in head position stands for. The universe is an atom and has none. -/
def ofWord? (word : String) : Option Form :=
  if word = "app" then some app
  else if word = "lam" then some lam
  else if word = "pi" then some pi
  else if word = "pair" then some pair
  else if word = "product" then some product
  else if word = "first" then some first
  else if word = "second" then some second
  else none

/-- What a list headed by the word of a form is meant to be. -/
def description : Form → String
  | app => "application"
  | lam => "lambda"
  | pi => "pi type"
  | pair => "pair"
  | first => "projection"
  | second => "projection"
  | product => "product type"
  | univ => "term"

end Form

namespace Expr

/-- The term that an S-expression writes. -/
def read (t : Table) : Sexp → Except Error Expr
  | .atom a =>
    if a = "U" then .ok univ
    else if Identifier.isValid a then do
      let x ← t.lookup a
      return .var x
    else .error (.malformed "term" (.atom a))
  | .list (.atom word :: args) =>
    match Form.ofWord? word, args with
    | some .app, [f, x] => do
      let f ← read t f
      let x ← read t x
      return app f x
    | some .pair, [a, b] => do
      let a ← read t a
      let b ← read t b
      return pair a b
    | some .product, [a, b] => do
      let a ← read t a
      let b ← read t b
      return product a b
    | some .first, [e] => do
      let e ← read t e
      return first e
    | some .second, [e] => do
      let e ← read t e
      return second e
    | some .lam, [p, b] => do
      let (p, inner) ← Pattern.read t p
      let b ← read inner b
      return lam p b
    | some .pi, [p, a, b] => do
      let a ← read t a
      let (p, inner) ← Pattern.read t p
      let b ← read inner b
      return pi p a b
    | some f, args => .error (.malformed f.description (.list (.atom word :: args)))
    | none, args => .error (.malformed "term" (.list (.atom word :: args)))
  | .list raw => .error (.malformed "term" (.list raw))

end Expr

end LambdaPi

end NameBinding
