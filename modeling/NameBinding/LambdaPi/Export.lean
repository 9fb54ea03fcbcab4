import NameBinding.Export
import NameBinding.Identifier
import NameBinding.LambdaPi.Basic

/-!
# Writing lambda-pi

The way back from terms to the raw syntax. Nodes of other languages and nodes with the wrong number
of children have no syntax here, nor have sets of names.
-/

namespace NameBinding

namespace LambdaPi

/-- The nodes of the language, each in its own syntax. -/
def writeNode : Head → List Sexp → List (Sexp × Sexp) → Except Error Sexp
  | .form .univ, _, _ => .ok (.atom "U")
  | .form .app, [f, x], [] => .ok (.tagged "app" [f, x])
  | .form .pair, [a, b], [] => .ok (.tagged "pair" [a, b])
  | .form .product, [a, b], [] => .ok (.tagged "product" [a, b])
  | .form .first, [e], [] => .ok (.tagged "first" [e])
  | .form .second, [e], [] => .ok (.tagged "second" [e])
  | .form .lam, [], [(p, b)] => .ok (.tagged "lam" [p, b])
  | .form .pi, [a], [(p, b)] => .ok (.tagged "pi" [p, a, b])
  | _, _, _ => .error .unsupported

/-- How the language is written. -/
def exporter : Exporter Head := ⟨writeNode, Pattern.setFree⟩

namespace Expr

/-- The raw term. Free names are written as `names` says, binders take the identifiers of `fresh`
from the first on. -/
def write (e : Expr) (names : NameMap String) (fresh : Nat → String) : Except Error Sexp := do
  let (raw, _) ← Term.write exporter fresh names 0 e
  return raw

/-- The raw form of a closed term, with the default identifiers for its binders. -/
def writeClosed (e : Expr) : Except Error Sexp :=
  e.write ∅ (Identifier.numbered Identifier.defaultStem)

end Expr

end LambdaPi

end NameBinding
