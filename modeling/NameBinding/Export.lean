import NameBinding.NameMap
import NameBinding.Term

/-!
# Writing terms as raw syntax

Free names are written as the identifiers they have, and every binder gets the next identifier of a
numbered stream. Children are written in order, plain ones before scoped ones, and so are the
binders of a pattern, before its body.

A language says only how one node is put together out of its written children and which patterns it
has a syntax for (`Exporter`).
-/

namespace NameBinding

/-! ### Patterns -/

/-- The identifiers of the names in play, and the number of the next one to be drawn. -/
structure Naming where
  names : NameMap String
  next : Nat

namespace Naming

/-- Gives each name of a list the next identifier. -/
def drawAll (fresh : Nat → String) (v : Naming) : List Name → List Sexp × Naming
  | [] => ([], v)
  | x :: xs =>
    let id := fresh v.next
    let rest := drawAll fresh ⟨v.names.add x id, v.next + 1⟩ xs
    (.atom id :: rest.1, rest.2)

end Naming

namespace Pattern

/-- Does the pattern keep its binders in order throughout? -/
def setFree : Pattern → Bool
  | wildcard => true
  | single _ => true
  | list _ => true
  | set _ => false
  | pair l r => l.setFree && r.setFree

/-- The raw pattern, its binders named from left to right. -/
def write (fresh : Nat → String) (v : Naming) : Pattern → Sexp × Naming
  | wildcard => (.atom "_", v)
  | single x => (.atom (fresh v.next), ⟨v.names.add x (fresh v.next), v.next + 1⟩)
  | list xs =>
    let w := v.drawAll fresh xs
    (.tagged "list" w.1, w.2)
  | set xs =>
    let w := v.drawAll fresh xs.toList
    (.tagged "set" w.1, w.2)
  | pair l r =>
    let wl := write fresh v l
    let wr := write fresh wl.2 r
    (.tagged "pair" [wl.1, wr.1], wr.2)

end Pattern

/-! ### Terms -/

/-- How a language writes one node. -/
structure Exporter (κ : Type) where
  /-- A node out of its written plain and scoped children. -/
  node : κ → List Sexp → List (Sexp × Sexp) → Except Error Sexp
  /-- Has the pattern a syntax? -/
  admits : Pattern → Bool

namespace Term

variable {κ : Type} (ex : Exporter κ) (fresh : Nat → String)

mutual

/-- The raw term, with binders named from the `n`-th identifier on, and the number of the next
identifier. -/
def write (names : NameMap String) (n : Nat) : Term κ → Except Error (Sexp × Nat)
  | var x => do
    let id ← names.lookup x
    return (.atom id, n)
  | node h ts ss => do
    let (us, n) ← writeTerms names n ts
    let (vs, n) ← writeScopes names n ss
    let raw ← ex.node h us vs
    return (raw, n)

/-- The raw plain children. -/
def writeTerms (names : NameMap String) (n : Nat) : List (Term κ) → Except Error (List Sexp × Nat)
  | [] => .ok ([], n)
  | t :: ts => do
    let (u, n) ← write names n t
    let (us, n) ← writeTerms names n ts
    return (u :: us, n)

/-- The raw scoped children, each a raw pattern and a raw body. -/
def writeScopes (names : NameMap String) (n : Nat) :
    List (Scoped (Term κ)) → Except Error (List (Sexp × Sexp) × Nat)
  | [] => .ok ([], n)
  | ⟨p, b⟩ :: ss =>
    if ex.admits p then do
      let (rawPattern, v) := p.write fresh ⟨names, n⟩
      let (rawBody, n) ← write v.names v.next b
      let (vs, n) ← writeScopes names n ss
      return ((rawPattern, rawBody) :: vs, n)
    else .error .unsupported

end

/-- A raw pattern and a raw body. -/
def writeScoped (names : NameMap String) (n : Nat) (sc : Scoped (Term κ)) :
    Except Error ((Sexp × Sexp) × Nat) :=
  if ex.admits sc.binder then do
    let (rawPattern, v) := sc.binder.write fresh ⟨names, n⟩
    let (rawBody, n) ← sc.body.write ex fresh v.names v.next
    return ((rawPattern, rawBody), n)
  else .error .unsupported

end Term

end NameBinding
