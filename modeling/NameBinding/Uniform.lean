import NameBinding.Export
import NameBinding.Pattern.Import

/-!
# One raw syntax for every language

A node is a list of its head, which is an atom, its plain children and its scoped children, each of
which is `(\ P body)`. Reading accepts plain and scoped children in any order and takes the plain
ones first. Patterns are as everywhere, and sets of names can be written too, as `(set x …)`.
-/

namespace NameBinding

namespace Uniform

/-- What opens a scoped child. -/
def scopeMark : String := "\\"

/-! ### Reading -/

/-- Binds the entries of a set pattern from left to right. -/
def readEntries (t : Table) : List Sexp → Except Error (List Name × Table)
  | [] => .ok ([], t)
  | .atom a :: rest => do
    let (x, t) := t.bind a
    let (xs, t) ← readEntries t rest
    return (x :: xs, t)
  | .list _ :: _ => .error .wrongShape

/-- The pattern that an S-expression writes, and the table inside it. -/
def readPattern (t : Table) : Sexp → Except Error (Pattern × Table)
  | .list (.atom head :: args) =>
    if head = "set" then do
      let (xs, t) ← readEntries t args
      return (.set (OrderedSet.ofList xs), t)
    else Pattern.read t (.list (.atom head :: args))
  | raw => Pattern.read t raw

/-- Is this a scoped child? -/
def isScoped : Sexp → Bool
  | .list [mark, _, _] => mark.isAtomOf scopeMark
  | _ => false

variable {κ : Type} (ofLabel : String → κ)

mutual

/-- The term that an S-expression writes. -/
def read (t : Table) : Sexp → Except Error (Term κ)
  | .atom a => do
    let x ← t.lookup a
    return .var x
  | .list (.atom head :: args) => do
    let ts ← readTerms t args
    let ss ← readScopes t args
    return .node (ofLabel head) ts ss
  | .list _ => .error .missingHead

/-- The plain ones among the children. -/
def readTerms (t : Table) : List Sexp → Except Error (List (Term κ))
  | [] => .ok []
  | raw :: rest =>
    if isScoped raw then readTerms t rest
    else do
      let e ← read t raw
      let es ← readTerms t rest
      return e :: es

/-- The scoped ones among the children. -/
def readScopes (t : Table) : List Sexp → Except Error (List (Scoped (Term κ)))
  | [] => .ok []
  | .list [mark, rawPattern, rawBody] :: rest =>
    if mark.isAtomOf scopeMark then do
      let (p, inner) ← readPattern t rawPattern
      let b ← read inner rawBody
      let ss ← readScopes t rest
      return ⟨p, b⟩ :: ss
    else readScopes t rest
  | _ :: rest => readScopes t rest

end

/-- A scoped term, written as a pattern and a body. -/
def readScoped (t : Table) (rawPattern rawBody : Sexp) : Except Error (Scoped (Term κ)) := do
  let (p, inner) ← readPattern t rawPattern
  let b ← read ofLabel inner rawBody
  return ⟨p, b⟩

/-! ### Writing -/

/-- Every head is written as its label, and every pattern has a syntax. -/
def exporter [Labelled κ] : Exporter κ where
  node h ts ss := .ok (.tagged (Labelled.label h)
    (ts ++ ss.map fun sc => .list [.atom scopeMark, sc.1, sc.2]))
  admits _ := true

end Uniform

end NameBinding
