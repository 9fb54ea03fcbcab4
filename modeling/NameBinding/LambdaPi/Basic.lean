import NameBinding.Term

/-!
# Untyped lambda-pi with pairs

The forms of the language are application, abstraction, dependent function types, pairs with their
projections and types, and a universe. Each form has a fixed number of plain children and of scoped
ones (`Form.arity`).

Its terms may hold nodes of other languages (`Head.other`); no rule of this one applies to them.
-/

namespace NameBinding

namespace LambdaPi

/-- The forms of the language. -/
inductive Form where
  | app
  | lam
  | pi
  | pair
  | first
  | second
  | product
  | univ
  deriving DecidableEq, Inhabited

namespace Form

/-- The word for a form. -/
def label : Form → String
  | app => "app"
  | lam => "lam"
  | pi => "pi"
  | pair => "pair"
  | first => "first"
  | second => "second"
  | product => "product"
  | univ => "U"

/-- The number of plain children and of scoped ones. -/
def arity : Form → Nat × Nat
  | app => (2, 0)
  | lam => (0, 1)
  | pi => (1, 1)
  | pair => (2, 0)
  | first => (1, 0)
  | second => (1, 0)
  | product => (2, 0)
  | univ => (0, 0)

end Form

/-- The head of a node: a form of this language, or a constructor of another one. -/
inductive Head where
  | form (f : Form)
  | other (label : String)
  deriving DecidableEq, Inhabited

instance : Labelled Head where
  label
    | .form f => f.label
    | .other l => l

/-- Terms of the language. -/
abbrev Expr := Term Head

namespace Expr

/-- The universe. -/
def univ : Expr := .node (.form .univ) [] []

/-- The application of `f` to `x`. -/
def app (f x : Expr) : Expr := .node (.form .app) [f, x] []

/-- The function that takes its argument apart as `p` says. -/
def lam (p : Pattern) (body : Expr) : Expr := .node (.form .lam) [] [⟨p, body⟩]

/-- The type of functions from `a` to `b`, where `b` may depend on the argument. -/
def pi (p : Pattern) (a b : Expr) : Expr := .node (.form .pi) [a] [⟨p, b⟩]

/-- The pair of `a` and `b`. -/
def pair (a b : Expr) : Expr := .node (.form .pair) [a, b] []

/-- The first component. -/
def first (e : Expr) : Expr := .node (.form .first) [e] []

/-- The second component. -/
def second (e : Expr) : Expr := .node (.form .second) [e] []

/-- The type of pairs. -/
def product (a b : Expr) : Expr := .node (.form .product) [a, b] []

/-- The pattern and the body of an abstraction. -/
def lam? : Expr → Option (Scoped Expr)
  | .node (.form .lam) [] [sc] => some sc
  | _ => none

/-- The components of a pair. -/
def pair? : Expr → Option (Expr × Expr)
  | .node (.form .pair) [a, b] [] => some (a, b)
  | _ => none

/-- Exactly abstractions have a pattern and a body. -/
theorem lam?_eq_some_iff {e : Expr} {sc : Scoped Expr} :
    e.lam? = some sc ↔ e = lam sc.binder sc.body := by
  constructor
  · intro h
    unfold lam? at h
    split at h
    · cases h
      rfl
    · cases h
  · rintro rfl
    rfl

/-- Exactly pairs have components. -/
theorem pair?_eq_some_iff {e a b : Expr} : e.pair? = some (a, b) ↔ e = pair a b := by
  constructor
  · intro h
    unfold pair? at h
    split at h
    · cases h
      rfl
    · cases h
  · rintro rfl
    rfl

end Expr

end LambdaPi

end NameBinding
