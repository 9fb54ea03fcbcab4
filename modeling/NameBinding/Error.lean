import NameBinding.Name
import NameBinding.Sexp

/-!
# Ways to fail

Reading an S-expression fails when an identifier is not bound or the text has no meaning. Moving
terms between scopes fails when an invariant of the caller is broken: two renamings disagree, a
name was never given an identifier, or a pattern and its arguments differ in number.
`Error.message` is the text for each.
-/

namespace NameBinding

/-- Why an operation gave no result. -/
inductive Error where
  /-- An identifier that no enclosing binding site and no table binds. -/
  | unboundIdentifier (identifier : String)
  /-- An S-expression with no meaning as the kind of syntax that `what` names. -/
  | malformed (what : String) (raw : Sexp)
  /-- Two renamings send the name `x` to different names. -/
  | disagreement (x : Name)
  /-- A name that has no identifier. -/
  | unknownName (x : Name)
  /-- A pattern of `names` binders met with `terms` arguments. -/
  | countMismatch (names terms : Nat)
  /-- A construct for which the operation has no rule. -/
  | unsupported
  /-- A node that does not begin with the atom for its head. -/
  | missingHead
  /-- An index past the end of a list. -/
  | outOfRange
  /-- A list where an atom is needed, or an atom where a list is needed. -/
  | wrongShape
  /-- A computation stopped before it had an answer. -/
  | outOfFuel
  deriving DecidableEq

namespace Error

/-- What the failure says about itself. -/
def message : Error → String
  | unboundIdentifier _ => "binding error"
  | malformed _ _ => "lambda_pi error"
  | disagreement x => "merged renamings disagree on " ++ x.digits
  | unknownName x => "unknown name " ++ x.digits ++ " in a name_map"
  | countMismatch names terms =>
    "pattern binds " ++ names.repr ++ " names, got " ++ terms.repr ++ " terms"
  | unsupported => "no rule for this construct"
  | missingHead => "lc node without a head"
  | outOfRange => "index out of range"
  | wrongShape => "atom and list confused"
  | outOfFuel => "out of fuel"

/-! ### Sequences that may fail -/

/-- A sequence succeeds when its first part does and the rest does from there. -/
theorem bind_eq_ok {α β : Type} {x : Except Error α} {f : α → Except Error β} {b : β} :
    (x >>= f) = .ok b ↔ ∃ a, x = .ok a ∧ f a = .ok b := by
  cases x with
  | error e => simp [bind, Except.bind]
  | ok a => simp [bind, Except.bind]

/-- A sequence fails when its first part does, or when the rest does from there. -/
theorem bind_eq_error {α β : Type} {x : Except Error α} {f : α → Except Error β} {err : Error} :
    (x >>= f) = .error err ↔ x = .error err ∨ ∃ a, x = .ok a ∧ f a = .error err := by
  cases x with
  | error e => simp [bind, Except.bind]
  | ok a => simp [bind, Except.bind]

/-- To return a value is to succeed with it. -/
theorem pure_eq_ok {α : Type} {a b : α} : (pure a : Except Error α) = .ok b ↔ a = b := by
  simp [pure, Except.pure]

end Error

end NameBinding
