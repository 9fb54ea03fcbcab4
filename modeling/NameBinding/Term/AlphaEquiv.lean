import NameBinding.Term.Rename
import NameBinding.Term.Substitute
import NameBinding.Unification

/-!
# Equality up to the choice of binders

Two procedures decide it. `Term.alphaEquiv` lines up the patterns of both sides, renames both bodies
onto the common binders and goes on with the renamed bodies. It recurses on terms that are not parts
of its input, and ends because renaming keeps their size. `Term.alphaEquivFresh` replaces every
binder on both sides by the first fresh name and compares the results as they stand.

The comparison goes by the structure of both sides and does not ask first whether they are one and
the same value. To ask would only answer yes at once, without any further call. The answer is the
same where no pattern repeats a binder, since such a term is equal to itself up to binders in every
scope (`Term.DistinctBinders.alphaEquiv_self`). A pattern that repeats a binder may fail to line up
with itself, and then only the question would have said yes.
-/

namespace NameBinding

namespace Term

variable {κ : Type} [DecidableEq κ]

mutual

/-- The same term in the scope `s`, up to the choice of binders? Two references to one value are
compared like any other two terms. -/
def alphaEquiv (s : Scope) (l r : Term κ) : Except Error Bool :=
  match l, r with
  | var x, var y => .ok (x == y)
  | node h ts ss, node h' ts' ss' =>
    if h = h' ∧ ts.length = ts'.length ∧ ss.length = ss'.length then do
      if ← alphaEquivTerms s ts ts' then alphaEquivScopes s ss ss' else return false
    else .ok false
  | _, _ => .ok false
termination_by 3 * l.size
decreasing_by
  all_goals simp only [size]; omega

/-- The same plain children, up to the choice of binders? -/
def alphaEquivTerms (s : Scope) (ls rs : List (Term κ)) : Except Error Bool :=
  match ls, rs with
  | l :: ls, r :: rs => do
    if ← alphaEquiv s l r then alphaEquivTerms s ls rs else return false
  | _, _ => .ok true
termination_by 3 * sizeTerms ls + 2
decreasing_by
  all_goals have := size_pos l; simp only [sizeTerms]; omega

/-- The same scoped term, up to the choice of binders? Both bodies are renamed into the scope of the
common binders, the right one first. -/
def alphaEquivScoped (s : Scope) (l r : Scoped (Term κ)) : Except Error Bool := do
  let u ← l.binder.unify s r.binder
  if u.kind = .notUnifiable then return false
  let inner := s.extendAll u.binders.toList
  let rb ← rename inner u.right r.body
  match _h : rename inner u.left l.body with
  | .ok lb => alphaEquiv inner lb rb
  | .error e => .error e
termination_by 3 * l.body.size + 1
decreasing_by
  rw [size_of_rename _ _ _ _h]
  omega

/-- The same scoped children, up to the choice of binders? -/
def alphaEquivScopes (s : Scope) (ls rs : List (Scoped (Term κ))) : Except Error Bool :=
  match ls, rs with
  | l :: ls, r :: rs => do
    if ← alphaEquivScoped s l r then alphaEquivScopes s ls rs else return false
  | _, _ => .ok true
termination_by 3 * sizeScopes ls + 2
decreasing_by
  all_goals have := size_pos l.body; simp only [sizeScopes]; omega

end

/-- How the two bodies of scoped terms are brought together, as one sequence of steps. -/
theorem alphaEquivScoped_eq (s : Scope) (l r : Scoped (Term κ)) :
    alphaEquivScoped s l r = (do
      let u ← l.binder.unify s r.binder
      if u.kind = .notUnifiable then return false
      let rb ← rename (s.extendAll u.binders.toList) u.right r.body
      let lb ← rename (s.extendAll u.binders.toList) u.left l.body
      alphaEquiv (s.extendAll u.binders.toList) lb rb) := by
  rw [alphaEquivScoped]
  congr 1
  funext u
  split
  · rfl
  · dsimp only
    congr 1
    funext rb
    cases rename (s.extendAll u.binders.toList) u.left l.body <;> rfl

/-- The same term in the scope `s`, up to the choice of binders, by comparing canonical choices? -/
def alphaEquivFresh (s : Scope) (l r : Term κ) : Bool := (l.freshen s).same (r.freshen s)

end Term

end NameBinding
