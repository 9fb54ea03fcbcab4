import NameBinding.LambdaPi.Basic
import NameBinding.Term.Substitute

/-!
# Weak head normal forms

Applying an abstraction takes the argument apart as its pattern says: the names of the pattern stand
for projections of the argument (`Expr.matchPattern`), whether or not it is a pair yet. Reduction
happens at the head only: an application of an abstraction, and a projection of a pair.

Reduction need not end, so `Expr.whnfAtFuel` bounds the depth of its recursion. It answers
`outOfFuel` when the bound is too small, and never answers differently for a larger one
(`whnfAtFuel_mono`).
-/

namespace NameBinding

namespace LambdaPi

namespace Expr

/-- The components of `e` as a right-nested pair, one for each name: all but the last name take the
first component of what is left. -/
def matchList (e : Expr) (σ : Substitution Expr) : List Name → Substitution Expr
  | [] => σ
  | [x] => σ.add x e
  | x :: y :: xs => matchList (second e) (σ.add x (first e)) (y :: xs)

/-- Adds the components of `e` that the names of a pattern stand for. Sets of names have no
components. -/
def matchInto (e : Expr) (σ : Substitution Expr) : Pattern → Except Error (Substitution Expr)
  | .wildcard => .ok σ
  | .single x => .ok (σ.add x e)
  | .list xs => .ok (matchList e σ xs)
  | .set _ => .error .unsupported
  | .pair l r => do
    let σ ← matchInto (first e) σ l
    matchInto (second e) σ r

/-- The components of `e` that the names of a pattern stand for. -/
def matchPattern (p : Pattern) (e : Expr) : Except Error (Substitution Expr) :=
  matchInto e .identity p

/-- The weak head normal form, if it is found within `fuel` nested calls. -/
def whnfAtFuel (s : Scope) : Nat → Expr → Except Error Expr
  | 0, _ => .error .outOfFuel
  | fuel + 1, .node (.form .app) [f, a] [] => do
    let g ← whnfAtFuel s fuel f
    match g.lam? with
    | some sc => do
      let σ ← matchPattern sc.binder a
      whnfAtFuel s fuel (sc.body.substitute s σ)
    | none => return app g a
  | fuel + 1, .node (.form .first) [e] [] => do
    let d ← whnfAtFuel s fuel e
    match d.pair? with
    | some ab => whnfAtFuel s fuel ab.1
    | none => return first d
  | fuel + 1, .node (.form .second) [e] [] => do
    let d ← whnfAtFuel s fuel e
    match d.pair? with
    | some ab => whnfAtFuel s fuel ab.2
    | none => return second d
  | _ + 1, e => .ok e

/-! ### More fuel keeps every answer -/

/-- A sequence that does not run out of fuel is left as it is when its first part and the rest are
replaced by parts that agree with them unless those run out of fuel. -/
theorem bind_congr_of_ne_outOfFuel {α β : Type} {x y : Except Error α}
    {f g : α → Except Error β} (h : (x >>= f) ≠ .error .outOfFuel)
    (hx : x ≠ .error .outOfFuel → y = x) (hf : ∀ a, f a ≠ .error .outOfFuel → g a = f a) :
    (y >>= g) = (x >>= f) := by
  cases x with
  | error e =>
    have he : (Except.error e : Except Error α) ≠ .error .outOfFuel := by
      intro heq
      cases heq
      exact h rfl
    rw [hx he]
    rfl
  | ok a =>
    rw [hx (by simp)]
    exact hf a h

/-- An answer found with some fuel is found with more. -/
theorem whnfAtFuel_succ {s : Scope} {fuel : Nat} {e : Expr}
    (h : whnfAtFuel s fuel e ≠ .error .outOfFuel) :
    whnfAtFuel s (fuel + 1) e = whnfAtFuel s fuel e := by
  fun_induction whnfAtFuel s fuel e with
  | case1 => exact absurd rfl h
  | case2 fuel f a ihf ihb =>
    rw [whnfAtFuel]
    refine bind_congr_of_ne_outOfFuel h ihf fun g hg => ?_
    split at hg
    · rename_i sc hsc
      exact bind_congr_of_ne_outOfFuel hg (fun _ => rfl) fun σ hσ => ihb sc σ hσ
    · rfl
  | case3 fuel e ihe iha =>
    rw [whnfAtFuel]
    refine bind_congr_of_ne_outOfFuel h ihe fun d hd => ?_
    split at hd
    · exact iha _ hd
    · rfl
  | case4 fuel e ihe ihb =>
    rw [whnfAtFuel]
    refine bind_congr_of_ne_outOfFuel h ihe fun d hd => ?_
    split at hd
    · exact ihb _ hd
    · rfl
  | case5 fuel e happ hfirst hsecond => rw [whnfAtFuel] <;> assumption

/-- Any larger bound gives the same answer. -/
theorem whnfAtFuel_mono {s : Scope} {fuel fuel' : Nat} {e : Expr} (hle : fuel ≤ fuel')
    (h : whnfAtFuel s fuel e ≠ .error .outOfFuel) :
    whnfAtFuel s fuel' e = whnfAtFuel s fuel e := by
  induction hle with
  | refl => rfl
  | step _ ih => rw [whnfAtFuel_succ (ih ▸ h), ih]

end Expr

end LambdaPi

end NameBinding
