import NameBinding.Term

/-!
# Substitution in terms

Free names are replaced by what the substitution gives them. A pattern on the way is moved into the
output scope, and below it the substitution follows the binders that were replaced, so no free name
of a substituted term is ever captured. `Term.substitute` keeps every binder that does not clash;
`Term.substituteFresh` replaces them all, so its result depends only on the scope and on how the
names are bound. `Term.freshen`, which substitutes nothing, is thus a canonical choice of binders.
-/

namespace NameBinding

namespace Term

variable {κ : Type}

section

variable (choose : Scope → Name → Name)

mutual

/-- The term with its free names replaced, in the output scope `s`; binders are replaced as `choose`
says. -/
def substituteWith (s : Scope) (σ : Substitution (Term κ)) : Term κ → Term κ
  | var x => σ.lookup x
  | node h ts ss => node h (substituteTerms s σ ts) (substituteScopes s σ ss)

/-- The plain children with their free names replaced. -/
def substituteTerms (s : Scope) (σ : Substitution (Term κ)) : List (Term κ) → List (Term κ)
  | [] => []
  | t :: ts => substituteWith s σ t :: substituteTerms s σ ts

/-- The scoped children with their free names replaced. -/
def substituteScopes (s : Scope) (σ : Substitution (Term κ)) :
    List (Scoped (Term κ)) → List (Scoped (Term κ))
  | [] => []
  | ⟨p, b⟩ :: ss =>
    let m := p.moveInto choose s
    ⟨m.pattern, substituteWith m.scope (σ.extend m) b⟩ :: substituteScopes s σ ss

end

/-- Plain children are substituted into one by one. -/
theorem substituteTerms_eq_map (s : Scope) (σ : Substitution (Term κ)) (ts : List (Term κ)) :
    substituteTerms choose s σ ts = ts.map (substituteWith choose s σ) := by
  induction ts with
  | nil => rfl
  | cons t ts ih => rw [substituteTerms, ih, List.map_cons]

/-- A scoped child with its free names replaced. -/
def substituteScoped (s : Scope) (σ : Substitution (Term κ)) (sc : Scoped (Term κ)) :
    Scoped (Term κ) :=
  let m := sc.binder.moveInto choose s
  ⟨m.pattern, substituteWith choose m.scope (σ.extend m) sc.body⟩

/-- Scoped children are substituted into one by one. -/
theorem substituteScopes_eq_map (s : Scope) (σ : Substitution (Term κ))
    (ss : List (Scoped (Term κ))) :
    substituteScopes choose s σ ss = ss.map (substituteScoped choose s σ) := by
  induction ss with
  | nil => rfl
  | cons sc ss ih =>
    obtain ⟨p, b⟩ := sc
    rw [substituteScopes, ih, List.map_cons]
    rfl

end

/-- The term with its free names replaced, in the output scope `s`; only binders that clash are
replaced. -/
def substitute (s : Scope) (σ : Substitution (Term κ)) (e : Term κ) : Term κ :=
  e.substituteWith Scope.refresh s σ

/-- The term with its free names replaced, in the output scope `s`; every binder is replaced. -/
def substituteFresh (s : Scope) (σ : Substitution (Term κ)) (e : Term κ) : Term κ :=
  e.substituteWith (fun before _ => before.fresh) s σ

/-- The body with the names that `p` binds replaced by arguments. -/
def instantiate (s : Scope) (σ : Substitution (Term κ)) (p : Pattern) (args : List (Term κ))
    (body : Term κ) : Except Error (Term κ) := do
  let τ ← σ.addPattern p args
  return body.substitute s τ

/-- Every binder replaced by the first fresh name, from left to right. -/
def freshen (s : Scope) (e : Term κ) : Term κ := e.substituteFresh s .identity

/-- A scoped term, every binder replaced by the first fresh name. -/
def freshenScoped (s : Scope) (sc : Scoped (Term κ)) : Scoped (Term κ) :=
  substituteScoped (fun before _ => before.fresh) s .identity sc

end Term

end NameBinding
