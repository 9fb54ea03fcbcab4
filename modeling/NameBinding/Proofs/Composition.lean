import NameBinding.Proofs.Freshening
import NameBinding.Proofs.SubstitutedTerms

/-!
# Substituting twice

On nameless forms a substitution replaces free names, and replacing twice is replacing once by what
the first replacements become (`Nameless.bind_bind`). So whatever binders the two passes keep or
replace, and in whatever scopes, only what the names stand for in the end has to be compared
(`Term.nameless_substitute_twice`).

* Two substitutions one after the other do what their composite does (`Term.substitute_substitute`).
* Substituting below a pattern and then giving its binders arguments does what giving the arguments
  along with the substitution does (`Term.instantiate_substitute`). Inside the moved pattern a
  binder stands for its replacement, which the second pass replaces by the argument at the same
  position; nothing else is touched, since the replacements are not names of the scope
  (`Term.bind_lookup_extend`).
-/

namespace NameBinding

namespace Term

variable {κ : Type} {s : Scope} {σ : Substitution (Term κ)}

/-! ### Forms of substituted terms -/

/-- The nameless form of a substituted term, from the forms of what its free names stand for. -/
theorem nameless_substitute_of_forms {e : Term κ} {f : Name → Nameless κ} (hsets : e.SetFree)
    (hscope : ∀ x ∈ e.freeNames, ∀ y ∈ (σ.lookup x).freeNames, y ∈ s)
    (hroom : e.HasRoom Scope.refresh s) (hform : ∀ x ∈ e.freeNames, (σ.lookup x).nameless = f x) :
    (e.substitute s σ).nameless = e.nameless.bind f := by
  unfold substitute
  rw [nameless_substituteWith Scope.refresh_keepsOrDraws hsets hscope hroom]
  exact bind_nameless_congr e hform

/-- The nameless form of a term substituted twice: its free names are replaced by what the second
substitution makes of what they stand for in the first. -/
theorem nameless_substitute_twice {s₁ s₂ : Scope} {σ₁ σ₂ : Substitution (Term κ)} {e : Term κ}
    (hsets : e.SetFree) (hsets₁ : ∀ x ∈ e.freeNames, (σ₁.lookup x).SetFree)
    (hscope₁ : ∀ x ∈ e.freeNames, ∀ y ∈ (σ₁.lookup x).freeNames, y ∈ s₁)
    (hscope₂ : ∀ x ∈ e.freeNames, ∀ y ∈ (σ₁.lookup x).freeNames,
      ∀ z ∈ (σ₂.lookup y).freeNames, z ∈ s₂)
    (hroom₁ : e.HasRoom Scope.refresh s₁)
    (hroom₂ : (e.substitute s₁ σ₁).HasRoom Scope.refresh s₂) :
    ((e.substitute s₁ σ₁).substitute s₂ σ₂).nameless =
      e.nameless.bind fun x => (σ₁.lookup x).nameless.bind fun y => (σ₂.lookup y).nameless := by
  have hsets' : (e.substitute s₁ σ₁).SetFree := setFree_substituteWith e hsets s₁ σ₁ hsets₁
  have hscope' : ∀ y ∈ (e.substitute s₁ σ₁).freeNames, ∀ z ∈ (σ₂.lookup y).freeNames, z ∈ s₂ := by
    intro y hy
    obtain ⟨x, hx, hyx⟩ := exists_of_mem_freeNames_substituteWith e s₁ σ₁ hy
    exact hscope₂ x hx y hyx
  rw [nameless_substitute_of_forms hsets' hscope' hroom₂ fun _ _ => rfl,
    nameless_substitute_of_forms hsets hscope₁ hroom₁ fun _ _ => rfl, Nameless.bind_bind]

/-! ### One substitution after another -/

/-- Every name of a list stands for what it stands for after `σ₁` and then `σ₂`, which is carried
out in the scope `s`; every other name stands for what `τ` gives it. -/
def compositeOn (s : Scope) (σ₁ σ₂ τ : Substitution (Term κ)) (xs : List Name) :
    Substitution (Term κ) :=
  xs.foldl (fun τ x => τ.add x ((σ₁.lookup x).substitute s σ₂)) τ

/-- The composite substitutes into what the first substitution gives. -/
theorem lookup_compositeOn {σ₁ σ₂ : Substitution (Term κ)} {x : Name} :
    (xs : List Name) → (τ : Substitution (Term κ)) → x ∈ xs →
      (compositeOn s σ₁ σ₂ τ xs).lookup x = (σ₁.lookup x).substitute s σ₂
  | [], _, h => absurd h List.not_mem_nil
  | y :: xs, τ, h => by
      show (compositeOn s σ₁ σ₂ (τ.add y _) xs).lookup x = _
      by_cases hxs : x ∈ xs
      · exact lookup_compositeOn xs _ hxs
      · obtain rfl : x = y := (List.mem_cons.mp h).resolve_right hxs
        unfold compositeOn
        rw [Substitution.lookup_foldl_of_not_mem
            fun τ y z => Substitution.lookup_add τ y z ((σ₁.lookup y).substitute s σ₂),
          Substitution.lookup_add, if_pos rfl]
        simpa using hxs

/-- **Substitutions compose.** Let what the free names of `e` stand for in `σ₁` have its free names
in `s₁`, and what these stand for in `σ₂` have its free names in `s₂`. Then substituting `σ₁` in
`s₁` and `σ₂` in `s₂` gives, up to the choice of binders, what substituting their composite in `s₂`
gives. No draw may wrap on the way. -/
theorem substitute_substitute [DecidableEq κ] (s₁ s₂ : Scope) (σ₁ σ₂ τ : Substitution (Term κ))
    (e : Term κ) (hsets : e.SetFree) (hsets₁ : ∀ x ∈ e.freeNames, (σ₁.lookup x).SetFree)
    (hscope₁ : ∀ x ∈ e.freeNames, ∀ y ∈ (σ₁.lookup x).freeNames, y ∈ s₁)
    (hscope₂ : ∀ x ∈ e.freeNames, ∀ y ∈ (σ₁.lookup x).freeNames,
      ∀ z ∈ (σ₂.lookup y).freeNames, z ∈ s₂)
    (hroom₁ : e.HasRoom Scope.refresh s₁)
    (hroom₂ : (e.substitute s₁ σ₁).HasRoom Scope.refresh s₂)
    (hroom : e.HasRoom Scope.refresh s₂)
    (hrooms : ∀ x ∈ e.freeNames, (σ₁.lookup x).HasRoom Scope.refresh s₂) :
    ((e.substitute s₁ σ₁).substitute s₂ σ₂).nameless =
        (e.substitute s₂ (compositeOn s₂ σ₁ σ₂ τ e.freeNames.toList)).nameless ∧
      alphaEquivFresh s₂ ((e.substitute s₁ σ₁).substitute s₂ σ₂)
        (e.substitute s₂ (compositeOn s₂ σ₁ σ₂ τ e.freeNames.toList)) = true := by
  have hlookup : ∀ x ∈ e.freeNames,
      (compositeOn s₂ σ₁ σ₂ τ e.freeNames.toList).lookup x = (σ₁.lookup x).substitute s₂ σ₂ :=
    fun x hx => lookup_compositeOn _ τ hx
  have hscope : ∀ x ∈ e.freeNames, ∀ z ∈ ((σ₁.lookup x).substitute s₂ σ₂).freeNames, z ∈ s₂ := by
    intro x hx z hz
    obtain ⟨y, hy, hzy⟩ := exists_of_mem_freeNames_substituteWith _ s₂ σ₂ hz
    exact hscope₂ x hx y hy z hzy
  have hform : ∀ x ∈ e.freeNames, ((σ₁.lookup x).substitute s₂ σ₂).nameless =
      (σ₁.lookup x).nameless.bind fun y => (σ₂.lookup y).nameless :=
    fun x hx => nameless_substitute_of_forms (hsets₁ x hx) (hscope₂ x hx) (hrooms x hx)
      fun _ _ => rfl
  have hforms : ((e.substitute s₁ σ₁).substitute s₂ σ₂).nameless =
      (e.substitute s₂ (compositeOn s₂ σ₁ σ₂ τ e.freeNames.toList)).nameless := by
    rw [nameless_substitute_twice hsets hsets₁ hscope₁ hscope₂ hroom₁ hroom₂]
    refine (nameless_substitute_of_forms hsets ?_ hroom ?_).symm
    · intro x hx
      rw [hlookup x hx]
      exact hscope x hx
    · intro x hx
      rw [hlookup x hx]
      exact hform x hx
  exact ⟨hforms, same_iff.mpr (freshen_congr s₂ hforms)⟩

/-- A function that applies the name `x` to its argument, which is called `y`. -/
def applied (x y : Name) : Term String := node "lam" [] [⟨.single y, node "app" [var x, var y] []⟩]

/-- The only draw is that for the binder. -/
theorem hasRoom_applied {s : Scope} {x y : Name} :
    (applied x y).HasRoom Scope.refresh s ↔ Pattern.HasRoom Scope.refresh s (.single y) := by
  simp [applied, hasRoom_node, HasRoom.var]

/-- The name `1` is put for `0`, and then `2` for `1`. The first pass replaces the binder by `2`,
which the second one has to move again; at once the binder stays. -/
theorem substitute_substitute_clash :
    (applied 0 1).substitute (Scope.empty.extend 1) (Substitution.identity.add 0 (var 1)) =
        applied 1 2 ∧
      (applied 1 2).substitute (Scope.empty.extend 2) (Substitution.identity.add 1 (var 2)) =
        applied 2 3 ∧
      (applied 0 1).substitute (Scope.empty.extend 2) (compositeOn (Scope.empty.extend 2)
        (Substitution.identity.add 0 (var 1)) (Substitution.identity.add 1 (var 2)) .identity [0]) =
        applied 2 1 ∧
      alphaEquivFresh (Scope.empty.extend 2) (applied 2 3) (applied 2 1) = true := by
  have hsets : (applied 0 1).SetFree := by
    simp [applied, SetFree, allPatterns_node, AllPatterns.var, Pattern.setFree]
  have hlookup : ∀ x ∈ (applied 0 1).freeNames,
      ((Substitution.identity.add 0 (var 1)).lookup x : Term String) = var 1 := by
    intro x hx
    rw [show x = 0 from OrderedSet.mem_singleton.mp hx]
    rfl
  obtain ⟨-, hequiv⟩ := substitute_substitute (Scope.empty.extend 1) (Scope.empty.extend 2)
    (Substitution.identity.add 0 (var 1)) (Substitution.identity.add 1 (var 2)) .identity
    (applied 0 1) hsets (fun x hx => by rw [hlookup x hx]; exact .var 1)
    (by simp +contextual [hlookup, mem_freeNames_var])
    (by simp +contextual [hlookup, mem_freeNames_var, Substitution.lookup_add])
    (hasRoom_applied.mpr (by decide)) (hasRoom_applied.mpr (by decide))
    (hasRoom_applied.mpr (by decide)) (fun x hx => by rw [hlookup x hx]; exact .var _ 1)
  exact ⟨rfl, rfl, rfl, hequiv⟩

end Term

/-! ### Arguments for the binders of a pattern -/

namespace Substitution

variable {E : Type} [OfName E] {σ τ : Substitution E} {xs : List Name} {es : List E}

/-- The substitution `τ` gives terms to the names of a list, each the term at its last position,
and leaves every other name as `σ` has it. -/
structure Gives (σ : Substitution E) (xs : List Name) (es : List E) (τ : Substitution E) :
    Prop where
  outside : ∀ x, x ∉ xs → τ.lookup x = σ.lookup x
  inside : ∀ x i, x.lastPosition? xs = some i → es[i]? = some (τ.lookup x)

/-- What holds of the terms that are given and of what is left holds of all that names stand for. -/
theorem Gives.forall_lookup (h : σ.Gives xs es τ) {P : E → Prop} (hes : ∀ e ∈ es, P e) {x : Name}
    (hσ : x ∉ xs → P (σ.lookup x)) : P (τ.lookup x) := by
  by_cases hx : x ∈ xs
  · obtain ⟨i, hi⟩ := Name.exists_lastPosition? hx
    exact hes _ (List.mem_of_getElem? (h.inside x i hi))
  · rw [h.outside x hx]
    exact hσ hx

/-- As many arguments as a pattern has binders can be given to it. -/
theorem exists_addPattern (σ : Substitution E) {p : Pattern} (hlen : p.binders.length = es.length) :
    ∃ τ, σ.addPattern p es = .ok τ ∧ σ.Gives p.binders es τ := by
  obtain ⟨hout, hin⟩ := lookup_foldl_add hlen σ
  refine ⟨_, ?_, hout, hin⟩
  unfold addPattern
  rw [if_pos (show p.size = es.length from hlen)]

end Substitution

namespace Term

variable {κ : Type} {s : Scope} {σ τ τ' : Substitution (Term κ)} {p : Pattern}
  {args : List (Term κ)} {body : Term κ}

/-- With as many arguments as binders a body is instantiated by substitution. -/
theorem instantiate_of_addPattern (h : σ.addPattern p args = .ok τ) :
    body.instantiate s σ p args = .ok (body.substitute s τ) := by
  unfold instantiate
  rw [h]
  rfl

/-- Instantiation fails exactly when the arguments are not as many as the binders. -/
theorem instantiate_eq_error_iff :
    (∃ err, body.instantiate s σ p args = .error err) ↔ args.length ≠ p.binders.length := by
  by_cases hlen : p.binders.length = args.length
  · obtain ⟨τ, hτ, -⟩ := σ.exists_addPattern hlen
    simp [instantiate_of_addPattern hτ, hlen]
  · refine iff_of_true ⟨.countMismatch p.size args.length, ?_⟩ (Ne.symm hlen)
    unfold instantiate Substitution.addPattern
    rw [if_neg (show ¬ p.size = args.length from hlen)]
    rfl

section moved

variable (hroom_p : p.HasRoom Scope.refresh s)
  (hτ' : Substitution.identity.Gives (Pattern.replacements Scope.refresh s p.binders) args τ')
  (hscope : ∀ x ∈ body.freeNames, x ∉ p.binders → ∀ y ∈ (σ.lookup x).freeNames, y ∈ s)
include hroom_p hτ'

/-- A name of the scope is not touched when the replacements get arguments. -/
theorem lookup_of_mem_scope {y : Name} (hy : y ∈ s) : τ'.lookup y = var y :=
  hτ'.outside y fun hmem =>
    Pattern.replacements_not_mem Scope.refresh_keepsOrDraws hroom_p y hmem hy

/-- Let `τ` give arguments to the binders of `p`, along with `σ`, and `τ'` to their replacements.
What a name stands for inside the moved pattern becomes, with `τ'`, what it stands for in `τ`. -/
theorem bind_lookup_extend (hτ : σ.Gives p.binders args τ) {x : Name}
    (hx : x ∉ p.binders → ∀ y ∈ (σ.lookup x).freeNames, y ∈ s) :
    ((σ.extend (p.refresh s)).lookup x).nameless.bind (fun y => (τ'.lookup y).nameless) =
      (τ.lookup x).nameless := by
  have hnodup := Pattern.nodup_replacements Scope.refresh_keepsOrDraws hroom_p
  unfold Pattern.refresh
  by_cases hxp : x ∈ p.binders
  · -- a binder: its replacement stands at the same position, and nowhere else
    obtain ⟨i, hi⟩ := Name.exists_lastPosition? hxp
    obtain ⟨c, hc, hlookup⟩ := Substitution.lookup_extend_of_lastPosition? Scope.refresh s σ hi
    have hci := hτ'.inside c i (Name.lastPosition?_of_nodup hnodup hc)
    rw [hτ.inside x i hi, Option.some.injEq] at hci
    rw [hlookup, hci]
    rfl
  · -- any other name: what is free in what it stands for is in the scope
    rw [Substitution.lookup_extend_of_not_mem Scope.refresh s σ hxp, hτ.outside x hxp]
    have hself : ∀ y ∈ (σ.lookup x).freeNames, (τ'.lookup y).nameless = .leaf (.free y) := by
      intro y hy
      rw [lookup_of_mem_scope hroom_p hτ' (hx hxp y hy)]
      rfl
    rw [bind_nameless_congr _ hself]
    exact bind_leaf_namelessIn _ .top

include hscope

/-- Whatever is free in what the free names of the body stand for inside the moved pattern stands,
when the replacements get arguments, for something that lives in the scope. -/
theorem lookup_inScope_of_extend (hargs : ∀ a ∈ args, ∀ y ∈ a.freeNames, y ∈ s) :
    ∀ x ∈ body.freeNames, ∀ y ∈ ((σ.extend (p.refresh s)).lookup x).freeNames,
      ∀ z ∈ (τ'.lookup y).freeNames, z ∈ s := by
  intro x hx
  refine forall_lookup_extend (fun t => ∀ y ∈ t.freeNames, ∀ z ∈ (τ'.lookup y).freeNames, z ∈ s)
    (fun c hc y hy => ?_) (fun hxp y hy => ?_)
  · rw [mem_freeNames_var.mp hy]
    exact hτ'.forall_lookup (P := fun t => ∀ z ∈ t.freeNames, z ∈ s) hargs
      fun hnot => absurd hc hnot
  · have hys := hscope x hx hxp y hy
    rw [lookup_of_mem_scope hroom_p hτ' hys]
    intro z hz
    rwa [mem_freeNames_var.mp hz]

end moved

/-- What the free names of the body stand for inside the moved pattern lives in the scope there. -/
theorem inScope_lookup_extend
    (hscope : ∀ x ∈ body.freeNames, x ∉ p.binders → ∀ y ∈ (σ.lookup x).freeNames, y ∈ s) :
    ∀ x ∈ body.freeNames, ∀ y ∈ ((σ.extend (p.refresh s)).lookup x).freeNames,
      y ∈ (p.refresh s).scope := by
  unfold Pattern.refresh
  intro x hx
  rw [Pattern.moveInto_scope]
  refine forall_lookup_extend (fun t => ∀ y ∈ t.freeNames, y ∈ s.extendAll _)
    (fun c hc y hy => ?_) (fun hxp y hy => ?_)
  · rw [mem_freeNames_var.mp hy, Scope.mem_extendAll]
    exact Or.inr hc
  · rw [Scope.mem_extendAll]
    exact Or.inl (hscope x hx hxp y hy)

/-- **Substituting below a pattern commutes with giving its binders arguments.** Let `p` move into
`s`, and let the body be substituted inside as `substitute` does below a pattern. Giving arguments
to the binders of the moved pattern fails exactly when giving them to those of `p` along with the
substitution fails, which is when they are not as many; otherwise the results agree up to the choice
of binders. No draw may wrap on the way. -/
theorem instantiate_substitute [DecidableEq κ] (s : Scope) (σ : Substitution (Term κ))
    (p : Pattern) (args : List (Term κ)) (body : Term κ) (hp : p.setFree = true)
    (hsets : body.SetFree)
    (hsets_σ : ∀ x ∈ body.freeNames, x ∉ p.binders → (σ.lookup x).SetFree)
    (hscope : ∀ x ∈ body.freeNames, x ∉ p.binders → ∀ y ∈ (σ.lookup x).freeNames, y ∈ s)
    (hargs : ∀ a ∈ args, ∀ y ∈ a.freeNames, y ∈ s) (hroom_p : p.HasRoom Scope.refresh s)
    (hroom_inside : body.HasRoom Scope.refresh (p.refresh s).scope)
    (hroom_again : (body.substitute (p.refresh s).scope (σ.extend (p.refresh s))).HasRoom
      Scope.refresh s)
    (hroom : body.HasRoom Scope.refresh s) :
    let body' := body.substitute (p.refresh s).scope (σ.extend (p.refresh s))
    ((∃ err, body'.instantiate s .identity (p.refresh s).pattern args = .error err) ↔
      ∃ err, body.instantiate s σ p args = .error err) ∧
    ((∃ err, body.instantiate s σ p args = .error err) ↔ args.length ≠ p.binders.length) ∧
    (args.length = p.binders.length →
      ∃ l r, body'.instantiate s .identity (p.refresh s).pattern args = .ok l ∧
        body.instantiate s σ p args = .ok r ∧ l.nameless = r.nameless ∧
        alphaEquivFresh s l r = true) := by
  intro body'
  have hbinders : (p.refresh s).pattern.binders =
      Pattern.replacements Scope.refresh s p.binders := Pattern.moveInto_binders _ s hp
  have hcount : (p.refresh s).pattern.binders.length = p.binders.length := by
    rw [hbinders, Pattern.length_replacements]
  refine ⟨?_, instantiate_eq_error_iff, ?_⟩
  · rw [instantiate_eq_error_iff, instantiate_eq_error_iff, hcount]
  · intro hlen
    obtain ⟨τ, hadd, hτ⟩ := σ.exists_addPattern hlen.symm
    obtain ⟨τ', hadd', hτ'⟩ :=
      Substitution.exists_addPattern .identity (hcount.trans hlen.symm)
    rw [hbinders] at hτ'
    have hsets_inside : ∀ x ∈ body.freeNames, ((σ.extend (p.refresh s)).lookup x).SetFree :=
      fun x hx => forall_lookup_extend SetFree (fun c _ => .var c) (hsets_σ x hx)
    have hforms : (body'.substitute s τ').nameless = (body.substitute s τ).nameless := by
      rw [nameless_substitute_twice hsets hsets_inside (inScope_lookup_extend hscope)
        (lookup_inScope_of_extend hroom_p hτ' hscope hargs) hroom_inside hroom_again]
      refine (nameless_substitute_of_forms hsets ?_ hroom ?_).symm
      · intro x hx
        exact hτ.forall_lookup (P := fun t => ∀ y ∈ t.freeNames, y ∈ s) hargs (hscope x hx)
      · intro x hx
        exact (bind_lookup_extend hroom_p hτ' hτ (hscope x hx)).symm
    exact ⟨_, _, instantiate_of_addPattern hadd', instantiate_of_addPattern hadd, hforms,
      same_iff.mpr (freshen_congr s hforms)⟩

/-- A function of one more argument, called `x`, that lists the terms `ts` and the argument. -/
def listed (ts : List (Term String)) (x : Name) : Term String :=
  node "lam" [] [⟨.single x, node "list" (ts ++ [var x]) []⟩]

/-- The pattern binds `0` twice and `2` in between. All three clash, and the first replacement is
`2`. The repeated binder stands for the last argument on both ways, and the free name `1` for `0`;
the inner binder has moved on one of them only. -/
theorem instantiate_substitute_repeated_binder :
    let s := Scope.empty.extendAll [0, 1]
    let σ : Substitution (Term String) := Substitution.identity.add 1 (var 0)
    let m : Moved := ⟨.list [2, 3, 4], s.extendAll [2, 3, 4], [(0, 2), (2, 3), (0, 4)]⟩
    let args : List (Term String) := [var 1, var 0, node "c" [] []]
    (Pattern.list [0, 2, 0]).refresh s = m ∧
      (listed [var 0, var 2, var 1] 3).substitute m.scope (σ.extend m) =
        listed [var 4, var 3, var 0] 5 ∧
      (listed [var 4, var 3, var 0] 5).instantiate s .identity m.pattern args =
        .ok (listed [node "c" [] [], var 0, var 0] 5) ∧
      (listed [var 0, var 2, var 1] 3).instantiate s σ (.list [0, 2, 0]) args =
        .ok (listed [node "c" [] [], var 0, var 0] 3) ∧
      alphaEquivFresh s (listed [node "c" [] [], var 0, var 0] 5)
        (listed [node "c" [] [], var 0, var 0] 3) = true := by
  intro s σ m args
  have hmoved : (Pattern.list [0, 2, 0]).refresh s = m := rfl
  have hinside : (listed [var 0, var 2, var 1] 3).substitute m.scope (σ.extend m) =
      listed [var 4, var 3, var 0] 5 := rfl
  have hleft : (listed [var 4, var 3, var 0] 5).instantiate s .identity m.pattern args =
      .ok (listed [node "c" [] [], var 0, var 0] 5) := rfl
  have hright : (listed [var 0, var 2, var 1] 3).instantiate s σ (.list [0, 2, 0]) args =
      .ok (listed [node "c" [] [], var 0, var 0] 3) := rfl
  have hsets : (listed [var 0, var 2, var 1] 3).SetFree := by
    simp [listed, SetFree, allPatterns_node, AllPatterns.var, Pattern.setFree]
  have hlookup : ∀ x ∈ (listed [var 0, var 2, var 1] 3).freeNames,
      x ∉ (Pattern.list [0, 2, 0]).binders → σ.lookup x = var 0 := by
    intro x hx hxp
    have hmem : x ∈ ([0, 1, 2] : List Name) := hx
    simp only [Pattern.binders, List.mem_cons, List.not_mem_nil, or_false, not_or] at hmem hxp
    rw [show x = 1 by tauto]
    rfl
  have hroom : ∀ (s : Scope) (a b c y : Name), Pattern.HasRoom Scope.refresh s (.single y) →
      (listed [var a, var b, var c] y).HasRoom Scope.refresh s := by
    intro s a b c y h
    simpa [listed, hasRoom_node, HasRoom.var] using h
  obtain ⟨-, -, hok⟩ := instantiate_substitute s σ (.list [0, 2, 0]) args
    (listed [var 0, var 2, var 1] 3) rfl hsets
    (fun x hx hxp => by rw [hlookup x hx hxp]; exact .var 0)
    (by simp +contextual [hlookup, mem_freeNames_var, s])
    (by simp [args, mem_freeNames_var, mem_freeNames_node, s]) (by decide)
    (hroom _ 0 2 1 3 (by decide))
    (by rw [hmoved, hinside]; exact hroom s 4 3 0 5 (by decide)) (hroom s 0 2 1 3 (by decide))
  rw [hmoved, hinside, hleft, hright] at hok
  obtain ⟨l, r, hl, hr, -, hequiv⟩ := hok rfl
  rw [← Except.ok.inj hl, ← Except.ok.inj hr] at hequiv
  exact ⟨hmoved, hinside, hleft, hright, hequiv⟩

end Term

end NameBinding
