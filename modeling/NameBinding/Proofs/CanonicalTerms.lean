import NameBinding.Proofs.LexicalScope
import NameBinding.Proofs.Reflexivity
import NameBinding.Proofs.Shadowing

/-!
# Terms with canonical binders

A term whose every binder is the name that would be drawn in its place has no choice of binders
left: two such terms are equal up to binders only if they are equal as they stand
(`Term.Settled.alphaEquiv_eq`), and freshening leaves them alone (`Term.Settled.freshen_eq`).

What is read is such a term (`LambdaPi.settled_of_read`). The table draws from its own scope, which
grows by the names of the patterns around, just as the scope of a substitution does on its way into
the term. So for terms that were read in one table the comparison of terms down to the binders and
both comparisons up to the choice of binders give one answer (`LambdaPi.read_alphaEquiv_eq_same`).

All of this holds even where names wrap around. Drawn names may then repeat, but a pattern still
lines up with itself, because every name that is drawn past the largest one is `0`
(`Unifier.chooseTargets_self_of_draws`).
-/

namespace NameBinding

/-! ### Drawn binders -/

/-- Names that were drawn one after the other line up on themselves. -/
theorem Unifier.chooseTargets_self_of_draws {s before taken : Scope} {targets : NameSet}
    {xs : List Name} (hxs : Pattern.replacements (fun before _ => before.fresh) before xs = xs)
    (hbefore : ∀ x ∈ before, x ∈ taken) (htaken : ∀ x ∈ xs, x ∈ taken)
    (htargets : ∀ x ∈ targets, x ∈ before) :
    chooseTargets s (xs.zip xs) taken targets = xs := by
  induction xs generalizing before taken targets with
  | nil => rfl
  | cons x xs ih =>
    obtain ⟨hx, hrest⟩ : before.fresh = x ∧ _ := List.cons.inj hxs
    simp only [hx] at hrest
    obtain ⟨hxtaken, hxstaken⟩ := List.forall_mem_cons.mp htaken
    have hnext : ∀ y ∈ before.extend x, y ∈ taken := by
      intro y hy
      rcases Scope.mem_extend.mp hy with rfl | hy
      · exact hxtaken
      · exact hbefore y hy
    have htargets' : ∀ y ∈ targets.insert x, y ∈ before.extend x := by
      intro y hy
      exact Scope.mem_extend.mpr ((OrderedSet.mem_insert.mp hy).imp_right (htargets y))
    rw [List.zip_cons_cons, chooseTargets]
    by_cases hmem : x ∈ targets
    · -- an earlier pair took the name, so drawing it wrapped around, as it does from `taken`
      have hfull : ¬ before.HasRoom := by
        intro hroom
        exact hroom.fresh_not_mem (hx ▸ htargets x hmem)
      have hfull' : ¬ taken.HasRoom := fun hroom =>
        hfull fun hlargest => hroom (hbefore _ hlargest)
      have hfresh : taken.fresh = x := by
        rw [← hx, Pattern.fresh_eq_zero hfull, Pattern.fresh_eq_zero hfull']
      have hfind : (candidates x x).find? (usable s targets x x) = none := by
        rw [List.find?_eq_none]
        intro c hc hcusable
        have hcx : c = x := by simpa [candidates] using hc
        exact (usable_iff.mp hcusable).1 (hcx ▸ hmem)
      simp only [hfind, hfresh]
      rw [ih hrest (fun y hy => Scope.mem_extend.mpr (Or.inr (hnext y hy)))
        (fun y hy => Scope.mem_extend.mpr (Or.inr (hxstaken y hy))) htargets']
    · simp only [find?_candidates_self hmem]
      rw [ih hrest hnext hxstaken htargets']

namespace Pattern

/-- Fresh names are drawn alike from scopes that have the same names. -/
theorem replacements_fresh_congr_scope {s t : Scope} (h : ∀ x, x ∈ s ↔ x ∈ t) (xs : List Name) :
    replacements (fun before _ => before.fresh) s xs =
      replacements (fun before _ => before.fresh) t xs := by
  induction xs generalizing s t with
  | nil => rfl
  | cons x xs ih =>
    unfold replacements
    rw [Scope.fresh_congr h, ih]
    intro y
    rw [Scope.mem_extend, Scope.mem_extend, h y]

/-- A pattern with drawn binders lines up with itself, on its own binders. -/
theorem Settled.targets_self {s : Scope} {p : Pattern}
    (h : p.Settled (fun before _ => before.fresh) s) : p.targets s p = p.binders := by
  refine Unifier.chooseTargets_self_of_draws h (fun x hx => ?_) (fun x hx => ?_) (by simp)
  · simp [hx]
  · simp [hx]

/-- Patterns of one shape that were drawn in one scope are equal. -/
theorem Settled.eq_of_shape {s : Scope} {p q : Pattern}
    (hp : p.Settled (fun before _ => before.fresh) s)
    (hq : q.Settled (fun before _ => before.fresh) s) (h : p.shape = q.shape) : p = q := by
  refine ext h ?_
  calc p.binders
      = replacements (fun before _ => before.fresh) s p.binders := hp.symm
    _ = replacements (fun before _ => before.fresh) s q.binders :=
        replacements_fresh_congr s (length_binders_of_shape h)
    _ = q.binders := hq

end Pattern

/-! ### Terms with drawn binders -/

namespace Term

variable {κ : Type}

/-- Whether binders were drawn depends on the names of the scope only. -/
theorem Settled.congr_scope {s t : Scope} {e : Term κ}
    (he : e.Settled (fun before _ => before.fresh) s) (h : ∀ x, x ∈ s ↔ x ∈ t) :
    e.Settled (fun before _ => before.fresh) t := by
  induction he generalizing t with
  | var s x => exact .var t x
  | node _ hbs _ ihts ihss =>
    refine .node (fun e he => ihts e he h) (fun sc hsc => ?_) fun sc hsc => ihss sc hsc fun x => ?_
    · exact (Pattern.replacements_fresh_congr_scope h _).symm.trans (hbs sc hsc)
    · rw [Scope.mem_extendAll, Scope.mem_extendAll, h x]

/-- Freshening leaves drawn binders alone. -/
theorem Settled.freshen_eq {s : Scope} {e : Term κ}
    (h : e.Settled (fun before _ => before.fresh) s) : e.freshen s = e :=
  h.substituteWith_eq fun _ _ => rfl

variable [DecidableEq κ]

/-- Comparing terms with drawn binders up to the choice of binders decides their equality. -/
theorem Settled.alphaEquiv_decides {s : Scope} {l r : Term κ}
    (hl : l.Settled (fun before _ => before.fresh) s)
    (hr : r.Settled (fun before _ => before.fresh) s) :
    Decides (alphaEquiv s l r) (l = r) := by
  induction l generalizing r s with
  | var x => exact alphaEquiv_var_decides_eq x r
  | node h ts ss ihts ihss =>
    rcases r with y | ⟨h', ts', ss'⟩
    · exact alphaEquiv_node_var_decides_eq h ts ss y
    · obtain ⟨hlts, hlss⟩ := settled_node.mp hl
      obtain ⟨hrts, hrss⟩ := settled_node.mp hr
      refine alphaEquiv_node_decides_eq
        (fun hlen => List.forall₂_iff_zip.mpr ⟨hlen, fun {t t'} hmem => ?_⟩)
        fun hlen => List.forall₂_iff_zip.mpr ⟨hlen, fun {sc sc'} hmem => ?_⟩
      · obtain ⟨ht, ht'⟩ := List.of_mem_zip hmem
        exact ihts t ht (hlts t ht) (hrts t' ht')
      · obtain ⟨hsc, hsc'⟩ := List.of_mem_zip hmem
        obtain ⟨hp, hb⟩ := hlss sc hsc
        obtain ⟨hp', hb'⟩ := hrss sc' hsc'
        by_cases hshape : sc.binder.shape = sc'.binder.shape
        · have ih := @ihss sc hsc
          obtain ⟨p, b⟩ := sc
          obtain ⟨p', b'⟩ := sc'
          obtain rfl : p = p' := hp.eq_of_shape hp' hshape
          -- the comparison goes on in a scope that has the binders in increasing order
          have hinner : ∀ x, x ∈ s.extendAll p.binders ↔
              x ∈ s.extendAll (OrderedSet.ofList p.binders).toList := by simp
          rw [alphaEquivScoped_of_targets hp.targets_self]
          exact (ih (hb.congr_scope hinner) (hb'.congr_scope hinner)).congr (by simp)
        · rw [alphaEquivScoped_eq, Pattern.unify_eq_of_shape_ne hshape]
          apply Decides.ok
          simp only [Bool.false_eq_true, false_iff]
          rintro rfl
          exact hshape rfl

/-- On terms that would not change the comparison answers as the one that looks at every binder. -/
theorem Settled.alphaEquiv_eq {s : Scope} {l r : Term κ}
    (hl : l.Settled (fun before _ => before.fresh) s)
    (hr : r.Settled (fun before _ => before.fresh) s) : alphaEquiv s l r = .ok (l.same r) := by
  obtain ⟨b, hb, hiff⟩ := hl.alphaEquiv_decides hr
  rw [hb, Bool.eq_iff_iff.mpr (hiff.trans same_iff.symm)]

end Term

/-! ### Terms that were read -/

namespace LambdaPi

/-- Every binder of what is read is the name that is drawn in its place. -/
theorem settled_of_read {t : Table} {raw : Sexp} {e : Expr} (h : Expr.read t raw = .ok e) :
    e.Settled (fun before _ => before.fresh) t.scope := by
  induction raw using raw_induction generalizing t e with
  | identifier id valid =>
    obtain ⟨x, -, rfl⟩ := (read_identifier_eq_ok valid).mp h
    exact .var t.scope x
  | node f us vs raw hnode ihus ihvs =>
    obtain ⟨ts, ss, hts, hss, rfl⟩ := hnode.read_eq_ok.mp h
    refine Term.settled_node.mpr ⟨fun e he => ?_, fun sc hsc => ?_⟩
    · obtain ⟨u, hu, hue⟩ := exists_of_mem_of_forall₂ hts he
      exact ihus u hu hue
    · obtain ⟨v, hv, hvsc⟩ := exists_of_mem_of_forall₂ hss hsc
      obtain ⟨ids, -, hbinders, hb⟩ := exists_of_readScoped_eq_ok hvsc
      unfold Pattern.Settled
      rw [hbinders, ← Table.scope_bindAll]
      exact ⟨t.replacements_draws ids, ihvs v hv hb⟩
  | refused raw hrefused => exact absurd h ((hrefused t).ne_ok e)

/-- **On terms that were read there is only one equality.** Freshening what is read in the scope of
the table leaves it as it is. Comparing two terms that were read in one table gives the same answer
down to the binders, up to the choice of binders, and by freshening both. -/
theorem read_alphaEquiv_eq_same (t : Table) (raw₁ raw₂ : Sexp) (e₁ e₂ : Expr)
    (h₁ : Expr.read t raw₁ = .ok e₁) (h₂ : Expr.read t raw₂ = .ok e₂) :
    (e₁.freshen t.scope).same e₁ = true ∧
      Term.alphaEquiv t.scope e₁ e₂ = .ok (e₁.same e₂) ∧
      Term.alphaEquivFresh t.scope e₁ e₂ = e₁.same e₂ := by
  have hs₁ := settled_of_read h₁
  have hs₂ := settled_of_read h₂
  refine ⟨Term.same_iff.mpr hs₁.freshen_eq, hs₁.alphaEquiv_eq hs₂, ?_⟩
  unfold Term.alphaEquivFresh
  rw [hs₁.freshen_eq, hs₂.freshen_eq]

/-- The raw term `(lam (pair a (list b c)) (pi d ty (app d z)))`. -/
def nestedRaw (a b c d ty : String) : Sexp :=
  .tagged "lam" [.tagged "pair" [.atom a, .tagged "list" [.atom b, .atom c]],
    .tagged "pi" [.atom d, .atom ty, .tagged "app" [.atom d, .atom "z"]]]

/-- The same term with names drawn outside `0`, which is the name of `z`. -/
def nestedTerm (ty : Name) : Expr :=
  .lam (.pair (.single 1) (.list [2, 3])) (.pi (.single 4) (.var ty) (.app (.var 4) (.var 0)))

/-- The identifiers `x` and `y`, each bound twice, are read like four different ones. With another
type in the middle the terms differ, and every comparison says so. -/
theorem read_alphaEquiv_eq_same_nested :
    Expr.read ((Table.ofScope ∅).bind "z").2 (nestedRaw "x" "y" "x" "y" "x") =
      .ok (nestedTerm 3) ∧
    Expr.read ((Table.ofScope ∅).bind "z").2 (nestedRaw "a" "b" "c" "d" "c") =
      .ok (nestedTerm 3) ∧
    Expr.read ((Table.ofScope ∅).bind "z").2 (nestedRaw "a" "b" "c" "d" "a") =
      .ok (nestedTerm 1) ∧
    ((nestedTerm 3).freshen (Scope.empty.extend 0)).same (nestedTerm 3) = true ∧
    Term.alphaEquiv (Scope.empty.extend 0) (nestedTerm 3) (nestedTerm 3) = .ok true ∧
    Term.alphaEquiv (Scope.empty.extend 0) (nestedTerm 3) (nestedTerm 1) = .ok false ∧
    Term.alphaEquivFresh (Scope.empty.extend 0) (nestedTerm 3) (nestedTerm 1) = false := by
  have htwice : Expr.read ((Table.ofScope ∅).bind "z").2 (nestedRaw "x" "y" "x" "y" "x") =
      .ok (nestedTerm 3) := rfl
  have hlast : Expr.read ((Table.ofScope ∅).bind "z").2 (nestedRaw "a" "b" "c" "d" "c") =
      .ok (nestedTerm 3) := rfl
  have hfirst : Expr.read ((Table.ofScope ∅).bind "z").2 (nestedRaw "a" "b" "c" "d" "a") =
      .ok (nestedTerm 1) := rfl
  obtain ⟨hfreshen, hequal, -⟩ := read_alphaEquiv_eq_same _ _ _ _ _ htwice hlast
  obtain ⟨-, hdiffer, hfresh⟩ := read_alphaEquiv_eq_same _ _ _ _ _ htwice hfirst
  exact ⟨htwice, hlast, hfirst, hfreshen, hequal, hdiffer, hfresh⟩

end LambdaPi

end NameBinding
