import NameBinding.Proofs.AlphaEquivalence
import NameBinding.Proofs.HeadReduction

/-!
# Head reduction up to the choice of binders

Two expressions that differ in their binders only are reduced in step with each other. The two runs
replace different binders, so what they come to drifts apart, but it keeps its nameless form
(`LambdaPi.SameForm`): where one takes a step the other takes one too, and the forms stay the same
(`SameForm.step`, `SameForm.steps`).

All steps but one only take expressions apart and put them together again. In the remaining one the
components of an argument are put for the binders of a pattern, and the form of the result depends
on the form of the function and of the components only (`SameForm.beta`): names that are read alike
in two bodies stand for components at one position, or are one name of the scope.

`LambdaPi.Expr.whnf_respects_alphaEquiv` is the result in terms of the two procedures. Where a name
that is drawn for a comparison wraps, the comparison may be wrong about the expressions or about
what they reduce to (`LambdaPi.Expr.whnf_not_respects_alphaEquiv_wrapping`).
-/

namespace NameBinding

/-- Lists related member by member, where the relation is a property of each member and an equation
between the two. -/
theorem forall₂_and_eq_iff {α γ : Type} {P : α → Prop} {F : α → γ} :
    {as bs : List α} → (List.Forall₂ (fun a b => P a ∧ P b ∧ F a = F b) as bs ↔
      (∀ a ∈ as, P a) ∧ (∀ b ∈ bs, P b) ∧ as.map F = bs.map F)
  | [], [] => by simp
  | [], _ :: _ => by simp
  | _ :: _, [] => by simp
  | a :: as, b :: bs => by
      rw [List.forall₂_cons, forall₂_and_eq_iff, List.forall_mem_cons, List.forall_mem_cons,
        List.map_cons, List.map_cons, List.cons.injEq]
      tauto

namespace LambdaPi

open NameBinding.LambdaPi.Expr (app lam pair matchPattern whnfAtFuel Returns)

/-! ### Expressions with the same form -/

/-- Two well-formed expressions that differ in their binders only. -/
@[mk_iff]
structure SameForm (s : Scope) (l r : Expr) : Prop where
  left : l.WellFormed s
  right : r.WellFormed s
  forms : l.nameless = r.nameless

/-- Two well-formed scoped expressions that differ in their binders only. -/
@[mk_iff]
structure SameScoped (s : Scope) (l r : Scoped Expr) : Prop where
  left : Term.WellFormedScoped s l
  right : Term.WellFormedScoped s r
  forms : Term.namelessScoped .top l = Term.namelessScoped .top r

namespace SameForm

variable {s : Scope}

/-- Having the same form does not depend on the order. -/
theorem symm {l r : Expr} (h : SameForm s l r) : SameForm s r l := ⟨h.right, h.left, h.forms.symm⟩

/-- What has the same form as a node is a node with the same head and children of the same forms. -/
theorem node_left {h : Head} {ts : List Expr} {ss : List (Scoped Expr)} {e : Expr} :
    SameForm s (.node h ts ss) e ↔
      ∃ ts' ss', e = .node h ts' ss' ∧ List.Forall₂ (SameForm s) ts ts' ∧
        List.Forall₂ (SameScoped s) ss ss' := by
  have hts : ∀ ts', List.Forall₂ (SameForm s) ts ts' ↔ (∀ t ∈ ts, t.WellFormed s) ∧
      (∀ t ∈ ts', t.WellFormed s) ∧ ts.map Term.nameless = ts'.map Term.nameless := by
    intro ts'
    simp only [← forall₂_and_eq_iff, ← sameForm_iff]
  have hss : ∀ ss', List.Forall₂ (SameScoped s) ss ss' ↔ (∀ sc ∈ ss, Term.WellFormedScoped s sc) ∧
      (∀ sc ∈ ss', Term.WellFormedScoped s sc) ∧
        ss.map (Term.namelessScoped .top) = ss'.map (Term.namelessScoped .top) := by
    intro ss'
    simp only [← forall₂_and_eq_iff, ← sameScoped_iff]
  simp only [hts, hss]
  constructor
  · rintro ⟨hl, hr, hforms⟩
    cases e with
    | var x => cases hforms
    | node h' ts' ss' =>
      obtain ⟨rfl, heq_ts, heq_ss⟩ := Term.namelessIn_node_inj.mp hforms
      obtain ⟨hl_ts, hl_ss⟩ := Term.wellFormed_node.mp hl
      obtain ⟨hr_ts, hr_ss⟩ := Term.wellFormed_node.mp hr
      exact ⟨ts', ss', rfl, ⟨hl_ts, hr_ts, heq_ts⟩, hl_ss, hr_ss, heq_ss⟩
  · rintro ⟨ts', ss', rfl, ⟨hl_ts, hr_ts, heq_ts⟩, hl_ss, hr_ss, heq_ss⟩
    exact ⟨Term.wellFormed_node.mpr ⟨hl_ts, hl_ss⟩, Term.wellFormed_node.mpr ⟨hr_ts, hr_ss⟩,
      Term.namelessIn_node_inj.mpr ⟨rfl, heq_ts, heq_ss⟩⟩

/-- What has the form of an application is one, of parts with the same forms. -/
theorem app_left {f a e : Expr} :
    SameForm s (app f a) e ↔ ∃ f' a', e = app f' a' ∧ SameForm s f f' ∧ SameForm s a a' := by
  simp [app, node_left, List.forall₂_cons_left_iff]

/-- What has the form of a pair is one, of parts with the same forms. -/
theorem pair_left {a b e : Expr} :
    SameForm s (pair a b) e ↔ ∃ a' b', e = pair a' b' ∧ SameForm s a a' ∧ SameForm s b b' := by
  simp [pair, node_left, List.forall₂_cons_left_iff]

/-- What has the form of a projection is one, of an expression with the same form. -/
theorem projection_left {π : Projection} {d e : Expr} :
    SameForm s (π.of d) e ↔ ∃ d', e = π.of d' ∧ SameForm s d d' := by
  cases π <;> simp [Projection.of, Expr.first, Expr.second, node_left, List.forall₂_cons_left_iff]

/-- What has the same form as a function is a function, and the bodies have the same form inside
their patterns. -/
theorem lam_left {p : Pattern} {b e : Expr} (h : SameForm s (lam p b) e) :
    ∃ q c, e = lam q c ∧ SameScoped s ⟨p, b⟩ ⟨q, c⟩ := by
  obtain ⟨ts', ss', rfl, hts, hss⟩ := node_left.mp h
  obtain rfl := List.forall₂_nil_left_iff.mp hts
  obtain ⟨⟨q, c⟩, _, hsc, hnil, rfl⟩ := List.forall₂_cons_left_iff.mp hss
  obtain rfl := List.forall₂_nil_left_iff.mp hnil
  exact ⟨q, c, rfl, hsc⟩

/-- Projections of expressions with the same form have the same form. -/
theorem projection {d d' : Expr} (h : SameForm s d d') (π : Projection) :
    SameForm s (π.of d) (π.of d') :=
  projection_left.mpr ⟨d', rfl, h⟩

/-! ### Components put for binders -/

/-- The components of expressions with the same form have the same forms one by one. -/
theorem nestedComponents {a a' : Expr} (h : SameForm s a a') (n : Nat) :
    List.Forall₂ (SameForm s) (a.nestedComponents n) (a'.nestedComponents n) := by
  fun_induction Expr.nestedComponents a n generalizing a' with
  | case1 a => exact .nil
  | case2 a => exact .cons h .nil
  | case3 a n ih => exact .cons (h.projection .first) (ih (h.projection .second))

/-- Expressions with the same form have components with the same forms. -/
theorem components {a a' : Expr} (h : SameForm s a a') (sh : Shape) :
    List.Forall₂ (SameForm s) (a.components sh) (a'.components sh) := by
  induction sh generalizing a a' with
  | wildcard => exact .nil
  | single => exact .cons h .nil
  | list n => exact h.nestedComponents n
  | set n => exact .nil
  | pair l r ihl ihr =>
    exact List.rel_append (ihl (h.projection .first)) (ihr (h.projection .second))

/-- Names that two bodies read alike stand for expressions with the same form, after arguments with
the same form were matched. -/
theorem lookup_matchPattern {p q : Pattern} {a a' b c : Expr} {σ τ : Substitution Expr}
    (hbody : SameScoped s ⟨p, b⟩ ⟨q, c⟩) (ha : SameForm s a a') (hσ : matchPattern p a = .ok σ)
    (hτ : matchPattern q a' = .ok τ) {x y : Name} (hx : x ∈ b.freeNames)
    (hxy : Reading.top.enter p.binders x = Reading.top.enter q.binders y) :
    SameForm s (σ.lookup x) (τ.lookup y) := by
  obtain ⟨hout, hin⟩ := Expr.lookup_of_matchPattern hbody.left.setFree hσ
  obtain ⟨hout', hin'⟩ := Expr.lookup_of_matchPattern hbody.right.setFree hτ
  have hshape : p.shape = q.shape := (Prod.mk.inj hbody.forms).1
  rcases Reading.enter_eq_enter hxy with ⟨i, hi, hj⟩ | ⟨hxp, hyq, hreads⟩
  · -- binders of one position stand for the components at that position
    have hy : (a'.components p.shape)[i]? = some (τ.lookup y) := by
      rw [hshape]
      exact hin' y i hj
    have hzip : ((a.components p.shape).zip (a'.components p.shape))[i]? =
        some (σ.lookup x, τ.lookup y) :=
      List.getElem?_zip_eq_some.mpr ⟨hin x i hi, hy⟩
    exact (List.forall₂_iff_zip.mp (ha.components p.shape)).2 (List.mem_of_getElem? hzip)
  · -- from outside comes one name, which stands for itself on both sides
    obtain rfl : x = y := Occurrence.free.inj hreads
    rw [hout x hxp, hout' x hyq]
    have hxs : x ∈ s :=
      (Scope.mem_extendAll.mp (hbody.left.body.inScope x hx)).resolve_right hxp
    exact ⟨Term.wellFormed_var.mpr hxs, Term.wellFormed_var.mpr hxs, rfl⟩

/-- What the free names of a body stand for is well formed, after a well-formed argument was
matched. -/
theorem wellFormed_lookup_matchPattern {p : Pattern} {a b : Expr} {σ : Substitution Expr}
    (hb : Term.WellFormedScoped s ⟨p, b⟩) (ha : a.WellFormed s) (hσ : matchPattern p a = .ok σ) :
    ∀ x ∈ b.freeNames, (σ.lookup x).WellFormed s := by
  intro x hx
  exact (lookup_matchPattern ⟨hb, hb, rfl⟩ ⟨ha, ha, rfl⟩ hσ hσ hx rfl).left

/-- Functions with the same form, applied to arguments with the same form, give expressions with the
same form. -/
theorem beta {p q : Pattern} {a a' b c : Expr} {σ τ : Substitution Expr}
    (hbody : SameScoped s ⟨p, b⟩ ⟨q, c⟩) (ha : SameForm s a a') (hσ : matchPattern p a = .ok σ)
    (hτ : matchPattern q a' = .ok τ) (hb : b.HasRoom Scope.refresh s)
    (hc : c.HasRoom Scope.refresh s) : SameForm s (b.substitute s σ) (c.substitute s τ) := by
  have hwσ := wellFormed_lookup_matchPattern hbody.left ha.left hσ
  have hwτ := wellFormed_lookup_matchPattern hbody.right ha.right hτ
  have hsets_b := hbody.left.body.setFree
  have hsets_c := hbody.right.body.setFree
  have hchoose := Scope.refresh_keepsOrDraws
  refine ⟨Term.wellFormed_substituteWith hchoose b hsets_b s σ hb hwσ,
    Term.wellFormed_substituteWith hchoose c hsets_c s τ hc hwτ, ?_⟩
  unfold Term.substitute
  rw [Term.nameless_substituteWith hchoose hsets_b (fun x hx => (hwσ x hx).inScope) hb,
    Term.nameless_substituteWith hchoose hsets_c (fun y hy => (hwτ y hy).inScope) hc]
  apply Term.bind_namelessIn_congr b c (Prod.mk.inj hbody.forms).2
  intro x hx y _ hxy
  exact .free (lookup_matchPattern hbody ha hσ hτ hx hxy).forms

end SameForm

/-! ### Runs without wrapping -/

/-- The body into which the next step of an expression substitutes. -/
inductive NextBody : Expr → Expr → Prop where
  | beta (p : Pattern) (b a : Expr) : NextBody (app (lam p b) a) b
  | function {f b : Expr} (a : Expr) (h : NextBody f b) : NextBody (app f a) b
  | projected {e b : Expr} (π : Projection) (h : NextBody e b) : NextBody (π.of e) b

/-- A rigid expression enters no body. -/
theorem Expr.Rigid.not_nextBody {e : Expr} (h : e.Rigid) (b : Expr) : ¬ NextBody e b := by
  intro hb
  cases hb with
  | beta p b a => exact h.ne_app _ a rfl
  | function a _ => exact h.ne_app _ a rfl
  | projected π _ => exact h.ne_projection π _ rfl

/-- No draw wraps in the next step of an expression. -/
def StepHasRoom (s : Scope) (e : Expr) : Prop := ∀ b, NextBody e b → b.HasRoom Scope.refresh s

/-- No draw wraps while an expression is reduced, in whatever step it comes to. -/
def ReductionHasRoom (s : Scope) (e : Expr) : Prop := ∀ e', Steps s e e' → StepHasRoom s e'

/-- A redex steps without wrapping if there is room for the patterns of its body. -/
theorem stepHasRoom_redex {s : Scope} {p : Pattern} {b a : Expr}
    (h : b.HasRoom Scope.refresh s) : StepHasRoom s (app (lam p b) a) := by
  intro c hc
  generalize he : app (lam p b) a = e at hc
  cases hc with
  | beta p' c a' =>
    obtain ⟨-, rfl⟩ := Expr.lam_inj.mp (Expr.app_inj.mp he).1
    exact h
  | function a' hf =>
    obtain ⟨rfl, -⟩ := Expr.app_inj.mp he
    exact absurd hf ((Expr.rigid_lam p b).not_nextBody c)
  | projected π _ => exact absurd he (Expr.app_ne_projection _ _ _ _)

/-- Reduction has room if the step has, and the reduction that goes on from it. -/
theorem Step.reductionHasRoom {s : Scope} {e e' : Expr} (h : Step s e e') (he : StepHasRoom s e)
    (he' : ReductionHasRoom s e') : ReductionHasRoom s e := by
  intro d hd
  rcases hd.cases_head with rfl | ⟨c, hc, hcd⟩
  · exact he
  · rw [hc.deterministic h] at hcd
    exact he' d hcd

/-- A rigid expression needs no room, since nothing is substituted. -/
theorem Expr.Rigid.reductionHasRoom {s : Scope} {e : Expr} (h : e.Rigid) :
    ReductionHasRoom s e := by
  intro d hd
  rcases hd.cases_head with rfl | ⟨c, hc, -⟩
  · exact fun b hb => absurd hb (h.not_nextBody b)
  · exact absurd hc (normal_of_rigid h c)

/-- The reduction of a function that is applied has room if its body has, and there is nothing to
reduce in what it comes to. -/
theorem reductionHasRoom_redex {s : Scope} {p : Pattern} {b a : Expr} {σ : Substitution Expr}
    (hσ : matchPattern p a = .ok σ) (hb : b.HasRoom Scope.refresh s)
    (hrigid : Expr.Rigid (b.substitute s σ)) : ReductionHasRoom s (app (lam p b) a) :=
  (Step.beta b hσ).reductionHasRoom (stepHasRoom_redex hb) hrigid.reductionHasRoom

/-! ### Two reductions in step -/

namespace SameForm

variable {s : Scope}

/-- Where one of two expressions with the same form steps, the other steps too, and if neither step
wraps, they come to expressions with the same form. -/
theorem step {e₁ e₂ e₁' : Expr} (h : SameForm s e₁ e₂) (hstep : Step s e₁ e₁') :
    ∃ e₂', Step s e₂ e₂' ∧ (StepHasRoom s e₁ → StepHasRoom s e₂ → SameForm s e₁' e₂') := by
  induction hstep generalizing e₂ with
  | beta b hσ =>
    obtain ⟨_, a', rfl, hf, ha⟩ := app_left.mp h
    obtain ⟨q, c, rfl, hbody⟩ := lam_left hf
    obtain ⟨τ, hτ, -⟩ := Expr.exists_matchPattern hbody.right.setFree a'
    refine ⟨_, .beta c hτ, fun hroom₁ hroom₂ => ?_⟩
    exact beta hbody ha hσ hτ (hroom₁ b (.beta _ b _)) (hroom₂ c (.beta q c a'))
  | take π a b =>
    obtain ⟨d, rfl, hd⟩ := projection_left.mp h
    obtain ⟨a', b', rfl, ha, hb⟩ := pair_left.mp hd
    refine ⟨_, .take π a' b', fun _ _ => ?_⟩
    cases π with
    | first => exact ha
    | second => exact hb
  | function a _ ih =>
    obtain ⟨f₂, a', rfl, hf, ha⟩ := app_left.mp h
    obtain ⟨f₂', hstep', hsame⟩ := ih hf
    refine ⟨_, .function a' hstep', fun hroom₁ hroom₂ => ?_⟩
    have hff := hsame (fun b hb => hroom₁ b (.function a hb)) fun b hb => hroom₂ b (.function a' hb)
    exact app_left.mpr ⟨f₂', a', rfl, hff, ha⟩
  | projected π _ ih =>
    obtain ⟨d₂, rfl, hd⟩ := projection_left.mp h
    obtain ⟨d₂', hstep', hsame⟩ := ih hd
    refine ⟨_, .projected π hstep', fun hroom₁ hroom₂ => ?_⟩
    have hdd := hsame (fun b hb => hroom₁ b (.projected π hb))
      fun b hb => hroom₂ b (.projected π hb)
    exact hdd.projection π

/-- Reduction of one of two expressions with the same form is followed by reduction of the other. -/
theorem steps {e₁ e₂ r₁ : Expr} (h : SameForm s e₁ e₂) (hroom₁ : ReductionHasRoom s e₁)
    (hroom₂ : ReductionHasRoom s e₂) (hsteps : Steps s e₁ r₁) :
    ∃ r₂, Steps s e₂ r₂ ∧ SameForm s r₁ r₂ := by
  induction hsteps with
  | refl => exact ⟨e₂, .refl, h⟩
  | tail hsteps hstep ih =>
    obtain ⟨m₂, hsteps₂, hm⟩ := ih
    obtain ⟨r₂, hstep₂, hsame⟩ := hm.step hstep
    exact ⟨r₂, hsteps₂.tail hstep₂, hsame (hroom₁ _ hsteps) (hroom₂ _ hsteps₂)⟩

/-- What has the form of a normal expression is normal. -/
theorem normal {e₁ e₂ : Expr} (h : SameForm s e₁ e₂) (he₁ : Normal s e₁) : Normal s e₂ := by
  intro e₂' hstep
  obtain ⟨e₁', hstep₁, -⟩ := h.symm.step hstep
  exact he₁ e₁' hstep₁

end SameForm

namespace Expr

/-- **Weak head normal forms respect alpha-equivalence.** Let `e₁` and `e₂` be well formed in `s`,
with the children that their forms ask for, and let the comparison say that they are
alpha-equivalent. If the search answers `r₁` for `e₁`, it answers some `r₂` for `e₂`, with the same
nameless form, and the comparison says that `r₁` and `r₂` are alpha-equivalent. No draw may wrap,
neither in the two reductions nor in the two comparisons. -/
theorem whnf_respects_alphaEquiv (s : Scope) (e₁ e₂ : Expr) (hwell₁ : e₁.WellFormed s)
    (hwell₂ : e₂.WellFormed s) (harity₁ : e₁.ArityCorrect) (harity₂ : e₂.ArityCorrect)
    (hroom : Term.AlphaEquivHasRoom s e₁ e₂) (hequiv : Term.alphaEquiv s e₁ e₂ = .ok true)
    (hroom₁ : ReductionHasRoom s e₁) (hroom₂ : ReductionHasRoom s e₂) (r₁ : Expr)
    (hreturns : ∃ n, whnfAtFuel s n e₁ = .ok r₁) :
    ∃ r₂, (∃ n, whnfAtFuel s n e₂ = .ok r₂) ∧ r₁.nameless = r₂.nameless ∧
      (Term.AlphaEquivHasRoom s r₁ r₂ → Term.alphaEquiv s r₁ r₂ = .ok true) := by
  have hforms := (Term.alphaEquiv_eq_true_iff hwell₁.comparable hwell₂.comparable hroom).mp hequiv
  have hsame : SameForm s e₁ e₂ := ⟨hwell₁, hwell₂, hforms⟩
  obtain ⟨hsteps, hnormal⟩ := (returns_iff ⟨harity₁, hwell₁.setFree⟩).mp hreturns
  obtain ⟨r₂, hsteps₂, hr⟩ := hsame.steps hroom₁ hroom₂ hsteps
  have hreturns₂ := (returns_iff ⟨harity₂, hwell₂.setFree⟩).mpr ⟨hsteps₂, hr.normal hnormal⟩
  refine ⟨r₂, hreturns₂, hr.forms, ?_⟩
  intro hroom_r
  exact (Term.alphaEquiv_eq_true_iff hr.left.comparable hr.right.comparable hroom_r).mpr hr.forms

/-- A function of two arguments that applies the first to the second, given the name `2`. -/
def givenTwo (x y : Name) : Expr :=
  app (lam (.single x) (lam (.single y) (app (.var x) (.var y)))) (.var 2)

/-- What is left of it. -/
def applyTwo (y : Name) : Expr := lam (.single y) (app (.var 2) (.var y))

/-- The argument `2` is put under a binder `1`, which stays, and under a binder `2`, which is
replaced by `3`. -/
theorem whnf_respects_alphaEquiv_clash :
    whnfAtFuel (Scope.empty.extend 2) 2 (givenTwo 0 1) = .ok (applyTwo 1) ∧
      whnfAtFuel (Scope.empty.extend 2) 2 (givenTwo 5 2) = .ok (applyTwo 3) ∧
      Term.alphaEquiv (Scope.empty.extend 2) (applyTwo 1) (applyTwo 3) = .ok true := by
  have hrun₁ : whnfAtFuel (Scope.empty.extend 2) 2 (givenTwo 0 1) = .ok (applyTwo 1) := rfl
  have hrun₂ : whnfAtFuel (Scope.empty.extend 2) 2 (givenTwo 5 2) = .ok (applyTwo 3) := rfl
  have hwell : ∀ e, e = givenTwo 0 1 ∨ e = givenTwo 5 2 ∨ e = applyTwo 1 ∨ e = applyTwo 3 →
      e.WellFormed (Scope.empty.extend 2) ∧ e.NamesBelow 6 := by
    unfold givenTwo applyTwo app lam
    rintro e (rfl | rfl | rfl | rfl)
    all_goals
      refine ⟨⟨?_, ?_, ?_⟩, ?_⟩
      · simp +contextual [Term.mem_freeNames_node, Term.mem_freeNames_var, Pattern.binders, or_imp]
      · simp [Term.SetFree, Term.allPatterns_node, Term.AllPatterns.var, Pattern.setFree]
      · simp [Term.DistinctBinders, Term.allPatterns_node, Term.AllPatterns.var, Pattern.binders]
      · simp [Term.namesBelow_node, Term.NamesBelow.var, Pattern.binders]
  have hcompare : ∀ l r : Expr, l.WellFormed (Scope.empty.extend 2) ∧ l.NamesBelow 6 →
      r.WellFormed (Scope.empty.extend 2) ∧ r.NamesBelow 6 → l.binderCount + r.binderCount ≤ 4 →
      Term.AlphaEquivHasRoom (Scope.empty.extend 2) l r := by
    rintro l r ⟨hl, hlB⟩ ⟨hr, hrB⟩ hcount
    have hsmall : Term.SmallEnough 6 4 := by decide
    exact Term.alphaEquivHasRoom_of_below l r hl hr (by decide) hlB hrB (hsmall.mono hcount)
  have hproper : ∀ x y, (givenTwo x y).Proper := by
    simp [givenTwo, proper_app, proper_lam, proper_var, Pattern.setFree]
  have hreduce : ∀ x y, Pattern.HasRoom Scope.refresh (Scope.empty.extend 2) (.single y) →
      ReductionHasRoom (Scope.empty.extend 2) (givenTwo x y) := by
    intro x y hroom
    refine Step.reductionHasRoom (.beta _ rfl) (stepHasRoom_redex ?_)
      (rigid_lam _ _).reductionHasRoom
    simpa [lam, app, Term.hasRoom_node, Term.HasRoom.var] using hroom
  have hwell₁ := hwell (givenTwo 0 1) (by simp)
  have hwell₂ := hwell (givenTwo 5 2) (by simp)
  have hroom := hcompare _ _ hwell₁ hwell₂ (by decide)
  have hequiv := (Term.alphaEquiv_eq_true_iff hwell₁.1.comparable hwell₂.1.comparable hroom).mpr rfl
  obtain ⟨r₂, hr₂, -, hresult⟩ := whnf_respects_alphaEquiv _ _ _ hwell₁.1 hwell₂.1
    (hproper 0 1).arity (hproper 5 2).arity hroom hequiv (hreduce 0 1 (by decide))
    (hreduce 5 2 (by decide)) _ ⟨2, hrun₁⟩
  obtain rfl : r₂ = applyTwo 3 := Returns.unique hr₂ ⟨2, hrun₂⟩
  exact ⟨hrun₁, hrun₂, hresult (hcompare _ _ (hwell _ (by simp)) (hwell _ (by simp)) (by decide))⟩

/-! ### Comparisons that wrap -/

/-- An application is well formed if both of its parts are. -/
theorem wellFormed_app {s : Scope} {f a : Expr} :
    (app f a).WellFormed s ↔ f.WellFormed s ∧ a.WellFormed s := by
  simp [app, Term.wellFormed_node]

/-- A pair is well formed if both of its components are. -/
theorem wellFormed_pair {s : Scope} {a b : Expr} :
    (pair a b).WellFormed s ↔ a.WellFormed s ∧ b.WellFormed s := by
  simp [pair, Term.wellFormed_node]

/-- A function is well formed if its binders are distinct and its body is well formed inside. -/
theorem wellFormed_lam {s : Scope} {p : Pattern} {b : Expr} :
    (lam p b).WellFormed s ↔
      p.setFree = true ∧ p.binders.Nodup ∧ b.WellFormed (s.extendAll p.binders) := by
  simp only [lam, Term.wellFormed_node, List.not_mem_nil, false_implies, implies_true, true_and,
    List.forall_mem_singleton]
  exact ⟨fun h => ⟨h.setFree, h.nodup, h.body⟩, fun h => ⟨h.1, h.2.1, h.2.2⟩⟩

/-- The comparison takes `e₁` and `e₂` for alpha-equivalent but not what they reduce to, although no
draw wraps in either reduction. -/
structure ToldApart (s : Scope) (e₁ e₂ r₁ r₂ : Expr) : Prop where
  wellFormed : e₁.WellFormed s ∧ e₂.WellFormed s
  arity : e₁.ArityCorrect ∧ e₂.ArityCorrect
  compared : Term.alphaEquiv s e₁ e₂ = .ok true
  room : ReductionHasRoom s e₁ ∧ ReductionHasRoom s e₂
  returns : (∃ n, whnfAtFuel s n e₁ = .ok r₁) ∧ ∃ n, whnfAtFuel s n e₂ = .ok r₂
  results : Term.alphaEquiv s r₁ r₂ = .ok false

/-- A function of one argument, given the name `2`. -/
def appliedToTwo (x y : Name) : Expr := app (lam (.single x) (.var y)) (.var 2)

/-- A function that pairs `e` with its argument, which is bound to the largest name of all. -/
def besideLargest (e : Expr) : Expr := lam (.single Name.largest) (pair e (.var Name.largest))

/-- Reduces to `besideLargest e`. -/
def putBesideLargest (e : Expr) : Expr := app (lam (.single 9) (besideLargest (.var 9))) e

/-- A function of two arguments that are not used, and a third that is applied to the name `0`. -/
def applyToZero (x y z : Name) : Expr :=
  lam (.list [x, y]) (lam (.single z) (app (.var z) (.var 0)))

/-- The binders `1` and `2` are both taken, so they are lined up on the name drawn after the largest
one. That is `0`, which is free in the second body, and two different functions are taken for the
same. -/
theorem toldApart_appliedToTwo :
    ToldApart (Scope.empty.extendAll [0, 1, 2, Name.largest]) (appliedToTwo 1 1) (appliedToTwo 2 0)
      (.var 2) (.var 0) := by
  have hproper : ∀ x y, (appliedToTwo x y).Proper := by
    simp [appliedToTwo, proper_app, proper_lam, proper_var, Pattern.setFree]
  refine ⟨?_, ⟨(hproper 1 1).arity, (hproper 2 0).arity⟩, by decide +kernel, ⟨?_, ?_⟩,
    ⟨⟨2, rfl⟩, 2, rfl⟩, by decide +kernel⟩
  · simp [appliedToTwo, wellFormed_app, wellFormed_lam, Term.wellFormed_var, Pattern.setFree,
      Pattern.binders]
  · exact reductionHasRoom_redex rfl (.var _ _) (rigid_var _)
  · exact reductionHasRoom_redex rfl (.var _ _) (rigid_var _)

/-- Two equivalent functions end up below a binder with the largest name. When the body of one of
them is renamed there, a binder is replaced by `0` and captures the free name `0`, so that the two
are told apart. -/
theorem toldApart_putBesideLargest :
    ToldApart (Scope.empty.extendAll [0, 1, 2]) (putBesideLargest (applyToZero 1 2 3))
      (putBesideLargest (applyToZero 2 1 1)) (besideLargest (applyToZero 1 2 3))
      (besideLargest (applyToZero 2 1 1)) := by
  have hproper : ∀ x y z, (putBesideLargest (applyToZero x y z)).Proper := by
    simp [putBesideLargest, besideLargest, applyToZero, proper_app, proper_lam, proper_pair,
      proper_var, Pattern.setFree]
  -- the binder that is crossed is new, so that it stays and nothing is drawn
  have hkept : Pattern.HasRoom Scope.refresh (Scope.empty.extendAll [0, 1, 2])
      (.single Name.largest) := by decide
  have hroom : ∀ e, ReductionHasRoom (Scope.empty.extendAll [0, 1, 2]) (putBesideLargest e) := by
    intro e
    refine reductionHasRoom_redex rfl ?_ (rigid_lam _ _)
    simpa [besideLargest, lam, pair, Term.hasRoom_node, Term.HasRoom.var] using hkept
  refine ⟨?_, ⟨(hproper 1 2 3).arity, (hproper 2 1 1).arity⟩, by decide +kernel,
    ⟨hroom _, hroom _⟩, ⟨⟨2, rfl⟩, 2, rfl⟩, by decide +kernel⟩
  simp [putBesideLargest, besideLargest, applyToZero, wellFormed_app, wellFormed_lam,
    wellFormed_pair, Term.wellFormed_var, Pattern.setFree, Pattern.binders]

/-- **A comparison that wraps may disagree with the reductions.** In the first pair of expressions
it is the comparison before the reductions that is wrong, in the second pair the one after them.
Nothing is drawn in the reductions. -/
theorem whnf_not_respects_alphaEquiv_wrapping :
    ToldApart (Scope.empty.extendAll [0, 1, 2, Name.largest]) (appliedToTwo 1 1) (appliedToTwo 2 0)
      (.var 2) (.var 0) ∧
    ToldApart (Scope.empty.extendAll [0, 1, 2]) (putBesideLargest (applyToZero 1 2 3))
      (putBesideLargest (applyToZero 2 1 1)) (besideLargest (applyToZero 1 2 3))
      (besideLargest (applyToZero 2 1 1)) :=
  ⟨toldApart_appliedToTwo, toldApart_putBesideLargest⟩

end Expr

end LambdaPi

end NameBinding
