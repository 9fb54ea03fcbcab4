import NameBinding.Proofs.HeadReduction

/-!
# Reduction is safe and stays in scope

The search for a weak head normal form takes children by their index: the function and the argument
of an application, the body of an abstraction, the components of a pair. `LambdaPi.whnfRun` is the
search with every such access written out. An index for which there is no child is a failure of its
own, and every expression whose form is looked at is recorded, also where the search fails or does
not end.

On expressions whose nodes have the children that their forms ask for, and which have no sets,
nothing of the kind happens (`LambdaPi.Expr.whnf_safe`). All that is looked at is an expression of
that sort again and has no free names but those of the first one (`LambdaPi.Within`), because a step
keeps both (`Step.within`). So every index finds its child, and the two searches come to the same.
-/

namespace NameBinding

namespace LambdaPi

open NameBinding.LambdaPi.Expr (app lam pair matchPattern whnfAtFuel)

/-! ### Free names along reduction -/

namespace Expr

/-- The free names of an application are those of its two parts. -/
theorem mem_freeNames_app {f a : Expr} {x : Name} :
    x ∈ (app f a).freeNames ↔ x ∈ f.freeNames ∨ x ∈ a.freeNames := by
  simp [app, Term.mem_freeNames_node]

/-- The free names of an abstraction are those of its body, without the binders. -/
theorem mem_freeNames_lam {p : Pattern} {b : Expr} {x : Name} :
    x ∈ (lam p b).freeNames ↔ x ∈ b.freeNames ∧ x ∉ p.binders := by
  simp [lam, Term.mem_freeNames_node]

/-- The free names of a pair are those of its two parts. -/
theorem mem_freeNames_pair {a b : Expr} {x : Name} :
    x ∈ (pair a b).freeNames ↔ x ∈ a.freeNames ∨ x ∈ b.freeNames := by
  simp [pair, Term.mem_freeNames_node]

/-- The free names of a projection are those of its expression. -/
theorem mem_freeNames_projection {π : Projection} {e : Expr} {x : Name} :
    x ∈ (π.of e).freeNames ↔ x ∈ e.freeNames := by
  cases π <;> simp [Projection.of, first, second, Term.mem_freeNames_node]

end Expr

open NameBinding.LambdaPi.Expr

/-- No free name is gained by a step, whether or not it is in the scope. -/
theorem Step.freeNames {s : Scope} {e e' : Expr} (h : Step s e e') (he : e.Proper) {x : Name}
    (hx : x ∈ e'.freeNames) : x ∈ e.freeNames := by
  induction h with
  | @beta p a σ b hσ =>
    obtain ⟨hp, -⟩ := proper_lam.mp (proper_app.mp he).1
    obtain ⟨y, hy, hxy⟩ := Term.exists_of_mem_freeNames_substituteWith b s σ hx
    -- what is put for a name of the body comes from the argument, or is the name itself
    refine forall_lookup_matchPattern
      (P := fun t => x ∈ t.freeNames → x ∈ (app (lam p b) a).freeNames)
      (fun π t ht hxt => ht (mem_freeNames_projection.mp hxt)) hp
      (fun hxa => mem_freeNames_app.mpr (Or.inr hxa)) hσ (fun hyp hxv => ?_) hxy
    rw [Term.mem_freeNames_var.mp hxv]
    exact mem_freeNames_app.mpr (Or.inl (mem_freeNames_lam.mpr ⟨hy, hyp⟩))
  | take π a b =>
    refine mem_freeNames_projection.mpr (mem_freeNames_pair.mpr ?_)
    cases π with
    | first => exact Or.inl hx
    | second => exact Or.inr hx
  | function a _ ih =>
    obtain ⟨hf, -⟩ := proper_app.mp he
    exact mem_freeNames_app.mpr ((mem_freeNames_app.mp hx).imp_left (ih hf))
  | projected π _ ih =>
    exact mem_freeNames_projection.mpr
      (ih (proper_projection.mp he) (mem_freeNames_projection.mp hx))

/-- A proper expression with no free names but those of the set `F`. -/
structure Within (F : NameSet) (e : Expr) : Prop where
  proper : e.Proper
  names : ∀ x ∈ e.freeNames, x ∈ F

variable {s : Scope} {F : NameSet}

/-- A step keeps an expression proper and brings in no names. -/
theorem Step.within {e e' : Expr} (h : Step s e e') (he : Within F e) : Within F e' :=
  ⟨h.proper he.proper, fun x hx => he.names x (h.freeNames he.proper hx)⟩

/-- A chain of steps keeps an expression proper and brings in no names. -/
theorem Steps.within {e e' : Expr} (h : Steps s e e') (he : Within F e) : Within F e' := by
  induction h with
  | refl => exact he
  | tail _ hstep ih => exact hstep.within ih

/-- An application is proper with names in the set if both parts are. -/
theorem within_app {f a : Expr} : Within F (app f a) ↔ Within F f ∧ Within F a := by
  constructor
  · rintro ⟨hproper, hnames⟩
    obtain ⟨hf, ha⟩ := proper_app.mp hproper
    exact ⟨⟨hf, fun x hx => hnames x (mem_freeNames_app.mpr (Or.inl hx))⟩,
      ha, fun x hx => hnames x (mem_freeNames_app.mpr (Or.inr hx))⟩
  · rintro ⟨hf, ha⟩
    refine ⟨proper_app.mpr ⟨hf.proper, ha.proper⟩, fun x hx => ?_⟩
    exact (mem_freeNames_app.mp hx).elim (hf.names x) (ha.names x)

/-- A projection is proper with names in the set if its expression is. -/
theorem within_projection {π : Projection} {e : Expr} : Within F (π.of e) ↔ Within F e := by
  constructor
  · rintro ⟨hproper, hnames⟩
    exact ⟨proper_projection.mp hproper, fun x hx => hnames x (mem_freeNames_projection.mpr hx)⟩
  · rintro ⟨hproper, hnames⟩
    exact ⟨proper_projection.mpr hproper, fun x hx => hnames x (mem_freeNames_projection.mp hx)⟩

/-! ### Runs -/

/-- The expressions that a computation looks at, in order, and what it comes to. -/
structure Run (α : Type) where
  inspected : List Expr
  outcome : Except Error α

namespace Run

variable {α β : Type}

/-- One run after the other. What was looked at before a failure stays. -/
instance : Monad Run where
  pure a := ⟨[], .ok a⟩
  bind run next :=
    match run.outcome with
    | .ok a => ⟨run.inspected ++ (next a).inspected, (next a).outcome⟩
    | .error err => ⟨run.inspected, .error err⟩

/-- Looks at an expression. -/
def inspect (e : Expr) : Run Unit := ⟨[e], .ok ()⟩

/-- Comes to an outcome without looking at anything. -/
def ofExcept (x : Except Error α) : Run α := ⟨[], x⟩

/-- The run comes to `x`, and all that it looks at has the property `P`. -/
structure Keeps (P : Expr → Prop) (run : Run α) (x : Except Error α) : Prop where
  outcome : run.outcome = x
  inspected : ∀ e ∈ run.inspected, P e

variable {P : Expr → Prop}

/-- An outcome alone looks at nothing. -/
theorem keeps_ofExcept (x : Except Error α) : (ofExcept x).Keeps P x :=
  ⟨rfl, fun _ he => absurd he List.not_mem_nil⟩

/-- A value alone looks at nothing. -/
theorem keeps_pure (a : α) : (pure a : Run α).Keeps P (.ok a) := keeps_ofExcept (.ok a)

/-- Looking at an expression with the property looks at nothing else. -/
theorem keeps_inspect {e : Expr} (he : P e) : (inspect e).Keeps P (.ok ()) :=
  ⟨rfl, fun _ hd => List.mem_singleton.mp hd ▸ he⟩

/-- A sequence of runs follows a sequence of outcomes. -/
theorem Keeps.bind {run : Run α} {next : α → Run β} {x : Except Error α} {f : α → Except Error β}
    (h : run.Keeps P x) (hnext : ∀ a, x = .ok a → (next a).Keeps P (f a)) :
    (run >>= next).Keeps P (x >>= f) := by
  obtain ⟨inspected, outcome⟩ := run
  obtain rfl : outcome = x := h.outcome
  cases outcome with
  | error err => exact ⟨rfl, h.inspected⟩
  | ok a =>
    obtain ⟨houtcome, hinspected⟩ := hnext a rfl
    refine ⟨houtcome, fun e he => ?_⟩
    rcases List.mem_append.mp he with he | he
    · exact h.inspected e he
    · exact hinspected e he

/-- After a run that has a result, it is the rest that counts. -/
theorem Keeps.andThen {run : Run α} {next : α → Run β} {a : α} {x : Except Error β}
    (h : run.Keeps P (.ok a)) (hnext : (next a).Keeps P x) : (run >>= next).Keeps P x := by
  refine h.bind (f := fun _ => x) fun a' ha' => ?_
  obtain rfl := Except.ok.inj ha'
  exact hnext

end Run

/-! ### The search, child by child -/

namespace Expr

/-- The form of a node of this language. -/
def form? : Expr → Option Form
  | .node (.form f) _ _ => some f
  | _ => none

/-- The plain child at an index. -/
def plainAt (e : Expr) (i : Nat) : Except Error Expr :=
  match e with
  | .var _ => .error .outOfRange
  | .node _ ts _ => (ts[i]?).elim (.error .outOfRange) .ok

/-- The scoped child at an index. -/
def scopedAt (e : Expr) (i : Nat) : Except Error (Scoped Expr) :=
  match e with
  | .var _ => .error .outOfRange
  | .node _ _ ss => (ss[i]?).elim (.error .outOfRange) .ok

end Expr

/-- The index of the component that a projection takes. -/
def Projection.index : Projection → Nat
  | first => 0
  | second => 1

open Run (inspect ofExcept) in
/-- The search at an application: `search` is called for the function and for what it gives. -/
def applyRun (s : Scope) (search : Expr → Run Expr) (e : Expr) : Run Expr := do
  let f ← ofExcept (e.plainAt 0)
  let g ← search f
  inspect g
  if g.form? = some .lam then
    let sc ← ofExcept (g.scopedAt 0)
    let a ← ofExcept (e.plainAt 1)
    let σ ← ofExcept (matchPattern sc.binder a)
    search (sc.body.substitute s σ)
  else
    let a ← ofExcept (e.plainAt 1)
    return app g a

open Run (inspect ofExcept) in
/-- The search at a projection: `search` is called for what is projected and for its component. -/
def projectRun (π : Projection) (search : Expr → Run Expr) (e : Expr) : Run Expr := do
  let t ← ofExcept (e.plainAt 0)
  let d ← search t
  inspect d
  if d.form? = some .pair then
    let c ← ofExcept (d.plainAt π.index)
    search c
  else
    return π.of d

/-- The search for a weak head normal form, with every access to a child. -/
def whnfRun (s : Scope) : Nat → Expr → Run Expr
  | 0, _ => .ofExcept (.error .outOfFuel)
  | n + 1, e => do
    Run.inspect e
    match e.form? with
    | some .app => applyRun s (whnfRun s n) e
    | some .first => projectRun .first (whnfRun s n) e
    | some .second => projectRun .second (whnfRun s n) e
    | _ => return e

/-! ### Every index finds its child -/

namespace Expr

/-- The expressions that the forms put together from as many children as they ask for. -/
inductive OfForm : Form → Expr → Prop where
  | app (f a : Expr) : OfForm .app (app f a)
  | lam (p : Pattern) (b : Expr) : OfForm .lam (lam p b)
  | pi (p : Pattern) (a b : Expr) : OfForm .pi (pi p a b)
  | pair (a b : Expr) : OfForm .pair (pair a b)
  | first (e : Expr) : OfForm .first (first e)
  | second (e : Expr) : OfForm .second (second e)
  | product (a b : Expr) : OfForm .product (product a b)
  | univ : OfForm .univ univ

/-- A proper expression of a form has the children that the form asks for. -/
theorem Proper.ofForm {e : Expr} (he : e.Proper) {f : Form} (h : e.form? = some f) :
    OfForm f e := by
  cases e with
  | var x => cases h
  | node hd ts ss =>
    cases hd with
    | other label => cases h
    | form g =>
      obtain rfl : g = f := Option.some.inj h
      obtain ⟨hts, hss⟩ := Prod.mk.inj (proper_node.mp he).1
      cases g with
      | app | pair | product =>
        obtain ⟨t, u, rfl⟩ := List.length_eq_two.mp hts
        obtain rfl := List.length_eq_zero_iff.mp hss
        constructor
      | first | second =>
        obtain ⟨t, rfl⟩ := List.length_eq_one_iff.mp hts
        obtain rfl := List.length_eq_zero_iff.mp hss
        constructor
      | lam =>
        obtain rfl := List.length_eq_zero_iff.mp hts
        obtain ⟨sc, rfl⟩ := List.length_eq_one_iff.mp hss
        exact .lam sc.binder sc.body
      | pi =>
        obtain ⟨t, rfl⟩ := List.length_eq_one_iff.mp hts
        obtain ⟨sc, rfl⟩ := List.length_eq_one_iff.mp hss
        exact .pi sc.binder t sc.body
      | univ =>
        obtain rfl := List.length_eq_zero_iff.mp hts
        obtain rfl := List.length_eq_zero_iff.mp hss
        exact .univ

end Expr

section search

variable {n : Nat}
  (ih : ∀ {e : Expr}, Within F e → (whnfRun s n e).Keeps (Within F) (whnfAtFuel s n e))
include ih

/-- The run at an application follows the function, and looks at expressions within the set only. -/
theorem keeps_applyRun {f a : Expr} (h : Within F (app f a)) :
    (applyRun s (whnfRun s n) (app f a)).Keeps (Within F) (whnfAtFuel s (n + 1) (app f a)) := by
  obtain ⟨hf, ha⟩ := within_app.mp h
  rw [whnfAtFuel_app]
  refine (Run.keeps_ofExcept (.ok f)).andThen ((ih hf).bind fun g hg => ?_)
  have hsteps := (steps_of_whnfAtFuel hg).1
  have hwithin : Within F g := hsteps.within hf
  refine (Run.keeps_inspect hwithin).andThen ?_
  rcases hlam : g.lam? with _ | ⟨p, b⟩
  · have hform : g.form? ≠ some .lam := by
      intro hform
      cases hwithin.proper.ofForm hform
      cases hlam
    rw [if_neg hform]
    exact (Run.keeps_ofExcept (.ok a)).andThen (Run.keeps_pure _)
  · obtain rfl := lam?_eq_some_iff.mp hlam
    rw [if_pos (show (lam p b).form? = some .lam from rfl)]
    refine (Run.keeps_ofExcept (.ok (Scoped.mk p b))).andThen ?_
    refine (Run.keeps_ofExcept (.ok a)).andThen ?_
    refine (Run.keeps_ofExcept (matchPattern p a)).bind fun σ hσ => ih ?_
    exact Steps.within ((hsteps.function a).tail (.beta b hσ)) h

/-- The run at a projection follows the function, and looks at expressions within the set only. -/
theorem keeps_projectRun {π : Projection} {t : Expr} (h : Within F (π.of t)) :
    (projectRun π (whnfRun s n) (π.of t)).Keeps (Within F) (whnfAtFuel s (n + 1) (π.of t)) := by
  have ht := within_projection.mp h
  rw [whnfAtFuel_projection]
  have hchild : (π.of t).plainAt 0 = .ok t := by cases π <;> rfl
  unfold projectRun
  rw [hchild]
  refine (Run.keeps_ofExcept (.ok t)).andThen ((ih ht).bind fun d hd => ?_)
  have hsteps := (steps_of_whnfAtFuel hd).1
  have hwithin : Within F d := hsteps.within ht
  refine (Run.keeps_inspect hwithin).andThen ?_
  rcases hpair : d.pair? with _ | ⟨a, b⟩
  · have hform : d.form? ≠ some .pair := by
      intro hform
      cases hwithin.proper.ofForm hform
      cases hpair
    rw [if_neg hform]
    exact Run.keeps_pure _
  · obtain rfl := pair?_eq_some_iff.mp hpair
    have hcomponent : (pair a b).plainAt π.index = .ok (π.pick a b) := by cases π <;> rfl
    rw [if_pos (show (pair a b).form? = some .pair from rfl), hcomponent]
    refine (Run.keeps_ofExcept (.ok (π.pick a b))).andThen (ih ?_)
    exact Steps.within ((hsteps.projected π).tail (.take π a b)) h

end search

/-- The search with every access to a child comes to the same as the search without. -/
theorem keeps_whnfRun (n : Nat) {e : Expr} (he : Within F e) :
    (whnfRun s n e).Keeps (Within F) (whnfAtFuel s n e) := by
  induction n generalizing e with
  | zero => exact Run.keeps_ofExcept _
  | succ n ih =>
    refine (Run.keeps_inspect he).andThen ?_
    rcases e.cases_head with ⟨f, a, rfl⟩ | ⟨π, t, rfl⟩ | hrigid
    · exact keeps_applyRun ih he
    · cases π with
      | first => exact keeps_projectRun (π := .first) ih he
      | second => exact keeps_projectRun (π := .second) ih he
    · rw [whnfAtFuel_of_rigid hrigid]
      split
      · rename_i hform
        cases he.proper.ofForm hform with
        | app f a => exact absurd rfl (hrigid.ne_app f a)
      · rename_i hform
        cases he.proper.ofForm hform with
        | first t => exact absurd rfl (hrigid.ne_projection .first t)
      · rename_i hform
        cases he.proper.ofForm hform with
        | second t => exact absurd rfl (hrigid.ne_projection .second t)
      · exact Run.keeps_pure e

namespace Expr

/-- **Reduction is safe and stays in scope.** Let every node of `e` have the children that its form
asks for, and no pattern a set. Then the same holds of every expression that the search looks at,
however far it goes, and none of them has a free name that `e` has not. So every access to a child
finds one: with all of them written out the search comes to the same as without. It answers or runs
out of fuel, and does not fail in any other way. An answer has the children that its forms ask for,
no sets, and no free names but those of `e`. Neither room for fresh names is needed for this, nor
that the scope has the free names of `e`. -/
theorem whnf_safe (s : Scope) (e : Expr) (harity : e.ArityCorrect) (hsets : e.SetFree) (n : Nat) :
    (∀ d ∈ (whnfRun s n e).inspected,
      d.ArityCorrect ∧ d.SetFree ∧ ∀ x ∈ d.freeNames, x ∈ e.freeNames) ∧
    (whnfRun s n e).outcome = whnfAtFuel s n e ∧
    ((∃ r, whnfAtFuel s n e = .ok r) ∨ whnfAtFuel s n e = .error .outOfFuel) ∧
    ∀ r, whnfAtFuel s n e = .ok r →
      r.ArityCorrect ∧ r.SetFree ∧ ∀ x ∈ r.freeNames, x ∈ e.freeNames := by
  have he : Within e.freeNames e := ⟨⟨harity, hsets⟩, fun _ hx => hx⟩
  obtain ⟨houtcome, hinspected⟩ := keeps_whnfRun (s := s) n he
  refine ⟨fun d hd => ?_, houtcome, ?_, fun r hr => ?_⟩
  · obtain ⟨⟨hd_arity, hd_sets⟩, hd_names⟩ := hinspected d hd
    exact ⟨hd_arity, hd_sets, hd_names⟩
  · by_cases h : ∃ r, whnfAtFuel s n e = .ok r
    · exact Or.inl h
    · exact Or.inr (whnfAtFuel_eq_outOfFuel he.proper (not_exists.mp h))
  · obtain ⟨⟨hr_arity, hr_sets⟩, hr_names⟩ := (steps_of_whnfAtFuel hr).1.within he
    exact ⟨hr_arity, hr_sets, hr_names⟩

/-- A function that gives the components of its argument to the name `3`, applied to the pair of the
names `4` and `5`. -/
def spread : Expr :=
  app (lam (.pair (.single 0) (.single 1)) (app (app (.var 3) (.var 0)) (.var 1)))
    (pair (.var 4) (.var 5))

/-- The search looks at two applications of the name `3` to projections, which it builds itself, and
answers the outer one. -/
theorem whnf_safe_spread :
    (∀ d ∈ (whnfRun (Scope.empty.extendAll [3, 4, 5]) 4 spread).inspected, d.ArityCorrect) ∧
    (whnfRun (Scope.empty.extendAll [3, 4, 5]) 4 spread).outcome =
      .ok (app (app (.var 3) (first (pair (.var 4) (.var 5)))) (second (pair (.var 4) (.var 5)))) ∧
    app (.var 3) (first (pair (.var 4) (.var 5))) ∈
      (whnfRun (Scope.empty.extendAll [3, 4, 5]) 4 spread).inspected := by
  obtain ⟨harity, hsets⟩ : spread.Proper := by
    simp [spread, proper_app, proper_lam, proper_pair, proper_var, Pattern.setFree]
  obtain ⟨hinspected, houtcome, -, -⟩ :=
    whnf_safe (Scope.empty.extendAll [3, 4, 5]) spread harity hsets 4
  refine ⟨fun d hd => (hinspected d hd).1, houtcome.trans rfl, ?_⟩
  have hfourth : (whnfRun (Scope.empty.extendAll [3, 4, 5]) 4 spread).inspected[4]? =
    some (app (.var 3) (first (pair (.var 4) (.var 5)))) := rfl
  exact List.mem_of_getElem? hfourth

end Expr

end LambdaPi

end NameBinding
