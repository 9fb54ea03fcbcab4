import Mathlib.Logic.Relation
import Mathlib.Order.WellFounded
import NameBinding.Proofs.Matching
import NameBinding.Proofs.RawSyntax
import NameBinding.Proofs.SubstitutedTerms

/-!
# Weak head normal forms are the ends of head reduction

`LambdaPi.Step` is one step of reduction at the head: an abstraction meets its argument, or a
projection meets a pair, at the end of a chain of applications and projections. There is at most one
step from each expression (`Step.deterministic`).

The search for a weak head normal form takes these steps in a recursion of its own: it goes down to
the head, and goes on with what the head became. What it does with one node is said once
(`whnfAtFuel_app_eq_ok`, `whnfAtFuel_projection_eq_ok`, `whnfAtFuel_of_rigid`). From there it is
followed in both directions: an answer is reached by steps and takes no further one
(`steps_of_whnfAtFuel`), and a step in front of an answered search is answered alike
(`Step.returns`). `LambdaPi.Expr.whnf_iff_steps` is the whole of it: the search answers exactly with
the end of the reduction, and exactly when the reduction ends.
-/

namespace NameBinding

namespace LambdaPi

open NameBinding.LambdaPi.Expr (app lam pair matchPattern whnfAtFuel)

/-! ### One step -/

/-- One step of reduction at the head, in the scope `s`. -/
inductive Step (s : Scope) : Expr → Expr → Prop where
  /-- A function that takes its argument apart as `p` says is applied. -/
  | beta {p : Pattern} {a : Expr} {σ : Substitution Expr} (b : Expr)
      (hσ : matchPattern p a = .ok σ) : Step s (app (lam p b) a) (b.substitute s σ)
  /-- A component of a pair is taken. -/
  | take (π : Projection) (a b : Expr) : Step s (π.of (pair a b)) (π.pick a b)
  /-- The function of an application steps. -/
  | function {f f' : Expr} (a : Expr) (h : Step s f f') : Step s (app f a) (app f' a)
  /-- What is projected steps. -/
  | projected {e e' : Expr} (π : Projection) (h : Step s e e') : Step s (π.of e) (π.of e')

/-- Any number of steps. -/
abbrev Steps (s : Scope) : Expr → Expr → Prop := Relation.ReflTransGen (Step s)

/-- No step leads on. -/
def Normal (s : Scope) (e : Expr) : Prop := ∀ e', ¬ Step s e e'

namespace Expr

/-- Neither an application nor a projection, so nothing is to be done at the head. -/
structure Rigid (e : Expr) : Prop where
  ne_app : ∀ f a, e ≠ app f a
  ne_projection : ∀ (π : Projection) (t : Expr), e ≠ π.of t

/-- An expression is an application, a projection, or rigid. -/
theorem cases_head (e : Expr) :
    (∃ f a, e = app f a) ∨ (∃ (π : Projection) (t : Expr), e = π.of t) ∨ e.Rigid := by
  by_cases happ : ∃ f a, e = app f a
  · exact Or.inl happ
  · by_cases hproj : ∃ (π : Projection) (t : Expr), e = π.of t
    · exact Or.inr (Or.inl hproj)
    · exact Or.inr (Or.inr ⟨fun f a h => happ ⟨f, a, h⟩, fun π t h => hproj ⟨π, t, h⟩⟩)

/-- An application determines its parts. -/
theorem app_inj {f f' a a' : Expr} : app f a = app f' a' ↔ f = f' ∧ a = a' := by
  simp [app]

/-- A pair determines its components. -/
theorem pair_inj {a a' b b' : Expr} : pair a b = pair a' b' ↔ a = a' ∧ b = b' := by
  simp [pair]

/-- A function determines its pattern and its body. -/
theorem lam_inj {p p' : Pattern} {b b' : Expr} : lam p b = lam p' b' ↔ p = p' ∧ b = b' := by
  simp [lam]

/-- A projection determines which one it is and of what. -/
theorem projection_inj {π π' : Projection} {e e' : Expr} :
    π.of e = π'.of e' ↔ π = π' ∧ e = e' := by
  cases π <;> cases π' <;> simp [Projection.of, first, second]

/-- No application is a projection. -/
theorem app_ne_projection (f a : Expr) (π : Projection) (e : Expr) : app f a ≠ π.of e := by
  cases π <;> simp [app, Projection.of, first, second]

/-- Variables are neither applications nor projections. -/
theorem rigid_var (x : Name) : Rigid (.var x) := by
  refine ⟨fun f a => by simp [app], fun π t => ?_⟩
  cases π <;> simp [Projection.of, first, second]

/-- Functions are neither applications nor projections. -/
theorem rigid_lam (p : Pattern) (b : Expr) : (lam p b).Rigid := by
  refine ⟨fun f a => by simp [lam, app], fun π t => ?_⟩
  cases π <;> simp [lam, Projection.of, first, second]

/-- Pairs are neither applications nor projections. -/
theorem rigid_pair (a b : Expr) : (pair a b).Rigid := by
  refine ⟨fun f a => by simp [pair, app], fun π t => ?_⟩
  cases π <;> simp [pair, Projection.of, first, second]

end Expr

open NameBinding.LambdaPi.Expr

/-- What a step from an application does. -/
theorem Step.of_app {s : Scope} {f a e' : Expr} (h : Step s (app f a) e') :
    (∃ p b σ, f = lam p b ∧ matchPattern p a = .ok σ ∧ e' = b.substitute s σ) ∨
      ∃ f', Step s f f' ∧ e' = app f' a := by
  generalize he : app f a = e at h
  cases h with
  | beta b hσ =>
    obtain ⟨rfl, rfl⟩ := app_inj.mp he
    exact Or.inl ⟨_, b, _, rfl, hσ, rfl⟩
  | take π a' b => exact absurd he (app_ne_projection _ _ _ _)
  | function a' h =>
    obtain ⟨rfl, rfl⟩ := app_inj.mp he
    exact Or.inr ⟨_, h, rfl⟩
  | projected π h => exact absurd he (app_ne_projection _ _ _ _)

/-- What a step from a projection does. -/
theorem Step.of_projection {s : Scope} {π : Projection} {e e' : Expr} (h : Step s (π.of e) e') :
    (∃ a b, e = pair a b ∧ e' = π.pick a b) ∨ ∃ d, Step s e d ∧ e' = π.of d := by
  generalize he : π.of e = t at h
  cases h with
  | beta b hσ => exact absurd he.symm (app_ne_projection _ _ _ _)
  | take π' a b =>
    obtain ⟨rfl, rfl⟩ := projection_inj.mp he
    exact Or.inl ⟨a, b, rfl, rfl⟩
  | function a' h => exact absurd he.symm (app_ne_projection _ _ _ _)
  | projected π' h =>
    obtain ⟨rfl, rfl⟩ := projection_inj.mp he
    exact Or.inr ⟨_, h, rfl⟩

/-- Only applications and projections take steps. -/
theorem normal_of_rigid {s : Scope} {e : Expr} (h : e.Rigid) : Normal s e := by
  intro e' hstep
  cases hstep with
  | beta b hσ => exact h.ne_app _ _ rfl
  | take π a b => exact h.ne_projection π _ rfl
  | function a hf => exact h.ne_app _ a rfl
  | projected π he => exact h.ne_projection π _ rfl

/-- An application takes no step if its function takes none and is no abstraction. -/
theorem normal_app {s : Scope} {f : Expr} (hf : Normal s f) (hlam : f.lam? = none) (a : Expr) :
    Normal s (app f a) := by
  intro e' h
  rcases h.of_app with ⟨p, b, σ, rfl, -, -⟩ | ⟨f', hstep, -⟩
  · cases hlam
  · exact hf f' hstep

/-- A projection takes no step if its argument takes none and is no pair. -/
theorem normal_projection {s : Scope} {e : Expr} (he : Normal s e) (hpair : e.pair? = none)
    (π : Projection) : Normal s (π.of e) := by
  intro e' h
  rcases h.of_projection with ⟨a, b, rfl, -⟩ | ⟨d, hstep, -⟩
  · cases hpair
  · exact he d hstep

/-- There is at most one step from each expression. -/
theorem Step.deterministic {s : Scope} {e e₁ e₂ : Expr} (h₁ : Step s e e₁) (h₂ : Step s e e₂) :
    e₁ = e₂ := by
  induction h₁ generalizing e₂ with
  | beta b hσ =>
    rcases h₂.of_app with ⟨p, b', σ', hlam, hσ', rfl⟩ | ⟨f', hstep, -⟩
    · obtain ⟨rfl, rfl⟩ := lam_inj.mp hlam
      rw [Except.ok.inj (hσ.symm.trans hσ')]
    · exact absurd hstep (normal_of_rigid (rigid_lam _ _) f')
  | take π a b =>
    rcases h₂.of_projection with ⟨a', b', hpair, rfl⟩ | ⟨d, hstep, -⟩
    · obtain ⟨rfl, rfl⟩ := pair_inj.mp hpair
      rfl
    · exact absurd hstep (normal_of_rigid (rigid_pair _ _) d)
  | function a h ih =>
    rcases h₂.of_app with ⟨p, b, σ, rfl, -, -⟩ | ⟨f', hstep, rfl⟩
    · exact absurd h (normal_of_rigid (rigid_lam _ _) _)
    · rw [ih hstep]
  | projected π h ih =>
    rcases h₂.of_projection with ⟨a, b, rfl, -⟩ | ⟨d, hstep, rfl⟩
    · exact absurd h (normal_of_rigid (rigid_pair _ _) _)
    · rw [ih hstep]

/-! ### Expressions that reduction stays among -/

namespace Expr

/-- Every node has the children that its form asks for, and no pattern has a set. -/
structure Proper (e : Expr) : Prop where
  arity : e.ArityCorrect
  setFree : e.SetFree

/-- Variables are proper. -/
theorem proper_var (x : Name) : Proper (.var x) := ⟨.var x, .var x⟩

/-- A node is proper if it has the children that its form asks for, and they are proper. -/
theorem proper_node {f : Form} {ts : List Expr} {ss : List (Scoped Expr)} :
    Proper (.node (.form f) ts ss) ↔
      (ts.length, ss.length) = f.arity ∧ (∀ e ∈ ts, e.Proper) ∧
        ∀ sc ∈ ss, sc.binder.setFree = true ∧ sc.body.Proper := by
  constructor
  · rintro ⟨_ | ⟨harity, hts, hss⟩, hsets⟩
    obtain ⟨hsets_ts, hsets_ss⟩ := Term.allPatterns_node.mp hsets
    exact ⟨harity, fun e he => ⟨hts e he, hsets_ts e he⟩,
      fun sc hsc => ⟨(hsets_ss sc hsc).1, hss sc hsc, (hsets_ss sc hsc).2⟩⟩
  · rintro ⟨harity, hts, hss⟩
    exact ⟨.node harity (fun e he => (hts e he).arity) fun sc hsc => (hss sc hsc).2.arity,
      Term.allPatterns_node.mpr ⟨fun e he => (hts e he).setFree,
        fun sc hsc => ⟨(hss sc hsc).1, (hss sc hsc).2.setFree⟩⟩⟩

/-- An application is proper if both of its parts are. -/
theorem proper_app {f a : Expr} : (app f a).Proper ↔ f.Proper ∧ a.Proper := by
  simp [app, proper_node, Form.arity]

/-- A pair is proper if both of its components are. -/
theorem proper_pair {a b : Expr} : (pair a b).Proper ↔ a.Proper ∧ b.Proper := by
  simp [pair, proper_node, Form.arity]

/-- A function is proper if its pattern has no sets and its body is proper. -/
theorem proper_lam {p : Pattern} {b : Expr} :
    (lam p b).Proper ↔ p.setFree = true ∧ b.Proper := by
  simp [lam, proper_node, Form.arity]

/-- A projection is proper if its argument is. -/
theorem proper_projection {π : Projection} {e : Expr} : (π.of e).Proper ↔ e.Proper := by
  cases π <;> simp [Projection.of, first, second, proper_node, Form.arity]

/-- What a projection takes out of a proper pair is proper. -/
theorem proper_pick {a b : Expr} (h : a.Proper ∧ b.Proper) (π : Projection) :
    (π.pick a b).Proper := by
  cases π with
  | first => exact h.1
  | second => exact h.2

/-- Substitution keeps the number of children of every node. -/
theorem arityCorrect_substitute {e : Expr} (he : e.ArityCorrect) (s : Scope)
    (σ : Substitution Expr) (hσ : ∀ x ∈ e.freeNames, (σ.lookup x).ArityCorrect) :
    ArityCorrect (e.substitute s σ) := by
  unfold Term.substitute
  induction e using Term.ind generalizing s σ with
  | var x => exact hσ x (Term.mem_freeNames_var.mpr rfl)
  | node h ts ss ihts ihss =>
    rcases he with _ | ⟨harity, hts, hss⟩
    rw [Term.substituteWith_node]
    refine .node (by simpa using harity) (List.forall_mem_map.mpr fun e he => ?_)
      (List.forall_mem_map.mpr fun sc hsc => ?_)
    · apply ihts e he (hts e he)
      intro x hx
      exact hσ x (Term.mem_freeNames_node.mpr (Or.inl ⟨e, he, hx⟩))
    · exact ihss sc hsc (hss sc hsc) _ _
        (Term.forall_lookup_body ArityCorrect hsc (fun c _ => .var c) hσ)

/-- The body of a function, with the components of a proper argument put for its binders. -/
theorem Proper.substitute {p : Pattern} {a b : Expr} {σ : Substitution Expr} (hp : p.setFree = true)
    (hb : b.Proper) (ha : a.Proper) (hσ : matchPattern p a = .ok σ) (s : Scope) :
    Proper (b.substitute s σ) := by
  have hlookup : ∀ x, Proper (σ.lookup x) := fun x => forall_lookup_matchPattern
    (fun π e he => proper_projection.mpr he) hp ha hσ fun _ => proper_var x
  exact ⟨arityCorrect_substitute hb.arity s σ fun x _ => (hlookup x).arity,
    Term.setFree_substituteWith b hb.setFree s σ fun x _ => (hlookup x).setFree⟩

end Expr

/-- A step keeps an expression proper. -/
theorem Step.proper {s : Scope} {e e' : Expr} (h : Step s e e') (he : e.Proper) : e'.Proper := by
  induction h with
  | beta b hσ =>
    obtain ⟨hlam, ha⟩ := proper_app.mp he
    obtain ⟨hp, hb⟩ := proper_lam.mp hlam
    exact hb.substitute hp ha hσ s
  | take π a b => exact proper_pick (proper_pair.mp (proper_projection.mp he)) π
  | function a h ih =>
    obtain ⟨hf, ha⟩ := proper_app.mp he
    exact proper_app.mpr ⟨ih hf, ha⟩
  | projected π h ih => exact proper_projection.mpr (ih (proper_projection.mp he))

/-- Reduction keeps an expression proper. -/
theorem Steps.proper {s : Scope} {e e' : Expr} (h : Steps s e e') (he : e.Proper) :
    e'.Proper := by
  induction h with
  | refl => exact he
  | tail _ hstep ih => exact hstep.proper ih

/-! ### What the search does with one node -/

namespace Expr

/-- To answer for an application the search answers for the function, and goes on with the body if
that is an abstraction. -/
theorem whnfAtFuel_app (s : Scope) (n : Nat) (f a : Expr) :
    whnfAtFuel s (n + 1) (app f a) = (do
      let g ← whnfAtFuel s n f
      match g.lam? with
      | some sc => do
        let σ ← matchPattern sc.binder a
        whnfAtFuel s n (sc.body.substitute s σ)
      | none => return app g a) :=
  rfl

/-- The two ways to answer for an application: the function comes to an abstraction, and the search
goes on with its body, or it comes to something else. -/
theorem whnfAtFuel_app_eq_ok {s : Scope} {n : Nat} {f a r : Expr} :
    whnfAtFuel s (n + 1) (app f a) = .ok r ↔
      ∃ g, whnfAtFuel s n f = .ok g ∧
        ((∃ p b σ, g = lam p b ∧ matchPattern p a = .ok σ ∧
            whnfAtFuel s n (b.substitute s σ) = .ok r) ∨
          g.lam? = none ∧ r = app g a) := by
  rw [whnfAtFuel_app, Error.bind_eq_ok]
  refine exists_congr fun g => and_congr_right fun _ => ?_
  rcases hg : g.lam? with _ | sc
  · have hne : ∀ p b, g ≠ lam p b := by
      rintro p b rfl
      cases hg
    simp only [hne, false_and, exists_false, false_or, true_and, Error.pure_eq_ok]
    exact eq_comm
  · obtain rfl := lam?_eq_some_iff.mp hg
    simp [Error.bind_eq_ok, lam_inj]

/-- To answer for a projection the search answers for the argument, and goes on with a component if
that is a pair. -/
theorem whnfAtFuel_projection (s : Scope) (n : Nat) (π : Projection) (e : Expr) :
    whnfAtFuel s (n + 1) (π.of e) = (do
      let d ← whnfAtFuel s n e
      match d.pair? with
      | some ab => whnfAtFuel s n (π.pick ab.1 ab.2)
      | none => return π.of d) := by
  cases π <;> rfl

/-- The two ways to answer for a projection: the argument comes to a pair, and the search goes on
with a component, or it comes to something else. -/
theorem whnfAtFuel_projection_eq_ok {s : Scope} {n : Nat} {π : Projection} {e r : Expr} :
    whnfAtFuel s (n + 1) (π.of e) = .ok r ↔
      ∃ d, whnfAtFuel s n e = .ok d ∧
        ((∃ a b, d = pair a b ∧ whnfAtFuel s n (π.pick a b) = .ok r) ∨
          d.pair? = none ∧ r = π.of d) := by
  rw [whnfAtFuel_projection, Error.bind_eq_ok]
  refine exists_congr fun d => and_congr_right fun _ => ?_
  rcases hd : d.pair? with _ | ⟨a, b⟩
  · have hne : ∀ a b, d ≠ pair a b := by
      rintro a b rfl
      cases hd
    simp only [hne, false_and, exists_false, false_or, true_and, Error.pure_eq_ok]
    exact eq_comm
  · obtain rfl := pair?_eq_some_iff.mp hd
    simp [pair_inj]

/-- What is neither an application nor a projection is its own answer. -/
theorem whnfAtFuel_of_rigid {e : Expr} (h : e.Rigid) (s : Scope) (n : Nat) :
    whnfAtFuel s (n + 1) e = .ok e := by
  rw [whnfAtFuel]
  · exact h.ne_app
  · exact h.ne_projection .first
  · exact h.ne_projection .second

end Expr

/-! ### Answers are reached by steps -/

/-- The function of an application reduces in its place. -/
theorem Steps.function {s : Scope} {f f' : Expr} (h : Steps s f f') (a : Expr) :
    Steps s (app f a) (app f' a) := by
  induction h with
  | refl => exact .refl
  | tail _ hstep ih => exact ih.tail (.function a hstep)

/-- The argument of a projection reduces in its place. -/
theorem Steps.projected {s : Scope} {e e' : Expr} (h : Steps s e e') (π : Projection) :
    Steps s (π.of e) (π.of e') := by
  induction h with
  | refl => exact .refl
  | tail _ hstep ih => exact ih.tail (.projected π hstep)

/-- An answer is reached by steps, and no step leads on from it. -/
theorem steps_of_whnfAtFuel {s : Scope} {n : Nat} {e r : Expr} (h : whnfAtFuel s n e = .ok r) :
    Steps s e r ∧ Normal s r := by
  induction n generalizing e r with
  | zero => cases h
  | succ n ih =>
    rcases e.cases_head with ⟨f, a, rfl⟩ | ⟨π, t, rfl⟩ | hrigid
    · obtain ⟨g, hg, ⟨p, b, σ, rfl, hσ, hr⟩ | ⟨hlam, rfl⟩⟩ := whnfAtFuel_app_eq_ok.mp h
      · obtain ⟨hsteps, hnormal⟩ := ih hr
        exact ⟨((ih hg).1.function a).trans (.head (.beta b hσ) hsteps), hnormal⟩
      · exact ⟨(ih hg).1.function a, normal_app (ih hg).2 hlam a⟩
    · obtain ⟨d, hd, ⟨a, b, rfl, hr⟩ | ⟨hpair, rfl⟩⟩ := whnfAtFuel_projection_eq_ok.mp h
      · obtain ⟨hsteps, hnormal⟩ := ih hr
        exact ⟨((ih hd).1.projected π).trans (.head (.take π a b) hsteps), hnormal⟩
      · exact ⟨(ih hd).1.projected π, normal_projection (ih hd).2 hpair π⟩
    · rw [whnfAtFuel_of_rigid hrigid] at h
      cases h
      exact ⟨.refl, normal_of_rigid hrigid⟩

/-- On proper expressions the search either answers or runs out of fuel. -/
theorem whnfAtFuel_eq_outOfFuel {s : Scope} {n : Nat} {e : Expr} (he : e.Proper)
    (h : ∀ r, whnfAtFuel s n e ≠ .ok r) : whnfAtFuel s n e = .error .outOfFuel := by
  induction n generalizing e with
  | zero => rfl
  | succ n ih =>
    rcases e.cases_head with ⟨f, a, rfl⟩ | ⟨π, t, rfl⟩ | hrigid
    · obtain ⟨hf, ha⟩ := proper_app.mp he
      by_cases hg : ∃ g, whnfAtFuel s n f = .ok g
      · obtain ⟨g, hg⟩ := hg
        rcases hlam : g.lam? with _ | ⟨p, b⟩
        · exact absurd (whnfAtFuel_app_eq_ok.mpr ⟨g, hg, Or.inr ⟨hlam, rfl⟩⟩) (h _)
        · obtain rfl := lam?_eq_some_iff.mp hlam
          obtain ⟨hp, hb⟩ := proper_lam.mp ((steps_of_whnfAtFuel hg).1.proper hf)
          obtain ⟨σ, hσ, -⟩ := exists_matchPattern hp a
          rw [whnfAtFuel_app, hg]
          show (do let σ ← matchPattern p a; whnfAtFuel s n (b.substitute s σ)) = _
          rw [hσ]
          apply ih (hb.substitute hp ha hσ s)
          intro r hr
          exact h r (whnfAtFuel_app_eq_ok.mpr ⟨_, hg, Or.inl ⟨p, b, σ, rfl, hσ, hr⟩⟩)
      · rw [whnfAtFuel_app, ih hf (not_exists.mp hg)]
        rfl
    · have ht := proper_projection.mp he
      by_cases hd : ∃ d, whnfAtFuel s n t = .ok d
      · obtain ⟨d, hd⟩ := hd
        rcases hpair : d.pair? with _ | ⟨a, b⟩
        · exact absurd (whnfAtFuel_projection_eq_ok.mpr ⟨d, hd, Or.inr ⟨hpair, rfl⟩⟩) (h _)
        · obtain rfl := pair?_eq_some_iff.mp hpair
          have hd' := (steps_of_whnfAtFuel hd).1.proper ht
          rw [whnfAtFuel_projection, hd]
          apply ih (e := π.pick a b) (proper_pick (proper_pair.mp hd') π)
          intro r hr
          exact h r (whnfAtFuel_projection_eq_ok.mpr ⟨_, hd, Or.inl ⟨a, b, rfl, hr⟩⟩)
      · rw [whnfAtFuel_projection, ih ht (not_exists.mp hd)]
        rfl
    · exact absurd (whnfAtFuel_of_rigid hrigid s n) (h e)

/-! ### Steps lead to answers -/

namespace Expr

/-- With enough fuel the search for the weak head normal form of `e` answers `r`. -/
def Returns (s : Scope) (e r : Expr) : Prop := ∃ n, whnfAtFuel s n e = .ok r

/-- With more fuel the answer stays the same. -/
theorem whnfAtFuel_of_le {s : Scope} {n m : Nat} {e r : Expr} (h : whnfAtFuel s n e = .ok r)
    (hnm : n ≤ m) : whnfAtFuel s m e = .ok r := by
  rw [whnfAtFuel_mono hnm (by simp [h]), h]

/-- There is at most one answer. -/
theorem Returns.unique {s : Scope} {e r r' : Expr} (h : Returns s e r) (h' : Returns s e r') :
    r = r' := by
  obtain ⟨n, hn⟩ := h
  obtain ⟨m, hm⟩ := h'
  have hr := whnfAtFuel_of_le hn (Nat.le_max_left n m)
  rw [whnfAtFuel_of_le hm (Nat.le_max_right n m)] at hr
  exact (Except.ok.inj hr).symm

/-- The two ways to answer for an application, whatever the fuel. -/
theorem returns_app {s : Scope} {f a r : Expr} :
    Returns s (app f a) r ↔
      ∃ g, Returns s f g ∧
        ((∃ p b σ, g = lam p b ∧ matchPattern p a = .ok σ ∧ Returns s (b.substitute s σ) r) ∨
          g.lam? = none ∧ r = app g a) := by
  constructor
  · rintro ⟨n, h⟩
    cases n with
    | zero => cases h
    | succ n =>
      obtain ⟨g, hg, ⟨p, b, σ, rfl, hσ, hr⟩ | hrest⟩ := whnfAtFuel_app_eq_ok.mp h
      · exact ⟨_, ⟨n, hg⟩, Or.inl ⟨p, b, σ, rfl, hσ, n, hr⟩⟩
      · exact ⟨g, ⟨n, hg⟩, Or.inr hrest⟩
  · rintro ⟨g, ⟨n, hg⟩, ⟨p, b, σ, rfl, hσ, m, hr⟩ | hrest⟩
    · refine ⟨max n m + 1, whnfAtFuel_app_eq_ok.mpr ⟨_, whnfAtFuel_of_le hg (Nat.le_max_left n m),
        Or.inl ⟨p, b, σ, rfl, hσ, whnfAtFuel_of_le hr (Nat.le_max_right n m)⟩⟩⟩
    · exact ⟨n + 1, whnfAtFuel_app_eq_ok.mpr ⟨g, hg, Or.inr hrest⟩⟩

/-- The two ways to answer for a projection, whatever the fuel. -/
theorem returns_projection {s : Scope} {π : Projection} {e r : Expr} :
    Returns s (π.of e) r ↔
      ∃ d, Returns s e d ∧
        ((∃ a b, d = pair a b ∧ Returns s (π.pick a b) r) ∨ d.pair? = none ∧ r = π.of d) := by
  constructor
  · rintro ⟨n, h⟩
    cases n with
    | zero => cases h
    | succ n =>
      obtain ⟨d, hd, ⟨a, b, rfl, hr⟩ | hrest⟩ := whnfAtFuel_projection_eq_ok.mp h
      · exact ⟨_, ⟨n, hd⟩, Or.inl ⟨a, b, rfl, n, hr⟩⟩
      · exact ⟨d, ⟨n, hd⟩, Or.inr hrest⟩
  · rintro ⟨d, ⟨n, hd⟩, ⟨a, b, rfl, m, hr⟩ | hrest⟩
    · refine ⟨max n m + 1, whnfAtFuel_projection_eq_ok.mpr ⟨_,
        whnfAtFuel_of_le hd (Nat.le_max_left n m),
        Or.inl ⟨a, b, rfl, whnfAtFuel_of_le hr (Nat.le_max_right n m)⟩⟩⟩
    · exact ⟨n + 1, whnfAtFuel_projection_eq_ok.mpr ⟨d, hd, Or.inr hrest⟩⟩

/-- What is neither an application nor a projection is its own answer. -/
theorem returns_of_rigid {e : Expr} (h : e.Rigid) (s : Scope) : Returns s e e :=
  ⟨1, whnfAtFuel_of_rigid h s 0⟩

end Expr

/-- What is answered after a step is answered before it. -/
theorem Step.returns {s : Scope} {e e' r : Expr} (h : Step s e e') (hr : Returns s e' r) :
    Returns s e r := by
  induction h generalizing r with
  | beta b hσ =>
    exact returns_app.mpr ⟨_, returns_of_rigid (rigid_lam _ b) s, Or.inl ⟨_, b, _, rfl, hσ, hr⟩⟩
  | take π a b =>
    exact returns_projection.mpr ⟨_, returns_of_rigid (rigid_pair a b) s, Or.inl ⟨a, b, rfl, hr⟩⟩
  | function a h ih =>
    obtain ⟨g, hg, hrest⟩ := returns_app.mp hr
    exact returns_app.mpr ⟨g, ih hg, hrest⟩
  | projected π h ih =>
    obtain ⟨d, hd, hrest⟩ := returns_projection.mp hr
    exact returns_projection.mpr ⟨d, ih hd, hrest⟩

/-- An expression without a step is its own answer. -/
theorem Normal.returns {s : Scope} {e : Expr} (h : Normal s e) (he : e.Proper) :
    Returns s e e := by
  induction e using Term.ind with
  | var x => exact returns_of_rigid (rigid_var x) s
  | node hd ts ss ihts _ =>
    rcases cases_head (.node hd ts ss) with ⟨f, a, heq⟩ | ⟨π, t, heq⟩ | hrigid
    · rw [heq] at h he ⊢
      obtain ⟨hf, -⟩ := proper_app.mp he
      have hmem : f ∈ ts := by simp [(Term.node.inj heq).2.1]
      have hff := ihts f hmem (fun f' hstep => h _ (.function a hstep)) hf
      rcases hlam : f.lam? with _ | ⟨p, b⟩
      · exact returns_app.mpr ⟨f, hff, Or.inr ⟨hlam, rfl⟩⟩
      · obtain rfl := lam?_eq_some_iff.mp hlam
        obtain ⟨σ, hσ, -⟩ := exists_matchPattern (proper_lam.mp hf).1 a
        exact absurd (.beta b hσ) (h _)
    · rw [heq] at h he ⊢
      have hmem : t ∈ ts := by
        cases π <;> simp [(Term.node.inj heq).2.1]
      have htt := ihts t hmem (fun t' hstep => h _ (.projected π hstep)) (proper_projection.mp he)
      rcases hpair : t.pair? with _ | ⟨a, b⟩
      · exact returns_projection.mpr ⟨t, htt, Or.inr ⟨hpair, rfl⟩⟩
      · obtain rfl := pair?_eq_some_iff.mp hpair
        exact absurd (.take π a b) (h _)
    · exact returns_of_rigid hrigid s

/-- The answers are the ends of reduction. -/
theorem returns_iff {s : Scope} {e r : Expr} (he : e.Proper) :
    Returns s e r ↔ Steps s e r ∧ Normal s r := by
  constructor
  · rintro ⟨n, h⟩
    exact steps_of_whnfAtFuel h
  · rintro ⟨hsteps, hnormal⟩
    have hr := hnormal.returns (hsteps.proper he)
    clear he
    induction hsteps using Relation.ReflTransGen.head_induction_on with
    | refl => exact hr
    | head hstep _ ih => exact hstep.returns ih

/-! ### Reduction without an end -/

/-- Reduction ends exactly where there is an answer. -/
theorem acc_step_iff {s : Scope} {e : Expr} (he : e.Proper) :
    Acc (flip (Step s)) e ↔ ∃ r, Returns s e r := by
  constructor
  · intro hacc
    induction hacc with
    | intro e _ ih =>
      by_cases hnormal : Normal s e
      · exact ⟨e, hnormal.returns he⟩
      · obtain ⟨e', hstep⟩ := not_forall_not.mp hnormal
        obtain ⟨r, hr⟩ := ih e' hstep (hstep.proper he)
        exact ⟨r, hstep.returns hr⟩
  · rintro ⟨r, hr⟩
    obtain ⟨hsteps, hnormal⟩ := (returns_iff he).mp hr
    clear hr he
    induction hsteps using Relation.ReflTransGen.head_induction_on with
    | refl => exact ⟨_, fun e' hstep => absurd hstep (hnormal e')⟩
    | head hstep _ ih => exact ⟨_, fun e' hstep' => hstep.deterministic hstep' ▸ ih⟩

namespace Expr

/-- **Weak head normal forms are the ends of head reduction.** Let every node of `e` have the
children that its form asks for, and no pattern a set. Then so it is with every expression that `e`
reduces to. Given enough fuel the search answers `r` exactly when `r` is reached by steps and takes
none. There is no answer exactly when the steps from `e` never end; whatever fuel it is given, the
search then runs out of it and does not fail in any other way. An answer is its own answer. -/
theorem whnf_iff_steps (s : Scope) (e : Expr) (harity : e.ArityCorrect) (hsets : e.SetFree) :
    (∀ e', Steps s e e' → e'.ArityCorrect ∧ e'.SetFree) ∧
    (∀ r, (∃ n, whnfAtFuel s n e = .ok r) ↔ Steps s e r ∧ ∀ e', ¬ Step s r e') ∧
    ((¬ ∃ n r, whnfAtFuel s n e = .ok r) ↔
      ∃ t : Nat → Expr, t 0 = e ∧ ∀ n, Step s (t n) (t (n + 1))) ∧
    (∀ n, (∃ r, whnfAtFuel s n e = .ok r) ∨ whnfAtFuel s n e = .error .outOfFuel) ∧
    ∀ r, (∃ n, whnfAtFuel s n e = .ok r) → ∃ n, whnfAtFuel s n r = .ok r := by
  have he : e.Proper := ⟨harity, hsets⟩
  refine ⟨?_, fun r => returns_iff he, ?_, ?_, ?_⟩
  · intro e' hsteps
    exact ⟨(hsteps.proper he).arity, (hsteps.proper he).setFree⟩
  · rw [exists_comm]
    exact (acc_step_iff he).not.symm.trans not_acc_iff_exists_descending_chain
  · intro n
    by_cases h : ∃ r, whnfAtFuel s n e = .ok r
    · exact Or.inl h
    · exact Or.inr (whnfAtFuel_eq_outOfFuel he (not_exists.mp h))
  · rintro r ⟨n, h⟩
    obtain ⟨hsteps, hnormal⟩ := steps_of_whnfAtFuel h
    exact hnormal.returns (hsteps.proper he)

/-- A function that takes the first component of a pair, applied to a pair that is the result of a
further application. -/
def firstOfApplied : Expr :=
  app (lam (.pair (.single 0) (.single 1)) (.var 0))
    (app (lam (.single 0) (pair (.var 2) (.var 0))) univ)

/-- The search takes three steps to the name `2`. -/
theorem whnf_firstOfApplied :
    firstOfApplied.ArityCorrect ∧ firstOfApplied.SetFree ∧
      ∃ n, whnfAtFuel (Scope.empty.extend 2) n firstOfApplied = .ok (.var 2) := by
  obtain ⟨harity, hsets⟩ : firstOfApplied.Proper := by
    simp [firstOfApplied, univ, proper_app, proper_lam, proper_pair, proper_var, proper_node,
      Pattern.setFree, Form.arity]
  refine ⟨harity, hsets, ((whnf_iff_steps _ _ harity hsets).2.1 _).mpr ⟨?_, ?_⟩⟩
  · -- the argument is projected before it is reduced
    refine .head (.beta (.var 0) rfl) (.head (.projected .first (.beta _ rfl)) ?_)
    exact .head (.take .first (.var 2) univ) .refl
  · exact normal_of_rigid (rigid_var 2)

end Expr

end LambdaPi

end NameBinding
