import NameBinding.Proofs.AlphaEquivalence

/-!
# Equal terms are equal up to binders

A pattern with distinct binders lines up with itself on its own binders, in every scope
(`Pattern.unify_self`): a pair of equal binders may use a name of the scope, and no earlier pair
took it. So nothing is renamed, the bodies are compared as they stand, and equal terms are equal up
to the choice of binders wherever they are compared (`Term.alphaEquiv_of_same`).

Nothing here asks for terms that are well formed. `Term.alphaEquiv_node_decides_eq` is stated for
two different terms: where the children are compared as they stand, so are the nodes.
-/

namespace NameBinding

/-! ### A pattern and itself -/

namespace Unifier

/-- A name is lined up with itself by moving nothing. -/
theorem align_self (x : Name) :
    align x x x = ⟨.identical, .singleton x, .identity, .identity⟩ := by
  simp [align, Renaming.single]

/-- Binders that line up on themselves are only collected. -/
theorem mergeAligned_self (xs : List Name) (bs : NameSet) :
    mergeAligned ⟨.identical, bs, .identity, .identity⟩ ((xs.zip xs).zip xs) =
      .ok ⟨.identical, xs.foldl (fun bs x => bs.insert x) bs, .identity, .identity⟩ := by
  induction xs generalizing bs with
  | nil => rfl
  | cons x xs ih =>
    rw [List.zip_cons_cons, List.zip_cons_cons, mergeAligned, align_self]
    exact ih (bs.insert x)

end Unifier

namespace Pattern

/-- A pattern whose targets are its own binders lines up with itself, and nothing is renamed. -/
theorem unify_self_of_targets {s : Scope} {p : Pattern} (h : p.targets s p = p.binders) :
    p.unify s p = .ok ⟨.identical, .ofList p.binders, .identity, .identity⟩ := by
  rw [unify_eq_of_shape rfl, h]
  exact Unifier.mergeAligned_self p.binders ∅

/-- A pattern is lined up with itself by moving nothing, onto its own binders. -/
theorem unify_self (s : Scope) {p : Pattern} (hp : p.binders.Nodup) :
    p.unify s p = .ok ⟨.identical, .ofList p.binders, .identity, .identity⟩ :=
  unify_self_of_targets (targets_self hp hp rfl rfl)

end Pattern

namespace Term

variable {κ : Type} [DecidableEq κ] {s : Scope}

/-! ### Comparing terms as they stand -/

/-- Comparing a variable decides equality. -/
theorem alphaEquiv_var_decides_eq (x : Name) (r : Term κ) :
    Decides (alphaEquiv s (var x) r) (var x = r) := by
  rcases r with y | ⟨h, ts, ss⟩
  · rw [alphaEquiv]
    exact Decides.ok (by simp)
  · rw [alphaEquiv]
    · exact Decides.ok (by simp)
    all_goals simp

/-- A node is never a variable, and comparing them says so. -/
theorem alphaEquiv_node_var_decides_eq (h : κ) (ts : List (Term κ)) (ss : List (Scoped (Term κ)))
    (y : Name) : Decides (alphaEquiv s (node h ts ss) (var y)) (node h ts ss = var y) := by
  rw [alphaEquiv]
  · exact Decides.ok (by simp)
  all_goals simp

/-- Below one pattern that lines up with itself the bodies are compared as they stand. -/
theorem alphaEquivScoped_of_targets {p : Pattern} (h : p.targets s p = p.binders) (b c : Term κ) :
    alphaEquivScoped s ⟨p, b⟩ ⟨p, c⟩ =
      alphaEquiv (s.extendAll (OrderedSet.ofList p.binders).toList) b c := by
  have hu := Pattern.unify_self_of_targets h
  exact alphaEquivScoped_of_linesUp (l := ⟨p, b⟩) (r := ⟨p, c⟩) hu (by simp)
    (rename_identity _ b) (rename_identity _ c)

/-- Comparing plain children decides equality if comparing each of them does. -/
theorem alphaEquivTerms_decides_eq {ts ts' : List (Term κ)}
    (h : List.Forall₂ (fun t t' => Decides (alphaEquiv s t t') (t = t')) ts ts') :
    Decides (alphaEquivTerms s ts ts') (ts = ts') := by
  induction h with
  | nil =>
    rw [alphaEquivTerms]
    · exact Decides.ok (by simp)
    simp
  | cons hhead _ ih =>
    rw [alphaEquivTerms, List.cons.injEq]
    exact hhead.and fun _ => ih

/-- Comparing scoped children decides equality if comparing each of them does. -/
theorem alphaEquivScopes_decides_eq {ss ss' : List (Scoped (Term κ))}
    (h : List.Forall₂ (fun sc sc' => Decides (alphaEquivScoped s sc sc') (sc = sc')) ss ss') :
    Decides (alphaEquivScopes s ss ss') (ss = ss') := by
  induction h with
  | nil =>
    rw [alphaEquivScopes]
    · exact Decides.ok (by simp)
    simp
  | cons hhead _ ih =>
    rw [alphaEquivScopes, List.cons.injEq]
    exact hhead.and fun _ => ih

/-- Nodes are compared as they stand where their children are. -/
theorem alphaEquiv_node_decides_eq {h h' : κ} {ts ts' : List (Term κ)}
    {ss ss' : List (Scoped (Term κ))}
    (hts : ts.length = ts'.length →
      List.Forall₂ (fun t t' => Decides (alphaEquiv s t t') (t = t')) ts ts')
    (hss : ss.length = ss'.length →
      List.Forall₂ (fun sc sc' => Decides (alphaEquivScoped s sc sc') (sc = sc')) ss ss') :
    Decides (alphaEquiv s (node h ts ss) (node h' ts' ss')) (node h ts ss = node h' ts' ss') := by
  rw [alphaEquiv, node.injEq]
  by_cases heq : h = h' ∧ ts.length = ts'.length ∧ ss.length = ss'.length
  · rw [if_pos heq]
    have hchildren := (alphaEquivTerms_decides_eq (hts heq.2.1)).and
      fun _ => alphaEquivScopes_decides_eq (hss heq.2.2)
    exact hchildren.congr (by simp [heq.1])
  · rw [if_neg heq]
    apply Decides.ok
    simp only [Bool.false_eq_true, false_iff]
    rintro ⟨rfl, rfl, rfl⟩
    exact heq ⟨rfl, rfl, rfl⟩

/-! ### Equal terms -/

/-- A term whose patterns repeat no binder is the same as itself, in whatever scope. -/
theorem DistinctBinders.alphaEquiv_self {e : Term κ} (he : e.DistinctBinders) (s : Scope) :
    alphaEquiv s e e = .ok true := by
  have hdecides : Decides (alphaEquiv s e e) (e = e) := by
    induction e generalizing s with
    | var x => exact alphaEquiv_var_decides_eq x (var x)
    | node h ts ss ihts ihss =>
      obtain ⟨hts, hss⟩ := allPatterns_node.mp he
      refine alphaEquiv_node_decides_eq
        (fun _ => List.forall₂_same.mpr fun t ht => ihts t ht (hts t ht) s)
        fun _ => List.forall₂_same.mpr fun sc hsc => ?_
      obtain ⟨hp, hb⟩ := hss sc hsc
      have htargets := Pattern.targets_self (s := s) hp hp rfl rfl
      have hbody := ihss sc hsc hb (s.extendAll (OrderedSet.ofList sc.binder.binders).toList)
      rw [← alphaEquivScoped_of_targets htargets] at hbody
      exact hbody.congr (by simp)
  obtain ⟨b, hb, hiff⟩ := hdecides
  rw [hb, hiff.mpr rfl]

/-- **Equal terms are equal up to binders, in every scope.** A pattern with distinct binders lines
up with itself: nothing is renamed and its binders are the common ones, also where they are names of
the scope. So the comparison says yes to any two terms that are the same down to the binders, if
none of their patterns repeats a binder. Nothing is asked of the scope or of the free names. -/
theorem alphaEquiv_of_same (s : Scope) :
    (∀ p : Pattern, p.binders.Nodup →
      p.unify s p = .ok ⟨.identical, .ofList p.binders, .identity, .identity⟩) ∧
    ∀ l r : Term κ, l.DistinctBinders → l.same r = true → alphaEquiv s l r = .ok true := by
  refine ⟨fun p => Pattern.unify_self s, ?_⟩
  intro l r hl hsame
  rw [← same_iff.mp hsame]
  exact hl.alphaEquiv_self s

/-- Two arguments without an order, of which the first is bound again inside. The name `5` is
free. -/
def twiceBound : Term String :=
  node "lam" [] [⟨.set (.ofList [0, 1]), node "lam" []
    [⟨.pair (.single 2) (.list [1, 0]), node "app" [var 0, var 5] []⟩]⟩]

/-- All binders but one are names of the scope, and the name `5` is not. -/
theorem alphaEquiv_of_same_in_scope :
    (Pattern.set (.ofList [0, 1])).unify (Scope.empty.extendAll [0, 1]) (.set (.ofList [0, 1])) =
      .ok ⟨.identical, .ofList [0, 1], .identity, .identity⟩ ∧
    alphaEquiv (Scope.empty.extendAll [0, 1]) twiceBound twiceBound = .ok true := by
  have hdistinct : twiceBound.DistinctBinders := by
    have hset : (Pattern.set (.ofList [0, 1])).binders.Nodup := by decide
    have hpair : (Pattern.pair (.single 2) (.list [1, 0])).binders.Nodup := by decide
    simpa [twiceBound, DistinctBinders, allPatterns_node, AllPatterns.var] using
      And.intro hset hpair
  obtain ⟨hpattern, hterm⟩ := alphaEquiv_of_same (κ := String) (Scope.empty.extendAll [0, 1])
  exact ⟨hpattern (.set (.ofList [0, 1])) (by decide),
    hterm twiceBound twiceBound hdistinct (same_iff.mpr rfl)⟩

end Term

end NameBinding
