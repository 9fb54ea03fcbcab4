import NameBinding.Proofs.AlphaEquivalence
import NameBinding.Proofs.SubstitutedTerms

/-!
# Different ways to one term

Two operations may come to terms that differ in their binders only.

A renaming can be carried out by `Term.rename`, which leaves alone what nothing is left to be done
in, or as a substitution of variables, which goes on replacing binders that clash. Both give the
nameless form of the term with its free names read as what they become (`Reading.after`), so they
agree (`Term.rename_alphaEquiv_substitute`).

Substitution can replace the binders that clash, or all binders. Where a set falls out of order its
members change places, and the two results differ in more than binders
(`Term.substitute_not_alphaEquiv_set_out_of_order`). As long as sets stay in order the two ways
agree (`Term.substitute_alphaEquiv_substituteFresh`).
-/

namespace NameBinding

/-! ### Renamings as substitutions -/

/-- A renaming has one entry for each name that it moves. -/
theorem Renaming.nodup_entries (r : Renaming) : (r.entries.toList.map Prod.fst).Nodup := by
  rw [List.nodup_iff_pairwise_ne, List.pairwise_map]
  exact r.entries.ascending.imp fun h heq => absurd (heq ▸ h) Std.lt_irrefl

/-- As a substitution, a renaming makes each name stand for the name it becomes. -/
theorem Substitution.lookup_ofRenaming {E : Type} [OfName E] (r : Renaming) (x : Name) :
    (ofRenaming r : Substitution E).lookup x = OfName.ofName (r.apply x) := by
  unfold ofRenaming Renaming.apply
  rcases hx : r.target? x with _ | y
  · rw [lookup_foldl_of_not_mem fun τ e => lookup_addRename τ e.1 e.2]
    · rfl
    · intro hmem
      obtain ⟨⟨x', y⟩, hentry, rfl⟩ := List.mem_map.mp hmem
      have htarget : r.target? x' = some y := OrderedMap.get?_eq_some_iff.mpr hentry
      rw [hx] at htarget
      cases htarget
  · obtain ⟨i, hi⟩ := List.getElem?_of_mem (OrderedMap.get?_eq_some_iff.mp hx)
    apply lookup_foldl_of_lastPosition? fun τ e => lookup_addRename τ e.1 e.2
    · exact Name.lastPosition?_of_nodup r.nodup_entries (by rw [List.getElem?_map, hi]; rfl)
    · rw [List.getElem?_map, hi]
      rfl

/-- Every name is read as the free name that it becomes. -/
def Reading.after (r : Renaming) : Reading := fun x => .free (r.apply x)

namespace Term

variable {κ : Type} {s : Scope} {r : Renaming}

/-- A renaming into the scope follows the free names. -/
theorem follows_after {e : Term κ} (hscope : ∀ x ∈ e.freeNames, r.apply x ∈ s) :
    Follows s r (.after r) .top e :=
  fun x hx => ⟨hscope x hx, rfl⟩

/-- What the free names stand for is well formed, if they are renamed into the scope. -/
theorem wellFormed_lookup_ofRenaming {e : Term κ} (hscope : ∀ x ∈ e.freeNames, r.apply x ∈ s) :
    ∀ x ∈ e.freeNames, ((Substitution.ofRenaming r).lookup x : Term κ).WellFormed s := by
  intro x hx
  rw [Substitution.lookup_ofRenaming]
  exact wellFormed_var.mpr (hscope x hx)

/-- Substituting variables gives the nameless form of the term with its free names read as what they
become. -/
theorem nameless_substitute_ofRenaming {e : Term κ} (hsets : e.SetFree)
    (hscope : ∀ x ∈ e.freeNames, r.apply x ∈ s) (hroom : e.HasRoom Scope.refresh s) :
    (e.substitute s (.ofRenaming r)).nameless = e.namelessIn (.after r) := by
  rw [← bind_leaf_namelessIn e (.after r)]
  apply namelessIn_substituteWith Scope.refresh_keepsOrDraws _ e s _ _ _ (hsets.inOrder _ s) hroom
  intro x hx
  have hwell := wellFormed_lookup_ofRenaming hscope x hx
  rw [Substitution.lookup_ofRenaming] at hwell ⊢
  exact .free hwell.inScope (fun _ _ => rfl) rfl

/-- Renaming and substituting variables give well-formed terms with the same nameless form. -/
theorem nameless_rename_eq_substitute {e e' : Term κ} (he' : rename s r e = .ok e')
    (hsets : e.SetFree) (hdistinct : e.DistinctBinders)
    (hscope : ∀ x ∈ e.freeNames, r.apply x ∈ s) (hroom : e.HasRoom Scope.refresh s) :
    e'.WellFormed s ∧ (e.substitute s (.ofRenaming r)).WellFormed s ∧
      e'.nameless = (e.substitute s (.ofRenaming r)).nameless := by
  have hfollows : Follows s r (.after r) .top e := follows_after hscope
  have hlookup := wellFormed_lookup_ofRenaming hscope
  refine ⟨wellFormed_rename e he' hsets hdistinct (hroom.renameHasRoom r) hfollows,
    wellFormed_substituteWith Scope.refresh_keepsOrDraws e hsets s _ hroom hlookup, ?_⟩
  rw [nameless_substitute_ofRenaming hsets hscope hroom]
  exact namelessIn_rename e he' hsets hdistinct (hroom.renameHasRoom r) hfollows

/-- Renaming by substitution draws names one after the other, so a bound grows by the number of
binders at most. -/
theorem namesBelow_substitute_ofRenaming {e : Term κ} (hsets : e.SetFree) {B : Nat}
    (hs : s.Below B) (he : e.NamesBelow B) (hscope : ∀ x ∈ e.freeNames, r.apply x ∈ s) :
    (e.substitute s (.ofRenaming r)).NamesBelow (B + e.binderCount) := by
  apply namesBelow_substituteWith Scope.refresh_keepsOrDraws e hsets s _ hs he
  intro x hx
  rw [Substitution.lookup_ofRenaming]
  exact .var (hs _ (hscope x hx))

/-- Renaming by substitution keeps the number of binders. -/
theorem binderCount_substitute_ofRenaming {e : Term κ} (hsets : e.SetFree) :
    (e.substitute s (.ofRenaming r)).binderCount = e.binderCount := by
  apply binderCount_substituteWith e hsets
  intro x _
  rw [Substitution.lookup_ofRenaming]
  rfl

/-- **Renaming agrees with substituting variables.** Renaming never fails on a term without sets
whose patterns have distinct binders, in whatever scope. If it sends all free names into the scope,
and no draw wraps, its result and that of substituting the new names as variables are
alpha-equivalent. No draw wraps when all names are below some `M`, with `k` binders, such that `M`
plus `k` plus the square of `2 * k` is at most the number of names. -/
theorem rename_alphaEquiv_substitute [DecidableEq κ] (s : Scope) (r : Renaming) (e : Term κ)
    (hsets : e.SetFree) (hdistinct : e.DistinctBinders) :
    ∃ e', rename s r e = .ok e' ∧
      ((∀ x ∈ e.freeNames, r.apply x ∈ s) →
        (e.HasRoom Scope.refresh s → AlphaEquivHasRoom s e' (e.substitute s (.ofRenaming r)) →
          alphaEquiv s e' (e.substitute s (.ofRenaming r)) = .ok true) ∧
        ∀ M, s.Below M → e.NamesBelow M → r.TargetsBelow M →
          M + e.binderCount + (e.binderCount + e.binderCount) * (e.binderCount + e.binderCount) ≤
            UInt64.size →
          e.HasRoom Scope.refresh s ∧
            AlphaEquivHasRoom s e' (e.substitute s (.ofRenaming r))) := by
  obtain ⟨e', he'⟩ := exists_rename e hdistinct s r
  refine ⟨e', he', fun hscope => ⟨fun hroom hcompare => ?_, fun M hs he hr hM => ?_⟩⟩
  · obtain ⟨hwl, hwr, hforms⟩ := nameless_rename_eq_substitute he' hsets hdistinct hscope hroom
    exact (alphaEquiv_eq_true_iff hwl.comparable hwr.comparable hcompare).mpr hforms
  · have hroom := hasRoom_of_below Scope.refresh_keepsOrDraws hs he (by omega)
    obtain ⟨hwl, hwr, -⟩ := nameless_rename_eq_substitute he' hsets hdistinct hscope hroom
    have hs' := hs.mono (Nat.le_add_right M e.binderCount)
    refine ⟨hroom, alphaEquivHasRoom_of_below _ _ hwl hwr hs'
      (namesBelow_rename e he' hsets hdistinct hs he hr)
      (namesBelow_substitute_ofRenaming hsets hs he hscope) ?_⟩
    rw [binderCount_rename e he' hsets, binderCount_substitute_ofRenaming hsets]
    exact hM

/-- A name given a function of two arguments, the outer one called `0`. -/
def givenFunction (x y : Name) : Term String :=
  node "app" [var x, node "lam" []
    [⟨.single 0, node "lam" [] [⟨.single y, node "app" [var 0, var y] []⟩]⟩]] []

/-- Inside the binder `0` nothing is left to be renamed, so renaming keeps the binder `2` there,
which clashes with the scope; substituting replaces it by `3`. -/
theorem rename_alphaEquiv_substitute_clash :
    rename (Scope.empty.extendAll [1, 2]) (.single 0 1) (givenFunction 0 2) =
        .ok (givenFunction 1 2) ∧
      (givenFunction 0 2).substitute (Scope.empty.extendAll [1, 2]) (.ofRenaming (.single 0 1)) =
        givenFunction 1 3 ∧
      alphaEquiv (Scope.empty.extendAll [1, 2]) (givenFunction 1 2) (givenFunction 1 3) =
        .ok true := by
  have hrename : rename (Scope.empty.extendAll [1, 2]) (.single 0 1) (givenFunction 0 2) =
      .ok (givenFunction 1 2) := rfl
  have hsubst : (givenFunction 0 2).substitute (Scope.empty.extendAll [1, 2])
      (.ofRenaming (.single 0 1)) = givenFunction 1 3 := rfl
  have hsets : (givenFunction 0 2).SetFree := by
    simp [givenFunction, SetFree, allPatterns_node, AllPatterns.var, Pattern.setFree]
  have hdistinct : (givenFunction 0 2).DistinctBinders := by
    simp [givenFunction, DistinctBinders, allPatterns_node, AllPatterns.var, Pattern.binders]
  have hscope : ∀ x ∈ (givenFunction 0 2).freeNames,
      (Renaming.single 0 1).apply x ∈ Scope.empty.extendAll [1, 2] := by
    intro x hx
    have hx0 : x = 0 ∨ ((x = 0 ∨ x = 2) ∧ x ≠ 2) ∧ x ≠ 0 := by
      simpa [givenFunction, mem_freeNames_node, mem_freeNames_var, Pattern.binders] using hx
    obtain rfl : x = 0 := by tauto
    decide
  have hbelow : (givenFunction 0 2).NamesBelow 3 := by
    simp [givenFunction, namesBelow_node, NamesBelow.var, Pattern.binders]
  have htargets : (Renaming.single 0 1).TargetsBelow 3 := by
    intro x
    rw [Renaming.apply, Renaming.target?_single]
    by_cases hx : x = 0 <;> simp [hx]
  obtain ⟨e', he', hagree⟩ := rename_alphaEquiv_substitute (Scope.empty.extendAll [1, 2])
    (.single 0 1) (givenFunction 0 2) hsets hdistinct
  obtain rfl : givenFunction 1 2 = e' := Except.ok.inj (hrename.symm.trans he')
  obtain ⟨hequiv, hbound⟩ := hagree hscope
  obtain ⟨hroom, hcompare⟩ := hbound 3 (by decide) hbelow htargets (by decide)
  have hresult := hequiv hroom hcompare
  rw [hsubst] at hresult
  exact ⟨hrename, hsubst, hresult⟩

/-! ### Replacing clashing binders or all binders -/

/-- Only outermost patterns have sets. -/
inductive SetsOutermost : Term κ → Prop where
  | var (x : Name) : SetsOutermost (var x)
  | node {h : κ} {ts : List (Term κ)} {ss : List (Scoped (Term κ))}
      (terms : ∀ e ∈ ts, SetsOutermost e) (bodies : ∀ sc ∈ ss, sc.body.SetFree) :
      SetsOutermost (node h ts ss)

/-- A term without sets has none further inside. -/
theorem SetFree.setsOutermost {e : Term κ} (h : e.SetFree) : e.SetsOutermost := by
  induction e with
  | var x => exact .var x
  | node hd ts ss ihts _ =>
    obtain ⟨hts, hss⟩ := allPatterns_node.mp h
    exact .node (fun e he => ihts e he (hts e he)) fun sc hsc => (hss sc hsc).2

/-- A substituted term can be compared, if sets stand in outermost patterns only and stay in
order. -/
theorem comparable_substituteWith {choose : Scope → Name → Name}
    (hchoose : Scope.KeepsOrDraws choose) (e : Term κ) (houter : e.SetsOutermost) {s : Scope}
    {σ : Substitution (Term κ)} (horder : e.InOrder choose s) (hroom : e.HasRoom choose s)
    (hσ : ∀ x ∈ e.freeNames, (σ.lookup x).WellFormed s) :
    (e.substituteWith choose s σ).Comparable s := by
  induction e with
  | var x => exact (hσ x (mem_freeNames_var.mpr rfl)).comparable
  | node h ts ss ihts _ =>
    rcases houter with _ | ⟨houter_ts, houter_ss⟩
    rcases horder with _ | ⟨horder_ts, horder_bs, -⟩
    obtain ⟨hroom_ts, hroom_ss⟩ := hasRoom_node.mp hroom
    rw [substituteWith_node]
    refine .node (List.forall_mem_map.mpr fun e he => ?_)
      (List.forall_mem_map.mpr fun sc hsc => ⟨?_, ?_⟩)
    · apply ihts e he (houter_ts e he) (horder_ts e he) (hroom_ts e he)
      intro x hx
      exact hσ x (mem_freeNames_node.mpr (Or.inl ⟨e, he, hx⟩))
    · show (sc.binder.moveInto choose s).pattern.binders.Nodup
      rw [Pattern.moveInto_binders_of_inOrder choose (horder_bs sc hsc)]
      exact Pattern.nodup_replacements hchoose (hroom_ss sc hsc).1
    · show WellFormed (s.extendAll (sc.binder.moveInto choose s).pattern.binders) _
      rw [Pattern.moveInto_binders_of_inOrder choose (horder_bs sc hsc), ← Pattern.moveInto_scope]
      exact wellFormed_substituteWith hchoose sc.body (houter_ss sc hsc) _ _ (hroom_ss sc hsc).2
        (wellFormed_lookup_body hsc hσ)

/-- **Replacing clashing binders agrees with replacing all binders**, as long as every set stays in
order when its clashing members are replaced. The two results then have the same nameless form, so
that freshened they are equal. If moreover only outermost patterns have sets, and no draw wraps, the
comparison that lines up patterns says so too. Both conditions hold of terms without sets. -/
theorem substitute_alphaEquiv_substituteFresh [DecidableEq κ] (s : Scope)
    (σ : Substitution (Term κ)) (e : Term κ) (hσ : ∀ x ∈ e.freeNames, (σ.lookup x).WellFormed s)
    (hrefresh : e.HasRoom Scope.refresh s) (hfresh : e.HasRoom (fun before _ => before.fresh) s) :
    (e.InOrder Scope.refresh s →
      (e.substitute s σ).nameless = (e.substituteFresh s σ).nameless ∧
      alphaEquivFresh s (e.substitute s σ) (e.substituteFresh s σ) = true ∧
      (e.SetsOutermost → AlphaEquivHasRoom s (e.substitute s σ) (e.substituteFresh s σ) →
        alphaEquiv s (e.substitute s σ) (e.substituteFresh s σ) = .ok true)) ∧
    (e.SetFree → e.InOrder Scope.refresh s ∧ e.SetsOutermost) := by
  refine ⟨fun horder => ?_, fun hsets => ⟨hsets.inOrder _ s, hsets.setsOutermost⟩⟩
  have hscope : ∀ x ∈ e.freeNames, ∀ y ∈ (σ.lookup x).freeNames, y ∈ s :=
    fun x hx => (hσ x hx).inScope
  have horder' := hfresh.inOrder_fresh
  have hforms : (e.substitute s σ).nameless = (e.substituteFresh s σ).nameless := by
    unfold substitute substituteFresh
    rw [nameless_substituteWith_of_inOrder Scope.refresh_keepsOrDraws horder hscope hrefresh,
      nameless_substituteWith_of_inOrder Scope.fresh_keepsOrDraws horder' hscope hfresh]
  refine ⟨hforms, same_iff.mpr (freshen_congr s hforms), ?_⟩
  intro houter hroom
  have hl := comparable_substituteWith Scope.refresh_keepsOrDraws e houter horder hrefresh hσ
  have hr := comparable_substituteWith Scope.fresh_keepsOrDraws e houter horder' hfresh hσ
  exact (alphaEquiv_eq_true_iff hl hr hroom).mpr hforms

/-- A function of two arguments without an order, which applies one to the other. -/
def unorderedArguments (x y : Name) : Term String :=
  node "lam" [] [⟨.set (.ofList [x, y]), node "app" [var x, var y] []⟩]

/-- The only draws are those for the set. -/
theorem hasRoom_unorderedArguments {choose : Scope → Name → Name} {s : Scope} {x y : Name} :
    (unorderedArguments x y).HasRoom choose s ↔
      Pattern.HasRoom choose s (.set (.ofList [x, y])) := by
  simp [unorderedArguments, hasRoom_node, HasRoom.var]

/-- Of the members `1` and `2` the second clashes with the scope and is replaced by `3`, which
stays behind the first. -/
theorem substitute_alphaEquiv_set_in_order :
    (unorderedArguments 1 2).substitute (Scope.empty.extendAll [0, 2]) .identity =
        unorderedArguments 1 3 ∧
      (unorderedArguments 1 2).substituteFresh (Scope.empty.extendAll [0, 2]) .identity =
        unorderedArguments 3 4 ∧
      alphaEquiv (Scope.empty.extendAll [0, 2]) (unorderedArguments 1 3) (unorderedArguments 3 4) =
        .ok true := by
  have hsubst : (unorderedArguments 1 2).substitute (Scope.empty.extendAll [0, 2]) .identity =
      unorderedArguments 1 3 := rfl
  have hsubst' : (unorderedArguments 1 2).substituteFresh (Scope.empty.extendAll [0, 2])
      .identity = unorderedArguments 3 4 := rfl
  have hσ : ∀ x ∈ (unorderedArguments 1 2).freeNames,
      (Substitution.identity.lookup x : Term String).WellFormed (Scope.empty.extendAll [0, 2]) := by
    have hclosed : (unorderedArguments 1 2).freeNames = ∅ := rfl
    rw [hclosed]
    exact fun x hx => absurd hx (OrderedSet.not_mem_empty x)
  have hbody : (node "app" [var 1, var 2] [] : Term String).SetFree := by
    simp [SetFree, allPatterns_node, AllPatterns.var]
  have houter : (unorderedArguments 1 2).SetsOutermost := .node (by simp) (by simpa using hbody)
  have horder : (unorderedArguments 1 2).InOrder Scope.refresh (Scope.empty.extendAll [0, 2]) := by
    refine .node (by simp) ?_ ?_
    · simp only [List.forall_mem_singleton]
      show List.Pairwise _ _
      decide
    · simpa using hbody.inOrder _ _
  have hrefresh := hasRoom_unorderedArguments.mpr (by decide :
    Pattern.HasRoom Scope.refresh (Scope.empty.extendAll [0, 2]) (.set (.ofList [1, 2])))
  have hfresh := hasRoom_unorderedArguments.mpr (by decide :
    Pattern.HasRoom (fun before _ => before.fresh) (Scope.empty.extendAll [0, 2])
      (.set (.ofList [1, 2])))
  have hroom : AlphaEquivHasRoom (Scope.empty.extendAll [0, 2]) (unorderedArguments 1 3)
      (unorderedArguments 3 4) := by
    refine Comparable.alphaEquivHasRoom_of_below _ _ ?_ ?_ (by decide : Scope.Below _ 5) ?_ ?_
      (by decide)
    · exact comparable_substituteWith Scope.refresh_keepsOrDraws _ houter horder hrefresh hσ
    · exact comparable_substituteWith Scope.fresh_keepsOrDraws _ houter hfresh.inOrder_fresh hfresh
        hσ
    · simp [unorderedArguments, namesBelow_node, NamesBelow.var, Pattern.binders]
    · simp [unorderedArguments, namesBelow_node, NamesBelow.var, Pattern.binders]
  obtain ⟨hagree, -⟩ := substitute_alphaEquiv_substituteFresh _ _ _ hσ hrefresh hfresh
  have hresult := (hagree horder).2.2 houter
  rw [hsubst, hsubst'] at hresult
  exact ⟨hsubst, hsubst', hresult hroom⟩

/-- Of the members `0` and `1` the first clashes with the scope and is replaced by `3`, which comes
behind the second: the arguments have changed places, and neither comparison takes the result for
the one with all binders replaced. -/
theorem substitute_not_alphaEquiv_set_out_of_order :
    (unorderedArguments 0 1).DistinctBinders ∧
      (unorderedArguments 0 1).freeNames = ∅ ∧
      (unorderedArguments 0 1).HasRoom Scope.refresh (Scope.empty.extendAll [0, 2]) ∧
      (unorderedArguments 0 1).HasRoom (fun before _ => before.fresh)
        (Scope.empty.extendAll [0, 2]) ∧
      (unorderedArguments 0 1).substitute (Scope.empty.extendAll [0, 2]) .identity =
        unorderedArguments 3 1 ∧
      (unorderedArguments 0 1).substituteFresh (Scope.empty.extendAll [0, 2]) .identity =
        unorderedArguments 3 4 ∧
      alphaEquiv (Scope.empty.extendAll [0, 2]) (unorderedArguments 3 1) (unorderedArguments 3 4) =
        .ok false ∧
      alphaEquivFresh (Scope.empty.extendAll [0, 2]) (unorderedArguments 3 1)
        (unorderedArguments 3 4) = false := by
  refine ⟨?_, rfl, hasRoom_unorderedArguments.mpr (by decide),
    hasRoom_unorderedArguments.mpr (by decide), rfl, rfl, by decide +kernel, by decide⟩
  have hnodup : (Pattern.set (.ofList [0, 1])).binders.Nodup := by decide
  simpa [unorderedArguments, DistinctBinders, allPatterns_node, AllPatterns.var] using hnodup

-- Further inside, a set may fall out of order when the comparison renames the body it stands in:
-- here `8` and `2` line up on `2`, so that the member `2` of the set comes behind the member `3`.
example :
    let s := Scope.empty.extend 1
    let e : Term String := node "lam" [] [⟨.list [8, 0, 9],
      node "lam" [] [⟨.set (.ofList [2, 3]), node "app" [var 2, var 3] []⟩]⟩]
    alphaEquivFresh s (e.substitute s .identity) (e.substituteFresh s .identity) = true ∧
      alphaEquiv s (e.substitute s .identity) (e.substituteFresh s .identity) = .ok false := by
  decide +kernel

end Term

end NameBinding
