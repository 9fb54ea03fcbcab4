import NameBinding.Proofs.CaptureFree
import NameBinding.Proofs.Extensionality
import NameBinding.Proofs.NameBounds

/-!
# What substitution does to a term

A substituted term is made of the nodes of the term, its patterns moved into the scope, and what its
free names stand for. So it is well formed in the output scope as soon as what the free names stand
for is (`Term.wellFormed_substituteWith`): the patterns that were moved have distinct binders even
where the old ones had repeated some. Names grow by at most one with each binder
(`Term.namesBelow_substituteWith`).

Its free names are exactly those of what the free names of the term stand for
(`Term.freeNames_substitute`). None is gained, whatever the scope
(`Term.exists_of_mem_freeNames_substituteWith`): a binder stands for a replacement, and the moved
pattern binds that. None is lost (`Term.mem_freeNames_substituteWith`): replacements are outside the
scope. Neither depends on the positions of the binders, so sets may fall out of order.

All of this goes down a term with the substitution, and crossing a pattern adds nothing to what
names may stand for but the replacements of its binders (`Term.forall_lookup_extend`).
-/

namespace NameBinding

namespace Term

variable {κ : Type} {choose : Scope → Name → Name}

/-! ### Crossing a pattern -/

/-- Inside a moved pattern a name stands for what it stood for outside, or for a replacement. What
holds of both holds of all that names stand for inside. -/
theorem forall_lookup_extend (P : Term κ → Prop) {s : Scope} {σ : Substitution (Term κ)}
    {p : Pattern} {x : Name} (hvar : ∀ c ∈ Pattern.replacements choose s p.binders, P (var c))
    (hσ : x ∉ p.binders → P (σ.lookup x)) : P ((σ.extend (p.moveInto choose s)).lookup x) := by
  by_cases hxp : x ∈ p.binders
  · obtain ⟨i, hi⟩ := Name.exists_lastPosition? hxp
    obtain ⟨c, hc, hlookup⟩ := Substitution.lookup_extend_of_lastPosition? choose s σ hi
    rw [hlookup]
    exact hvar c (List.mem_of_getElem? hc)
  · rw [Substitution.lookup_extend_of_not_mem choose s σ hxp]
    exact hσ hxp

/-- The same for the free names of the body of a scoped child. -/
theorem forall_lookup_body (P : Term κ → Prop) {s : Scope} {σ : Substitution (Term κ)} {h : κ}
    {ts : List (Term κ)} {ss : List (Scoped (Term κ))} {sc : Scoped (Term κ)} (hsc : sc ∈ ss)
    (hvar : ∀ c ∈ Pattern.replacements choose s sc.binder.binders, P (var c))
    (hσ : ∀ x ∈ (node h ts ss).freeNames, P (σ.lookup x)) :
    ∀ x ∈ sc.body.freeNames, P ((σ.extend (sc.binder.moveInto choose s)).lookup x) := by
  intro x hx
  apply forall_lookup_extend P hvar
  intro hxp
  exact hσ x (mem_freeNames_node.mpr (Or.inr ⟨sc, hsc, hx, hxp⟩))

/-! ### Free names -/

/-- A substituted term has no free names but those of what the free names of the term stand for. -/
theorem exists_of_mem_freeNames_substituteWith (e : Term κ) (s : Scope) (σ : Substitution (Term κ))
    {y : Name} (hy : y ∈ (e.substituteWith choose s σ).freeNames) :
    ∃ x ∈ e.freeNames, y ∈ (σ.lookup x).freeNames := by
  induction e generalizing s σ with
  | var x => exact ⟨x, mem_freeNames_var.mpr rfl, hy⟩
  | node h ts ss ihts ihss =>
    rw [substituteWith_node, mem_freeNames_node] at hy
    rcases hy with ⟨t', ht', hy⟩ | ⟨sc', hsc', hy, hyp⟩
    · obtain ⟨t, ht, rfl⟩ := List.mem_map.mp ht'
      obtain ⟨x, hx, hyx⟩ := ihts t ht s σ hy
      exact ⟨x, mem_freeNames_node.mpr (Or.inl ⟨t, ht, hx⟩), hyx⟩
    · obtain ⟨sc, hsc, rfl⟩ := List.mem_map.mp hsc'
      have hnew : y ∉ Pattern.replacements choose s sc.binder.binders :=
        fun hmem => hyp ((Pattern.mem_moveInto_binders choose s sc.binder).mpr hmem)
      obtain ⟨x, hx, hyx⟩ := ihss sc hsc _ _ hy
      -- a binder stands for a replacement, which is not free in the result
      refine forall_lookup_extend
        (fun t => y ∈ t.freeNames → ∃ x ∈ (node h ts ss).freeNames, y ∈ (σ.lookup x).freeNames)
        (fun c hc hyc => ?_) (fun hxp hyx => ?_) hyx
      · rw [mem_freeNames_var.mp hyc] at hnew
        exact absurd hc hnew
      · exact ⟨x, mem_freeNames_node.mpr (Or.inr ⟨sc, hsc, hx, hxp⟩), hyx⟩

/-- Whatever is free in what a free name stands for is free in the substituted term. -/
theorem mem_freeNames_substituteWith (hchoose : Scope.KeepsOrDraws choose) (e : Term κ) (s : Scope)
    (σ : Substitution (Term κ)) (hroom : e.HasRoom choose s)
    (hscope : ∀ x ∈ e.freeNames, ∀ y ∈ (σ.lookup x).freeNames, y ∈ s) {x y : Name}
    (hx : x ∈ e.freeNames) (hy : y ∈ (σ.lookup x).freeNames) :
    y ∈ (e.substituteWith choose s σ).freeNames := by
  induction e generalizing s σ with
  | var z =>
    rw [mem_freeNames_var.mp hx] at hy
    exact hy
  | node h ts ss ihts ihss =>
    obtain ⟨hroom_ts, hroom_ss⟩ := hasRoom_node.mp hroom
    rw [substituteWith_node, mem_freeNames_node]
    rcases mem_freeNames_node.mp hx with ⟨t, ht, hxt⟩ | ⟨sc, hsc, hxb, hxp⟩
    · refine Or.inl ⟨_, List.mem_map_of_mem ht, ihts t ht s σ (hroom_ts t ht) ?_ hxt hy⟩
      intro z hz
      exact hscope z (mem_freeNames_node.mpr (Or.inl ⟨t, ht, hz⟩))
    · obtain ⟨hroom_p, hroom_b⟩ := hroom_ss sc hsc
      have hinner : ∀ z ∈ sc.body.freeNames,
          ∀ y ∈ ((σ.extend (sc.binder.moveInto choose s)).lookup z).freeNames,
            y ∈ (sc.binder.moveInto choose s).scope := by
        rw [Pattern.moveInto_scope]
        apply forall_lookup_body (fun t => ∀ y ∈ t.freeNames, y ∈ s.extendAll _) hsc
        · intro c hc y hyc
          rw [mem_freeNames_var.mp hyc]
          exact Scope.mem_extendAll.mpr (Or.inr hc)
        · exact fun z hz y hyz => Scope.mem_extendAll.mpr (Or.inl (hscope z hz y hyz))
      refine Or.inr ⟨_, List.mem_map_of_mem hsc, ihss sc hsc _ _ hroom_b hinner hxb ?_, ?_⟩
      · rwa [Substitution.lookup_extend_of_not_mem choose s σ hxp]
      · -- `y` is a name of the scope, and no replacement is
        intro hyp
        have hmem := (Pattern.mem_moveInto_binders choose s sc.binder).mp hyp
        exact Pattern.replacements_not_mem hchoose hroom_p y hmem (hscope x hx y hy)

/-- The names that are free in what the free names of a term stand for. -/
def freeNamesThrough (σ : Substitution (Term κ)) (e : Term κ) : NameSet :=
  freeNamesTerms (e.freeNames.toList.map σ.lookup)

/-- The free names through a substitution are those of what it gives the free names. -/
theorem mem_freeNamesThrough {σ : Substitution (Term κ)} {e : Term κ} {y : Name} :
    y ∈ e.freeNamesThrough σ ↔ ∃ x ∈ e.freeNames, y ∈ (σ.lookup x).freeNames := by
  simp [freeNamesThrough, mem_freeNamesTerms]

/-- The free names of a substituted term, for either way of replacing binders. -/
theorem freeNames_substituteWith (hchoose : Scope.KeepsOrDraws choose) {s : Scope}
    {σ : Substitution (Term κ)} {e : Term κ}
    (hscope : ∀ x ∈ e.freeNames, ∀ y ∈ (σ.lookup x).freeNames, y ∈ s)
    (hroom : e.HasRoom choose s) :
    (e.substituteWith choose s σ).freeNames = e.freeNamesThrough σ ∧
      ∀ y ∈ (e.substituteWith choose s σ).freeNames, y ∈ s := by
  have hfree : ∀ y, y ∈ (e.substituteWith choose s σ).freeNames ↔
      ∃ x ∈ e.freeNames, y ∈ (σ.lookup x).freeNames := by
    intro y
    constructor
    · exact exists_of_mem_freeNames_substituteWith e s σ
    · rintro ⟨x, hx, hy⟩
      exact mem_freeNames_substituteWith hchoose e s σ hroom hscope hx hy
  refine ⟨OrderedSet.ext fun y => (hfree y).trans mem_freeNamesThrough.symm, ?_⟩
  intro y hy
  obtain ⟨x, hx, hyx⟩ := (hfree y).mp hy
  exact hscope x hx y hyx

/-- **Substitution neither captures nor lets escape.** If whatever the free names of `e` stand for
has its free names in the output scope, the free names of the result are exactly the names free in
what the free names of `e` stand for, and so they are in the output scope. Patterns of every kind
may stand in `e`, with repeated binders and with sets that fall out of order. -/
theorem freeNames_substitute (s : Scope) (σ : Substitution (Term κ)) (e : Term κ)
    (hscope : ∀ x ∈ e.freeNames, ∀ y ∈ (σ.lookup x).freeNames, y ∈ s) :
    (e.HasRoom Scope.refresh s →
      (e.substitute s σ).freeNames = e.freeNamesThrough σ ∧
        ∀ y ∈ (e.substitute s σ).freeNames, y ∈ s) ∧
    (e.HasRoom (fun before _ => before.fresh) s →
      (e.substituteFresh s σ).freeNames = e.freeNamesThrough σ ∧
        ∀ y ∈ (e.substituteFresh s σ).freeNames, y ∈ s) :=
  ⟨freeNames_substituteWith Scope.refresh_keepsOrDraws hscope,
    freeNames_substituteWith Scope.fresh_keepsOrDraws hscope⟩

/-- A function of two arguments without an order, which gives both to the name `5`. -/
def givesBoth : Term String :=
  node "lam" [] [⟨.set (.ofList [0, 1]), node "app" [var 5, var 0, var 1] []⟩]

/-- The names `0` and `2` are put for `5` below a set that has `0`. Both are names of the scope, so
the member `0` is replaced by `3` and comes behind the member `1`. -/
theorem freeNames_substitute_reordered_set :
    givesBoth.substitute (Scope.empty.extendAll [0, 2])
        (Substitution.identity.add 5 (node "pair" [var 0, var 2] [])) =
      node "lam" [] [⟨.set (.ofList [1, 3]),
        node "app" [node "pair" [var 0, var 2] [], var 3, var 1] []⟩] ∧
    (givesBoth.substitute (Scope.empty.extendAll [0, 2])
        (Substitution.identity.add 5 (node "pair" [var 0, var 2] []))).freeNames =
      .ofList [0, 2] ∧
    (givesBoth.substituteFresh (Scope.empty.extendAll [0, 2])
        (Substitution.identity.add 5 (node "pair" [var 0, var 2] []))).freeNames =
      .ofList [0, 2] := by
  have hfree : givesBoth.freeNames = .singleton 5 := rfl
  have hscope : ∀ x ∈ givesBoth.freeNames, ∀ y ∈ ((Substitution.identity.add 5
      (node "pair" [var 0, var 2] [])).lookup x : Term String).freeNames,
        y ∈ Scope.empty.extendAll [0, 2] := by
    rw [hfree]
    intro x hx y hy
    rw [OrderedSet.mem_singleton.mp hx, Substitution.lookup_add, if_pos rfl] at hy
    have hy02 : y = 0 ∨ y = 2 := by simpa [mem_freeNames_node, mem_freeNames_var] using hy
    rcases hy02 with rfl | rfl
    · decide
    · decide
  have hroom : ∀ choose, Pattern.HasRoom choose (Scope.empty.extendAll [0, 2])
      (.set (.ofList [0, 1])) → givesBoth.HasRoom choose (Scope.empty.extendAll [0, 2]) := by
    intro choose hroom
    simpa [givesBoth, hasRoom_node, HasRoom.var] using hroom
  obtain ⟨hrefresh, hfresh⟩ := freeNames_substitute (Scope.empty.extendAll [0, 2])
    (Substitution.identity.add 5 (node "pair" [var 0, var 2] [])) givesBoth hscope
  refine ⟨rfl, ?_, ?_⟩
  · rw [(hrefresh (hroom _ (by decide))).1]
    rfl
  · rw [(hfresh (hroom _ (by decide))).1]
    rfl

/-! ### Well-formed results -/

/-- Substitution brings no sets into a term without sets. -/
theorem setFree_substituteWith (e : Term κ) (hsets : e.SetFree) (s : Scope)
    (σ : Substitution (Term κ)) (hσ : ∀ x ∈ e.freeNames, (σ.lookup x).SetFree) :
    (e.substituteWith choose s σ).SetFree := by
  induction e generalizing s σ with
  | var x => exact hσ x (mem_freeNames_var.mpr rfl)
  | node h ts ss ihts ihss =>
    obtain ⟨hts, hss⟩ := allPatterns_node.mp hsets
    rw [substituteWith_node]
    refine allPatterns_node.mpr ⟨List.forall_mem_map.mpr fun e he => ?_,
      List.forall_mem_map.mpr fun sc hsc => ⟨?_, ?_⟩⟩
    · apply ihts e he (hts e he)
      intro x hx
      exact hσ x (mem_freeNames_node.mpr (Or.inl ⟨e, he, hx⟩))
    · exact Pattern.moveInto_setFree choose s (hss sc hsc).1
    · exact ihss sc hsc (hss sc hsc).2 _ _ (forall_lookup_body SetFree hsc (fun c _ => .var c) hσ)

/-- A well-formed term is one in every larger scope. -/
theorem WellFormed.mono {s s' : Scope} {e : Term κ} (he : e.WellFormed s)
    (h : ∀ x ∈ s, x ∈ s') : e.WellFormed s' :=
  ⟨fun x hx => h x (he.inScope x hx), he.setFree, he.distinct⟩

/-- A variable is well formed if its name is in the scope. -/
theorem wellFormed_var {s : Scope} {x : Name} : (var x : Term κ).WellFormed s ↔ x ∈ s := by
  constructor
  · intro h
    exact h.inScope x (mem_freeNames_var.mpr rfl)
  · intro hx
    refine ⟨fun y hy => ?_, .var x, .var x⟩
    rwa [mem_freeNames_var.mp hy]

/-- Inside a moved pattern the free names of the body stand for terms that are well formed there. -/
theorem wellFormed_lookup_body {s : Scope} {σ : Substitution (Term κ)} {h : κ} {ts : List (Term κ)}
    {ss : List (Scoped (Term κ))} {sc : Scoped (Term κ)} (hsc : sc ∈ ss)
    (hσ : ∀ x ∈ (node h ts ss).freeNames, (σ.lookup x).WellFormed s) :
    ∀ x ∈ sc.body.freeNames, ((σ.extend (sc.binder.moveInto choose s)).lookup x).WellFormed
      (sc.binder.moveInto choose s).scope := by
  rw [Pattern.moveInto_scope]
  apply forall_lookup_body (WellFormed _) hsc
  · intro c hc
    exact wellFormed_var.mpr (Scope.mem_extendAll.mpr (Or.inr hc))
  · intro x hx
    exact (hσ x hx).mono fun y hy => Scope.mem_extendAll.mpr (Or.inl hy)

/-- A substituted term is well formed in the output scope, if what its free names stand for is. -/
theorem wellFormed_substituteWith (hchoose : Scope.KeepsOrDraws choose) (e : Term κ)
    (hsets : e.SetFree) (s : Scope) (σ : Substitution (Term κ)) (hroom : e.HasRoom choose s)
    (hσ : ∀ x ∈ e.freeNames, (σ.lookup x).WellFormed s) :
    (e.substituteWith choose s σ).WellFormed s := by
  induction e generalizing s σ with
  | var x => exact hσ x (mem_freeNames_var.mpr rfl)
  | node h ts ss ihts ihss =>
    obtain ⟨hsets_ts, hsets_ss⟩ := allPatterns_node.mp hsets
    obtain ⟨hroom_ts, hroom_ss⟩ := hasRoom_node.mp hroom
    rw [substituteWith_node]
    refine wellFormed_node.mpr ⟨List.forall_mem_map.mpr fun e he => ?_,
      List.forall_mem_map.mpr fun sc hsc => ?_⟩
    · apply ihts e he (hsets_ts e he) s σ (hroom_ts e he)
      intro x hx
      exact hσ x (mem_freeNames_node.mpr (Or.inl ⟨e, he, hx⟩))
    · obtain ⟨hp, hb⟩ := hsets_ss sc hsc
      obtain ⟨hroom_p, hroom_b⟩ := hroom_ss sc hsc
      have hbinders := Pattern.moveInto_binders choose s hp
      refine ⟨Pattern.moveInto_setFree choose s hp, ?_, ?_⟩
      · show (sc.binder.moveInto choose s).pattern.binders.Nodup
        rw [hbinders]
        exact Pattern.nodup_replacements hchoose hroom_p
      · show WellFormed (s.extendAll (sc.binder.moveInto choose s).pattern.binders) _
        rw [hbinders, ← Pattern.moveInto_scope]
        exact ihss sc hsc hb _ _ hroom_b (wellFormed_lookup_body hsc hσ)

/-! ### How far names grow -/

/-- The names of a substituted term are below the bound plus the number of binders. -/
theorem namesBelow_substituteWith (hchoose : Scope.KeepsOrDraws choose) (e : Term κ)
    (hsets : e.SetFree) (s : Scope) (σ : Substitution (Term κ)) {B : Nat} (hs : s.Below B)
    (he : e.NamesBelow B) (hσ : ∀ x ∈ e.freeNames, (σ.lookup x).NamesBelow B) :
    (e.substituteWith choose s σ).NamesBelow (B + e.binderCount) := by
  induction e generalizing s σ B with
  | var x => exact (hσ x (mem_freeNames_var.mpr rfl)).mono (Nat.le_add_right _ _)
  | node h ts ss ihts ihss =>
    obtain ⟨hsets_ts, hsets_ss⟩ := allPatterns_node.mp hsets
    obtain ⟨hts, hss⟩ := namesBelow_node.mp he
    rw [substituteWith_node]
    refine namesBelow_node.mpr ⟨List.forall_mem_map.mpr fun e he => ?_,
      List.forall_mem_map.mpr fun sc hsc => ?_⟩
    · have hle := binderCount_le_of_mem h ss he
      refine (ihts e he (hsets_ts e he) s σ hs (hts e he) ?_).mono (by omega)
      intro x hx
      exact hσ x (mem_freeNames_node.mpr (Or.inl ⟨e, he, hx⟩))
    · have hle := binderCount_body_le_of_mem h ts hsc
      obtain ⟨hp, hb⟩ := hss sc hsc
      have hnew := Pattern.replacements_below hchoose hs hp
      refine ⟨?_, ?_⟩
      · show ∀ x ∈ (sc.binder.moveInto choose s).pattern.binders, _
        rw [Pattern.moveInto_binders choose s (hsets_ss sc hsc).1]
        intro x hx
        have := hnew x hx
        omega
      · have hbody := ihss sc hsc (hsets_ss sc hsc).2 _ (σ.extend (sc.binder.moveInto choose s))
          (Pattern.moveInto_scope_below hchoose hs hp) (hb.mono (Nat.le_add_right _ _))
          (forall_lookup_body (NamesBelow _) hsc (fun c hc => .var (hnew c hc))
            fun x hx => (hσ x hx).mono (Nat.le_add_right _ _))
        exact hbody.mono (by omega)

/-- Putting terms without patterns for the free names neither adds nor removes binders. -/
theorem binderCount_substituteWith (e : Term κ) (hsets : e.SetFree) (s : Scope)
    (σ : Substitution (Term κ)) (hσ : ∀ x ∈ e.freeNames, (σ.lookup x).binderCount = 0) :
    (e.substituteWith choose s σ).binderCount = e.binderCount := by
  induction e generalizing s σ with
  | var x => exact hσ x (mem_freeNames_var.mpr rfl)
  | node h ts ss ihts ihss =>
    obtain ⟨hsets_ts, hsets_ss⟩ := allPatterns_node.mp hsets
    rw [substituteWith_node, binderCount, binderCount]
    congr 1
    · apply binderCountTerms_congr
      rw [List.map_map]
      apply List.map_congr_left
      intro e he
      apply ihts e he (hsets_ts e he)
      intro x hx
      exact hσ x (mem_freeNames_node.mpr (Or.inl ⟨e, he, hx⟩))
    · apply binderCountScopes_congr
      rw [List.map_map]
      apply List.map_congr_left
      intro sc hsc
      obtain ⟨hp, hb⟩ := hsets_ss sc hsc
      have hbody := ihss sc hsc hb (sc.binder.moveInto choose s).scope
        (σ.extend (sc.binder.moveInto choose s))
        (forall_lookup_body (fun t => t.binderCount = 0) hsc (fun _ _ => rfl) hσ)
      unfold Function.comp substituteScoped
      simp only [Pattern.moveInto_binders choose s hp, Pattern.length_replacements, hbody]

end Term

end NameBinding
