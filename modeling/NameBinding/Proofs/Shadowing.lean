import NameBinding.Proofs.SubstitutedTerms

/-!
# Shadowing

A name is shadowed where it is bound again inside its own scope. `Term.NoShadowing` says that this
happens nowhere in a term: on the way from the root to any place inside, no name is bound twice and
no name of the scope around the term is bound at all.

Substitution brings every term into that form and leaves the terms that have it alone
(`Term.substitute_removes_shadowing`), so a second substitution changes nothing.

* The result has the form because each pattern moves into a scope that has all binders outside it,
  and binders that moved are distinct (`Pattern.nodup_moveInto_binders`) and outside that scope.
  Layer by layer this is `Term.BindersNew`, and on whole paths it is the absence of shadowing
  (`Term.bindersNew_iff_noShadowing`).
* A term is left alone if it is settled: every binder is the very name that would be chosen in its
  place (`Term.Settled.substituteWith_eq`). A term the substitution had given to a bound name is
  dropped at the binder, also where the binder is kept.
-/

namespace NameBinding

namespace Pattern

variable {choose : Scope → Name → Name}

/-! ### The binders of a moved pattern -/

/-- A moved pattern lists the replacements of its binders, those of a set in increasing order. -/
theorem walk_moveVisit_perm (hchoose : Scope.KeepsOrDraws choose) {s : Scope} {p : Pattern}
    (h : p.HasRoom choose s) (acc : List (Name × Name)) :
    (p.walk (moveVisit choose) s acc).result.binders.Perm (replacements choose s p.binders) := by
  induction p generalizing s acc with
  | wildcard => rfl
  | single x => rfl
  | list xs => simp only [walk, binders, walkNames_moveVisit, List.Perm.refl]
  | set xs =>
    simp only [walk, binders, walkNames_moveVisit]
    apply (List.perm_ext_iff_of_nodup (OrderedSet.nodup_toList _)
      (nodup_replacements hchoose h)).mpr
    intro x
    exact OrderedSet.mem_ofList
  | pair l r ihl ihr =>
    obtain ⟨hl, hr⟩ := hasRoomForAll_append.mp h
    simp only [walk, binders, replacements_append, walk_scope, walkNames_moveVisit]
    exact (ihl hl acc).append (ihr hr _)

/-- The binders of a moved pattern are distinct, also where the pattern repeated some. -/
theorem nodup_moveInto_binders (hchoose : Scope.KeepsOrDraws choose) {s : Scope} {p : Pattern}
    (h : p.HasRoom choose s) : (p.moveInto choose s).pattern.binders.Nodup :=
  (walk_moveVisit_perm hchoose h []).nodup_iff.mpr (nodup_replacements hchoose h)

/-! ### Settled patterns -/

/-- Every binder of the pattern is the name that is chosen in its place. -/
def Settled (choose : Scope → Name → Name) (s : Scope) (p : Pattern) : Prop :=
  replacements choose s p.binders = p.binders

namespace Settled

variable {s : Scope} {p : Pattern}

/-- A settled pattern keeps its sets in order. -/
theorem inOrder (h : p.Settled choose s) : p.InOrder choose s := by
  induction p generalizing s with
  | wildcard => trivial
  | single x => trivial
  | list xs => trivial
  | set xs =>
    have hset : replacements choose s xs.toList = xs.toList := h
    show (replacements choose s xs.toList).Pairwise (· < ·)
    rw [hset]
    exact xs.ascending
  | pair l r ihl ihr =>
    have hpair : replacements choose s l.binders ++
        replacements choose (s.extendAll (replacements choose s l.binders)) r.binders =
          l.binders ++ r.binders := by
      rw [← replacements_append]
      exact h
    obtain ⟨hl, hr⟩ := List.append_inj hpair (length_replacements choose s l.binders)
    exact ⟨ihl hl, ihr hr⟩

/-- A settled pattern stays as it is when it moves into the scope. -/
theorem moveInto_pattern (h : p.Settled choose s) : (p.moveInto choose s).pattern = p :=
  ext (moveInto_shape_of_inOrder choose h.inOrder)
    ((moveInto_binders_of_inOrder choose h.inOrder).trans h)

/-- Moving a settled pattern extends the scope by its own binders. -/
theorem moveInto_scope (h : p.Settled choose s) :
    (p.moveInto choose s).scope = s.extendAll p.binders := by
  rw [Pattern.moveInto_scope, h]

/-- Inside a settled pattern every binder stands for itself, whatever it stood for outside. -/
theorem lookup_extend {E : Type} [OfName E] (h : p.Settled choose s) {σ : Substitution E}
    {x : Name} (hx : x ∉ p.binders → σ.lookup x = OfName.ofName x) :
    (σ.extend (p.moveInto choose s)).lookup x = OfName.ofName x := by
  by_cases hxp : x ∈ p.binders
  · obtain ⟨i, hi⟩ := Name.exists_lastPosition? hxp
    obtain ⟨c, hc, hlookup⟩ := Substitution.lookup_extend_of_lastPosition? choose s σ hi
    have hcx : c = x := by
      rw [h, Name.getElem?_of_lastPosition? hi] at hc
      exact (Option.some.inj hc).symm
    rw [hlookup, hcx]
  · rw [Substitution.lookup_extend_of_not_mem choose s σ hxp]
    exact hx hxp

end Settled

/-- Distinct binders outside the scope are kept where only clashing binders are replaced. -/
theorem replacements_refresh_of_new {s : Scope} {xs : List Name} (hnodup : xs.Nodup)
    (hnew : ∀ x ∈ xs, x ∉ s) : replacements Scope.refresh s xs = xs := by
  induction xs generalizing s with
  | nil => rfl
  | cons x xs ih =>
    obtain ⟨hx, hxs⟩ := List.nodup_cons.mp hnodup
    obtain ⟨hxnew, hxsnew⟩ := List.forall_mem_cons.mp hnew
    have hkeep : s.refresh x = x := if_neg fun hmem => hxnew (Scope.contains_iff.mp hmem)
    rw [replacements, hkeep, ih hxs]
    intro y hy hmem
    rcases Scope.mem_extend.mp hmem with rfl | hys
    · exact hx hy
    · exact hxsnew y hy hys

end Pattern

namespace Term

variable {κ : Type} {choose : Scope → Name → Name} {s : Scope}

/-! ### Settled terms -/

/-- Every binder of the term is the name that is chosen in its place. -/
inductive Settled (choose : Scope → Name → Name) : Scope → Term κ → Prop where
  | var (s : Scope) (x : Name) : Settled choose s (var x)
  | node {s : Scope} {h : κ} {ts : List (Term κ)} {ss : List (Scoped (Term κ))}
      (terms : ∀ e ∈ ts, Settled choose s e) (binders : ∀ sc ∈ ss, sc.binder.Settled choose s)
      (bodies : ∀ sc ∈ ss, Settled choose (s.extendAll sc.binder.binders) sc.body) :
      Settled choose s (node h ts ss)

/-- A node is settled if its children are, each body inside its pattern. -/
theorem settled_node {h : κ} {ts : List (Term κ)} {ss : List (Scoped (Term κ))} :
    (node h ts ss).Settled choose s ↔
      (∀ e ∈ ts, e.Settled choose s) ∧
        ∀ sc ∈ ss, sc.binder.Settled choose s ∧
          sc.body.Settled choose (s.extendAll sc.binder.binders) := by
  constructor
  · rintro (_ | ⟨hts, hbs, hss⟩)
    exact ⟨hts, fun sc hsc => ⟨hbs sc hsc, hss sc hsc⟩⟩
  · rintro ⟨hts, hss⟩
    exact .node hts (fun sc hsc => (hss sc hsc).1) fun sc hsc => (hss sc hsc).2

/-- A settled term is left alone by a substitution in which its free names stand for themselves. -/
theorem Settled.substituteWith_eq {e : Term κ} (h : e.Settled choose s)
    {σ : Substitution (Term κ)} (hσ : ∀ x ∈ e.freeNames, σ.lookup x = Term.var x) :
    e.substituteWith choose s σ = e := by
  induction h generalizing σ with
  | var s x => exact hσ x (mem_freeNames_var.mpr rfl)
  | @node s h ts ss _ hbinders _ ihts ihss =>
    rw [substituteWith_node]
    congr 1
    · refine (List.map_congr_left fun t ht => ?_).trans (List.map_id ts)
      apply ihts t ht
      intro x hx
      exact hσ x (mem_freeNames_node.mpr (Or.inl ⟨t, ht, hx⟩))
    · refine (List.map_congr_left fun sc hsc => ?_).trans (List.map_id ss)
      have hp := hbinders sc hsc
      have hbody : sc.body.substituteWith choose (s.extendAll sc.binder.binders)
          (σ.extend (sc.binder.moveInto choose s)) = sc.body := by
        apply ihss sc hsc
        intro x hx
        apply hp.lookup_extend
        intro hxp
        exact hσ x (mem_freeNames_node.mpr (Or.inr ⟨sc, hsc, hx, hxp⟩))
      simp only [substituteScoped, hp.moveInto_pattern, hp.moveInto_scope, hbody, id]

/-! ### Binders that are new, layer by layer -/

/-- The binders of a node are new if those of its children are, each body inside its pattern. -/
theorem bindersNew_node {h : κ} {ts : List (Term κ)} {ss : List (Scoped (Term κ))} :
    (node h ts ss).BindersNew s ↔
      (∀ e ∈ ts, e.BindersNew s) ∧
        ∀ sc ∈ ss, (sc.binder.binders.Nodup ∧ ∀ x ∈ sc.binder.binders, x ∉ s) ∧
          sc.body.BindersNew (s.extendAll sc.binder.binders) := by
  constructor
  · rintro (_ | ⟨hts, hdistinct, hnew, hss⟩)
    exact ⟨hts, fun sc hsc => ⟨⟨hdistinct sc hsc, hnew sc hsc⟩, hss sc hsc⟩⟩
  · rintro ⟨hts, hss⟩
    exact .node hts (fun sc hsc => (hss sc hsc).1.1) (fun sc hsc => (hss sc hsc).1.2)
      fun sc hsc => (hss sc hsc).2

/-- Binders that are new in a scope are new in a smaller one. -/
theorem BindersNew.anti {s' : Scope} {e : Term κ} (he : e.BindersNew s)
    (h : ∀ x ∈ s', x ∈ s) : e.BindersNew s' := by
  induction he generalizing s' with
  | var s x => exact .var s' x
  | node _ hdistinct hnew _ ihts ihss =>
    refine .node (fun t ht => ihts t ht h) hdistinct
      (fun sc hsc x hx hxs => hnew sc hsc x hx (h x hxs)) fun sc hsc => ihss sc hsc ?_
    intro x hx
    exact Scope.mem_extendAll.mpr ((Scope.mem_extendAll.mp hx).imp_left (h x))

/-- Where all binders are new, none is replaced. -/
theorem BindersNew.settled {e : Term κ} (he : e.BindersNew s) : e.Settled Scope.refresh s := by
  induction he with
  | var s x => exact .var s x
  | node _ hdistinct hnew _ ihts ihss =>
    refine .node ihts (fun sc hsc => ?_) ihss
    exact Pattern.replacements_refresh_of_new (hdistinct sc hsc) (hnew sc hsc)

/-- Replacing free names by names leaves a term whose binders are new. -/
theorem bindersNew_substituteWith (hchoose : Scope.KeepsOrDraws choose) (e : Term κ) (s : Scope)
    (σ : Substitution (Term κ)) (hroom : e.HasRoom choose s)
    (hσ : ∀ x ∈ e.freeNames, ∃ y, σ.lookup x = var y) :
    (e.substituteWith choose s σ).BindersNew s := by
  induction e generalizing s σ with
  | var x =>
    obtain ⟨y, hy⟩ := hσ x (mem_freeNames_var.mpr rfl)
    show (σ.lookup x).BindersNew s
    rw [hy]
    exact .var s y
  | node h ts ss ihts ihss =>
    obtain ⟨hroom_ts, hroom_ss⟩ := hasRoom_node.mp hroom
    rw [substituteWith_node]
    refine bindersNew_node.mpr ⟨List.forall_mem_map.mpr fun t ht => ?_,
      List.forall_mem_map.mpr fun sc hsc => ⟨⟨?_, ?_⟩, ?_⟩⟩
    · apply ihts t ht s σ (hroom_ts t ht)
      intro x hx
      exact hσ x (mem_freeNames_node.mpr (Or.inl ⟨t, ht, hx⟩))
    · exact Pattern.nodup_moveInto_binders hchoose (hroom_ss sc hsc).1
    · intro x hx
      exact Pattern.replacements_not_mem hchoose (hroom_ss sc hsc).1 x
        ((Pattern.mem_moveInto_binders choose s sc.binder).mp hx)
    · have hbody := ihss sc hsc (sc.binder.moveInto choose s).scope
        (σ.extend (sc.binder.moveInto choose s)) (hroom_ss sc hsc).2
        (forall_lookup_body (fun t => ∃ y, t = var y) hsc (fun c _ => ⟨c, rfl⟩) hσ)
      -- a set may list its replacements in another order than they were chosen in
      apply hbody.anti
      intro x hx
      rw [Pattern.moveInto_scope, Scope.mem_extendAll]
      exact (Scope.mem_extendAll.mp hx).imp_right
        (Pattern.mem_moveInto_binders choose s sc.binder).mp

/-! ### Binders that are new, on whole paths -/

/-- The names bound on the way from the root of a term to some place inside, outermost first. -/
inductive BindersOnPath : Term κ → List Name → Prop where
  | root (e : Term κ) : BindersOnPath e []
  | term {h : κ} {ts : List (Term κ)} {ss : List (Scoped (Term κ))} {t : Term κ} {xs : List Name}
      (mem : t ∈ ts) (rest : BindersOnPath t xs) : BindersOnPath (node h ts ss) xs
  | body {h : κ} {ts : List (Term κ)} {ss : List (Scoped (Term κ))} {sc : Scoped (Term κ)}
      {xs : List Name} (mem : sc ∈ ss) (rest : BindersOnPath sc.body xs) :
      BindersOnPath (node h ts ss) (sc.binder.binders ++ xs)

/-- On no way into the term is a name bound twice, or a name of the scope bound at all. -/
def NoShadowing (s : Scope) (e : Term κ) : Prop :=
  ∀ xs, e.BindersOnPath xs → xs.Nodup ∧ ∀ x ∈ xs, x ∉ s

/-- Binders that are new on every path shadow nothing. -/
theorem BindersNew.noShadowing {e : Term κ} (he : e.BindersNew s) : e.NoShadowing s := by
  intro xs hpath
  induction hpath generalizing s with
  | root e => exact ⟨List.nodup_nil, fun _ hx => absurd hx List.not_mem_nil⟩
  | term ht _ ih => exact ih ((bindersNew_node.mp he).1 _ ht)
  | @body h ts ss sc xs hsc _ ih =>
    obtain ⟨⟨hdistinct, hnew⟩, hbody⟩ := (bindersNew_node.mp he).2 sc hsc
    obtain ⟨hxs, hxsnew⟩ := ih hbody
    -- the binders further inside are outside a scope that has those of this pattern
    have hapart : ∀ x ∈ xs, x ∉ s ∧ x ∉ sc.binder.binders := by
      intro x hx
      have hout := hxsnew x hx
      rwa [Scope.mem_extendAll, not_or] at hout
    refine ⟨List.nodup_append.mpr ⟨hdistinct, hxs, ?_⟩, ?_⟩
    · rintro x hx y hy rfl
      exact (hapart x hy).2 hx
    · intro x hx
      rcases List.mem_append.mp hx with hx | hx
      · exact hnew x hx
      · exact (hapart x hx).1

/-- Without shadowing the binders are new on every path. -/
theorem NoShadowing.bindersNew {e : Term κ} (he : e.NoShadowing s) : e.BindersNew s := by
  induction e generalizing s with
  | var x => exact .var s x
  | node h ts ss ihts ihss =>
    refine bindersNew_node.mpr ⟨fun t ht => ihts t ht fun xs hxs => he xs (.term ht hxs),
      fun sc hsc => ⟨?_, ihss sc hsc fun xs hxs => ?_⟩⟩
    · have hp := he _ (.body hsc (.root sc.body))
      rwa [List.append_nil] at hp
    · obtain ⟨hnodup, hnew⟩ := he _ (.body hsc hxs)
      obtain ⟨-, hxs_nodup, hapart⟩ := List.nodup_append.mp hnodup
      refine ⟨hxs_nodup, fun x hx hmem => ?_⟩
      rcases Scope.mem_extendAll.mp hmem with hxs' | hxp
      · exact hnew x (List.mem_append_right _ hx) hxs'
      · exact hapart x hxp x hx rfl

/-- Binders are new layer by layer exactly where no way into the term shadows a name. -/
theorem bindersNew_iff_noShadowing {e : Term κ} : e.BindersNew s ↔ e.NoShadowing s :=
  ⟨BindersNew.noShadowing, NoShadowing.bindersNew⟩

/-! ### Substitution and shadowing -/

/-- Substituting nothing removes shadowing. -/
theorem noShadowing_substitute_identity {e : Term κ} (hroom : e.HasRoom Scope.refresh s) :
    (e.substitute s .identity).NoShadowing s :=
  bindersNew_iff_noShadowing.mp
    (bindersNew_substituteWith Scope.refresh_keepsOrDraws e s _ hroom fun x _ => ⟨x, rfl⟩)

/-- A term without shadowing stays as it is if its free names stay. -/
theorem NoShadowing.substitute_eq {e : Term κ} (h : e.NoShadowing s) {σ : Substitution (Term κ)}
    (hσ : ∀ x ∈ e.freeNames, σ.lookup x = var x) : e.substitute s σ = e :=
  (bindersNew_iff_noShadowing.mpr h).settled.substituteWith_eq hσ

/-- **Substitution removes shadowing and leaves the rest alone.** Where no name stands for anything
but itself, the result is free of shadowing in the output scope, whatever the patterns of the term
and wherever its free names are bound. A term that is free of shadowing comes back as it was, if its
free names stand for themselves; its bound names may stand for anything. So substituting a second
time changes nothing. -/
theorem substitute_removes_shadowing [DecidableEq κ] (s : Scope) :
    (∀ e : Term κ, e.HasRoom Scope.refresh s → (e.substitute s .identity).NoShadowing s) ∧
    (∀ (e : Term κ) (σ : Substitution (Term κ)), e.NoShadowing s →
      (∀ x ∈ e.freeNames, σ.lookup x = var x) → (e.substitute s σ).same e = true) ∧
    ∀ e : Term κ, e.HasRoom Scope.refresh s →
      ((e.substitute s .identity).substitute s .identity).same (e.substitute s .identity) =
        true := by
  refine ⟨fun e => noShadowing_substitute_identity, fun e σ he hσ => ?_, fun e hroom => ?_⟩
  · exact same_iff.mpr (he.substitute_eq hσ)
  · exact same_iff.mpr ((noShadowing_substitute_identity hroom).substitute_eq fun _ _ => rfl)

/-- Two arguments without an order, which are bound again one level inside, the second one twice.
The name `7` is free. -/
def rebindsBoth : Term String :=
  node "lam" [] [⟨.set (.ofList [0, 1]), node "lam" []
    [⟨.pair (.single 1) (.list [1, 0]), node "app" [var 0, var 1, var 7] []⟩]⟩]

/-- The term `rebindsBoth` without shadowing, outside the names `0` and `2`. -/
def rebindsNeither : Term String :=
  node "lam" [] [⟨.set (.ofList [1, 3]), node "lam" []
    [⟨.pair (.single 4) (.list [5, 6]), node "app" [var 6, var 5, var 7] []⟩]⟩]

/-- All binders but one are replaced. The name `7` is not in the scope and stays free, and a term
for the bound name `5` has no effect on the result. -/
theorem substitute_removes_shadowing_nested :
    rebindsBoth.substitute (Scope.empty.extendAll [0, 2]) .identity = rebindsNeither ∧
    rebindsNeither.NoShadowing (Scope.empty.extendAll [0, 2]) ∧
    (rebindsNeither.substitute (Scope.empty.extendAll [0, 2])
        (Substitution.identity.add 5 (var 0))).same rebindsNeither = true ∧
    (rebindsNeither.substitute (Scope.empty.extendAll [0, 2]) .identity).same rebindsNeither =
      true := by
  have hroom : rebindsBoth.HasRoom Scope.refresh (Scope.empty.extendAll [0, 2]) := by
    have houter : Pattern.HasRoom Scope.refresh (Scope.empty.extendAll [0, 2])
        (.set (.ofList [0, 1])) := by decide
    have hinner : Pattern.HasRoom Scope.refresh (Pattern.moveInto Scope.refresh
        (Scope.empty.extendAll [0, 2]) (.set (.ofList [0, 1]))).scope
        (.pair (.single 1) (.list [1, 0])) := by decide
    simpa [rebindsBoth, hasRoom_node, HasRoom.var] using And.intro houter hinner
  have hfree : rebindsNeither.freeNames = .singleton 7 := rfl
  have hresult : rebindsBoth.substitute (Scope.empty.extendAll [0, 2]) .identity =
      rebindsNeither := rfl
  obtain ⟨hnormal, hkept, htwice⟩ :=
    substitute_removes_shadowing (κ := String) (Scope.empty.extendAll [0, 2])
  have hnone := hnormal rebindsBoth hroom
  have hagain := htwice rebindsBoth hroom
  rw [hresult] at hnone hagain
  refine ⟨hresult, hnone, hkept rebindsNeither _ hnone ?_, hagain⟩
  intro x hx
  rw [hfree, OrderedSet.mem_singleton] at hx
  rw [hx]
  rfl

end Term

end NameBinding
