import NameBinding.Proofs.Moving
import NameBinding.Proofs.Nameless
import NameBinding.Term.Substitute

/-!
# Substitution never captures

On nameless forms substitution is plain replacement: the form of the result is the form of the term
with every free name replaced by the form of what the substitution gives it
(`Term.nameless_substitute`). This holds whether clashing binders only or all binders are replaced,
and for every way of shadowing: of names of the scope, of names with a term, of names free in those
terms, of enclosing binders.

The proof goes layer by layer. `Carried` relates what a name refers to before the substitution to
the term it stands for: a bound name stands for a variable with the same binder, a free name for a
term none of whose free names is bound on the way. Crossing a pattern keeps the relation
(`Carried.sink`, `Carried.of_binder`), because the replacements are distinct and outside the scope.

The two ways differ in nothing but the choice of replacements, so one induction covers both
(`Term.namelessIn_substituteWith`). It needs no more of the patterns than that their sets stay in
order.
-/

namespace NameBinding

/-! ### Looking up names inside a moved pattern -/

namespace Substitution

variable {E : Type} [OfName E]

/-- A name that is added stands for its new term, and the others for what they stood for. -/
theorem lookup_add (σ : Substitution E) (x z : Name) (e : E) :
    (σ.add x e).lookup z = if z = x then e else σ.lookup z := by
  unfold lookup
  rw [get?_add]
  split <;> rfl

/-- A name that is renamed stands for its new name, and the others for what they stood for. -/
theorem lookup_addRename (σ : Substitution E) (x y z : Name) :
    (σ.addRename x y).lookup z = if z = x then OfName.ofName y else σ.lookup z := by
  unfold lookup
  rw [get?_addRename]
  by_cases hz : z = x
  · subst hz
    by_cases hxy : z = y
    · subst hxy; simp
    · simp [hxy]
  · simp [hz]

section fold

variable {α : Type} {step : Substitution E → α → Substitution E} {key : α → Name} {value : α → E}
  (hstep : ∀ τ a z, (step τ a).lookup z = if z = key a then value a else τ.lookup z)
include hstep

/-- Giving terms to other names one after the other leaves a name as it is. -/
theorem lookup_foldl_of_not_mem {x : Name} :
    (as : List α) → (σ : Substitution E) → x ∉ as.map key →
      (as.foldl step σ).lookup x = σ.lookup x
  | [], _, _ => rfl
  | a :: as, σ, h => by
      obtain ⟨hxa, hxs⟩ : x ≠ key a ∧ x ∉ as.map key := by simpa [List.mem_cons] using h
      rw [List.foldl_cons, lookup_foldl_of_not_mem as _ hxs, hstep, if_neg hxa]

/-- Of several terms given to one name the last counts. -/
theorem lookup_foldl_of_lastPosition? {x : Name} :
    (as : List α) → (σ : Substitution E) → {i : Nat} → {v : E} →
      x.lastPosition? (as.map key) = some i → (as.map value)[i]? = some v →
      (as.foldl step σ).lookup x = v
  | [], _, _, _, h, _ => by cases h
  | a :: as, σ, i, v, h, hv => by
      rw [List.map_cons] at h hv
      rw [List.foldl_cons]
      rcases hx : x.lastPosition? (as.map key) with _ | j
      · rw [Name.lastPosition?_cons_of_none hx] at h
        split at h
        · rename_i hxa
          cases h
          have hva : value a = v := by simpa using hv
          rw [lookup_foldl_of_not_mem hstep as _ (Name.lastPosition?_eq_none_iff.mp hx), hstep,
            if_pos hxa, hva]
        · cases h
      · rw [Name.lastPosition?_cons_of_some hx] at h
        cases h
        exact lookup_foldl_of_lastPosition? as _ hx (by simpa using hv)

end fold

/-- Giving terms to a list of names: each name gets the term at its last position. -/
theorem lookup_foldl_add {xs : List Name} {es : List E} (hlen : xs.length = es.length)
    (σ : Substitution E) :
    (∀ x, x ∉ xs → ((xs.zip es).foldl (fun τ e => τ.add e.1 e.2) σ).lookup x = σ.lookup x) ∧
      ∀ x i, x.lastPosition? xs = some i →
        es[i]? = some (((xs.zip es).foldl (fun τ e => τ.add e.1 e.2) σ).lookup x) := by
  have hfst : (xs.zip es).map Prod.fst = xs := List.map_fst_zip (by omega)
  have hsnd : (xs.zip es).map Prod.snd = es := List.map_snd_zip (by omega)
  refine ⟨fun x hx => ?_, fun x i hi => ?_⟩
  · apply lookup_foldl_of_not_mem fun τ e z => lookup_add τ e.1 z e.2
    rwa [hfst]
  · have hlt : i < es.length :=
      hlen ▸ (List.getElem?_eq_some_iff.mp (Name.getElem?_of_lastPosition? hi)).1
    rw [List.getElem?_eq_getElem hlt, Option.some.injEq, eq_comm]
    apply lookup_foldl_of_lastPosition? fun τ e z => lookup_add τ e.1 z e.2
    · rwa [hfst]
    · rw [hsnd]
      exact List.getElem?_eq_getElem hlt

variable (choose : Scope → Name → Name) (s : Scope) (σ : Substitution E) {p : Pattern} {x : Name}

/-- Inside a moved pattern, a name it does not bind stands for what it stood for outside. -/
theorem lookup_extend_of_not_mem (h : x ∉ p.binders) :
    (σ.extend (p.moveInto choose s)).lookup x = σ.lookup x := by
  apply lookup_foldl_of_not_mem fun τ e => lookup_addRename τ e.1 e.2
  rwa [Pattern.moveInto_renames_fst]

/-- Inside a moved pattern, a binder stands for the replacement at its last position. -/
theorem lookup_extend_of_lastPosition? {i : Nat} (h : x.lastPosition? p.binders = some i) :
    ∃ c, (Pattern.replacements choose s p.binders)[i]? = some c ∧
      (σ.extend (p.moveInto choose s)).lookup x = OfName.ofName c := by
  have hlt : i < p.binders.length :=
    (List.getElem?_eq_some_iff.mp (Name.getElem?_of_lastPosition? h)).1
  have hlen : i < (Pattern.replacements choose s p.binders).length := by simpa using hlt
  refine ⟨_, List.getElem?_eq_getElem hlen, ?_⟩
  apply lookup_foldl_of_lastPosition? fun τ e => lookup_addRename τ e.1 e.2
  · rwa [Pattern.moveInto_renames_fst]
  · show (((p.moveInto choose s).renames.map (OfName.ofName ∘ Prod.snd))[i]? : Option E) = _
    rw [← List.map_map, List.getElem?_map, Pattern.moveInto_renames, List.map_snd_zip (by simp),
      List.getElem?_eq_getElem hlen, Option.map_some]

end Substitution

/-! ### What a name stands for, before and after -/

section carried

variable {κ : Type}

/-- The term `t` in the scope `s` and the reading `ρ` stands for an occurrence: a bound one if `t`
is a variable with the same binder, a free one if nothing in `t` is bound by `ρ` and `f` gives the
nameless form of `t`. -/
inductive Carried (s : Scope) (ρ : Reading) (f : Name → Nameless κ) :
    Occurrence → Term κ → Prop where
  | bound {n i : Nat} {y : Name} (mem : y ∈ s) (reads : ρ y = .bound n i) :
      Carried s ρ f (.bound n i) (.var y)
  | free {x : Name} {t : Term κ} (mem : ∀ z ∈ t.freeNames, z ∈ s)
      (reads : ∀ z ∈ t.freeNames, ρ z = .free z) (form : t.nameless = f x) :
      Carried s ρ f (.free x) t

namespace Carried

variable {s : Scope} {ρ : Reading} {f : Name → Nameless κ} {o : Occurrence} {t : Term κ}

/-- What stands for an occurrence has the nameless form that replaces the occurrence. -/
theorem namelessIn_eq (h : Carried s ρ f o t) : t.namelessIn ρ = (Nameless.leaf o).bind f := by
  rcases h with ⟨-, hy⟩ | ⟨-, hreads, hform⟩
  · rw [Term.namelessIn, hy, Nameless.bind]
  · rw [Nameless.bind, ← hform]
    exact Term.namelessIn_congr t hreads

/-- Under further binders outside the scope the same term stands for the same occurrence. -/
theorem sink (h : Carried s ρ f o t) {cs : List Name} (hcs : ∀ c ∈ cs, c ∉ s) :
    Carried (s.extendAll cs) (ρ.enter cs) f o.sink t := by
  have hout : ∀ z ∈ s, z ∉ cs := fun z hz hzc => hcs z hzc hz
  rcases h with ⟨hmem, hy⟩ | ⟨hmem, hreads, hform⟩
  · refine .bound (Scope.mem_extendAll.mpr (Or.inl hmem)) ?_
    rw [Reading.enter_of_not_mem (hout _ hmem), hy]
    rfl
  · refine .free (fun z hz => Scope.mem_extendAll.mpr (Or.inl (hmem z hz))) ?_ hform
    intro z hz
    rw [Reading.enter_of_not_mem (hout z (hmem z hz)), hreads z hz]
    rfl

/-- A binder stands for the position it has, if no binder is repeated. -/
theorem of_binder {cs : List Name} (hcs : cs.Nodup) {i : Nat} {c : Name} (h : cs[i]? = some c) :
    Carried (s.extendAll cs) (ρ.enter cs) f (.bound 0 i) (.var c) := by
  refine .bound (Scope.mem_extendAll.mpr (Or.inr (List.mem_of_getElem? h))) ?_
  exact Reading.enter_of_lastPosition? (Name.lastPosition?_of_nodup hcs h) ρ

end Carried

end carried

/-! ### Substitution on nameless forms -/

namespace Term

variable {κ : Type} {choose : Scope → Name → Name}

/-- A node is substituted into child by child. -/
theorem substituteWith_node (choose : Scope → Name → Name) (s : Scope)
    (σ : Substitution (Term κ)) (h : κ) (ts : List (Term κ)) (ss : List (Scoped (Term κ))) :
    (node h ts ss).substituteWith choose s σ =
      node h (ts.map (substituteWith choose s σ)) (ss.map (substituteScoped choose s σ)) := by
  rw [substituteWith, substituteTerms_eq_map, substituteScopes_eq_map]

/-- The relation between names and what they stand for passes from a scoped term to its body. -/
theorem carried_body (hchoose : Scope.KeepsOrDraws choose) {s : Scope} {σ : Substitution (Term κ)}
    {ρ ρ' : Reading} {f : Name → Nameless κ} {p : Pattern} (hroom : p.HasRoom choose s) {x : Name}
    (h : x ∉ p.binders → Carried s ρ' f (ρ x) (σ.lookup x)) :
    Carried (p.moveInto choose s).scope (ρ'.enter (Pattern.replacements choose s p.binders)) f
      (ρ.enter p.binders x) ((σ.extend (p.moveInto choose s)).lookup x) := by
  rw [Pattern.moveInto_scope]
  by_cases hx : x ∈ p.binders
  · obtain ⟨i, hi⟩ := Name.exists_lastPosition? hx
    obtain ⟨c, hc, hlookup⟩ := Substitution.lookup_extend_of_lastPosition? choose s σ hi
    rw [hlookup, Reading.enter_of_lastPosition? hi]
    exact Carried.of_binder (Pattern.nodup_replacements hchoose hroom) hc
  · rw [Substitution.lookup_extend_of_not_mem choose s σ hx, Reading.enter_of_not_mem hx]
    exact (h hx).sink (Pattern.replacements_not_mem hchoose hroom)

/-- Substitution replaces, on nameless forms, every free name by what it stands for. -/
theorem namelessIn_substituteWith (hchoose : Scope.KeepsOrDraws choose) (f : Name → Nameless κ)
    (e : Term κ) (s : Scope) (σ : Substitution (Term κ)) (ρ ρ' : Reading)
    (horder : e.InOrder choose s) (hroom : e.HasRoom choose s)
    (hcarried : ∀ x ∈ e.freeNames, Carried s ρ' f (ρ x) (σ.lookup x)) :
    (e.substituteWith choose s σ).namelessIn ρ' = (e.namelessIn ρ).bind f := by
  induction e generalizing s σ ρ ρ' with
  | var x => exact (hcarried x (mem_freeNames_var.mpr rfl)).namelessIn_eq
  | node h ts ss ihts ihss =>
    rcases horder with _ | ⟨horder_ts, horder_bs, horder_ss⟩
    obtain ⟨hroom_ts, hroom_ss⟩ := hasRoom_node.mp hroom
    rw [substituteWith_node, namelessIn_node, bind_namelessIn_node, List.map_map, List.map_map,
      Nameless.node.injEq]
    refine ⟨rfl, List.map_congr_left fun e he => ?_, List.map_congr_left fun sc hsc => ?_⟩
    · apply ihts e he s σ ρ ρ' (horder_ts e he) (hroom_ts e he)
      intro x hx
      exact hcarried x (mem_freeNames_node.mpr (Or.inl ⟨e, he, hx⟩))
    · have hp := horder_bs sc hsc
      obtain ⟨hroom_p, hroom_b⟩ := hroom_ss sc hsc
      unfold Function.comp substituteScoped namelessScoped
      simp only [Pattern.moveInto_shape_of_inOrder choose hp,
        Pattern.moveInto_binders_of_inOrder choose hp]
      rw [ihss sc hsc _ _ (ρ.enter sc.binder.binders) _ (horder_ss sc hsc) hroom_b]
      intro x hx
      apply carried_body hchoose hroom_p
      intro hnot
      exact hcarried x (mem_freeNames_node.mpr (Or.inr ⟨sc, hsc, hx, hnot⟩))

/-- The nameless form of a substituted term, for either way of replacing binders, as long as sets
stay in order. -/
theorem nameless_substituteWith_of_inOrder (hchoose : Scope.KeepsOrDraws choose) {s : Scope}
    {σ : Substitution (Term κ)} {e : Term κ} (horder : e.InOrder choose s)
    (hscope : ∀ x ∈ e.freeNames, ∀ y ∈ (σ.lookup x).freeNames, y ∈ s)
    (hroom : e.HasRoom choose s) :
    (e.substituteWith choose s σ).nameless =
      e.nameless.bind fun x => (σ.lookup x).nameless := by
  apply namelessIn_substituteWith hchoose _ e s σ .top .top horder hroom
  intro x hx
  exact .free (hscope x hx) (fun _ _ => rfl) rfl

/-- The nameless form of a substituted term without sets, for either way of replacing binders. -/
theorem nameless_substituteWith (hchoose : Scope.KeepsOrDraws choose) {s : Scope}
    {σ : Substitution (Term κ)} {e : Term κ} (hsets : e.SetFree)
    (hscope : ∀ x ∈ e.freeNames, ∀ y ∈ (σ.lookup x).freeNames, y ∈ s)
    (hroom : e.HasRoom choose s) :
    (e.substituteWith choose s σ).nameless =
      e.nameless.bind fun x => (σ.lookup x).nameless :=
  nameless_substituteWith_of_inOrder hchoose (hsets.inOrder choose s) hscope hroom

/-- **Substitution never captures.** If whatever the free names of `e` stand for has its free names
in the output scope, the nameless form of the result is that of `e` with the free names replaced,
all at once, by the nameless forms of what they stand for. -/
theorem nameless_substitute (s : Scope) (σ : Substitution (Term κ)) (e : Term κ)
    (hsets : e.SetFree) (hscope : ∀ x ∈ e.freeNames, ∀ y ∈ (σ.lookup x).freeNames, y ∈ s) :
    (e.HasRoom Scope.refresh s →
      (e.substitute s σ).nameless = e.nameless.bind fun x => (σ.lookup x).nameless) ∧
    (e.HasRoom (fun before _ => before.fresh) s →
      (e.substituteFresh s σ).nameless = e.nameless.bind fun x => (σ.lookup x).nameless) :=
  ⟨nameless_substituteWith Scope.refresh_keepsOrDraws hsets hscope,
    nameless_substituteWith Scope.fresh_keepsOrDraws hsets hscope⟩

/-- A function that applies the name `0` to its argument, which is called `1`. -/
def applyZero : Term String := node "lam" [] [⟨.single 1, node "app" [var 0, var 1] []⟩]

/-- The name `1` is put for `0` under a binder called `1`, which is also a name of the scope: in
the result it is free, and the argument is still the one of the binder. -/
theorem nameless_substitute_clash :
    (applyZero.substitute (Scope.empty.extendAll [0, 1])
        (Substitution.identity.add 0 (var 1))).nameless =
      .node "lam" [] [(.single, .node "app" [.leaf (.free 1), .leaf (.bound 0 0)] [])] ∧
    (applyZero.substituteFresh (Scope.empty.extendAll [0, 1])
        (Substitution.identity.add 0 (var 1))).nameless =
      .node "lam" [] [(.single, .node "app" [.leaf (.free 1), .leaf (.bound 0 0)] [])] := by
  have hsets : applyZero.SetFree := by
    simp [applyZero, SetFree, allPatterns_node, AllPatterns.var, Pattern.setFree]
  have hscope : ∀ x ∈ applyZero.freeNames,
      ∀ y ∈ ((Substitution.identity.add 0 (var 1)).lookup x : Term String).freeNames,
        y ∈ Scope.empty.extendAll [0, 1] := by
    intro x hx
    have hx01 : (x = 0 ∨ x = 1) ∧ x ≠ 1 := by
      simpa [applyZero, mem_freeNames_node, mem_freeNames_var, Pattern.binders] using hx
    rw [hx01.1.resolve_right hx01.2]
    intro y hy
    rw [mem_freeNames_var.mp hy]
    decide
  obtain ⟨hrefresh, hfresh⟩ := nameless_substitute (Scope.empty.extendAll [0, 1])
    (Substitution.identity.add 0 (var 1)) applyZero hsets hscope
  have hroom : ∀ choose, Pattern.HasRoom choose (Scope.empty.extendAll [0, 1]) (.single 1) →
      applyZero.HasRoom choose (Scope.empty.extendAll [0, 1]) := by
    intro choose hroom
    simpa [applyZero, hasRoom_node, HasRoom.var] using hroom
  rw [hrefresh (hroom _ (by decide)), hfresh (hroom _ (by decide))]
  exact ⟨rfl, rfl⟩

end Term

end NameBinding
