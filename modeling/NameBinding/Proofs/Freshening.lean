import NameBinding.Proofs.CaptureFree
import NameBinding.Term.AlphaEquiv

/-!
# Freshening is a canonical form

Replacing every binder by the first fresh name keeps the nameless form (`Term.nameless_freshen`),
and what it gives depends only on the nameless form and the scope (`Term.freshen_congr`). Comparing
two freshened terms as they stand therefore decides whether their nameless forms are equal
(`Term.alphaEquivFresh_iff`).

The second half needs no hypothesis about the scope or the patterns: two terms with one nameless
form are freshened alike even where fresh names wrap around or sets fall out of order.
-/

namespace NameBinding

/-- Drawing a fresh name at every binder rebuilds patterns of one shape alike, their sets
included. -/
theorem Pattern.walk_freshen_congr {p q : Pattern} (h : p.shape = q.shape) (s : Scope)
    (acc acc' : List (Name × Name)) :
    (p.walk (moveVisit fun before _ => before.fresh) s acc).result =
      (q.walk (moveVisit fun before _ => before.fresh) s acc').result := by
  induction p generalizing q s acc acc' with
  | wildcard => cases q <;> simp_all [shape, walk]
  | single x => cases q <;> simp_all [shape, walk, moveVisit]
  | list xs =>
    cases q <;> simp only [shape, Shape.list.injEq, reduceCtorEq] at h
    simp only [walk, walkNames_moveVisit, replacements_fresh_congr s h]
  | set xs =>
    cases q <;> simp only [shape, Shape.set.injEq, reduceCtorEq] at h
    simp only [walk, walkNames_moveVisit, replacements_fresh_congr s h]
  | pair l r ihl ihr =>
    cases q <;> simp only [shape, Shape.pair.injEq, reduceCtorEq] at h
    rename_i l' r'
    have hscope : (l.walk (moveVisit fun before _ => before.fresh) s acc).scope =
        (l'.walk (moveVisit fun before _ => before.fresh) s acc').scope := by
      rw [walk_scope, walk_scope, walkNames_moveVisit, walkNames_moveVisit,
        replacements_fresh_congr s (length_binders_of_shape h.1)]
    simp only [walk, ihl h.1 s acc acc', hscope]
    rw [ihr h.2]

/-- A freshened pattern depends on the shape of the pattern only. -/
theorem Pattern.freshen_pattern_congr {p q : Pattern} (h : p.shape = q.shape) (s : Scope) :
    (p.freshen s).pattern = (q.freshen s).pattern :=
  walk_freshen_congr h s [] []

/-- Patterns of one shape are freshened to the same scope. -/
theorem Pattern.freshen_scope_congr {p q : Pattern} (h : p.shape = q.shape) (s : Scope) :
    (p.freshen s).scope = (q.freshen s).scope := by
  unfold freshen
  rw [moveInto_scope, moveInto_scope, replacements_fresh_congr s (length_binders_of_shape h)]

namespace Term

variable {κ : Type}

/-- Names that two readings take for the same occurrence still stand for the same term inside two
freshened patterns of one shape. -/
theorem lookup_extend_freshen_congr {p q : Pattern} (hshape : p.shape = q.shape) {s : Scope}
    {σ σ' : Substitution (Term κ)} {ρ ρ' : Reading} {x y : Name}
    (h : x ∉ p.binders → y ∉ q.binders → ρ x = ρ' y → σ.lookup x = σ'.lookup y)
    (hxy : ρ.enter p.binders x = ρ'.enter q.binders y) :
    (σ.extend (p.freshen s)).lookup x = (σ'.extend (q.freshen s)).lookup y := by
  unfold Pattern.freshen
  rcases Reading.enter_eq_enter hxy with ⟨i, hi, hj⟩ | ⟨hx, hy, hreads⟩
  · obtain ⟨c, hc, hlookup⟩ := Substitution.lookup_extend_of_lastPosition? _ s σ hi
    obtain ⟨c', hc', hlookup'⟩ := Substitution.lookup_extend_of_lastPosition? _ s σ' hj
    have hcc : c = c' := by
      rw [Pattern.replacements_fresh_congr s (Pattern.length_binders_of_shape hshape), hc'] at hc
      exact (Option.some.inj hc).symm
    rw [hlookup, hlookup', hcc]
  · rw [Substitution.lookup_extend_of_not_mem _ s σ hx,
      Substitution.lookup_extend_of_not_mem _ s σ' hy]
    exact h hx hy hreads

/-- Terms with the same nameless form give the same term when all binders are replaced, if names
read alike stand for the same terms. -/
theorem substituteFresh_congr (l r : Term κ) (s : Scope) (σ σ' : Substitution (Term κ))
    (ρ ρ' : Reading) (h : l.namelessIn ρ = r.namelessIn ρ')
    (hσ : ∀ x ∈ l.freeNames, ∀ y ∈ r.freeNames, ρ x = ρ' y → σ.lookup x = σ'.lookup y) :
    l.substituteFresh s σ = r.substituteFresh s σ' := by
  unfold substituteFresh
  induction l generalizing r s σ σ' ρ ρ' with
  | var x =>
    cases r with
    | var y =>
      have hxy : ρ x = ρ' y := Nameless.leaf.inj h
      exact hσ x (mem_freeNames_var.mpr rfl) y (mem_freeNames_var.mpr rfl) hxy
    | node h' ts' ss' => cases h
  | node hd ts ss ihts ihss =>
    cases r with
    | var y => cases h
    | node hd' ts' ss' =>
      obtain ⟨hhd, hts, hss⟩ := namelessIn_node_inj.mp h
      rw [substituteWith_node, substituteWith_node, hhd]
      congr 1
      · apply map_eq_map_of_map_eq_map hts
        intro t ht t' ht' htt'
        apply ihts t ht t' s σ σ' ρ ρ' htt'
        intro x hx y hy
        exact hσ x (mem_freeNames_node.mpr (Or.inl ⟨t, ht, hx⟩))
          y (mem_freeNames_node.mpr (Or.inl ⟨t', ht', hy⟩))
      · apply map_eq_map_of_map_eq_map hss
        intro sc hsc sc' hsc' hscsc'
        obtain ⟨hshape, hbody⟩ := Prod.mk.inj hscsc'
        have hpattern := Pattern.freshen_pattern_congr hshape s
        have hscope := Pattern.freshen_scope_congr hshape s
        unfold Pattern.freshen at hpattern hscope
        simp only [substituteScoped, hpattern, hscope, Scoped.mk.injEq, true_and]
        apply ihss sc hsc sc'.body _ _ _ _ _ hbody
        intro x hx y hy
        apply lookup_extend_freshen_congr hshape
        intro hxp hyq
        exact hσ x (mem_freeNames_node.mpr (Or.inr ⟨sc, hsc, hx, hxp⟩))
          y (mem_freeNames_node.mpr (Or.inr ⟨sc', hsc', hy, hyq⟩))

/-- Freshened terms depend on the nameless form only. -/
theorem freshen_congr {l r : Term κ} (s : Scope) (h : l.nameless = r.nameless) :
    l.freshen s = r.freshen s := by
  apply substituteFresh_congr l r s _ _ .top .top h
  intro x _ y _ hxy
  rw [show x = y from Occurrence.free.inj hxy]

/-- Freshening keeps the nameless form. -/
theorem nameless_freshen {s : Scope} {e : Term κ} (hsets : e.SetFree)
    (hscope : ∀ x ∈ e.freeNames, x ∈ s) (hroom : e.HasRoom (fun before _ => before.fresh) s) :
    (e.freshen s).nameless = e.nameless := by
  have hlookup : ∀ x : Name, (Substitution.identity : Substitution (Term κ)).lookup x = var x :=
    fun _ => rfl
  unfold freshen substituteFresh
  rw [nameless_substituteWith Scope.fresh_keepsOrDraws hsets _ hroom]
  · exact bind_leaf_namelessIn e .top
  · intro x hx y hy
    rw [hlookup, mem_freeNames_var] at hy
    rw [hy]
    exact hscope x hx

/-- Comparing freshened terms decides equality of nameless forms. -/
theorem alphaEquivFresh_iff [DecidableEq κ] {s : Scope} {l r : Term κ} (hl : l.SetFree)
    (hr : r.SetFree) (hlscope : ∀ x ∈ l.freeNames, x ∈ s) (hrscope : ∀ x ∈ r.freeNames, x ∈ s)
    (hlroom : l.HasRoom (fun before _ => before.fresh) s)
    (hrroom : r.HasRoom (fun before _ => before.fresh) s) :
    alphaEquivFresh s l r = true ↔ l.nameless = r.nameless := by
  unfold alphaEquivFresh
  rw [same_iff]
  constructor
  · intro h
    rw [← nameless_freshen hl hlscope hlroom, h, nameless_freshen hr hrscope hrroom]
  · exact freshen_congr s

end Term

end NameBinding
