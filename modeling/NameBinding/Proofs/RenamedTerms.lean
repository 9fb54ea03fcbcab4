import Mathlib.Data.List.Forall2
import NameBinding.Proofs.Merging
import NameBinding.Proofs.Moving
import NameBinding.Proofs.Nameless
import NameBinding.Term.Rename

/-!
# What renaming does to a term

Renaming follows the free names of a term: if every free name is read before the way its new name is
read afterwards, the nameless form stays (`Term.namelessIn_rename`). That it may return a part
untouched, as soon as nothing is left to be renamed, makes no difference.

`Term.rename_node_eq_ok` says once what a successful renaming of a node has done, child by child,
and the other statements follow it: renaming succeeds when no pattern repeats a binder
(`Term.exists_rename`), and the result is well formed in the scope it was made for
(`Term.wellFormed_rename`).
-/

namespace NameBinding

/-! ### Related lists -/

/-- Lists related one by one have the same images if related elements do. -/
theorem map_eq_map_of_forall₂ {α β γ : Type} {R : α → β → Prop} {f : α → γ} {g : β → γ} :
    {as : List α} → {bs : List β} → List.Forall₂ R as bs →
      (∀ a ∈ as, ∀ b, R a b → g b = f a) → bs.map g = as.map f
  | [], [], .nil, _ => rfl
  | a :: as, b :: bs, .cons hab h, hfg => by
      have hrest := map_eq_map_of_forall₂ h fun a' ha' => hfg a' (List.mem_cons_of_mem _ ha')
      rw [List.map_cons, List.map_cons, hfg a List.mem_cons_self b hab, hrest]

/-- In lists related one by one each element of the second is related to one of the first. -/
theorem exists_of_mem_of_forall₂ {α β : Type} {R : α → β → Prop} {b : β} :
    {as : List α} → {bs : List β} → List.Forall₂ R as bs → b ∈ bs → ∃ a ∈ as, R a b
  | [], [], .nil, hb => absurd hb List.not_mem_nil
  | a :: as, b' :: bs, .cons hab h, hb => by
      rcases List.mem_cons.mp hb with rfl | hb
      · exact ⟨a, List.mem_cons_self, hab⟩
      · obtain ⟨a', ha', hR⟩ := exists_of_mem_of_forall₂ h hb
        exact ⟨a', List.mem_cons_of_mem _ ha', hR⟩

/-! ### Crossing a pattern -/

namespace Renaming

/-- Crossing a pattern forgets its binders and then sends them to their replacements. -/
theorem cross_eq (r : Renaming) (choose : Scope → Name → Name) (s : Scope) (p : Pattern) :
    r.cross (p.moveInto choose s) = (r.withoutAll p.binders).mergeSingles
      (p.binders.zip (Pattern.replacements choose s p.binders)) := by
  unfold cross mergeSingles
  rw [Pattern.moveInto_renames_fst, Pattern.moveInto_renames]

/-- Below a pattern with distinct binders, these go to their replacements and all other names where
they went before. -/
theorem exists_cross (r : Renaming) (choose : Scope → Name → Name) (s : Scope) {p : Pattern}
    (hp : p.binders.Nodup) :
    ∃ q, r.cross (p.moveInto choose s) = .ok q ∧
      p.binders.map q.apply = Pattern.replacements choose s p.binders ∧
      ∀ x, x ∉ p.binders → q.apply x = r.apply x := by
  have hlen := Pattern.length_replacements choose s p.binders
  have hfst : (p.binders.zip (Pattern.replacements choose s p.binders)).map Prod.fst = p.binders :=
    List.map_fst_zip (by omega)
  obtain ⟨q, hq, happly, hout⟩ := exists_mergeSingles
    (p.binders.zip (Pattern.replacements choose s p.binders)) (by rwa [hfst])
    (r.withoutAll p.binders) (by
      rw [hfst]
      intro x hx
      rw [target?_withoutAll, if_pos hx])
  refine ⟨q, (cross_eq r choose s p).trans hq, map_eq_of_forall_mem_zip hlen.symm happly, ?_⟩
  intro x hx
  apply apply_of_target?_eq
  rw [hout x (by rwa [hfst]), target?_withoutAll, if_neg hx]

end Renaming

namespace Term

variable {κ : Type}

/-! ### What a successful renaming has done -/

/-- The scoped term `sc'` is `sc` renamed. -/
def RenamedScoped (s : Scope) (r : Renaming) (sc sc' : Scoped (Term κ)) : Prop :=
  sc'.binder = (sc.binder.refresh s).pattern ∧
    ∃ inner, r.cross (sc.binder.refresh s) = .ok inner ∧
      rename (sc.binder.refresh s).scope inner sc.body = .ok sc'.body

/-- Plain children are renamed one by one. -/
theorem renameTerms_eq_ok {s : Scope} {r : Renaming} :
    (ts : List (Term κ)) → {ts' : List (Term κ)} →
      (renameTerms s r ts = .ok ts' ↔ List.Forall₂ (fun t t' => rename s r t = .ok t') ts ts')
  | [], ts' => by
      rw [renameTerms, List.forall₂_nil_left_iff, Except.ok.injEq, eq_comm]
  | t :: ts, ts' => by
      rw [renameTerms, List.forall₂_cons_left_iff]
      simp only [Error.bind_eq_ok, Error.pure_eq_ok, renameTerms_eq_ok ts]
      constructor
      · rintro ⟨u, hu, us, hus, rfl⟩
        exact ⟨u, us, hu, hus, rfl⟩
      · rintro ⟨u, us, hu, hus, rfl⟩
        exact ⟨u, hu, us, hus, rfl⟩

/-- Scoped children are renamed one by one. -/
theorem renameScopes_eq_ok {s : Scope} {r : Renaming} : (ss : List (Scoped (Term κ))) →
    {ss' : List (Scoped (Term κ))} →
      (renameScopes s r ss = .ok ss' ↔ List.Forall₂ (RenamedScoped s r) ss ss')
  | [], ss' => by
      rw [renameScopes, List.forall₂_nil_left_iff, Except.ok.injEq, eq_comm]
  | ⟨p, b⟩ :: ss, ss' => by
      rw [renameScopes, List.forall₂_cons_left_iff]
      simp only [Error.bind_eq_ok, Error.pure_eq_ok, renameScopes_eq_ok ss]
      constructor
      · rintro ⟨inner, hinner, b', hb, us, hus, rfl⟩
        exact ⟨_, us, ⟨rfl, inner, hinner, hb⟩, hus, rfl⟩
      · rintro ⟨⟨p', b'⟩, us, ⟨rfl, inner, hinner, hb⟩, hus, rfl⟩
        exact ⟨inner, hinner, b', hb, us, hus, rfl⟩

/-- A node is renamed by renaming its children, or not at all if nothing moves. -/
theorem rename_node_eq_ok {s : Scope} {r : Renaming} {h : κ} {ts : List (Term κ)}
    {ss : List (Scoped (Term κ))} {e' : Term κ} :
    rename s r (node h ts ss) = .ok e' ↔
      (r = .identity ∧ e' = node h ts ss) ∨
      (r ≠ .identity ∧ ∃ ts' ss', e' = node h ts' ss' ∧
        List.Forall₂ (fun t t' => rename s r t = .ok t') ts ts' ∧
        List.Forall₂ (RenamedScoped s r) ss ss') := by
  rw [rename]
  simp only [Renaming.isIdentity_iff]
  by_cases hr : r = .identity
  · simp only [hr, if_true, Except.ok.injEq, true_and, ne_eq, not_true, false_and, or_false]
    exact eq_comm
  · simp only [hr, if_false, false_and, false_or, ne_eq, not_false_iff, true_and,
      Error.bind_eq_ok, Error.pure_eq_ok, renameTerms_eq_ok, renameScopes_eq_ok]
    constructor
    · rintro ⟨ts', hts, ss', hss, rfl⟩
      exact ⟨ts', ss', rfl, hts, hss⟩
    · rintro ⟨ts', ss', rfl, hts, hss⟩
      exact ⟨ts', hts, ss', hss, rfl⟩

/-- The identity renames nothing. -/
theorem rename_identity (s : Scope) (e : Term κ) : rename s .identity e = .ok e := by
  rcases e with x | ⟨h, ts, ss⟩
  · rfl
  · exact rename_node_eq_ok.mpr (Or.inl ⟨rfl, rfl⟩)

/-! ### Renaming succeeds -/

/-- If each element of a list is related to something, the list is related one by one to another. -/
theorem exists_forall₂ {α β : Type} {R : α → β → Prop} :
    (as : List α) → (∀ a ∈ as, ∃ b, R a b) → ∃ bs, List.Forall₂ R as bs
  | [], _ => ⟨[], .nil⟩
  | a :: as, h => by
      obtain ⟨b, hab⟩ := h a List.mem_cons_self
      obtain ⟨bs, hbs⟩ := exists_forall₂ as fun a' ha' => h a' (List.mem_cons_of_mem _ ha')
      exact ⟨b :: bs, .cons hab hbs⟩

/-- Renaming never fails on a term whose patterns have distinct binders, in whatever scope. -/
theorem exists_rename (e : Term κ) (h : e.DistinctBinders) (s : Scope) (r : Renaming) :
    ∃ e', rename s r e = .ok e' := by
  induction e generalizing s r with
  | var x => exact ⟨_, rfl⟩
  | node hd ts ss ihts ihss =>
    obtain ⟨hts, hss⟩ := allPatterns_node.mp h
    by_cases hr : r = .identity
    · exact ⟨_, rename_node_eq_ok.mpr (Or.inl ⟨hr, rfl⟩)⟩
    · obtain ⟨ts', hts'⟩ := exists_forall₂ ts fun t ht => ihts t ht (hts t ht) s r
      obtain ⟨ss', hss'⟩ : ∃ ss', List.Forall₂ (RenamedScoped s r) ss ss' := by
        apply exists_forall₂
        intro sc hsc
        obtain ⟨hp, hb⟩ := hss sc hsc
        obtain ⟨inner, hinner, -⟩ := r.exists_cross Scope.refresh s hp
        obtain ⟨b', hb'⟩ := ihss sc hsc hb (sc.binder.refresh s).scope inner
        exact ⟨⟨_, b'⟩, rfl, inner, hinner, hb'⟩
      exact ⟨_, rename_node_eq_ok.mpr (Or.inr ⟨hr, ts', ss', rfl, hts', hss'⟩)⟩

/-! ### Renaming keeps the nameless form -/

/-- No draw wraps while a term is renamed. What is below an identity is not looked at. -/
inductive RenameHasRoom : Scope → Renaming → Term κ → Prop where
  | identity (s : Scope) (e : Term κ) : RenameHasRoom s .identity e
  | var (s : Scope) (r : Renaming) (x : Name) : RenameHasRoom s r (var x)
  | node {s : Scope} {r : Renaming} {h : κ} {ts : List (Term κ)} {ss : List (Scoped (Term κ))}
      (terms : ∀ e ∈ ts, RenameHasRoom s r e)
      (binders : ∀ sc ∈ ss, sc.binder.HasRoom Scope.refresh s)
      (bodies : ∀ sc ∈ ss, ∀ inner, r.cross (sc.binder.refresh s) = .ok inner →
        RenameHasRoom (sc.binder.refresh s).scope inner sc.body) :
      RenameHasRoom s r (node h ts ss)

/-- Renaming sends the free names of the term into the scope, and each is read before as its new
name is read afterwards. -/
def Follows (s : Scope) (r : Renaming) (ρ ρ' : Reading) (e : Term κ) : Prop :=
  ∀ x ∈ e.freeNames, r.apply x ∈ s ∧ ρ' (r.apply x) = ρ x

/-- What follows a renaming at a node follows it at the plain children. -/
theorem Follows.term {s : Scope} {r : Renaming} {ρ ρ' : Reading} {h : κ} {ts : List (Term κ)}
    {ss : List (Scoped (Term κ))} (hf : Follows s r ρ ρ' (.node h ts ss)) {e : Term κ}
    (he : e ∈ ts) : Follows s r ρ ρ' e :=
  fun x hx => hf x (mem_freeNames_node.mpr (Or.inl ⟨e, he, hx⟩))

/-- Below a pattern that moves into the scope, renaming goes on following the names. -/
theorem Follows.body {s : Scope} {r : Renaming} {ρ ρ' : Reading} {h : κ} {ts : List (Term κ)}
    {ss : List (Scoped (Term κ))} (hf : Follows s r ρ ρ' (.node h ts ss))
    {sc : Scoped (Term κ)} (hsc : sc ∈ ss) (hp : sc.binder.binders.Nodup)
    (hroom : sc.binder.HasRoom Scope.refresh s) {inner : Renaming}
    (hinner : r.cross (sc.binder.refresh s) = .ok inner) :
    Follows (sc.binder.refresh s).scope inner (ρ.enter sc.binder.binders)
      (ρ'.enter (Pattern.replacements Scope.refresh s sc.binder.binders)) sc.body := by
  obtain ⟨q, hq, hmap, hout⟩ := r.exists_cross Scope.refresh s hp
  have hqi : q = inner := Except.ok.inj (hq.symm.trans hinner)
  subst hqi
  have hnd := Pattern.nodup_replacements Scope.refresh_keepsOrDraws hroom
  have hnew := Pattern.replacements_not_mem Scope.refresh_keepsOrDraws hroom
  unfold Pattern.refresh
  intro x hx
  rw [Pattern.moveInto_scope, Scope.mem_extendAll]
  by_cases hxp : x ∈ sc.binder.binders
  · rw [← hmap] at hnd ⊢
    exact ⟨Or.inr (List.mem_map_of_mem hxp), Reading.enter_map_of_mem hnd hxp ρ ρ'⟩
  · obtain ⟨hmem, hreads⟩ := hf x (mem_freeNames_node.mpr (Or.inr ⟨sc, hsc, hx, hxp⟩))
    rw [hout x hxp]
    refine ⟨Or.inl hmem, ?_⟩
    rw [Reading.enter_of_not_mem hxp, Reading.enter_of_not_mem (fun hc => hnew _ hc hmem), hreads]

/-- A term has the same nameless form in both readings where nothing moves. -/
theorem Follows.identity {s : Scope} {ρ ρ' : Reading} {e : Term κ}
    (hf : Follows s .identity ρ ρ' e) : e.namelessIn ρ' = e.namelessIn ρ :=
  namelessIn_congr e fun x hx => (hf x hx).2

/-- Renaming keeps the nameless form. -/
theorem namelessIn_rename (e : Term κ) {e' : Term κ} {s : Scope} {r : Renaming} {ρ ρ' : Reading}
    (h : rename s r e = .ok e') (hsets : e.SetFree) (hdistinct : e.DistinctBinders)
    (hroom : RenameHasRoom s r e) (hf : Follows s r ρ ρ' e) :
    e'.namelessIn ρ' = e.namelessIn ρ := by
  induction e generalizing e' s r ρ ρ' with
  | var x =>
    cases h
    rw [namelessIn, namelessIn, (hf x (mem_freeNames_var.mpr rfl)).2]
  | node hd ts ss ihts ihss =>
    rcases rename_node_eq_ok.mp h with ⟨rfl, rfl⟩ | ⟨hr, ts', ss', rfl, hts', hss'⟩
    · exact hf.identity
    · obtain ⟨hsets_ts, hsets_ss⟩ := allPatterns_node.mp hsets
      obtain ⟨hdist_ts, hdist_ss⟩ := allPatterns_node.mp hdistinct
      rcases hroom with _ | _ | ⟨hroom_ts, hroom_bs, hroom_ss⟩
      · exact absurd rfl hr
      rw [namelessIn_node_inj]
      refine ⟨rfl, map_eq_map_of_forall₂ hts' ?_, map_eq_map_of_forall₂ hss' ?_⟩
      · intro t ht t' htt'
        exact ihts t ht htt' (hsets_ts t ht) (hdist_ts t ht) (hroom_ts t ht) (hf.term ht)
      · rintro sc hsc ⟨p', b'⟩ ⟨rfl, inner, hinner, hb'⟩
        obtain ⟨hsets_p, hsets_b⟩ := hsets_ss sc hsc
        obtain ⟨hdist_p, hdist_b⟩ := hdist_ss sc hsc
        have hf' := hf.body hsc hdist_p (hroom_bs sc hsc) hinner
        have hbody := ihss sc hsc hb' hsets_b hdist_b (hroom_ss sc hsc inner hinner) hf'
        unfold namelessScoped Pattern.refresh
        rw [Pattern.moveInto_shape _ s hsets_p, Pattern.moveInto_binders _ s hsets_p, hbody]

/-! ### Well-formed terms -/

/-- A term for which renaming is exact: its free names are in the scope, and its patterns have no
sets and repeat no binder. Binders may hide names of the scope and of each other. -/
structure WellFormed (s : Scope) (e : Term κ) : Prop where
  inScope : ∀ x ∈ e.freeNames, x ∈ s
  setFree : e.SetFree
  distinct : e.DistinctBinders

/-- A scoped term with such a pattern, and such a body inside the pattern. -/
structure WellFormedScoped (s : Scope) (sc : Scoped (Term κ)) : Prop where
  setFree : sc.binder.setFree = true
  nodup : sc.binder.binders.Nodup
  body : sc.body.WellFormed (s.extendAll sc.binder.binders)

/-- A node is well formed if its children are. -/
theorem wellFormed_node {s : Scope} {h : κ} {ts : List (Term κ)} {ss : List (Scoped (Term κ))} :
    (node h ts ss).WellFormed s ↔
      (∀ e ∈ ts, e.WellFormed s) ∧ ∀ sc ∈ ss, WellFormedScoped s sc := by
  constructor
  · rintro ⟨hscope, hsets, hdistinct⟩
    obtain ⟨hsets_ts, hsets_ss⟩ := allPatterns_node.mp hsets
    obtain ⟨hdist_ts, hdist_ss⟩ := allPatterns_node.mp hdistinct
    refine ⟨fun e he => ⟨?_, hsets_ts e he, hdist_ts e he⟩, fun sc hsc =>
      ⟨(hsets_ss sc hsc).1, (hdist_ss sc hsc).1, ?_, (hsets_ss sc hsc).2, (hdist_ss sc hsc).2⟩⟩
    · intro x hx
      exact hscope x (mem_freeNames_node.mpr (Or.inl ⟨e, he, hx⟩))
    · intro x hx
      rw [Scope.mem_extendAll]
      by_cases hxp : x ∈ sc.binder.binders
      · exact Or.inr hxp
      · exact Or.inl (hscope x (mem_freeNames_node.mpr (Or.inr ⟨sc, hsc, hx, hxp⟩)))
  · rintro ⟨hts, hss⟩
    refine ⟨?_, allPatterns_node.mpr ⟨fun e he => (hts e he).setFree, fun sc hsc => ?_⟩,
      allPatterns_node.mpr ⟨fun e he => (hts e he).distinct, fun sc hsc => ?_⟩⟩
    · intro x hx
      rcases mem_freeNames_node.mp hx with ⟨e, he, hx⟩ | ⟨sc, hsc, hx, hxp⟩
      · exact (hts e he).inScope x hx
      · have hmem := (hss sc hsc).body.inScope x hx
        exact (Scope.mem_extendAll.mp hmem).resolve_right hxp
    · exact ⟨(hss sc hsc).setFree, (hss sc hsc).body.setFree⟩
    · exact ⟨(hss sc hsc).nodup, (hss sc hsc).body.distinct⟩

/-- A renamed term is well formed in the scope it was renamed for. -/
theorem wellFormed_rename (e : Term κ) {e' : Term κ} {s : Scope} {r : Renaming} {ρ ρ' : Reading}
    (h : rename s r e = .ok e') (hsets : e.SetFree) (hdistinct : e.DistinctBinders)
    (hroom : RenameHasRoom s r e) (hf : Follows s r ρ ρ' e) : e'.WellFormed s := by
  induction e generalizing e' s r ρ ρ' with
  | var x =>
    cases h
    refine ⟨?_, .var _, .var _⟩
    intro y hy
    rw [mem_freeNames_var.mp hy]
    exact (hf x (mem_freeNames_var.mpr rfl)).1
  | node hd ts ss ihts ihss =>
    rcases rename_node_eq_ok.mp h with ⟨rfl, rfl⟩ | ⟨hr, ts', ss', rfl, hts', hss'⟩
    · exact ⟨fun x hx => (hf x hx).1, hsets, hdistinct⟩
    · obtain ⟨hsets_ts, hsets_ss⟩ := allPatterns_node.mp hsets
      obtain ⟨hdist_ts, hdist_ss⟩ := allPatterns_node.mp hdistinct
      rcases hroom with _ | _ | ⟨hroom_ts, hroom_bs, hroom_ss⟩
      · exact absurd rfl hr
      refine wellFormed_node.mpr ⟨?_, ?_⟩
      · intro t' ht'
        obtain ⟨t, ht, htt'⟩ := exists_of_mem_of_forall₂ hts' ht'
        exact ihts t ht htt' (hsets_ts t ht) (hdist_ts t ht) (hroom_ts t ht) (hf.term ht)
      · rintro ⟨p', b'⟩ hsc'
        obtain ⟨sc, hsc, rfl, inner, hinner, hb'⟩ := exists_of_mem_of_forall₂ hss' hsc'
        obtain ⟨hsets_p, hsets_b⟩ := hsets_ss sc hsc
        obtain ⟨hdist_p, hdist_b⟩ := hdist_ss sc hsc
        have hf' := hf.body hsc hdist_p (hroom_bs sc hsc) hinner
        have hbody := ihss sc hsc hb' hsets_b hdist_b (hroom_ss sc hsc inner hinner) hf'
        refine ⟨Pattern.moveInto_setFree _ s hsets_p, ?_, ?_⟩
        · show (sc.binder.moveInto Scope.refresh s).pattern.binders.Nodup
          rw [Pattern.moveInto_binders _ s hsets_p]
          exact Pattern.nodup_replacements Scope.refresh_keepsOrDraws (hroom_bs sc hsc)
        · show b'.WellFormed (s.extendAll (sc.binder.moveInto Scope.refresh s).pattern.binders)
          rw [Pattern.moveInto_binders _ s hsets_p, ← Pattern.moveInto_scope]
          exact hbody

/-- Renaming a well-formed term along two readings: it succeeds, and the result is well formed in
the new scope and has the same nameless form. -/
theorem WellFormed.exists_rename {e : Term κ} {s s' : Scope} (he : e.WellFormed s') {r : Renaming}
    {ρ ρ' : Reading} (hroom : RenameHasRoom s r e) (hf : Follows s r ρ ρ' e) :
    ∃ e', rename s r e = .ok e' ∧ e'.WellFormed s ∧ e'.namelessIn ρ' = e.namelessIn ρ := by
  obtain ⟨e', he'⟩ := Term.exists_rename e he.distinct s r
  exact ⟨e', he', wellFormed_rename e he' he.setFree he.distinct hroom hf,
    namelessIn_rename e he' he.setFree he.distinct hroom hf⟩

end Term

end NameBinding
