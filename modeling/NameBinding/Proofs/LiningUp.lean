import NameBinding.Proofs.Merging
import NameBinding.Proofs.Moving
import NameBinding.Unification

/-!
# How two patterns line up

Lining up two patterns does two things pair by pair: it chooses a common target, and it merges the
renamings of the pair onto that target into those of the pairs before. The two are independent
(`Unifier.alignPairs_eq`), and are looked at one after the other.

* Targets: `Unifier.Ready` is what holds before each pair of the loop. It is kept by every choice
  (`Ready.next`), and gives that the targets are distinct and that one of them is a name of the
  scope only where both sides bind it (`Ready.nodup_chooseTargets`, `Ready.eq_of_mem_scope`).
* Renamings: merging never fails on distinct binders and sends each binder to its target
  (`Unifier.exists_mergeAligned`). The kind says exactly which side has to be renamed
  (`Unifier.Exact`).

Both together say how two patterns of one shape line up (`Pattern.exists_linesUp`), and
`Pattern.unify_aligns` is the whole of it.
-/

namespace NameBinding

namespace Unifier

/-! ### Targets -/

/-- The targets that pairs of binders line up on, chosen one after the other. -/
def chooseTargets (s : Scope) : List (Name × Name) → Scope → NameSet → List Name
  | [], _, _ => []
  | (l, r) :: pairs, taken, targets =>
    match (candidates l r).find? (usable s targets l r) with
    | some c => c :: chooseTargets s pairs taken (targets.insert c)
    | none =>
      taken.fresh :: chooseTargets s pairs (taken.extend taken.fresh) (targets.insert taken.fresh)

/-- No draw wraps while targets are chosen. -/
def HasRoom (s : Scope) : List (Name × Name) → Scope → NameSet → Prop
  | [], _, _ => True
  | (l, r) :: pairs, taken, targets =>
    match (candidates l r).find? (usable s targets l r) with
    | some c => HasRoom s pairs taken (targets.insert c)
    | none =>
      taken.HasRoom ∧ HasRoom s pairs (taken.extend taken.fresh) (targets.insert taken.fresh)

instance decidableHasRoom (s : Scope) :
    (pairs : List (Name × Name)) → (taken : Scope) → (targets : NameSet) →
      Decidable (HasRoom s pairs taken targets)
  | [], _, _ => inferInstanceAs (Decidable True)
  | (l, r) :: pairs, taken, targets =>
    have := decidableHasRoom s pairs
    match hfind : (candidates l r).find? (usable s targets l r) with
    | some c => decidable_of_iff (HasRoom s pairs taken (targets.insert c)) (by
        simp only [HasRoom, hfind])
    | none => decidable_of_iff (taken.HasRoom ∧
        HasRoom s pairs (taken.extend taken.fresh) (targets.insert taken.fresh)) (by
        simp only [HasRoom, hfind])

/-- Pairs of binders, each with the target it lines up on, merged one after the other. -/
def mergeAligned (acc : Unifier) : List ((Name × Name) × Name) → Except Error Unifier
  | [] => .ok acc
  | ((l, r), c) :: rest => do
    let acc ← acc.merge (align l r c)
    mergeAligned acc rest

/-- Choosing a target and merging its renamings are independent of each other. -/
theorem alignPairs_eq (s : Scope) (pairs : List (Name × Name)) (taken : Scope) (targets : NameSet)
    (acc : Unifier) :
    alignPairs s pairs taken targets acc =
      mergeAligned acc (pairs.zip (chooseTargets s pairs taken targets)) := by
  induction pairs generalizing taken targets acc with
  | nil => rfl
  | cons pair pairs ih =>
    obtain ⟨l, r⟩ := pair
    rcases hfind : (candidates l r).find? (usable s targets l r) with _ | c
    · simp only [alignPairs, chooseTargets, hfind, List.zip_cons_cons, mergeAligned, ih]
    · simp only [alignPairs, chooseTargets, hfind, List.zip_cons_cons, mergeAligned, ih]

/-- One target is chosen for each pair. -/
theorem length_chooseTargets (s : Scope) (pairs : List (Name × Name)) (taken : Scope)
    (targets : NameSet) : (chooseTargets s pairs taken targets).length = pairs.length := by
  induction pairs generalizing taken targets with
  | nil => rfl
  | cons pair pairs ih =>
    unfold chooseTargets
    split <;> simp only [List.length_cons, ih]

/-- A candidate is usable if it is no target yet, and new to the scope where the two names
differ. -/
theorem usable_iff {s : Scope} {targets : NameSet} {l r c : Name} :
    usable s targets l r c = true ↔ c ∉ targets ∧ (l = r ∨ c ∉ s) := by
  unfold usable
  simp [← Scope.contains_iff]

/-- A candidate that is found is one of the two binders and may be used. -/
theorem of_find?_candidates {s : Scope} {targets : NameSet} {l r c : Name}
    (h : (candidates l r).find? (usable s targets l r) = some c) :
    (c = l ∨ c = r) ∧ c ∉ targets ∧ (l = r ∨ c ∉ s) := by
  refine ⟨?_, usable_iff.mp (List.find?_some h)⟩
  have hmem := List.mem_of_find?_eq_some h
  unfold candidates at hmem
  split at hmem
  · simpa [or_comm] using hmem
  · simpa using hmem

/-- Two equal binders line up on themselves, unless an earlier pair took them. -/
theorem find?_candidates_self {s : Scope} {targets : NameSet} {x : Name} (h : x ∉ targets) :
    (candidates x x).find? (usable s targets x x) = some x := by
  have husable : usable s targets x x x = true := usable_iff.mpr ⟨h, Or.inl rfl⟩
  unfold candidates
  split <;> simp [husable]

/-- What holds before a pair is lined up: `taken` has every name in use, no side repeats a binder,
and no earlier pair took a binder that both sides still have at the same place. -/
structure Ready (s : Scope) (pairs : List (Name × Name)) (taken : Scope) (targets : NameSet) :
    Prop where
  scope_taken : ∀ x ∈ s, x ∈ taken
  left_taken : ∀ e ∈ pairs, e.1 ∈ taken
  right_taken : ∀ e ∈ pairs, e.2 ∈ taken
  targets_taken : ∀ x ∈ targets, x ∈ taken
  left_nodup : (pairs.map Prod.fst).Nodup
  right_nodup : (pairs.map Prod.snd).Nodup
  twins_free : ∀ e ∈ pairs, e.1 = e.2 → e.1 ∉ targets

namespace Ready

variable {s taken : Scope} {targets : NameSet} {l r : Name} {pairs : List (Name × Name)}

/-- Lining up one pair keeps what is needed for the next, if all names in use are still taken and
the target is one of the two binders or was not in use. -/
theorem next (h : Ready s ((l, r) :: pairs) taken targets) {taken' : Scope} {c : Name}
    (hsub : ∀ x ∈ taken, x ∈ taken') (hc : c ∈ taken')
    (hold : c = l ∨ c = r ∨ c ∉ taken) : Ready s pairs taken' (targets.insert c) := by
  obtain ⟨hl, hls⟩ := List.nodup_cons.mp h.left_nodup
  obtain ⟨hr, hrs⟩ := List.nodup_cons.mp h.right_nodup
  refine ⟨fun x hx => hsub x (h.scope_taken x hx),
    fun e he => hsub _ (h.left_taken e (List.mem_cons_of_mem _ he)),
    fun e he => hsub _ (h.right_taken e (List.mem_cons_of_mem _ he)), ?_, hls, hrs, ?_⟩
  · intro x hx
    rcases OrderedSet.mem_insert.mp hx with rfl | hx
    · exact hc
    · exact hsub x (h.targets_taken x hx)
  · intro e he heq hmem
    rcases OrderedSet.mem_insert.mp hmem with hec | hmem
    · rcases hold with rfl | rfl | hnot
      · exact hl (List.mem_map.mpr ⟨e, he, hec⟩)
      · exact hr (List.mem_map.mpr ⟨e, he, heq ▸ hec⟩)
      · exact hnot (hec ▸ h.left_taken e (List.mem_cons_of_mem _ he))
    · exact h.twins_free e (List.mem_cons_of_mem _ he) heq hmem

/-- The next pair, when one of the two binders serves as the target. -/
theorem next_of_some (h : Ready s ((l, r) :: pairs) taken targets) {c : Name} (hc : c = l ∨ c = r) :
    Ready s pairs taken (targets.insert c) := by
  refine h.next (fun _ hx => hx) ?_ (hc.imp_right Or.inl)
  rcases hc with rfl | rfl
  · exact h.left_taken _ List.mem_cons_self
  · exact h.right_taken _ List.mem_cons_self

/-- The next pair, when the target is a fresh name. -/
theorem next_of_none (h : Ready s ((l, r) :: pairs) taken targets) (hroom : taken.HasRoom) :
    Ready s pairs (taken.extend taken.fresh) (targets.insert taken.fresh) :=
  h.next (fun _ hx => Scope.mem_extend.mpr (Or.inr hx)) (Scope.mem_extend.mpr (Or.inl rfl))
    (Or.inr (Or.inr hroom.fresh_not_mem))

/-- Targets are distinct, and new. -/
theorem nodup_chooseTargets (h : Ready s pairs taken targets)
    (hroom : HasRoom s pairs taken targets) :
    (chooseTargets s pairs taken targets).Nodup ∧
      ∀ c ∈ chooseTargets s pairs taken targets, c ∉ targets := by
  induction pairs generalizing taken targets with
  | nil => exact ⟨List.nodup_nil, by simp [chooseTargets]⟩
  | cons pair pairs ih =>
    obtain ⟨l, r⟩ := pair
    -- a later target differs from the first one, since it is not among the targets so far
    have hcons : ∀ {c : Name} {cs : List Name}, c ∉ targets →
        cs.Nodup ∧ (∀ c' ∈ cs, c' ∉ targets.insert c) →
        (c :: cs).Nodup ∧ ∀ c' ∈ c :: cs, c' ∉ targets := by
      intro c cs hc hcs
      have hout : ∀ c' ∈ cs, c' ≠ c ∧ c' ∉ targets := by
        intro c' hc'
        have := hcs.2 c' hc'
        rwa [OrderedSet.mem_insert, not_or] at this
      refine ⟨List.nodup_cons.mpr ⟨fun hmem => (hout c hmem).1 rfl, hcs.1⟩, ?_⟩
      intro c' hc'
      rcases List.mem_cons.mp hc' with rfl | hc'
      · exact hc
      · exact (hout c' hc').2
    unfold chooseTargets
    unfold HasRoom at hroom
    split
    · rename_i c hfind
      rw [hfind] at hroom
      obtain ⟨hlr, hc, -⟩ := of_find?_candidates hfind
      exact hcons hc (ih (h.next_of_some hlr) hroom)
    · rename_i hfind
      rw [hfind] at hroom
      have hc : taken.fresh ∉ targets := fun hmem =>
        hroom.1.fresh_not_mem (h.targets_taken _ hmem)
      exact hcons hc (ih (h.next_of_none hroom.1) hroom.2)

/-- A target is a name of the scope only where both sides bind it. -/
theorem eq_of_mem_scope (h : Ready s pairs taken targets) (hroom : HasRoom s pairs taken targets) :
    ∀ t ∈ pairs.zip (chooseTargets s pairs taken targets), t.2 ∈ s →
      t.1.1 = t.2 ∧ t.1.2 = t.2 := by
  induction pairs generalizing taken targets with
  | nil => simp
  | cons pair pairs ih =>
    obtain ⟨l, r⟩ := pair
    unfold chooseTargets
    unfold HasRoom at hroom
    split
    · rename_i c hfind
      rw [hfind] at hroom
      obtain ⟨hlr, -, hout⟩ := of_find?_candidates hfind
      intro t ht hts
      rcases List.mem_cons.mp ht with rfl | ht
      · have heq : l = r := hout.resolve_right fun hnot => hnot hts
        rcases hlr with rfl | rfl
        · exact ⟨rfl, heq.symm⟩
        · exact ⟨heq, rfl⟩
      · exact ih (h.next_of_some hlr) hroom t ht hts
    · rename_i hfind
      rw [hfind] at hroom
      intro t ht hts
      rcases List.mem_cons.mp ht with rfl | ht
      · exact absurd (h.scope_taken _ hts) hroom.1.fresh_not_mem
      · exact ih (h.next_of_none hroom.1) hroom.2 t ht hts

/-- Equal lists of binders line up on themselves. -/
theorem chooseTargets_self {xs : List Name} (h : Ready s (xs.zip xs) taken targets) :
    chooseTargets s (xs.zip xs) taken targets = xs := by
  induction xs generalizing targets with
  | nil => rfl
  | cons x xs ih =>
    have hx : x ∉ targets := h.twins_free (x, x) List.mem_cons_self rfl
    rw [List.zip_cons_cons] at h ⊢
    unfold chooseTargets
    rw [find?_candidates_self hx]
    simp only
    rw [ih (h.next_of_some (Or.inl rfl))]

end Ready

/-! ### Renamings and kinds -/

/-- The kind for two renamings of which it is known whether they move any name. -/
def Kind.ofMoves : Bool → Bool → Kind
  | false, false => identical
  | false, true => renameRight
  | true, false => renameLeft
  | true, true => renameBoth

/-- Merged kinds rename a side if one of the two does. -/
theorem Kind.merge_ofMoves (a b c d : Bool) :
    (ofMoves a b).merge (ofMoves c d) = ofMoves (a || c) (b || d) := by
  cases a <;> cases b <;> cases c <;> cases d <;> rfl

/-- Knowing which side moves excludes failure. -/
theorem Kind.ofMoves_ne_notUnifiable (a b : Bool) : ofMoves a b ≠ notUnifiable := by
  cases a <;> cases b <;> simp [ofMoves]

/-- The kind says exactly which side is renamed. -/
def Exact (u : Unifier) : Prop :=
  u.kind = .ofMoves (!u.left.isIdentity) (!u.right.isIdentity)

/-- A kind that says which side is renamed is not that of a failure. -/
theorem Exact.kind_ne_notUnifiable {u : Unifier} (h : u.Exact) : u.kind ≠ .notUnifiable :=
  h ▸ Kind.ofMoves_ne_notUnifiable _ _

/-- Such a kind can be read off the two renamings, and they off the kind. -/
theorem Exact.kind_iff {u : Unifier} (h : u.Exact) :
    (u.kind = .identical ↔ u.left = .identity ∧ u.right = .identity) ∧
      (u.kind = .renameRight ↔ u.left = .identity ∧ u.right ≠ .identity) ∧
      (u.kind = .renameLeft ↔ u.left ≠ .identity ∧ u.right = .identity) ∧
      (u.kind = .renameBoth ↔ u.left ≠ .identity ∧ u.right ≠ .identity) := by
  simp only [ne_eq, ← Renaming.isIdentity_iff]
  rw [show u.kind = _ from h]
  cases u.left.isIdentity <;> cases u.right.isIdentity <;> simp [Kind.ofMoves]

/-- Nothing is lined up by renaming neither side. -/
theorem unit_exact : unit.Exact := rfl

/-- The kind of a pair says which of its names moves to the target. -/
theorem align_exact (l r c : Name) : (align l r c).Exact := by
  have hsingle : ∀ x y : Name, (Renaming.single x y).isIdentity = decide (x = y) := by
    intro x y
    by_cases hxy : x = y
    · subst hxy
      simp [Renaming.isIdentity_iff_target?, Renaming.target?_single]
    · have hne : ¬ (Renaming.single x y).isIdentity = true := by
        rw [Renaming.isIdentity_iff_target?]
        intro h
        have hx := h x
        simp [Renaming.target?_single, hxy] at hx
      simp [hxy, hne]
  unfold Exact align
  simp only [hsingle]
  by_cases hl : l = c <;> by_cases hr : r = c <;> simp [hl, hr, Kind.ofMoves]

/-- Merging keeps kinds exact, and puts renamings and binders together. -/
theorem merge_of_exact {a b : Unifier} (ha : a.Exact) (hb : b.Exact) {left right : Renaming}
    (hleft : a.left.merge b.left = .ok left) (hright : a.right.merge b.right = .ok right) :
    ∃ u, a.merge b = .ok u ∧ u.Exact ∧ u.left = left ∧ u.right = right ∧
      u.binders = a.binders.union b.binders := by
  have hkind : a.kind.merge b.kind =
      .ofMoves (!left.isIdentity) (!right.isIdentity) := by
    rw [ha, hb, Kind.merge_ofMoves, Renaming.isIdentity_of_merge hleft,
      Renaming.isIdentity_of_merge hright, Bool.not_and, Bool.not_and]
  refine ⟨⟨a.kind.merge b.kind, a.binders.union b.binders, left, right⟩, ?_, hkind, rfl, rfl, rfl⟩
  unfold merge
  rw [if_neg (hkind ▸ Kind.ofMoves_ne_notUnifiable _ _), hleft, hright]
  rfl

/-- Aligned pairs are merged by merging the renamings of either side. -/
theorem mergeAligned_spec {left right : Renaming} :
    (ts : List ((Name × Name) × Name)) → (acc : Unifier) → acc.Exact →
      acc.left.mergeSingles (ts.map (Prod.map Prod.fst id)) = .ok left →
      acc.right.mergeSingles (ts.map (Prod.map Prod.snd id)) = .ok right →
      ∃ u, mergeAligned acc ts = .ok u ∧ u.Exact ∧ u.left = left ∧ u.right = right ∧
        ∀ z, z ∈ u.binders ↔ z ∈ acc.binders ∨ z ∈ ts.map Prod.snd
  | [], acc, hacc, hleft, hright => by
      cases hleft
      cases hright
      exact ⟨acc, rfl, hacc, rfl, rfl, by simp⟩
  | ((l, r), c) :: ts, acc, hacc, hleft, hright => by
      obtain ⟨left₁, hleft₁, hleft⟩ := Error.bind_eq_ok.mp hleft
      obtain ⟨right₁, hright₁, hright⟩ := Error.bind_eq_ok.mp hright
      obtain ⟨acc₁, hmerge, hexact, hl, hr, hbinders⟩ :=
        merge_of_exact hacc (align_exact l r c) hleft₁ hright₁
      subst hl hr
      obtain ⟨u, hu, huexact, hul, hur, hubinders⟩ :=
        mergeAligned_spec ts acc₁ hexact hleft hright
      refine ⟨u, ?_, huexact, hul, hur, ?_⟩
      · unfold mergeAligned
        rw [hmerge]
        exact hu
      · intro z
        have hc : z ∈ (align l r c).binders ↔ z = c := OrderedSet.mem_singleton
        rw [hubinders, hbinders, OrderedSet.mem_union, hc, List.map_cons, List.mem_cons, or_assoc]

/-- The renaming of one side: its binders go to the targets and all else stays. -/
theorem exists_side {bs cs : List Name} (hbs : bs.Nodup) (hlen : bs.length = cs.length) :
    ∃ q, Renaming.identity.mergeSingles (bs.zip cs) = .ok q ∧ bs.map q.apply = cs ∧
      ∀ x, x ∉ bs → q.apply x = x := by
  have hfst : (bs.zip cs).map Prod.fst = bs := List.map_fst_zip (by omega)
  obtain ⟨q, hq, happly, hout⟩ := Renaming.exists_mergeSingles (bs.zip cs) (by rwa [hfst])
    .identity (fun _ _ => rfl)
  refine ⟨q, hq, map_eq_of_forall_mem_zip hlen happly, ?_⟩
  intro x hx
  rw [Renaming.apply_of_target?_eq (hout x (by rwa [hfst]))]
  rfl

/-- Distinct binders aligned on targets: both sides are sent to the targets, position by
position. -/
theorem exists_mergeAligned {ls rs cs : List Name} (hls : ls.Nodup) (hrs : rs.Nodup)
    (hlcs : ls.length = cs.length) (hrcs : rs.length = cs.length) :
    ∃ u, mergeAligned .unit ((ls.zip rs).zip cs) = .ok u ∧ u.Exact ∧
      (ls.map u.left.apply = cs ∧ ∀ x, x ∉ ls → u.left.apply x = x) ∧
      (rs.map u.right.apply = cs ∧ ∀ x, x ∉ rs → u.right.apply x = x) ∧
      ∀ x, x ∈ u.binders ↔ x ∈ cs := by
  obtain ⟨left, hleft, hleftSpec⟩ := exists_side hls hlcs
  obtain ⟨right, hright, hrightSpec⟩ := exists_side hrs hrcs
  have hleftEntries : ((ls.zip rs).zip cs).map (Prod.map Prod.fst id) = ls.zip cs := by
    rw [← List.zip_map_left, List.map_fst_zip (by omega)]
  have hrightEntries : ((ls.zip rs).zip cs).map (Prod.map Prod.snd id) = rs.zip cs := by
    rw [← List.zip_map_left, List.map_snd_zip (by omega)]
  obtain ⟨u, hu, hexact, rfl, rfl, hbinders⟩ := mergeAligned_spec ((ls.zip rs).zip cs) .unit
    unit_exact (hleftEntries ▸ hleft) (hrightEntries ▸ hright)
  refine ⟨u, hu, hexact, hleftSpec, hrightSpec, ?_⟩
  intro x
  rw [hbinders, List.map_snd_zip (by simp; omega)]
  simp [unit]

end Unifier

/-! ### Two patterns -/

namespace Pattern

/-- The targets that two patterns line up on. -/
def targets (s : Scope) (l r : Pattern) : List Name :=
  Unifier.chooseTargets s (l.binders.zip r.binders)
    ((s.extendAll l.binders).extendAll r.binders) ∅

/-- No draw wraps while two patterns are lined up. Patterns of different shapes are given up before
any name is drawn. -/
def UnifyHasRoom (s : Scope) (l r : Pattern) : Prop :=
  l.shape = r.shape →
    Unifier.HasRoom s (l.binders.zip r.binders)
      ((s.extendAll l.binders).extendAll r.binders) ∅

instance (s : Scope) (l r : Pattern) : Decidable (l.UnifyHasRoom s r) :=
  inferInstanceAs (Decidable (_ → _))

/-- Patterns of one shape are lined up pair by pair with the targets. -/
theorem unify_eq_of_shape {s : Scope} {l r : Pattern} (h : l.shape = r.shape) :
    l.unify s r =
      Unifier.mergeAligned .unit ((l.binders.zip r.binders).zip (l.targets s r)) := by
  unfold unify targets
  rw [if_pos (sameShape_iff.mpr h), Unifier.alignPairs_eq]

/-- Patterns of different shapes do not line up. -/
theorem unify_eq_of_shape_ne {s : Scope} {l r : Pattern} (h : l.shape ≠ r.shape) :
    l.unify s r = .ok .failure := by
  unfold unify
  rw [if_neg fun hsame => h (sameShape_iff.mp hsame)]

section targets

variable {s : Scope} {l r : Pattern}

/-- One target is chosen for each binder. -/
theorem length_targets (h : l.shape = r.shape) : (l.targets s r).length = l.binders.length := by
  have hlen := length_binders_of_shape h
  unfold targets
  rw [Unifier.length_chooseTargets, List.length_zip]
  omega

/-- Before the first pair everything is ready. -/
theorem unify_ready (hl : l.binders.Nodup) (hr : r.binders.Nodup) (h : l.shape = r.shape) :
    Unifier.Ready s (l.binders.zip r.binders) ((s.extendAll l.binders).extendAll r.binders) ∅ := by
  have hlen := length_binders_of_shape h
  refine ⟨?_, ?_, ?_, by simp, ?_, ?_, by simp⟩
  · intro x hx
    simp [hx]
  · intro e he
    simp [(List.of_mem_zip he).1]
  · intro e he
    simp [(List.of_mem_zip he).2]
  · rwa [List.map_fst_zip (by omega)]
  · rwa [List.map_snd_zip (by omega)]

/-- Binders that are the same on both sides are their own targets. -/
theorem targets_self (hl : l.binders.Nodup) (hr : r.binders.Nodup) (h : l.shape = r.shape)
    (heq : l.binders = r.binders) : l.targets s r = l.binders := by
  have hready := unify_ready (s := s) hl hr h
  unfold targets
  rw [← heq] at hready ⊢
  exact hready.chooseTargets_self

/-- A target is a name of the scope only where both patterns bind it. -/
theorem getElem?_of_targets_mem_scope (hl : l.binders.Nodup) (hr : r.binders.Nodup)
    (h : l.shape = r.shape) (hroom : l.UnifyHasRoom s r) {i : Nat} {c : Name}
    (hc : (l.targets s r)[i]? = some c) (hcs : c ∈ s) :
    l.binders[i]? = some c ∧ r.binders[i]? = some c := by
  have hlen := length_binders_of_shape h
  have hi : i < l.binders.length := length_targets (s := s) h ▸
    (List.getElem?_eq_some_iff.mp hc).1
  have hl' := List.getElem?_eq_getElem hi
  have hr' := List.getElem?_eq_getElem (hlen ▸ hi)
  have hmem : ((l.binders[i], r.binders[i]), c) ∈
      (l.binders.zip r.binders).zip (l.targets s r) := by
    apply List.mem_of_getElem? (i := i)
    rw [List.getElem?_zip_eq_some, List.getElem?_zip_eq_some]
    exact ⟨⟨hl', hr'⟩, hc⟩
  obtain ⟨hlc, hrc⟩ := (unify_ready hl hr h).eq_of_mem_scope (hroom h) _ hmem hcs
  exact ⟨hl'.trans (congrArg some hlc), hr'.trans (congrArg some hrc)⟩

end targets

/-- Two patterns lined up on the targets `cs`: each side sends its binders to the targets, position
by position, and fixes all else; no target captures a name of the scope. -/
structure LinesUp (s : Scope) (l r : Pattern) (u : Unifier) (cs : List Name) : Prop where
  nodup : cs.Nodup
  left : l.binders.map u.left.apply = cs
  right : r.binders.map u.right.apply = cs
  left_fixes : ∀ x, x ∉ l.binders → u.left.apply x = x
  right_fixes : ∀ x, x ∉ r.binders → u.right.apply x = x
  binders : ∀ x, x ∈ u.binders ↔ x ∈ cs
  outside : ∀ (i : Nat) (c : Name), cs[i]? = some c → c ∈ s →
    l.binders[i]? = some c ∧ r.binders[i]? = some c
  exact : u.Exact
  twins : l.binders = r.binders → cs = l.binders

/-- Patterns of one shape whose binders are distinct line up. -/
theorem exists_linesUp {s : Scope} {l r : Pattern} (hl : l.binders.Nodup) (hr : r.binders.Nodup)
    (h : l.shape = r.shape) (hroom : l.UnifyHasRoom s r) :
    ∃ u, l.unify s r = .ok u ∧ LinesUp s l r u (l.targets s r) := by
  have hlcs := length_targets (s := s) h
  have hlen := length_binders_of_shape h
  obtain ⟨u, hu, hexact, ⟨hleft, hleftOut⟩, ⟨hright, hrightOut⟩, hbinders⟩ :=
    Unifier.exists_mergeAligned hl hr hlcs.symm (hlen.symm.trans hlcs.symm)
  refine ⟨u, (unify_eq_of_shape h).trans hu, ?_⟩
  exact {
    nodup := ((unify_ready hl hr h).nodup_chooseTargets (hroom h)).1
    left := hleft
    right := hright
    left_fixes := hleftOut
    right_fixes := hrightOut
    binders := hbinders
    outside := fun _ _ => getElem?_of_targets_mem_scope hl hr h hroom
    exact := hexact
    twins := targets_self hl hr h }

/-- **Lining up never captures.** Two patterns with distinct binders line up exactly when they have
one shape. Then there are distinct targets, one for each position, to which either side sends its
binders and nothing else; a target is a name of the scope only where both sides bind it already; and
the kind says exactly which sides have to be renamed. -/
theorem unify_aligns (s : Scope) (l r : Pattern) (hl : l.binders.Nodup) (hr : r.binders.Nodup)
    (hroom : l.UnifyHasRoom s r) :
    ∃ u, l.unify s r = .ok u ∧
      (u.kind = .notUnifiable ↔ l.shape ≠ r.shape) ∧
      (l.shape = r.shape →
        (∃ cs : List Name, cs.Nodup ∧
          l.binders.map u.left.apply = cs ∧ r.binders.map u.right.apply = cs ∧
          (∀ x, x ∉ l.binders → u.left.apply x = x) ∧
          (∀ x, x ∉ r.binders → u.right.apply x = x) ∧
          (∀ x, x ∈ u.binders ↔ x ∈ cs) ∧
          ∀ (i : Nat) (c : Name), cs[i]? = some c → c ∈ s →
            l.binders[i]? = some c ∧ r.binders[i]? = some c) ∧
        (u.kind = .identical ↔ u.left = .identity ∧ u.right = .identity) ∧
        (u.left = .identity ∧ u.right = .identity ↔ l.binders = r.binders) ∧
        (u.kind = .renameRight ↔ u.left = .identity ∧ u.right ≠ .identity) ∧
        (u.kind = .renameLeft ↔ u.left ≠ .identity ∧ u.right = .identity) ∧
        (u.kind = .renameBoth ↔ u.left ≠ .identity ∧ u.right ≠ .identity)) := by
  by_cases h : l.shape = r.shape
  · obtain ⟨u, hu, hlines⟩ := exists_linesUp hl hr h hroom
    obtain ⟨hidentical, hright, hleft, hboth⟩ := hlines.exact.kind_iff
    refine ⟨u, hu, ?_, fun _ => ⟨?_, hidentical, ?_, hright, hleft, hboth⟩⟩
    · simp [h, hlines.exact.kind_ne_notUnifiable]
    · exact ⟨l.targets s r, hlines.nodup, hlines.left, hlines.right, hlines.left_fixes,
        hlines.right_fixes, hlines.binders, hlines.outside⟩
    · rw [Renaming.eq_identity_iff hlines.left hlines.left_fixes,
        Renaming.eq_identity_iff hlines.right hlines.right_fixes]
      constructor
      · exact fun hcs => hcs.1.symm.trans hcs.2
      · exact fun heq => ⟨hlines.twins heq, (hlines.twins heq).trans heq⟩
  · refine ⟨.failure, unify_eq_of_shape_ne h, ?_, fun hshape => absurd hshape h⟩
    simp [h, Unifier.failure]

/-- Two lists with the same two names the other way round, inside a scope that has one of them. -/
theorem unify_aligns_swapped_lists :
    ∃ u, (list [0, 1]).unify (Scope.empty.extend 0) (list [1, 0]) = .ok u ∧
      u.kind = .renameBoth ∧ ∃ c d : Name, c ≠ d ∧ c ≠ 0 ∧ d ≠ 0 ∧
        u.left.apply 0 = c ∧ u.left.apply 1 = d ∧ u.right.apply 1 = c ∧ u.right.apply 0 = d := by
  obtain ⟨u, hu, -, hshape⟩ := unify_aligns (Scope.empty.extend 0) (list [0, 1]) (list [1, 0])
    (by decide) (by decide) (by decide)
  obtain ⟨⟨cs, hnd, rfl, hright, -, -, -, hout⟩, -, -, -, -, hboth⟩ := hshape rfl
  have hc : u.left.apply 0 ≠ 0 := by
    intro h0
    have := hout 0 0 (by simp [binders, h0]) (by decide)
    simp [binders] at this
  have hd : u.left.apply 1 ≠ 0 := by
    intro h0
    have := hout 1 0 (by simp [binders, h0]) (by decide)
    simp [binders] at this
  have hcd : u.left.apply 0 ≠ u.left.apply 1 := by simpa [binders] using hnd
  obtain ⟨hr1, hr0⟩ : u.right.apply 1 = u.left.apply 0 ∧ u.right.apply 0 = u.left.apply 1 := by
    simpa [binders] using hright
  refine ⟨u, hu, hboth.mpr ⟨?_, ?_⟩, _, _, hcd, hc, hd, rfl, rfl, hr1, hr0⟩
  · intro hid
    rw [hid] at hc
    exact hc rfl
  · intro hid
    rw [hid] at hr0
    exact hd hr0.symm

end Pattern

end NameBinding
