import Mathlib.Data.List.Zip
import NameBinding.Proofs.LiningUp
import NameBinding.Term.AlphaEquiv

/-!
# Left and right

Lining up two patterns, and comparing two terms up to the choice of binders, give the same answer
with the sides exchanged. Nothing is assumed of the input: patterns may repeat binders and have
sets, terms may be ill-scoped, and names may wrap. Symmetry comes from the algorithm alone, one
choice at a time.

* The candidates for a target and the test for using one do not depend on the sides
  (`Unifier.candidates_comm`, `Unifier.usable_comm`), and neither does a fresh name, which depends
  on the set of names in use only (`Scope.fresh_congr`). So the targets are the same
  (`Pattern.targets_comm`).
* The two sides are worked on one after the other, and a failure on either one is a failure of the
  whole. Exchanging the sides exchanges the order, so it can change which disagreement is reported,
  but not whether there is one (`Mirrors.exchange`).
-/

namespace NameBinding

/-! ### Runs that answer alike -/

/-- Two runs of which one gives the image of what the other gives, or both of which fail on two
renamings that disagree. `Mirrors id x x` says that `x` fails in no other way. -/
def Mirrors {α β : Type} (f : α → β) (x : Except Error α) (y : Except Error β) : Prop :=
  (∃ a, x = .ok a ∧ y = .ok (f a)) ∨
    ∃ m n, x = .error (.disagreement m) ∧ y = .error (.disagreement n)

namespace Mirrors

variable {α β γ δ : Type} {f : α → β} {g : γ → δ}

/-- Answers that are images of each other mirror. -/
theorem ok (f : α → β) (a : α) : Mirrors f (.ok a) (.ok (f a)) := Or.inl ⟨a, rfl, rfl⟩

/-- Any two disagreements mirror. -/
theorem disagreement (f : α → β) (m n : Name) :
    Mirrors f (.error (.disagreement m)) (.error (.disagreement n)) := Or.inr ⟨m, n, rfl, rfl⟩

/-- What comes after two runs that mirror each other. -/
theorem bind {x : Except Error α} {y : Except Error β} {k : α → Except Error γ}
    {k' : β → Except Error δ} (h : Mirrors f x y)
    (hk : ∀ a, x = .ok a → Mirrors g (k a) (k' (f a))) : Mirrors g (x >>= k) (y >>= k') := by
  rcases h with ⟨a, rfl, rfl⟩ | ⟨m, n, rfl, rfl⟩
  · exact hk a rfl
  · exact disagreement g m n

/-- Two steps that do not depend on each other may be taken in either order. -/
theorem exchange {x : Except Error α} {y : Except Error β} {k : α → β → Except Error γ}
    {k' : α → β → Except Error δ} (hx : Mirrors id x x) (hy : Mirrors id y y)
    (hk : ∀ a b, x = .ok a → y = .ok b → Mirrors g (k a b) (k' a b)) :
    Mirrors g (x >>= fun a => y >>= fun b => k a b) (y >>= fun b => x >>= fun a => k' a b) := by
  rcases hx with ⟨a, rfl, -⟩ | ⟨m, -, rfl, -⟩
  · rcases hy with ⟨b, rfl, -⟩ | ⟨n, -, rfl, -⟩
    · exact hk a b rfl rfl
    · exact disagreement g n n
  · rcases hy with ⟨b, rfl, -⟩ | ⟨n, -, rfl, -⟩
    · exact disagreement g m m
    · exact disagreement g m n

/-- Two comparisons, the second of which is made only if the first one says yes. -/
theorem and {x x' y y' : Except Error Bool} (hx : Mirrors id x x') (hy : Mirrors id y y') :
    Mirrors id (do if ← x then y else return false) (do if ← x' then y' else return false) := by
  refine hx.bind fun b _ => ?_
  cases b with
  | false => exact ok id false
  | true => exact hy

end Mirrors

/-! ### Renamings fail on disagreements only -/

namespace Renaming

/-- Merging entries fails by disagreement only. -/
theorem mergeEntries_mirrors : (es : List (Name × Name)) → (hes : ∀ e ∈ es, e.1 ≠ e.2) →
    (r : Renaming) → Mirrors id (r.mergeEntries es hes) (r.mergeEntries es hes)
  | [], _, r => .ok id r
  | (x, y) :: es, hes, r => by
      unfold mergeEntries
      split
      · split
        · exact mergeEntries_mirrors es _ r
        · exact .disagreement id x x
      · exact mergeEntries_mirrors es _ _

/-- Merging renamings fails by disagreement only. -/
theorem merge_mirrors (r q : Renaming) : Mirrors id (r.merge q) (r.merge q) :=
  mergeEntries_mirrors q.entries.toList q.moves r

/-- Merging single renamings fails by disagreement only. -/
theorem mergeSingles_mirrors (es : List (Name × Name)) (r : Renaming) :
    Mirrors id (r.mergeSingles es) (r.mergeSingles es) := by
  induction es generalizing r with
  | nil => exact .ok id r
  | cons e es ih =>
    unfold mergeSingles
    rw [List.foldlM_cons]
    exact (r.merge_mirrors (.single e.1 e.2)).bind fun q _ => ih q

end Renaming

namespace Term

variable {κ : Type}

mutual

/-- Renaming a term fails only if the replacements of a repeated binder disagree. -/
theorem rename_mirrors (s : Scope) (r : Renaming) :
    (e : Term κ) → Mirrors id (rename s r e) (rename s r e)
  | var x => .ok id (var (r.apply x))
  | node h ts ss => by
      unfold rename
      split
      · exact .ok id (node h ts ss)
      · exact (renameTerms_mirrors s r ts).bind fun ts' _ =>
          (renameScopes_mirrors s r ss).bind fun ss' _ => .ok id (node h ts' ss')

/-- Renaming plain children fails by disagreement only. -/
theorem renameTerms_mirrors (s : Scope) (r : Renaming) :
    (ts : List (Term κ)) → Mirrors id (renameTerms s r ts) (renameTerms s r ts)
  | [] => .ok id []
  | t :: ts => by
      unfold renameTerms
      exact (rename_mirrors s r t).bind fun t' _ =>
        (renameTerms_mirrors s r ts).bind fun ts' _ => .ok id (t' :: ts')

/-- Renaming scoped children fails by disagreement only. -/
theorem renameScopes_mirrors (s : Scope) (r : Renaming) :
    (ss : List (Scoped (Term κ))) → Mirrors id (renameScopes s r ss) (renameScopes s r ss)
  | [] => .ok id []
  | ⟨p, b⟩ :: ss => by
      unfold renameScopes
      exact (Renaming.mergeSingles_mirrors _ _).bind fun inner _ =>
        (rename_mirrors (p.refresh s).scope inner b).bind fun b' _ =>
          (renameScopes_mirrors s r ss).bind fun ss' _ =>
            .ok id (Scoped.mk (p.refresh s).pattern b' :: ss')

end

end Term

/-! ### Lining up with the sides exchanged -/

namespace Unifier

/-- The kind with the sides exchanged. -/
def Kind.swap : Kind → Kind
  | renameRight => renameLeft
  | renameLeft => renameRight
  | k => k

/-- Kinds can be exchanged before or after they are merged. -/
theorem Kind.swap_merge (j k : Kind) : j.swap.merge k.swap = (j.merge k).swap := by
  cases j <;> cases k <;> rfl

/-- Failure is the same from both sides. -/
theorem Kind.swap_eq_notUnifiable {k : Kind} : k.swap = notUnifiable ↔ k = notUnifiable := by
  cases k <;> simp [swap]

/-- The mirror image: the same binders, with the sides exchanged. -/
def swap (u : Unifier) : Unifier := ⟨u.kind.swap, u.binders, u.right, u.left⟩

/-- The two names of a pair can be exchanged. -/
theorem swap_align (l r c : Name) : (align l r c).swap = align r l c := by
  unfold swap align
  by_cases hl : l = c <;> by_cases hr : r = c <;> simp [hl, hr, Kind.swap]

/-- Mirror images merge into a mirror image. -/
theorem merge_mirrors (a b : Unifier) : Mirrors swap (a.merge b) (a.swap.merge b.swap) := by
  unfold merge
  rw [show a.swap.kind.merge b.swap.kind = (a.kind.merge b.kind).swap from Kind.swap_merge _ _]
  simp only [Kind.swap_eq_notUnifiable]
  split
  · exact .ok swap failure
  · exact (a.left.merge_mirrors b.left).exchange (a.right.merge_mirrors b.right)
      fun left right _ _ => .ok swap ⟨a.kind.merge b.kind, a.binders.union b.binders, left, right⟩

/-- The two sides of all pairs can be exchanged. -/
theorem mergeAligned_mirrors (ts : List ((Name × Name) × Name)) (acc : Unifier) :
    Mirrors swap (mergeAligned acc ts)
      (mergeAligned acc.swap (ts.map (Prod.map Prod.swap id))) := by
  induction ts generalizing acc with
  | nil => exact .ok swap acc
  | cons t ts ih =>
    obtain ⟨⟨l, r⟩, c⟩ := t
    have hmerge := acc.merge_mirrors (align l r c)
    rw [swap_align] at hmerge
    exact hmerge.bind fun acc' _ => ih acc'

/-- The candidates for a pair do not depend on its order. -/
theorem candidates_comm (l r : Name) : candidates r l = candidates l r := by
  unfold candidates
  by_cases hlr : l < r
  · rw [if_pos hlr, if_neg (UInt64.lt_asymm hlr)]
  · by_cases hrl : r < l
    · rw [if_neg hlr, if_pos hrl]
    · have heq : l = r := by grind
      rw [heq]

/-- Whether a candidate is usable does not depend on the order of the pair. -/
theorem usable_comm (s : Scope) (targets : NameSet) (l r : Name) :
    usable s targets r l = usable s targets l r := by
  funext c
  unfold usable
  rw [BEq.comm]

/-- The same targets are chosen with the sides exchanged, whatever the order in which the names in
use were collected. -/
theorem chooseTargets_swap {s : Scope} (pairs : List (Name × Name)) {taken taken' : Scope}
    {targets : NameSet} (h : ∀ x, x ∈ taken ↔ x ∈ taken') :
    chooseTargets s (pairs.map Prod.swap) taken' targets = chooseTargets s pairs taken targets := by
  induction pairs generalizing taken taken' targets with
  | nil => rfl
  | cons pair pairs ih =>
    obtain ⟨l, r⟩ := pair
    simp only [List.map_cons, Prod.swap_prod_mk, chooseTargets]
    rw [candidates_comm, usable_comm, ← Scope.fresh_congr h]
    split
    · rw [ih h]
    · have hextend : ∀ x, x ∈ taken.extend taken.fresh ↔ x ∈ taken'.extend taken.fresh := by
        intro x
        rw [Scope.mem_extend, Scope.mem_extend, h]
      rw [ih hextend]

end Unifier

namespace Pattern

/-- The targets do not depend on the order of the patterns. -/
theorem targets_comm (s : Scope) (l r : Pattern) : r.targets s l = l.targets s r := by
  unfold targets
  rw [← List.zip_swap l.binders r.binders]
  refine Unifier.chooseTargets_swap _ fun x => ?_
  simp only [Scope.mem_extendAll, or_assoc]
  exact or_congr_right or_comm

/-- Lining up with the sides exchanged gives the mirror image. -/
theorem unify_mirrors (s : Scope) (l r : Pattern) :
    Mirrors Unifier.swap (l.unify s r) (r.unify s l) := by
  by_cases h : l.shape = r.shape
  · rw [unify_eq_of_shape h, unify_eq_of_shape h.symm, targets_comm s l r,
      ← List.zip_swap l.binders r.binders, List.zip_map_left]
    exact Unifier.mergeAligned_mirrors _ .unit
  · rw [unify_eq_of_shape_ne h, unify_eq_of_shape_ne (Ne.symm h)]
    exact .ok Unifier.swap .failure

-- a failure that names the repeated binder of whichever side is on the left
example : (list [5, 5, 5]).unify ∅ (list [6, 6, 6]) = .error (.disagreement 5) ∧
    (list [6, 6, 6]).unify ∅ (list [5, 5, 5]) = .error (.disagreement 6) := ⟨rfl, rfl⟩

end Pattern

/-! ### Comparing with the sides exchanged -/

namespace Term

variable {κ : Type} [DecidableEq κ]

mutual

/-- Comparing two terms with the sides exchanged gives the same answer, or fails too. -/
theorem alphaEquiv_mirrors (s : Scope) (l r : Term κ) :
    Mirrors id (alphaEquiv s l r) (alphaEquiv s r l) :=
  match l, r with
  | var x, var y => by
      rw [alphaEquiv, alphaEquiv, BEq.comm]
      exact .ok id (y == x)
  | var x, node h ts ss => by
      rw [alphaEquiv, alphaEquiv]
      · exact .ok id false
      all_goals simp
  | node h ts ss, var y => by
      rw [alphaEquiv, alphaEquiv]
      · exact .ok id false
      all_goals simp
  | node h ts ss, node h' ts' ss' => by
      rw [alphaEquiv, alphaEquiv]
      by_cases heq : h = h' ∧ ts.length = ts'.length ∧ ss.length = ss'.length
      · rw [if_pos heq, if_pos ⟨heq.1.symm, heq.2.1.symm, heq.2.2.symm⟩]
        exact (alphaEquivTerms_mirrors s ts ts').and (alphaEquivScopes_mirrors s ss ss')
      · rw [if_neg heq, if_neg fun h => heq ⟨h.1.symm, h.2.1.symm, h.2.2.symm⟩]
        exact .ok id false
termination_by 3 * l.size
decreasing_by
  all_goals simp only [size]; omega

/-- Comparing plain children does not depend on the order. -/
theorem alphaEquivTerms_mirrors (s : Scope) (ls rs : List (Term κ)) :
    Mirrors id (alphaEquivTerms s ls rs) (alphaEquivTerms s rs ls) :=
  match ls, rs with
  | l :: ls, r :: rs => by
      rw [alphaEquivTerms, alphaEquivTerms]
      exact (alphaEquiv_mirrors s l r).and (alphaEquivTerms_mirrors s ls rs)
  | [], rs => by
      rw [alphaEquivTerms, alphaEquivTerms]
      · exact .ok id true
      all_goals simp
  | l :: ls, [] => by
      rw [alphaEquivTerms, alphaEquivTerms]
      · exact .ok id true
      all_goals simp
termination_by 3 * sizeTerms ls + 2
decreasing_by
  all_goals have := size_pos l; simp only [sizeTerms]; omega

/-- Comparing scoped terms does not depend on the order. -/
theorem alphaEquivScoped_mirrors (s : Scope) (l r : Scoped (Term κ)) :
    Mirrors id (alphaEquivScoped s l r) (alphaEquivScoped s r l) := by
  rw [alphaEquivScoped_eq, alphaEquivScoped_eq]
  refine (l.binder.unify_mirrors s r.binder).bind fun u _ => ?_
  -- the mirror image has the same binders, so both bodies move into the same scope
  simp only [Unifier.swap, Unifier.Kind.swap_eq_notUnifiable]
  split
  · exact .ok id false
  · exact (rename_mirrors _ u.right r.body).exchange (rename_mirrors _ u.left l.body)
      fun rb lb _ hlb => alphaEquiv_mirrors (s.extendAll u.binders.toList) lb rb
termination_by 3 * l.body.size + 1
decreasing_by
  rw [size_of_rename _ _ _ hlb]
  omega

/-- Comparing scoped children does not depend on the order. -/
theorem alphaEquivScopes_mirrors (s : Scope) (ls rs : List (Scoped (Term κ))) :
    Mirrors id (alphaEquivScopes s ls rs) (alphaEquivScopes s rs ls) :=
  match ls, rs with
  | l :: ls, r :: rs => by
      rw [alphaEquivScopes, alphaEquivScopes]
      exact (alphaEquivScoped_mirrors s l r).and (alphaEquivScopes_mirrors s ls rs)
  | [], rs => by
      rw [alphaEquivScopes, alphaEquivScopes]
      · exact .ok id true
      all_goals simp
  | l :: ls, [] => by
      rw [alphaEquivScopes, alphaEquivScopes]
      · exact .ok id true
      all_goals simp
termination_by 3 * sizeScopes ls + 2
decreasing_by
  all_goals have := size_pos l.body; simp only [sizeScopes]; omega

end

/-- **The sides can be exchanged.** Two patterns line up with the sides exchanged exactly when they
line up as they stand, and give the mirror image; two terms compare the same with the sides
exchanged. Failures are two renamings that disagree, found on a name that may differ. -/
theorem unify_alphaEquiv_exchange (s : Scope) :
    (∀ l r : Pattern,
      (∃ u, l.unify s r = .ok u ∧ r.unify s l = .ok u.swap) ∨
        ∃ x y, l.unify s r = .error (.disagreement x) ∧ r.unify s l = .error (.disagreement y)) ∧
    ∀ l r : Term κ,
      (∃ b, alphaEquiv s l r = .ok b ∧ alphaEquiv s r l = .ok b) ∨
        ∃ x y, alphaEquiv s l r = .error (.disagreement x) ∧
          alphaEquiv s r l = .error (.disagreement y) :=
  ⟨Pattern.unify_mirrors s, alphaEquiv_mirrors s⟩

end Term

end NameBinding
