import NameBinding.Proofs.HeadReduction

/-!
# Matching takes pairs apart

Matching gives the binders of a pattern chains of projections, whatever expression is matched. Where
the expression is a pair wherever the pattern takes it apart (`LambdaPi.Fits`), these chains reduce
to its components: the search for a weak head normal form answers the same for the chain of a binder
as for the component at its position (`LambdaPi.Expr.matchPattern_destructures`).

A chain is never reduced to the component itself, since each of its projections is searched for on
its own. What is carried along a chain is that both sides have the same answers
(`LambdaPi.SameAnswers`): a projection of whatever answers like a pair answers like the component of
the pair (`SameAnswers.projection`).
-/

namespace NameBinding

namespace LambdaPi

open NameBinding.LambdaPi.Expr (pair matchPattern whnfAtFuel Returns)

/-! ### Expressions that a pattern takes apart -/

/-- The expression `e` and those of a list as a right-nested pair. -/
def Expr.nested (e : Expr) : List Expr → Expr
  | [] => e
  | d :: ds => pair e (nested d ds)

/-- The expression is a pair wherever the pattern takes it apart. The list has the components at the
positions of the pattern, from left to right. -/
inductive Fits : Pattern → Expr → List Expr → Prop where
  | wildcard (e : Expr) : Fits .wildcard e []
  | single (x : Name) (e : Expr) : Fits (.single x) e [e]
  | pair {p q : Pattern} {a b : Expr} {cs ds : List Expr} (left : Fits p a cs)
      (right : Fits q b ds) : Fits (.pair p q) (pair a b) (cs ++ ds)
  /-- A list without names takes nothing apart. -/
  | empty (e : Expr) : Fits (.list []) e []
  /-- A list takes a right-nested pair apart, of which the last name gets all that is left. -/
  | list {xs : List Name} (e : Expr) {ds : List Expr} (length : xs.length = ds.length + 1) :
      Fits (.list xs) (e.nested ds) (e :: ds)

/-- A pattern that fits an expression has no sets. -/
theorem Fits.setFree {p : Pattern} {e : Expr} {cs : List Expr} (h : Fits p e cs) :
    p.setFree = true := by
  induction h with
  | pair _ _ ihl ihr => simp only [Pattern.setFree, ihl, ihr, Bool.and_self]
  | _ => rfl

/-! ### Expressions with the same answers -/

/-- The search answers the same for both expressions, or for neither. -/
def SameAnswers (s : Scope) (d e : Expr) : Prop := ∀ r, Returns s d r ↔ Returns s e r

namespace SameAnswers

variable {s : Scope}

/-- An expression has the answers that it has. -/
theorem refl (e : Expr) : SameAnswers s e e := fun _ => Iff.rfl

/-- A projection of what answers like a pair answers like the component. -/
theorem projection {d a b : Expr} (h : SameAnswers s d (pair a b)) (π : Projection) :
    SameAnswers s (π.of d) (π.pick a b) := by
  have hpair : Returns s (pair a b) (pair a b) := Expr.returns_of_rigid (Expr.rigid_pair a b) s
  intro r
  rw [Expr.returns_projection]
  constructor
  · rintro ⟨d', hd', hrest⟩
    obtain rfl : d' = pair a b := ((h d').mp hd').unique hpair
    rcases hrest with ⟨a', b', heq, hr⟩ | ⟨hnone, -⟩
    · obtain ⟨rfl, rfl⟩ := Expr.pair_inj.mp heq
      exact hr
    · cases hnone
  · intro hr
    exact ⟨pair a b, (h _).mpr hpair, Or.inl ⟨a, b, rfl, hr⟩⟩

/-- The chains for the names of a list answer like the members of a right-nested pair. -/
theorem nestedComponents {d e : Expr} {ds : List Expr} (h : SameAnswers s d (e.nested ds)) :
    List.Forall₂ (SameAnswers s) (d.nestedComponents (ds.length + 1)) (e :: ds) := by
  induction ds generalizing d e with
  | nil => exact .cons h .nil
  | cons e' ds ih => exact .cons (h.projection .first) (ih (h.projection .second))

/-- The chains for the positions of a pattern answer like the components. -/
theorem components {p : Pattern} {d e : Expr} {cs : List Expr} (h : SameAnswers s d e)
    (hfits : Fits p e cs) : List.Forall₂ (SameAnswers s) (d.components p.shape) cs := by
  induction hfits generalizing d with
  | wildcard e => exact .nil
  | single x e => exact .cons h .nil
  | pair _ _ ihl ihr =>
    exact List.rel_append (ihl (h.projection .first)) (ihr (h.projection .second))
  | empty e => exact .nil
  | list e length =>
    show List.Forall₂ (SameAnswers s) (d.nestedComponents (List.length _)) _
    rw [length]
    exact h.nestedComponents

end SameAnswers

namespace Expr

/-- **Matching takes pairs apart.** Let `e` be a pair wherever the pattern `p` takes it apart, and
let `p` have distinct binders. Then matching succeeds, and exactly the binders get a term. There are
as many components as binders, and the search answers the same for the term of a binder as for the
component at its position, or for neither. -/
theorem matchPattern_destructures (s : Scope) (p : Pattern) (e : Expr) (cs : List Expr)
    (hfits : Fits p e cs) (hdistinct : p.binders.Nodup) :
    ∃ σ, matchPattern p e = .ok σ ∧ (∀ x, σ.contains x = true ↔ x ∈ p.binders) ∧
      cs.length = p.binders.length ∧
      ∀ (i : Nat) (x : Name) (c : Expr), p.binders[i]? = some x → cs[i]? = some c →
        ∀ r, (∃ n, whnfAtFuel s n (σ.lookup x) = .ok r) ↔ ∃ n, whnfAtFuel s n c = .ok r := by
  obtain ⟨σ, hσ, -, hlookup⟩ := exists_matchPattern hfits.setFree e
  have hchains := (SameAnswers.refl (s := s) e).components hfits
  refine ⟨σ, hσ, contains_of_matchPattern hfits.setFree hσ, ?_, ?_⟩
  · rw [← hchains.length_eq, length_components e hfits.setFree]
  · intro i x c hx hc
    have hchain := hlookup x i (Name.lastPosition?_of_nodup hdistinct hx)
    have hzip : ((e.components p.shape).zip cs)[i]? = some (σ.lookup x, c) :=
      List.getElem?_zip_eq_some.mpr ⟨hchain, hc⟩
    exact (List.forall₂_iff_zip.mp hchains).2 (List.mem_of_getElem? hzip)

/-- A pair of the universe and of three expressions as a right-nested pair, the second of which is
an application. -/
def pairOfFour : Expr :=
  pair univ (nested (.var 7) [app (lam (.single 5) (.var 5)) (.var 8), univ])

/-- The name `2` gets the second of the three, in the middle of a list. It is taken by a chain of
projections, and the search goes on with the application. -/
theorem matchPattern_destructures_list :
    ∃ σ, matchPattern (.pair (.single 0) (.list [1, 2, 3])) pairOfFour = .ok σ ∧
      σ.lookup 2 = first (second (second pairOfFour)) ∧
      ∃ n, whnfAtFuel (Scope.empty.extendAll [7, 8]) n (σ.lookup 2) = .ok (.var 8) := by
  have hfits : Fits (.pair (.single 0) (.list [1, 2, 3])) pairOfFour
      [univ, .var 7, app (lam (.single 5) (.var 5)) (.var 8), univ] :=
    .pair (.single 0 univ) (.list (.var 7) rfl)
  obtain ⟨σ, hσ, -, -, hanswers⟩ := matchPattern_destructures (Scope.empty.extendAll [7, 8]) _ _ _
    hfits (by decide)
  refine ⟨σ, hσ, ?_, (hanswers 2 2 _ rfl rfl _).mpr ⟨2, rfl⟩⟩
  cases hσ
  rfl

end Expr

end LambdaPi

end NameBinding
