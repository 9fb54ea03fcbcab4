import NameBinding.LambdaPi.Whnf
import NameBinding.Proofs.CaptureFree

/-!
# What matching a pattern gives

An expression has one component for each position of a shape (`LambdaPi.Expr.components`), a chain
of projections that the shape alone determines. Matching a pattern without sets never fails, and
gives each binder the component at its last position (`LambdaPi.Expr.exists_matchPattern`), and no
other name a term (`LambdaPi.Expr.contains_of_matchPattern`). So whatever is kept by both
projections holds of all that the names of a pattern stand for
(`LambdaPi.Expr.forall_lookup_matchPattern`).
-/

namespace NameBinding

/-- Giving terms to names one after the other: those names have a term then, and those that had
one before. -/
theorem Substitution.contains_foldl_add {E : Type} (bs : List (Name × E)) (σ : Substitution E)
    (x : Name) :
    (bs.foldl (fun τ b => τ.add b.1 b.2) σ).contains x = true ↔
      x ∈ bs.map Prod.fst ∨ σ.contains x = true := by
  induction bs generalizing σ with
  | nil => simp
  | cons b bs ih =>
    rw [List.foldl_cons, ih, List.map_cons, List.mem_cons, contains, get?_add]
    by_cases hx : x = b.1
    · simp [hx]
    · simp [hx, contains]

namespace LambdaPi

/-! ### The two projections -/

/-- The two projections. -/
inductive Projection where
  | first
  | second

namespace Projection

/-- The projection of an expression. -/
def of : Projection → Expr → Expr
  | first => Expr.first
  | second => Expr.second

/-- The component of a pair that a projection takes. -/
def pick : Projection → Expr → Expr → Expr
  | first, a, _ => a
  | second, _, b => b

end Projection

namespace Expr

/-! ### Components -/

/-- The `n` components of a right-nested pair. -/
def nestedComponents (e : Expr) : Nat → List Expr
  | 0 => []
  | 1 => [e]
  | n + 2 => first e :: nestedComponents (second e) (n + 1)

/-- The components that the positions of a shape stand for, from left to right. -/
def components (e : Expr) : Shape → List Expr
  | .wildcard => []
  | .single => [e]
  | .list n => nestedComponents e n
  | .set _ => []
  | .pair l r => components (first e) l ++ components (second e) r

/-- A list of `n` positions has `n` components. -/
theorem length_nestedComponents (e : Expr) (n : Nat) : (e.nestedComponents n).length = n := by
  fun_induction nestedComponents e n with
  | case1 => rfl
  | case2 => rfl
  | case3 e n ih => rw [List.length_cons, ih]

/-- There is one component for each binder. -/
theorem length_components (e : Expr) {p : Pattern} (hp : p.setFree = true) :
    (e.components p.shape).length = p.binders.length := by
  induction p generalizing e with
  | wildcard => rfl
  | single x => rfl
  | list xs => exact length_nestedComponents e xs.length
  | set xs => cases hp
  | pair l r ihl ihr =>
    simp only [Pattern.setFree, Bool.and_eq_true] at hp
    simp only [Pattern.shape, Pattern.binders, components, List.length_append, ihl _ hp.1,
      ihr _ hp.2]

section hereditary

variable {P : Expr → Prop} (hP : ∀ (π : Projection) (e : Expr), P e → P (π.of e))
include hP

/-- What both projections keep holds of every component of a list. -/
theorem forall_nestedComponents {e : Expr} (he : P e) (n : Nat) :
    ∀ c ∈ e.nestedComponents n, P c := by
  fun_induction nestedComponents e n with
  | case1 => simp
  | case2 e => simpa using he
  | case3 e n ih =>
    rw [List.forall_mem_cons]
    exact ⟨hP .first e he, ih (hP .second e he)⟩

/-- What both projections keep holds of every component. -/
theorem forall_components {e : Expr} (he : P e) (sh : Shape) : ∀ c ∈ e.components sh, P c := by
  induction sh generalizing e with
  | wildcard => simp [components]
  | single => simpa [components] using he
  | list n => exact forall_nestedComponents hP he n
  | set n => simp [components]
  | pair l r ihl ihr =>
    intro c hc
    rcases List.mem_append.mp hc with hc | hc
    · exact ihl (hP .first e he) c hc
    · exact ihr (hP .second e he) c hc

end hereditary

/-! ### Matching gives components -/

/-- Matching a list adds each name with its component, from left to right. -/
theorem matchList_eq (e : Expr) (σ : Substitution Expr) (xs : List Name) :
    matchList e σ xs =
      (xs.zip (e.nestedComponents xs.length)).foldl (fun τ b => τ.add b.1 b.2) σ := by
  fun_induction matchList e σ xs with
  | case1 => rfl
  | case2 => rfl
  | case3 e σ x y xs ih => exact ih

/-- Matching a pattern adds each binder with its component, from left to right. -/
theorem matchInto_eq (e : Expr) (σ : Substitution Expr) {p : Pattern} (hp : p.setFree = true) :
    matchInto e σ p =
      .ok ((p.binders.zip (e.components p.shape)).foldl (fun τ b => τ.add b.1 b.2) σ) := by
  induction p generalizing e σ with
  | wildcard => rfl
  | single x => rfl
  | list xs =>
    rw [matchInto, matchList_eq]
    rfl
  | set xs => cases hp
  | pair l r ihl ihr =>
    simp only [Pattern.setFree, Bool.and_eq_true] at hp
    rw [matchInto, ihl _ _ hp.1]
    show matchInto (second e) _ r = _
    rw [ihr _ _ hp.2, Pattern.binders, Pattern.shape, components,
      List.zip_append (length_components _ hp.1).symm, List.foldl_append]

/-- Matching a pattern without sets succeeds. Each binder stands for the component at its last
position and every other name for itself. -/
theorem exists_matchPattern {p : Pattern} (hp : p.setFree = true) (e : Expr) :
    ∃ σ, matchPattern p e = .ok σ ∧ (∀ x, x ∉ p.binders → σ.lookup x = .var x) ∧
      ∀ x i, x.lastPosition? p.binders = some i →
        (e.components p.shape)[i]? = some (σ.lookup x) :=
  ⟨_, matchInto_eq e .identity hp,
    Substitution.lookup_foldl_add (length_components e hp).symm .identity⟩

/-- What names stand for after an expression was matched. -/
theorem lookup_of_matchPattern {p : Pattern} (hp : p.setFree = true) {e : Expr}
    {σ : Substitution Expr} (hσ : matchPattern p e = .ok σ) :
    (∀ x, x ∉ p.binders → σ.lookup x = .var x) ∧
      ∀ x i, x.lastPosition? p.binders = some i →
        (e.components p.shape)[i]? = some (σ.lookup x) := by
  obtain ⟨τ, hτ, hlookup⟩ := exists_matchPattern hp e
  obtain rfl : σ = τ := Except.ok.inj (hσ.symm.trans hτ)
  exact hlookup

/-- The names that have a term after an expression was matched are the binders. -/
theorem contains_of_matchPattern {p : Pattern} (hp : p.setFree = true) {e : Expr}
    {σ : Substitution Expr} (hσ : matchPattern p e = .ok σ) (x : Name) :
    σ.contains x = true ↔ x ∈ p.binders := by
  obtain rfl := Except.ok.inj ((matchInto_eq e .identity hp).symm.trans hσ)
  have hfst : (p.binders.zip (e.components p.shape)).map Prod.fst = p.binders :=
    List.map_fst_zip (Nat.le_of_eq (length_components e hp).symm)
  rw [Substitution.contains_foldl_add, hfst]
  simp [Substitution.contains]

/-- What holds of an expression, and of the names that a pattern leaves alone, and is kept by both
projections, holds of all that names stand for after the expression was matched. -/
theorem forall_lookup_matchPattern {P : Expr → Prop}
    (hP : ∀ (π : Projection) (e : Expr), P e → P (π.of e)) {p : Pattern} (hp : p.setFree = true)
    {e : Expr} (he : P e) {σ : Substitution Expr} (hσ : matchPattern p e = .ok σ) {x : Name}
    (hvar : x ∉ p.binders → P (.var x)) : P (σ.lookup x) := by
  obtain ⟨hout, hin⟩ := lookup_of_matchPattern hp hσ
  by_cases hx : x ∈ p.binders
  · obtain ⟨i, hi⟩ := Name.exists_lastPosition? hx
    exact forall_components hP he p.shape _ (List.mem_of_getElem? (hin x i hi))
  · rw [hout x hx]
    exact hvar hx

end Expr

end LambdaPi

end NameBinding
