import NameBinding.Scope
import NameBinding.Sexp.Encode

/-!
# Patterns

A pattern is a group of names that one binding site introduces together. All that is ever done with
one goes through a single walk over its binders from left to right (`Pattern.walk`), which gives
each binder the scope right before it, rebuilds the pattern out of the replacements and extends the
scope with them. A pattern is determined by its shape and its binders in that order
(`Pattern.ext`).
-/

namespace NameBinding

/-- The names that one binding site introduces. -/
inductive Pattern where
  /-- No name. -/
  | wildcard
  /-- One name. -/
  | single (x : Name)
  /-- Names in the order of the source. -/
  | list (xs : List Name)
  /-- Names without an order of their own, taken in increasing order. -/
  | set (xs : NameSet)
  /-- The names of one pattern, then those of another. -/
  | pair (l r : Pattern)
  deriving DecidableEq, Inhabited

/-- What is left of a pattern when its binders are forgotten. -/
inductive Shape where
  | wildcard
  | single
  | list (size : Nat)
  | set (size : Nat)
  | pair (l r : Shape)
  deriving DecidableEq

namespace Pattern

/-- The binders from left to right. -/
def binders : Pattern → List Name
  | wildcard => []
  | single x => [x]
  | list xs => xs
  | set xs => xs.toList
  | pair l r => l.binders ++ r.binders

/-- The pattern without its binders. -/
def shape : Pattern → Shape
  | wildcard => .wildcard
  | single _ => .single
  | list xs => .list xs.length
  | set xs => .set xs.size
  | pair l r => .pair l.shape r.shape

/-- The number of binders. -/
def size (p : Pattern) : Nat := p.binders.length

/-- The same pattern up to its binders? -/
def sameShape (p q : Pattern) : Bool := p.shape == q.shape

/-- The same shape and the same binders? -/
def same (p q : Pattern) : Bool := p.sameShape q && p.binders == q.binders

/-- The name `x` seen from outside the pattern: nothing if the pattern binds it. -/
def unsink (p : Pattern) (x : Name) : Option Name :=
  if p.binders.any (fun b => (Name.unsink b x).isNone) then none else some x

/-- Is some binder of the pattern already in the scope? -/
def clashes (p : Pattern) (s : Scope) : Bool := p.binders.any s.contains

/-- The scope inside the pattern. -/
def extendScope (p : Pattern) (s : Scope) : Scope := s.extendAll p.binders

/-- A renaming that crosses a pattern: neither is touched. -/
def extendRenaming {α : Type} (p : Pattern) (r : α) : α × Pattern := (r, p)

/-- Wildcards are `_`, single binders their digits, and the rest are lists that say what they
are. -/
def toSexp : Pattern → Sexp
  | wildcard => .atom "_"
  | single x => NameBinding.toSexp x
  | list xs => .tagged "list" (xs.map NameBinding.toSexp)
  | set xs => .tagged "set" (xs.toList.map NameBinding.toSexp)
  | pair l r => .tagged "pair" [l.toSexp, r.toSexp]

instance : ToSexp Pattern := ⟨toSexp⟩

/-! ### The walk over the binders -/

/-- What a walk leaves behind: what it rebuilt, the scope inside it, and the value it
accumulated. -/
structure Walk (α σ : Type) where
  result : α
  scope : Scope
  value : σ

variable {σ : Type}

/-- Walks over names from left to right. At each, `visit` gets the scope right before it, the name
and the value accumulated so far, and gives the replacement and the next value. -/
def walkNames (visit : Scope → Name → σ → Name × σ) (s : Scope) (v : σ) :
    List Name → Walk (List Name) σ
  | [] => ⟨[], s, v⟩
  | x :: xs =>
    let step := visit s x v
    let rest := walkNames visit (s.extend step.1) step.2 xs
    ⟨step.1 :: rest.result, rest.scope, rest.value⟩

/-- Walks over the binders of a pattern from left to right and rebuilds it out of the
replacements. -/
def walk (visit : Scope → Name → σ → Name × σ) (s : Scope) (v : σ) : Pattern → Walk Pattern σ
  | wildcard => ⟨wildcard, s, v⟩
  | single x =>
    let step := visit s x v
    ⟨single step.1, s.extend step.1, step.2⟩
  | list xs =>
    let w := walkNames visit s v xs
    ⟨list w.result, w.scope, w.value⟩
  | set xs =>
    let w := walkNames visit s v xs.toList
    ⟨set (OrderedSet.ofList w.result), w.scope, w.value⟩
  | pair l r =>
    let wl := walk visit s v l
    let wr := walk visit wl.scope wl.value r
    ⟨pair wl.result wr.result, wr.scope, wr.value⟩

/-- The walk as a fold: `onBinder` gives a value and a replacement for each binder, and the values
are combined from left to right, starting from `unit`. -/
def fold {α : Type} (onBinder : Scope → Name → α × Name) (unit : α) (combine : α → α → α)
    (s : Scope) (p : Pattern) : Walk Pattern α :=
  p.walk (fun before x acc =>
    let step := onBinder before x
    (step.2, combine acc step.1)) s unit

/-! ### Shape and binders determine a pattern -/

/-- Patterns of one shape have equally many binders. -/
theorem length_binders_of_shape {p q : Pattern} (h : p.shape = q.shape) :
    p.binders.length = q.binders.length := by
  induction p generalizing q with
  | pair l r ihl ihr =>
    cases q <;> simp only [shape, Shape.pair.injEq, reduceCtorEq] at h
    simp only [binders, List.length_append]
    rw [ihl h.1, ihr h.2]
  | wildcard => cases q <;> simp_all [shape, binders]
  | single x => cases q <;> simp_all [shape, binders]
  | list xs => cases q <;> simp_all [shape, binders]
  | set xs => cases q <;> simp_all [shape, binders, OrderedSet.size]

/-- Patterns with the same shape and the same binders are equal. -/
theorem ext {p q : Pattern} (hs : p.shape = q.shape) (hb : p.binders = q.binders) : p = q := by
  induction p generalizing q with
  | pair l r ihl ihr =>
    cases q <;> simp only [shape, Shape.pair.injEq, reduceCtorEq] at hs
    simp only [binders] at hb
    have := List.append_inj hb (length_binders_of_shape hs.1)
    rw [ihl hs.1 this.1, ihr hs.2 this.2]
  | wildcard => cases q <;> simp_all [shape]
  | single x => cases q <;> simp_all [shape, binders]
  | list xs => cases q <;> simp_all [shape, binders]
  | set xs =>
    cases q <;> simp only [shape, reduceCtorEq, Shape.set.injEq] at hs
    simp only [binders] at hb
    rw [OrderedSet.toList_inj.mp hb]

/-- Comparing shapes decides whether they are equal. -/
theorem sameShape_iff {p q : Pattern} : p.sameShape q = true ↔ p.shape = q.shape := beq_iff_eq

/-- Comparing the shape and the list of binders compares the patterns. -/
theorem same_iff {p q : Pattern} : p.same q = true ↔ p = q := by
  unfold same
  rw [Bool.and_eq_true, sameShape_iff, beq_iff_eq]
  constructor
  · exact fun h => ext h.1 h.2
  · rintro rfl
    exact ⟨rfl, rfl⟩

/-! ### A pattern and the names around it -/

/-- Inside a pattern there are the names around it and its binders. -/
@[simp] theorem mem_extendScope {p : Pattern} {s : Scope} {x : Name} :
    x ∈ p.extendScope s ↔ x ∈ s ∨ x ∈ p.binders := Scope.mem_extendAll

/-- A pattern clashes with a scope if one of its binders is a name of the scope. -/
theorem clashes_iff {p : Pattern} {s : Scope} : p.clashes s = true ↔ ∃ x ∈ p.binders, x ∈ s := by
  simp [clashes, Scope.contains_iff]

end Pattern

end NameBinding
