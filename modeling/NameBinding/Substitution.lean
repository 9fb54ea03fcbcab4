import NameBinding.Pattern.Refresh
import NameBinding.Renaming

/-!
# Substitutions

A substitution gives terms to finitely many names; every other name stands for itself. It only
grows: the newest layer for a name counts, and a layer without a term makes the name stand for
itself again. `Substitution.get?` is the finite map that a substitution denotes.
-/

namespace NameBinding

/-- Types in which a name stands for itself. -/
class OfName (E : Type) where
  ofName : Name → E

/-- As a text, a name is its digits. -/
instance : OfName String := ⟨Name.digits⟩

/-- Terms for names, the newest layer first. -/
structure Substitution (E : Type) where
  layers : List (Name × Option E)

namespace Substitution

variable {E : Type}

/-- Every name stands for itself. -/
def identity : Substitution E := ⟨[]⟩

instance : Inhabited (Substitution E) := ⟨identity⟩

/-- The term of a name, if it has one. -/
def get? (σ : Substitution E) (x : Name) : Option E := (σ.layers.lookup x).join

/-- Has the name a term? -/
def contains (σ : Substitution E) (x : Name) : Bool := (σ.get? x).isSome

/-- What the name stands for. -/
def lookup [OfName E] (σ : Substitution E) (x : Name) : E := (σ.get? x).getD (OfName.ofName x)

/-- Gives a name a term. -/
def add (σ : Substitution E) (x : Name) (e : E) : Substitution E := ⟨(x, some e) :: σ.layers⟩

/-- Makes a name stand for itself. -/
def drop (σ : Substitution E) (x : Name) : Substitution E := ⟨(x, none) :: σ.layers⟩

/-- Makes `x` stand for the name `y`. A name that comes to stand for itself loses its term, if it
has one, so crossing binders that do not clash adds nothing. -/
def addRename [OfName E] (σ : Substitution E) (x y : Name) : Substitution E :=
  if x = y then if σ.contains y then σ.drop x else σ
  else σ.add x (OfName.ofName y)

/-- The substitution inside a pattern that was moved into the output scope. -/
def extend [OfName E] (σ : Substitution E) (m : Moved) : Substitution E :=
  m.renames.foldl (fun τ e => τ.addRename e.1 e.2) σ

/-- Gives the binders of a pattern their terms in order; there must be as many of both. -/
def addPattern (σ : Substitution E) (p : Pattern) (es : List E) :
    Except Error (Substitution E) :=
  if p.size = es.length then .ok ((p.binders.zip es).foldl (fun τ e => τ.add e.1 e.2) σ)
  else .error (.countMismatch p.size es.length)

/-- The same substitution, for a larger output scope. -/
def sink (σ : Substitution E) : Substitution E := σ

/-- The substitution that does what a renaming does. -/
def ofRenaming [OfName E] (r : Renaming) : Substitution E :=
  r.entries.toList.foldl (fun τ e => τ.addRename e.1 e.2) identity

/-- The names that have a term, each with the term it has. -/
def entries (σ : Substitution E) : List (Name × E) :=
  (OrderedMap.ofList σ.layers).toList.filterMap fun e => e.2.map fun v => (e.1, v)

/-- The number of names that have a term. -/
def size (σ : Substitution E) : Nat := σ.entries.length

instance [ToSexp E] : ToSexp (Substitution E) := ⟨fun σ => toSexp σ.entries⟩

/-! ### The finite map -/

/-- The identity has no entry for any name. -/
@[simp] theorem get?_identity (x : Name) : (identity : Substitution E).get? x = none := rfl

/-- A name that is added stands for its new term, and the others for what they stood for. -/
theorem get?_add (σ : Substitution E) (x y : Name) (e : E) :
    (σ.add x e).get? y = if y = x then some e else σ.get? y := by
  rw [get?, add, lookup_cons_ite]
  split <;> rfl

/-- A name that is dropped has no entry, and the others keep theirs. -/
theorem get?_drop (σ : Substitution E) (x y : Name) :
    (σ.drop x).get? y = if y = x then none else σ.get? y := by
  rw [get?, drop, lookup_cons_ite]
  split <;> rfl

/-- A name that is renamed stands for its new name; renamed to itself it has no entry. -/
theorem get?_addRename [OfName E] (σ : Substitution E) (x y z : Name) :
    (σ.addRename x y).get? z =
      if z = x then if x = y then none else some (OfName.ofName y) else σ.get? z := by
  rw [addRename]
  by_cases hxy : x = y
  · subst hxy
    rw [if_pos rfl]
    by_cases hc : σ.contains x = true
    · rw [if_pos hc, get?_drop]
      simp
    · rw [if_neg hc]
      by_cases hz : z = x
      · subst hz
        simpa [contains] using hc
      · simp [hz]
  · rw [if_neg hxy, get?_add]
    simp [hxy]

end Substitution

end NameBinding
