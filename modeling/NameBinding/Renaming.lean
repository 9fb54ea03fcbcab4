import NameBinding.Error
import NameBinding.OrderedMap
import NameBinding.Sexp.Encode

/-!
# Renamings

A renaming sends finitely many names to other names, all at once: `{0 ↦ 1, 1 ↦ 0}` swaps. Outside
its entries it is the identity, and no entry sends a name to itself, so a renaming without entries
is the only one that fixes every name.

Two renamings merge when they agree on every name that both move (`merge`).
-/

namespace NameBinding

/-- Finitely many names, each sent to another one. -/
structure Renaming where
  entries : OrderedMap Name Name
  moves : ∀ e ∈ entries.toList, e.1 ≠ e.2

namespace Renaming

/-- Equality of renamings is equality of their entries. -/
theorem entries_inj {r q : Renaming} : r.entries = q.entries ↔ r = q :=
  ⟨fun h => by cases r; cases q; cases h; rfl, fun h => h ▸ rfl⟩

instance : DecidableEq Renaming := fun _ _ => decidable_of_iff _ entries_inj

/-- The renaming that fixes every name. -/
def identity : Renaming := ⟨∅, fun _ h => absurd h List.not_mem_nil⟩

instance : Inhabited Renaming := ⟨identity⟩

/-- The renaming that sends `x` to `y` and fixes all else. -/
def single (x y : Name) : Renaming :=
  if h : x = y then identity
  else ⟨.single x y, fun e he => by
    rw [show e = (x, y) from List.mem_singleton.mp he]
    exact h⟩

/-- Where a name is sent to, if it is moved. -/
def target? (r : Renaming) (x : Name) : Option Name := r.entries.get? x

/-- The name that `x` becomes. -/
def apply (r : Renaming) (x : Name) : Name := (r.target? x).getD x

/-- Does no name move? -/
def isIdentity (r : Renaming) : Bool := r.entries.isEmpty

/-- Does `x` move? -/
def renames (r : Renaming) (x : Name) : Bool := (r.target? x).isSome

/-- The number of names moved. -/
def size (r : Renaming) : Nat := r.entries.size

/-- The same renaming, with `x` fixed. -/
def without (r : Renaming) (x : Name) : Renaming :=
  ⟨r.entries.erase x, fun e he => r.moves e (List.mem_filter.mp he).1⟩

/-- The same renaming, with every name of a list fixed. -/
def withoutAll (r : Renaming) (xs : List Name) : Renaming := xs.foldl without r

/-- The same renaming, with the entry `(x, y)` unless `x` has one. -/
def addNew (r : Renaming) (x y : Name) (h : x ≠ y) : Renaming :=
  ⟨r.entries.addNew x y, fun e he => by
    rcases OrderedMap.mem_addAscending he with rfl | he
    · exact h
    · exact r.moves e he⟩

/-- Adds one entry after the other, failing at the first name with two targets. -/
def mergeEntries (r : Renaming) :
    (es : List (Name × Name)) → (∀ e ∈ es, e.1 ≠ e.2) → Except Error Renaming
  | [], _ => .ok r
  | (x, y) :: es, h =>
    have hes := fun e he => h e (List.mem_cons_of_mem _ he)
    match r.target? x with
    | some z => if z = y then mergeEntries r es hes else .error (.disagreement x)
    | none => mergeEntries (r.addNew x y (h (x, y) List.mem_cons_self)) es hes

/-- Both renamings at once, if they agree on every name that both move. Names are taken in
increasing order, and the first on which the two disagree is reported. -/
def merge (r q : Renaming) : Except Error Renaming := r.mergeEntries q.entries.toList q.moves

instance : ToSexp Renaming := ⟨fun r => toSexp r.entries⟩

/-! ### Where names go -/

/-- The identity moves no name. -/
@[simp] theorem target?_identity (x : Name) : identity.target? x = none := rfl

/-- A single renaming moves its name, unless it sends it to itself. -/
theorem target?_single (x y z : Name) :
    (single x y).target? z = if z = x ∧ x ≠ y then some y else none := by
  rw [single]
  split
  · simp_all
  · simp_all [target?, OrderedMap.get?_single]

/-- A name that is left out is fixed, and the others go where they went. -/
@[simp] theorem target?_without (r : Renaming) (x z : Name) :
    (r.without x).target? z = if z = x then none else r.target? z :=
  OrderedMap.get?_erase r.entries x z

/-- Names that are left out are fixed, and the others go where they went. -/
@[simp] theorem target?_withoutAll (r : Renaming) (xs : List Name) (z : Name) :
    (r.withoutAll xs).target? z = if z ∈ xs then none else r.target? z := by
  induction xs generalizing r with
  | nil => simp [withoutAll]
  | cons x xs ih =>
    rw [show r.withoutAll (x :: xs) = (r.without x).withoutAll xs from rfl, ih, target?_without]
    by_cases hx : z = x <;> simp [hx]

/-- A name that moves already goes where it went; one that does not gets the new place. -/
theorem target?_addNew (r : Renaming) (x y z : Name) (h : x ≠ y) :
    (r.addNew x y h).target? z = if z = x then some ((r.target? x).getD y) else r.target? z :=
  OrderedMap.get?_addNew r.entries x z y

/-- A name that moves moves elsewhere. -/
theorem ne_of_target? {r : Renaming} {x y : Name} (h : r.target? x = some y) : x ≠ y :=
  r.moves (x, y) (OrderedMap.get?_eq_some_iff.mp h)

/-- Only the identity has no entries. -/
theorem isIdentity_iff {r : Renaming} : r.isIdentity = true ↔ r = identity :=
  OrderedMap.isEmpty_iff.trans (entries_inj (q := identity))

end Renaming

end NameBinding
