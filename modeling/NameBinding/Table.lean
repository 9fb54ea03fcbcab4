import NameBinding.Error
import NameBinding.OrderedMap
import NameBinding.Scope

/-!
# Tables of identifiers

Reading raw syntax needs to know which name each identifier stands for. A table keeps that together
with the scope of the names in play. Binding an identifier hides what it stood for before; the table
outside stays as it was.
-/

namespace NameBinding

/-- The identifiers in play, the innermost first, and the scope of the names they stand for. -/
structure Table where
  scope : Scope
  entries : List (String × Name)

namespace Table

/-- The table over a scope in which no name has an identifier. -/
def ofScope (s : Scope) : Table := ⟨s, []⟩

instance : Inhabited Table := ⟨ofScope ∅⟩

/-- The identifier bound to a name of the caller's choice. -/
def bindAs (t : Table) (id : String) (x : Name) : Table := ⟨t.scope.extend x, (id, x) :: t.entries⟩

/-- The identifier bound to a name that is fresh for the scope of the table. -/
def bind (t : Table) (id : String) : Name × Table := (t.scope.fresh, t.bindAs id t.scope.fresh)

/-- The name that an identifier stands for, if it stands for one. -/
def get? (t : Table) (id : String) : Option Name := t.entries.lookup id

/-- The name that an identifier stands for, which must be bound. -/
def lookup (t : Table) (id : String) : Except Error Name :=
  match t.get? id with
  | some x => .ok x
  | none => .error (.unboundIdentifier id)

/-- Is the identifier bound? -/
def contains (t : Table) (id : String) : Bool := (t.get? id).isSome

/-- A table that only has a scope binds no identifier. -/
@[simp] theorem get?_ofScope (s : Scope) (id : String) : (ofScope s).get? id = none := rfl

/-- Binding an identifier adds its name to the scope. -/
@[simp] theorem scope_bindAs (t : Table) (id : String) (x : Name) :
    (t.bindAs id x).scope = t.scope.extend x := rfl

/-- An identifier that is bound stands for its new name, and the others for what they stood for. -/
theorem get?_bindAs (t : Table) (id other : String) (x : Name) :
    (t.bindAs id x).get? other = if other = id then some x else t.get? other :=
  lookup_cons_ite id other x t.entries

end Table

end NameBinding
