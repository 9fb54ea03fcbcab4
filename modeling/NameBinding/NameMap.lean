import NameBinding.Error
import NameBinding.OrderedMap

/-!
# Values attached to names

A map from names to values that only grows: what was attached to a name last hides what was
attached before. Asking for a name that was never given a value is an error, since the caller
promises that the map covers the names in play.
-/

namespace NameBinding

/-- Values attached to names, the newest first. -/
structure NameMap (α : Type) where
  entries : List (Name × α)

namespace NameMap

variable {α : Type}

/-- The map without values. -/
def empty : NameMap α := ⟨[]⟩

instance : EmptyCollection (NameMap α) := ⟨empty⟩
instance : Inhabited (NameMap α) := ⟨empty⟩

/-- Attaches a value to a name. -/
def add (m : NameMap α) (x : Name) (a : α) : NameMap α := ⟨(x, a) :: m.entries⟩

/-- The value attached to a name, if there is one. -/
def get? (m : NameMap α) (x : Name) : Option α := m.entries.lookup x

/-- The value attached to a name, which must have one. -/
def lookup (m : NameMap α) (x : Name) : Except Error α :=
  match m.get? x with
  | some a => .ok a
  | none => .error (.unknownName x)

/-- The number of names with a value. -/
def size (m : NameMap α) : Nat := (OrderedSet.ofList (m.entries.map Prod.fst)).size

/-- No name is known to begin with. -/
@[simp] theorem get?_empty (x : Name) : (∅ : NameMap α).get? x = none := rfl

/-- A name that is added is known by what was added last, and the others stay as they were. -/
theorem get?_add (m : NameMap α) (x y : Name) (a : α) :
    (m.add x a).get? y = if y = x then some a else m.get? y :=
  lookup_cons_ite x y a m.entries

end NameMap

end NameBinding
