import NameBinding.OrderedMap
import NameBinding.Sexp

/-!
# Values as S-expressions

Numbers and texts are atoms, and a truth value is the atom `1` or `0`. Compound values are lists:
an optional value is a list of at most one item, a pair and a map entry a list of two, and sets and
maps list their contents in increasing order. Only a reference that points nowhere is an atom of
its own, `NULL`.
-/

namespace NameBinding

/-- Types whose values have an S-expression. -/
class ToSexp (α : Type) where
  toSexp : α → Sexp

export ToSexp (toSexp)

/-- A reference to a value, or to nothing. -/
inductive Reference (α : Type) where
  | null
  | to (target : α)

variable {α β : Type} [ToSexp α] [ToSexp β]

instance : ToSexp Sexp := ⟨id⟩
instance : ToSexp String := ⟨.atom⟩
instance : ToSexp Nat := ⟨fun n => .atom n.repr⟩
instance : ToSexp UInt64 := ⟨fun n => .atom n.toNat.repr⟩
instance : ToSexp Int := ⟨fun n => .atom n.repr⟩
instance : ToSexp Bool := ⟨fun b => .atom (if b then "1" else "0")⟩

/-- A list, item by item. -/
instance : ToSexp (List α) := ⟨fun xs => .list (xs.map toSexp)⟩

/-- At most one item. -/
instance : ToSexp (Option α) := ⟨fun o => toSexp o.toList⟩

/-- What is referred to, or the atom `NULL`. -/
instance : ToSexp (Reference α) where
  toSexp
    | .null => .atom "NULL"
    | .to a => toSexp a

/-- The two components as a list. -/
instance : ToSexp (α × β) := ⟨fun p => .list [toSexp p.1, toSexp p.2]⟩

/-- The elements in increasing order. -/
instance [LT α] : ToSexp (OrderedSet α) := ⟨fun s => toSexp s.toList⟩

/-- The entries by increasing key. -/
instance [LT α] : ToSexp (OrderedMap α β) := ⟨fun m => toSexp m.toList⟩

end NameBinding
