import Mathlib.Data.List.Sort
import NameBinding.Renaming

/-!
# Sets, maps and renamings are known by their answers

A set is an ascending list, and a map a list ascending in its keys. Two such lists with the same
members are the same list, so sets with the same elements are equal (`OrderedSet.ext`), and so are
maps that agree on every key (`OrderedMap.ext`) and renamings that send every name to the same place
(`Renaming.ext`).
-/

namespace NameBinding

namespace OrderedSet

variable {α : Type} [LT α] [LE α] [Std.IsLinearOrder α] [Std.LawfulOrderLT α]

/-- Sets with the same elements are equal. -/
theorem ext {s t : OrderedSet α} (h : ∀ z, z ∈ s ↔ z ∈ t) : s = t :=
  toList_inj.mp (s.ascending.eq_of_mem_iff t.ascending h)

/-- Collecting an ascending list keeps it as it is. -/
theorem toList_ofList [DecidableLT α] {l : List α} (h : l.Pairwise (· < ·)) :
    (ofList l).toList = l :=
  (ofList l).ascending.eq_of_mem_iff h fun _ => mem_ofList

end OrderedSet

namespace OrderedMap

variable {κ ν : Type} [LT κ] [LE κ] [Std.IsLinearOrder κ] [Std.LawfulOrderLT κ]

/-- No entry comes before itself. -/
instance : Std.Irrefl (fun a b : κ × ν => a.1 < b.1) := ⟨fun _ => Std.lt_irrefl⟩

/-- Of two entries, not both come before the other. -/
instance : Std.Antisymm (fun a b : κ × ν => a.1 < b.1) :=
  ⟨fun _ _ hab hba => absurd (Std.lt_trans hab hba) Std.lt_irrefl⟩

/-- Maps that agree on every key are equal. -/
theorem ext [DecidableEq κ] {m n : OrderedMap κ ν} (h : ∀ k, m.get? k = n.get? k) : m = n := by
  refine toList_inj.mp (m.ascending.eq_of_mem_iff n.ascending ?_)
  rintro ⟨k, v⟩
  rw [← get?_eq_some_iff, ← get?_eq_some_iff, h]

end OrderedMap

/-- Renamings that send every name to the same place are equal. -/
theorem Renaming.ext {r q : Renaming} (h : ∀ x, r.target? x = q.target? x) : r = q :=
  entries_inj.mp (OrderedMap.ext h)

end NameBinding
