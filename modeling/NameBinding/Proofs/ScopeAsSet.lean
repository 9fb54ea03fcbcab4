import NameBinding.Proofs.Moving

/-!
# A scope is the set of its names

However a scope was put together, it answers as the set of the names it was extended with: looking
up, listing and comparing two scopes depend on that set only (`Scope.ofList_answers_as_set`), and so
does drawing a fresh name.

Names are 64-bit numbers, and drawing is the one operation that shows it. A fresh name is above
every name of a scope that has room for it (`Scope.HasRoom.lt_fresh`). Once the largest name of all
is in play the draw wraps around to `0`, so it hits a name of the scope exactly when `0` is in play
as well (`Scope.fresh_mem_iff`). Replacing a binder that clashes can fail to get out of the scope in
that one case (`Scope.refresh_mem_iff`).
-/

namespace NameBinding

namespace Scope

/-- The scope inside binding sites of the names of a list, and of no others. -/
def ofList (xs : List Name) : Scope := (∅ : Scope).extendAll xs

/-- A scope made from a list has the names of the list. -/
@[simp] theorem mem_ofList {x : Name} {xs : List Name} : x ∈ ofList xs ↔ x ∈ xs := by
  rw [ofList, mem_extendAll, or_iff_right (not_mem_empty x)]

/-! ### Drawing from 64-bit numbers -/

/-- Where there is room, a fresh name is above all that is in play. -/
theorem HasRoom.lt_fresh {s : Scope} (h : s.HasRoom) {x : Name} (hx : x ∈ s) : x < s.fresh :=
  Scope.lt_fresh h.toNat_add_one_lt hx

/-- A fresh name is in the scope only if the draw wraps around onto a `0` that is in play. -/
theorem fresh_mem_iff {s : Scope} : s.fresh ∈ s ↔ 0 ∈ s ∧ Name.largest ∈ s := by
  by_cases hroom : s.HasRoom
  · exact iff_of_false hroom.fresh_not_mem fun h => hroom h.2
  · rw [Pattern.fresh_eq_zero hroom]
    exact (and_iff_left (Decidable.not_not.mp hroom)).symm

/-- A refreshed name is in the scope only if it clashes and the draw that replaces it wraps
around. -/
theorem refresh_mem_iff {s : Scope} {x : Name} :
    s.refresh x ∈ s ↔ x ∈ s ∧ 0 ∈ s ∧ Name.largest ∈ s := by
  rw [refresh]
  by_cases hx : x ∈ s
  · rw [if_pos (contains_iff.mpr hx), fresh_mem_iff, and_iff_right hx]
  · rw [if_neg (mt contains_iff.mp hx)]
    exact iff_of_false hx fun h => hx h.1

/-! ### All answers at once -/

/-- **A scope answers as the set of its names.** Let it be extended with the names of a list, in any
order and with any repeats. Then it contains the names of the list and no others, it lists them in
increasing order, and it includes another scope when the set of that one is a subset. A fresh name
is in the scope exactly if `0` and the largest name of all are; short of that largest name it is
above the whole scope. A refreshed name is in the scope in that same case only. -/
theorem ofList_answers_as_set (xs ys : List Name) (x : Name) :
    ((ofList xs).contains x = true ↔ x ∈ xs) ∧
    ((ofList xs).names.toList.Pairwise (· < ·) ∧ ∀ y, y ∈ (ofList xs).names.toList ↔ y ∈ xs) ∧
    ((ofList xs).includes (ofList ys) = true ↔
      ∀ y ∈ (ofList ys).names, y ∈ (ofList xs).names) ∧
    ((ofList xs).contains (ofList xs).fresh = true ↔
      (ofList xs).contains 0 = true ∧ (ofList xs).contains Name.largest = true) ∧
    ((ofList xs).contains Name.largest = false → (ofList xs).isEmpty = false →
      ∀ y, (ofList xs).contains y = true → y < (ofList xs).fresh) ∧
    ((ofList xs).contains ((ofList xs).refresh x) = true ↔
      (ofList xs).contains x = true ∧
        (ofList xs).contains 0 = true ∧ (ofList xs).contains Name.largest = true) := by
  refine ⟨contains_iff.trans mem_ofList,
    ⟨(ofList xs).names.ascending, fun y => mem_names.trans mem_ofList⟩, ?_, ?_, ?_, ?_⟩
  · simp only [includes_iff, mem_names]
  · simp only [contains_iff, fresh_mem_iff]
  · intro hlargest _ y hy
    have hroom : (ofList xs).HasRoom := by
      intro hmem
      rw [contains_iff.mpr hmem] at hlargest
      exact Bool.noConfusion hlargest
    exact hroom.lt_fresh (contains_iff.mp hy)
  · simp only [contains_iff, refresh_mem_iff]

/-- Out of order and with a repeat: the draw is above all four. With the largest name in play, it
wraps around onto the `0`. -/
theorem ofList_answers_as_set_wrapping :
    ((ofList [4, 0, 7, 4]).contains Name.largest = false ∧ (ofList [4, 0, 7, 4]).isEmpty = false ∧
      7 < (ofList [4, 0, 7, 4]).fresh) ∧
    (ofList [0, Name.largest, 4]).contains ((ofList [0, Name.largest, 4]).refresh 4) = true := by
  have h := ofList_answers_as_set [4, 0, 7, 4] [] 4
  have hwrap := ofList_answers_as_set [0, Name.largest, 4] [] 4
  refine ⟨⟨by decide, by decide, h.2.2.2.2.1 (by decide) (by decide) 7 (by decide)⟩, ?_⟩
  exact hwrap.2.2.2.2.2.mpr ⟨by decide, by decide, by decide⟩

end Scope

end NameBinding
