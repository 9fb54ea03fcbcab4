import NameBinding.OrderedSet

/-!
# Finite maps as lists ascending in their keys

A map lists its entries by increasing key, one entry to a key, so each map has one list. `addNew`
never replaces: the entry a key got first stays (`get?_addNew`).
-/

set_option linter.unusedSectionVars false

namespace NameBinding

variable {κ ν : Type}

/-- Looking up a key finds the first entry with that key. -/
theorem lookup_cons_ite [DecidableEq κ] (k x : κ) (v : ν) (l : List (κ × ν)) :
    ((k, v) :: l).lookup x = if x = k then some v else l.lookup x := by
  by_cases h : x = k
  · simp [h]
  · rw [List.lookup_cons, beq_eq_false_iff_ne.mpr h, if_neg h]

variable [LT κ]

/-- A finite map, its entries listed by strictly increasing key. -/
structure OrderedMap (κ ν : Type) [LT κ] where
  toList : List (κ × ν)
  ascending : toList.Pairwise (fun a b => a.1 < b.1)

namespace OrderedMap

/-- Equality of maps is equality of their lists. -/
theorem toList_inj {m n : OrderedMap κ ν} : m.toList = n.toList ↔ m = n :=
  ⟨fun h => by cases m; cases n; cases h; rfl, fun h => h ▸ rfl⟩

instance [DecidableEq κ] [DecidableEq ν] : DecidableEq (OrderedMap κ ν) :=
  fun _ _ => decidable_of_iff _ toList_inj

/-- The map without entries. -/
def empty : OrderedMap κ ν := ⟨[], List.Pairwise.nil⟩

instance : EmptyCollection (OrderedMap κ ν) := ⟨empty⟩
instance : Inhabited (OrderedMap κ ν) := ⟨empty⟩

/-- The map without entries lists none. -/
@[simp] theorem toList_empty : (∅ : OrderedMap κ ν).toList = [] := rfl

/-- The map with one entry. -/
def single (k : κ) (v : ν) : OrderedMap κ ν := ⟨[(k, v)], List.pairwise_singleton _ _⟩

/-- The number of entries. -/
def size (m : OrderedMap κ ν) : Nat := m.toList.length

/-- No entries at all. -/
def isEmpty (m : OrderedMap κ ν) : Bool := m.toList.isEmpty

/-- Only the empty map has no entries. -/
theorem isEmpty_iff {m : OrderedMap κ ν} : m.isEmpty = true ↔ m = ∅ := by
  rw [isEmpty, List.isEmpty_iff, ← toList_inj, toList_empty]

variable [DecidableEq κ]

/-- The value at a key, if there is one. -/
def get? (m : OrderedMap κ ν) (k : κ) : Option ν := m.toList.lookup k

/-- Nothing is found in the empty map. -/
@[simp] theorem get?_empty (k : κ) : (∅ : OrderedMap κ ν).get? k = none := rfl

/-- In a map with one entry only its key is found. -/
theorem get?_single (k x : κ) (v : ν) :
    (single k v).get? x = if x = k then some v else none := by
  simp [single, get?, lookup_cons_ite]

/-- The map without its entry at `k`. -/
def erase (m : OrderedMap κ ν) (k : κ) : OrderedMap κ ν :=
  ⟨m.toList.filter (·.1 ≠ k), m.ascending.filter _⟩

/-- Leaving out the entries at a key makes that key unknown and no other. -/
theorem lookup_filter_ne (k x : κ) (l : List (κ × ν)) :
    (l.filter (·.1 ≠ k)).lookup x = if x = k then none else l.lookup x := by
  induction l with
  | nil => simp
  | cons e es ih =>
    obtain ⟨y, v⟩ := e
    by_cases hy : y = k
    · rw [List.filter_cons_of_neg (by simpa using hy), ih, lookup_cons_ite, hy]
      by_cases hx : x = k <;> simp [hx]
    · rw [List.filter_cons_of_pos (by simpa using hy), lookup_cons_ite, lookup_cons_ite, ih]
      by_cases hx : x = k
      · simp [hx, Ne.symm hy]
      · simp [hx]

/-- A key that is erased is unknown, and the others keep their values. -/
@[simp] theorem get?_erase (m : OrderedMap κ ν) (k x : κ) :
    (m.erase k).get? x = if x = k then none else m.get? x :=
  lookup_filter_ne k x m.toList

/-! ### Entries and look-ups -/

variable [LE κ] [Std.IsLinearOrder κ] [Std.LawfulOrderLT κ]

/-- In a list ascending in its keys an entry is what looking up its key finds. -/
theorem lookup_eq_some_iff {l : List (κ × ν)} (h : l.Pairwise (fun a b => a.1 < b.1)) {k : κ}
    {v : ν} : l.lookup k = some v ↔ (k, v) ∈ l := by
  induction l with
  | nil => simp
  | cons e es ih =>
    obtain ⟨y, w⟩ := e
    have hes := List.pairwise_cons.mp h
    rw [lookup_cons_ite]
    by_cases hk : k = y
    · subst hk
      simp only [if_true, Option.some.injEq, List.mem_cons, Prod.mk.injEq, true_and]
      constructor
      · exact fun h => Or.inl h.symm
      · rintro (h | h)
        · exact h.symm
        · exact absurd (hes.1 _ h) Std.lt_irrefl
    · simp [hk, ih hes.2]

/-- What is found at a key is the entry that is listed. -/
theorem get?_eq_some_iff {m : OrderedMap κ ν} {k : κ} {v : ν} :
    m.get? k = some v ↔ (k, v) ∈ m.toList :=
  lookup_eq_some_iff m.ascending

/-! ### Adding an entry -/

variable [DecidableLT κ]

/-- Puts the entry `(k, v)` at its place; an entry that `k` has already stays. -/
def addAscending (k : κ) (v : ν) : List (κ × ν) → List (κ × ν)
  | [] => [(k, v)]
  | e :: es =>
    if k < e.1 then (k, v) :: e :: es else if e.1 < k then e :: addAscending k v es else e :: es

/-- After adding there is the new entry at most, and those that were there. -/
theorem mem_addAscending {k : κ} {v : ν} {e : κ × ν} {l : List (κ × ν)}
    (h : e ∈ addAscending k v l) : e = (k, v) ∨ e ∈ l := by
  induction l with
  | nil => simpa [addAscending] using h
  | cons y ys ih =>
    rw [addAscending] at h
    split at h
    · simpa using h
    · split at h
      · rcases List.mem_cons.mp h with rfl | h
        · exact Or.inr List.mem_cons_self
        · exact (ih h).imp_right (List.mem_cons_of_mem _)
      · exact Or.inr h

/-- Adding an entry keeps the keys ascending. -/
theorem pairwise_addAscending (k : κ) (v : ν) {l : List (κ × ν)}
    (h : l.Pairwise (fun a b => a.1 < b.1)) :
    (addAscending k v l).Pairwise (fun a b => a.1 < b.1) := by
  induction l with
  | nil => exact List.pairwise_singleton _ _
  | cons y ys ih =>
    have hy := List.pairwise_cons.mp h
    rw [addAscending]
    split
    · rename_i hk
      refine List.pairwise_cons.mpr ⟨?_, h⟩
      intro z hz
      rcases List.mem_cons.mp hz with rfl | hz
      · exact hk
      · exact Std.lt_trans hk (hy.1 z hz)
    · split
      · rename_i hk
        refine List.pairwise_cons.mpr ⟨?_, ih hy.2⟩
        intro z hz
        rcases mem_addAscending hz with rfl | hz
        · exact hk
        · exact hy.1 z hz
      · exact h

/-- The value that a key has stays; a key without one gets the new value. -/
theorem lookup_addAscending (k x : κ) (v : ν) {l : List (κ × ν)}
    (h : l.Pairwise (fun a b => a.1 < b.1)) :
    (addAscending k v l).lookup x =
      if x = k then some ((l.lookup k).getD v) else l.lookup x := by
  induction l with
  | nil => simp [addAscending, lookup_cons_ite]
  | cons e es ih =>
    obtain ⟨y, w⟩ := e
    have hes := List.pairwise_cons.mp h
    rw [addAscending]
    split
    · rename_i hk
      have hmiss : ((y, w) :: es).lookup k = none := by
        rw [List.lookup_eq_none_iff]
        intro p hp
        rcases List.mem_cons.mp hp with rfl | hp
        · simpa using fun he : k = y => Std.lt_irrefl (he ▸ hk)
        · simpa using fun he : k = p.1 => Std.lt_irrefl (he ▸ Std.lt_trans hk (hes.1 p hp))
      rw [lookup_cons_ite, hmiss, Option.getD_none]
    · split
      · rename_i hk
        have hky : k ≠ y := fun he => Std.lt_irrefl (he ▸ hk)
        rw [lookup_cons_ite, ih hes.2, lookup_cons_ite, lookup_cons_ite]
        by_cases hx : x = k
        · simp [hx, hky]
        · simp [hx]
      · rename_i h1 h2
        have hky : k = y := OrderedSet.eq_of_not_lt h1 h2
        by_cases hx : x = y <;> simp [hx, hky, lookup_cons_ite]

/-- The map with the entry `(k, v)`, unless `k` has one already. -/
def addNew (m : OrderedMap κ ν) (k : κ) (v : ν) : OrderedMap κ ν :=
  ⟨addAscending k v m.toList, pairwise_addAscending k v m.ascending⟩

/-- The value that a key has stays; a key without one gets the new value. -/
theorem get?_addNew (m : OrderedMap κ ν) (k x : κ) (v : ν) :
    (m.addNew k v).get? x = if x = k then some ((m.get? k).getD v) else m.get? x :=
  lookup_addAscending k x v m.ascending

/-- The map of a list of entries; of several entries with one key the first counts. -/
def ofList (l : List (κ × ν)) : OrderedMap κ ν := l.foldl (fun m e => m.addNew e.1 e.2) ∅

/-- Of several values for a key the one that is there counts, and then the first of the list. -/
theorem get?_foldl_addNew (l : List (κ × ν)) (m : OrderedMap κ ν) (x : κ) :
    (l.foldl (fun m e => m.addNew e.1 e.2) m).get? x = (m.get? x).or (l.lookup x) := by
  induction l generalizing m with
  | nil => simp
  | cons e es ih =>
    obtain ⟨k, v⟩ := e
    rw [List.foldl_cons, ih, get?_addNew, lookup_cons_ite]
    by_cases hx : x = k
    · subst hx
      cases m.get? x <;> simp
    · simp [hx]

/-- A key has the first value that the list gives for it. -/
@[simp] theorem get?_ofList (l : List (κ × ν)) (x : κ) : (ofList l).get? x = l.lookup x := by
  simp [ofList, get?_foldl_addNew]

end OrderedMap

end NameBinding
