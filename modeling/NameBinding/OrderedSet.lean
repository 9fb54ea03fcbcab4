/-!
# Finite sets as strictly ascending lists

A set is listed in increasing order and without repeats, so each set has one list, and whatever
walks a set walks it in increasing order. Membership after each operation is given by `mem_insert`,
`mem_union`, `mem_erase` and `mem_ofList`.
-/

namespace NameBinding

variable {α : Type} [LT α]

/-- A finite set, listed in strictly increasing order. -/
structure OrderedSet (α : Type) [LT α] where
  toList : List α
  ascending : toList.Pairwise (· < ·)

namespace OrderedSet

/-- Equality of sets is equality of their lists. -/
theorem toList_inj {s t : OrderedSet α} : s.toList = t.toList ↔ s = t :=
  ⟨fun h => by cases s; cases t; cases h; rfl, fun h => h ▸ rfl⟩

instance [DecidableEq α] : DecidableEq (OrderedSet α) :=
  fun _ _ => decidable_of_iff _ toList_inj

instance : Membership α (OrderedSet α) := ⟨fun s x => x ∈ s.toList⟩

/-- The elements of a set are those of its list. -/
@[simp] theorem mem_toList {s : OrderedSet α} {x : α} : x ∈ s.toList ↔ x ∈ s := Iff.rfl

instance [DecidableEq α] (x : α) (s : OrderedSet α) : Decidable (x ∈ s) :=
  inferInstanceAs (Decidable (x ∈ s.toList))

/-- The set without elements. -/
def empty : OrderedSet α := ⟨[], List.Pairwise.nil⟩

instance : EmptyCollection (OrderedSet α) := ⟨empty⟩
instance : Inhabited (OrderedSet α) := ⟨empty⟩

/-- The empty set lists nothing. -/
@[simp] theorem toList_empty : (∅ : OrderedSet α).toList = [] := rfl

/-- The empty set has no elements. -/
@[simp] theorem not_mem_empty (x : α) : x ∉ (∅ : OrderedSet α) := List.not_mem_nil

/-- The set of one element. -/
def singleton (x : α) : OrderedSet α := ⟨[x], List.pairwise_singleton _ _⟩

/-- A set of one element lists just that. -/
@[simp] theorem toList_singleton (x : α) : (singleton x).toList = [x] := rfl

/-- The only element of a set of one. -/
@[simp] theorem mem_singleton {x y : α} : x ∈ singleton y ↔ x = y := List.mem_singleton

/-- The number of elements. -/
def size (s : OrderedSet α) : Nat := s.toList.length

/-- The set without `x`. -/
def erase [DecidableEq α] (s : OrderedSet α) (x : α) : OrderedSet α :=
  ⟨s.toList.filter (· ≠ x), s.ascending.filter _⟩

/-- Erasing takes out one element and no other. -/
@[simp] theorem mem_erase [DecidableEq α] {z x : α} {s : OrderedSet α} :
    z ∈ s.erase x ↔ z ∈ s ∧ z ≠ x := by
  simp [erase, ← mem_toList]

/-- The set without the elements of a list. -/
def eraseAll [DecidableEq α] (s : OrderedSet α) (xs : List α) : OrderedSet α := xs.foldl erase s

/-- Erasing a list takes out its elements and no others. -/
@[simp] theorem mem_eraseAll [DecidableEq α] {z : α} {s : OrderedSet α} {xs : List α} :
    z ∈ s.eraseAll xs ↔ z ∈ s ∧ z ∉ xs := by
  induction xs generalizing s with
  | nil => simp [eraseAll]
  | cons x xs ih =>
    rw [show s.eraseAll (x :: xs) = (s.erase x).eraseAll xs from rfl, ih, mem_erase,
      List.mem_cons, not_or, and_assoc]

/-! ### Ascending lists -/

variable [LE α] [Std.IsLinearOrder α] [Std.LawfulOrderLT α]

/-- Of two elements, neither below the other, there is only one. -/
theorem eq_of_not_lt {x y : α} (h : ¬ x < y) (h' : ¬ y < x) : x = y := by
  rcases Std.lt_trichotomy x y with hlt | heq | hgt
  · exact absurd hlt h
  · exact heq
  · exact absurd hgt h'

omit [Std.IsLinearOrder α] in
/-- A set lists no element twice. -/
theorem nodup_toList (s : OrderedSet α) : s.toList.Nodup := by
  apply s.ascending.imp
  rintro x y hlt rfl
  exact Std.lt_irrefl hlt

/-! ### Inserting into an ascending list -/

variable [DecidableLT α]

/-- Puts `x` at its place in an ascending list; an element that is there already stays. -/
def insertAscending (x : α) : List α → List α
  | [] => [x]
  | y :: ys =>
    if x < y then x :: y :: ys else if y < x then y :: insertAscending x ys else y :: ys

/-- Inserting adds one element. -/
theorem mem_insertAscending {x z : α} (l : List α) :
    z ∈ insertAscending x l ↔ z = x ∨ z ∈ l := by
  induction l with
  | nil => simp [insertAscending]
  | cons y ys ih =>
    rw [insertAscending]
    split
    · simp
    · split
      · simp only [List.mem_cons, ih]
        exact or_left_comm
      · rename_i h h'
        rw [eq_of_not_lt h h']
        simp

/-- Inserting keeps a list ascending. -/
theorem pairwise_insertAscending (x : α) {l : List α} (h : l.Pairwise (· < ·)) :
    (insertAscending x l).Pairwise (· < ·) := by
  induction l with
  | nil => exact List.pairwise_singleton _ _
  | cons y ys ih =>
    have hy := List.pairwise_cons.mp h
    rw [insertAscending]
    split
    · rename_i hxy
      refine List.pairwise_cons.mpr ⟨?_, h⟩
      intro z hz
      rcases List.mem_cons.mp hz with rfl | hz
      · exact hxy
      · exact Std.lt_trans hxy (hy.1 z hz)
    · split
      · rename_i hyx
        refine List.pairwise_cons.mpr ⟨?_, ih hy.2⟩
        intro z hz
        rcases (mem_insertAscending ys).mp hz with rfl | hz
        · exact hyx
        · exact hy.1 z hz
      · exact h

/-! ### Operations -/

/-- The set with `x` added. -/
def insert (x : α) (s : OrderedSet α) : OrderedSet α :=
  ⟨insertAscending x s.toList, pairwise_insertAscending x s.ascending⟩

/-- Inserting adds one element. -/
@[simp] theorem mem_insert {x z : α} {s : OrderedSet α} : z ∈ s.insert x ↔ z = x ∨ z ∈ s :=
  mem_insertAscending s.toList

/-- The set of the elements of a list. -/
def ofList (l : List α) : OrderedSet α := l.foldl (fun s x => s.insert x) ∅

/-- Inserting one after the other adds all elements of the list. -/
theorem mem_foldl_insert {z : α} (l : List α) (s : OrderedSet α) :
    z ∈ l.foldl (fun s x => s.insert x) s ↔ z ∈ l ∨ z ∈ s := by
  induction l generalizing s with
  | nil => simp
  | cons x xs ih =>
    rw [List.foldl_cons, ih, mem_insert, List.mem_cons]
    exact or_left_comm.trans or_assoc.symm

/-- The set of a list has its elements. -/
@[simp] theorem mem_ofList {z : α} {l : List α} : z ∈ ofList l ↔ z ∈ l := by
  simp [ofList, mem_foldl_insert]

/-- The elements of either set. -/
def union (s t : OrderedSet α) : OrderedSet α := t.toList.foldl (fun s x => s.insert x) s

/-- The union has the elements of both sets. -/
@[simp] theorem mem_union {z : α} {s t : OrderedSet α} : z ∈ s.union t ↔ z ∈ s ∨ z ∈ t := by
  simp [union, mem_foldl_insert, or_comm]

end OrderedSet

end NameBinding
