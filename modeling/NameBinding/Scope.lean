import NameBinding.Name

/-!
# Scopes

A scope is the set of names in play at some point of a term. It grows one binding site at a time,
and every layer keeps the largest name from there outward. `Scope.contains` walks from the
innermost layer and stops as soon as every remaining name is smaller than the one it looks for;
`contains_iff` says that nothing is lost by that.

`Scope.fresh` is the name after the largest one. It is outside the scope (`fresh_not_mem`) unless
the scope has the largest name of all, after which the numbers start again at `0`.
-/

namespace NameBinding

/-- One binding site of a scope: its name, and the largest name from here outward. -/
structure Layer where
  name : Name
  top : Name
  deriving DecidableEq

namespace Layer

/-- The larger of a name and the largest name of the layers outside it. -/
def topOf (x : Name) : List Layer → Name
  | [] => x
  | l :: _ => if l.top > x then l.top else x

/-- Every layer keeps the largest name from there outward. -/
def Capped : List Layer → Prop
  | [] => True
  | l :: outer => l.top = topOf l.name outer ∧ Capped outer

/-- No name of capped layers is above the top of the innermost one. -/
theorem Capped.le_top : {l : Layer} → {outer : List Layer} → Capped (l :: outer) →
    ∀ k ∈ l :: outer, k.name ≤ l.top
  | l, [], h, k, hk => by
      have hl : l.top = l.name := h.1
      simp only [List.mem_singleton] at hk
      subst hk
      rw [hl]
      exact UInt64.le_refl _
  | l, m :: outer, h, k, hk => by
      have hl : l.top = if m.top > l.name then m.top else l.name := h.1
      rcases List.mem_cons.mp hk with rfl | hk
      · split at hl <;> grind
      · have hm := Capped.le_top h.2 k hk
        split at hl <;> grind

/-- Some layer has the top of the innermost one as its name. -/
theorem Capped.exists_top : {l : Layer} → {outer : List Layer} → Capped (l :: outer) →
    ∃ k ∈ l :: outer, k.name = l.top
  | l, [], h => ⟨l, List.mem_cons_self, h.1.symm⟩
  | l, m :: outer, h => by
      have hl : l.top = if m.top > l.name then m.top else l.name := h.1
      split at hl
      · obtain ⟨k, hk, hkm⟩ := Capped.exists_top h.2
        exact ⟨k, List.mem_cons_of_mem _ hk, hkm.trans hl.symm⟩
      · exact ⟨l, List.mem_cons_self, hl.symm⟩

end Layer

/-- The names in play, innermost binding site first. -/
structure Scope where
  layers : List Layer
  capped : Layer.Capped layers

namespace Scope

/-- The scope without names. -/
def empty : Scope := ⟨[], trivial⟩

instance : EmptyCollection Scope := ⟨empty⟩
instance : Inhabited Scope := ⟨empty⟩

/-- Has the scope no names? -/
def isEmpty (s : Scope) : Bool := s.layers.isEmpty

/-- The scope inside a binding site of `x`. -/
def extend (s : Scope) (x : Name) : Scope :=
  ⟨⟨x, Layer.topOf x s.layers⟩ :: s.layers, rfl, s.capped⟩

/-- The scope inside binding sites of the names of a list, the last one innermost. -/
def extendAll (s : Scope) (xs : List Name) : Scope := xs.foldl extend s

/-- A scope has the names of its layers. -/
instance : Membership Name Scope := ⟨fun s x => x ∈ s.layers.map Layer.name⟩

/-- The names of a scope are those of its layers. -/
theorem mem_iff {s : Scope} {x : Name} : x ∈ s ↔ ∃ l ∈ s.layers, l.name = x := List.mem_map

/-- The empty scope has no names. -/
@[simp] theorem not_mem_empty (x : Name) : x ∉ (∅ : Scope) := List.not_mem_nil

/-- Extending a scope adds one name. -/
@[simp] theorem mem_extend {s : Scope} {x y : Name} : x ∈ s.extend y ↔ x = y ∨ x ∈ s :=
  List.mem_cons

/-- Extending a scope by a list adds its names. -/
@[simp] theorem mem_extendAll {s : Scope} {x : Name} {ys : List Name} :
    x ∈ s.extendAll ys ↔ x ∈ s ∨ x ∈ ys := by
  induction ys generalizing s with
  | nil => simp [extendAll]
  | cons y ys ih =>
    rw [show s.extendAll (y :: ys) = (s.extend y).extendAll ys from rfl, ih, mem_extend,
      List.mem_cons, or_assoc]
    exact or_left_comm

/-- Extending by no names changes nothing. -/
@[simp] theorem extendAll_nil (s : Scope) : s.extendAll [] = s := rfl

/-- Names are added from left to right. -/
@[simp] theorem extendAll_cons (s : Scope) (x : Name) (xs : List Name) :
    s.extendAll (x :: xs) = (s.extend x).extendAll xs := rfl

/-- Two lists of names are added one after the other. -/
theorem extendAll_append (s : Scope) (xs ys : List Name) :
    s.extendAll (xs ++ ys) = (s.extendAll xs).extendAll ys := List.foldl_append

/-! ### Membership, with an early exit -/

/-- Looks for a name from the innermost layer outward, and stops when all that is left is
smaller. -/
def search (x : Name) : List Layer → Bool
  | [] => false
  | l :: outer => if x ≤ l.top then l.name == x || search x outer else false

/-- Is the name in the scope? -/
def contains (s : Scope) (x : Name) : Bool := search x s.layers

/-- The search finds a name exactly if some layer has it: where it stops early, all names further
out are smaller. -/
theorem search_iff {x : Name} : {ls : List Layer} → Layer.Capped ls →
    (search x ls = true ↔ ∃ l ∈ ls, l.name = x)
  | [], _ => by simp [search]
  | l :: outer, h => by
      rw [search]
      split
      · simp [search_iff h.2]
      · rename_i hx
        simp only [Bool.false_eq_true, false_iff]
        rintro ⟨k, hk, rfl⟩
        exact hx (Layer.Capped.le_top h k hk)

/-- The early exit never loses a name. -/
theorem contains_iff {s : Scope} {x : Name} : s.contains x = true ↔ x ∈ s :=
  (search_iff s.capped).trans mem_iff.symm

instance (x : Name) (s : Scope) : Decidable (x ∈ s) := decidable_of_iff _ contains_iff

/-- The names of the scope as a set. -/
def names (s : Scope) : NameSet := OrderedSet.ofList (s.layers.map Layer.name)

/-- The set of names has the names of the scope. -/
@[simp] theorem mem_names {s : Scope} {x : Name} : x ∈ s.names ↔ x ∈ s := OrderedSet.mem_ofList

/-- The number of names. -/
def size (s : Scope) : Nat := s.names.size

/-- Is every name of `o` in `s`? -/
def includes (s o : Scope) : Bool := o.layers.all fun l => s.contains l.name

/-- A scope includes another one if it has all of its names. -/
theorem includes_iff {s o : Scope} : s.includes o = true ↔ ∀ x ∈ o, x ∈ s := by
  simp only [includes, List.all_eq_true, contains_iff]
  constructor
  · intro h x hx
    obtain ⟨l, hl, rfl⟩ := mem_iff.mp hx
    exact h l hl
  · exact fun h l hl => h l.name (mem_iff.mpr ⟨l, hl, rfl⟩)

/-! ### Fresh names -/

/-- The name after the largest one, or `0` in the empty scope. -/
def fresh (s : Scope) : Name :=
  match s.layers with
  | [] => 0
  | l :: _ => l.top + 1

/-- The name itself when it is not in the scope, a fresh one when it is. -/
def refresh (s : Scope) (x : Name) : Name := if s.contains x then s.fresh else x

/-- The name after `t` is above `t`, unless `t` is the largest of all. -/
theorem lt_add_one {t : Name} (h : t.toNat + 1 < UInt64.size) : t < t + 1 := by
  rw [UInt64.lt_iff_toNat_lt, UInt64.toNat_add, UInt64.toNat_one, Nat.mod_eq_of_lt h]
  exact Nat.lt_succ_self _

/-- Only the empty scope has no largest name, and a fresh name is the one after it. -/
theorem fresh_eq (s : Scope) :
    (∀ x, x ∉ s) ∧ s.fresh = 0 ∨ ∃ x ∈ s, (∀ y ∈ s, y ≤ x) ∧ s.fresh = x + 1 := by
  obtain ⟨layers, capped⟩ := s
  cases layers with
  | nil => exact Or.inl ⟨not_mem_empty, rfl⟩
  | cons l outer =>
    obtain ⟨m, hm, hml⟩ := capped.exists_top
    refine Or.inr ⟨l.top, mem_iff.mpr ⟨m, hm, hml⟩, ?_, rfl⟩
    intro y hy
    obtain ⟨k, hk, rfl⟩ := mem_iff.mp hy
    exact capped.le_top k hk

/-- A fresh name depends on the names of a scope only, not on the order of its layers. -/
theorem fresh_congr {s t : Scope} (h : ∀ x, x ∈ s ↔ x ∈ t) : s.fresh = t.fresh := by
  rcases fresh_eq s with ⟨hs, hfs⟩ | ⟨x, hx, hxs, hfs⟩
  · rcases fresh_eq t with ⟨-, hft⟩ | ⟨y, hy, -, -⟩
    · rw [hfs, hft]
    · exact absurd ((h y).mpr hy) (hs y)
  · rcases fresh_eq t with ⟨ht, -⟩ | ⟨y, hy, hyt, hft⟩
    · exact absurd ((h x).mp hx) (ht x)
    · rw [hfs, hft, UInt64.le_antisymm (hyt x ((h x).mp hx)) (hxs y ((h y).mpr hy))]

/-- A fresh name is above every name of a scope in which there is room for one more. -/
theorem lt_fresh {s : Scope} (h : ∀ x ∈ s, x.toNat + 1 < UInt64.size) {x : Name} (hx : x ∈ s) :
    x < s.fresh := by
  rcases fresh_eq s with ⟨hs, -⟩ | ⟨t, ht, hle, hfresh⟩
  · exact absurd hx (hs x)
  · have hxt : x ≤ t := hle x hx
    have htt : t < t + 1 := lt_add_one (h t ht)
    rw [hfresh]
    grind

/-- A fresh name is not in a scope in which there is room for one more. -/
theorem fresh_not_mem {s : Scope} (h : ∀ x ∈ s, x.toNat + 1 < UInt64.size) : s.fresh ∉ s :=
  fun hmem => Std.lt_irrefl (lt_fresh h hmem)

end Scope

end NameBinding
