import NameBinding.Proofs.Extensionality
import NameBinding.Substitution

/-!
# A substitution is a finite map

A substitution is a log: every change puts a layer in front, a layer without a term takes a name
back to itself, and older layers stay where they are. `Substitution.toMap` is the finite map that
the log stands for. Every change to the log is the change to the map that its name says
(`toMap_add`, `toMap_addRename`, `toMap_extend`, `toMap_foldl_add`, `toMap_ofRenaming`), and so by
induction is every history of changes (`Substitution.toMap_of_run`). Looking up, counting and
listing walk the log each in their own way; all of them answer as the map does
(`Substitution.run_answers_as_map`).
-/

namespace NameBinding

/-! ### Changing a map -/

namespace OrderedMap

variable {κ ν μ : Type} [LT κ] [DecidableEq κ]

/-- The map with every value changed. -/
def mapValues (f : ν → μ) (m : OrderedMap κ ν) : OrderedMap κ μ :=
  ⟨m.toList.map fun e => (e.1, f e.2), List.pairwise_map.mpr m.ascending⟩

/-- A key of a map with changed values has its own value changed. -/
@[simp] theorem get?_mapValues (f : ν → μ) (m : OrderedMap κ ν) (x : κ) :
    (m.mapValues f).get? x = (m.get? x).map f := by
  show (m.toList.map fun e => (e.1, f e.2)).lookup x = (m.toList.lookup x).map f
  induction m.toList with
  | nil => rfl
  | cons e es ih =>
    rw [List.map_cons, lookup_cons_ite, ih, lookup_cons_ite]
    split <;> rfl

variable [LE κ] [Std.IsLinearOrder κ] [Std.LawfulOrderLT κ] [DecidableLT κ]

/-- The map with the value `v` at `k`, in place of the one that may be there. -/
def set (m : OrderedMap κ ν) (k : κ) (v : ν) : OrderedMap κ ν := (m.erase k).addNew k v

/-- A key that is set has its new value, and the others what they had. -/
@[simp] theorem get?_set (m : OrderedMap κ ν) (k x : κ) (v : ν) :
    (m.set k v).get? x = if x = k then some v else m.get? x := by
  rw [set, get?_addNew, get?_erase, get?_erase, if_pos rfl, Option.getD_none]
  by_cases hx : x = k <;> simp [hx]

end OrderedMap

/-! ### The map that a log stands for -/

/-- A change to a substitution. -/
inductive Edit (E : Type) where
  /-- Gives a name a term. -/
  | add (x : Name) (e : E)
  /-- Makes a name stand for a name. -/
  | addRename (x y : Name)
  /-- Gives the binders of a pattern their terms. -/
  | addPattern (p : Pattern) (es : List E)
  /-- Crosses a pattern that was moved. -/
  | extend (m : Moved)
  /-- Goes to a larger output scope. -/
  | sink
  /-- Starts again from a renaming. -/
  | ofRenaming (r : Renaming)

namespace Edit

variable {E : Type}

/-- Are there as many terms as binders? -/
def Balanced : Edit E → Prop
  | addPattern p es => p.binders.length = es.length
  | _ => True

variable [OfName E]

/-- The map in which `x` stands for `y`: an entry, unless the two are one name. -/
def renameIn (m : OrderedMap Name E) (x y : Name) : OrderedMap Name E :=
  if x = y then m.erase x else m.set x (OfName.ofName y)

/-- The change to a map. -/
def onMap (m : OrderedMap Name E) : Edit E → OrderedMap Name E
  | add x e => m.set x e
  | addRename x y => renameIn m x y
  | addPattern p es => (p.binders.zip es).foldl (fun n e => n.set e.1 e.2) m
  | extend moved => moved.renames.foldl (fun n e => renameIn n e.1 e.2) m
  | sink => m
  | ofRenaming r => r.entries.mapValues OfName.ofName

/-- The change to a substitution. -/
def onSubstitution (σ : Substitution E) : Edit E → Except Error (Substitution E)
  | add x e => .ok (σ.add x e)
  | addRename x y => .ok (σ.addRename x y)
  | addPattern p es => σ.addPattern p es
  | extend moved => .ok (σ.extend moved)
  | sink => .ok σ.sink
  | ofRenaming r => .ok (.ofRenaming r)

end Edit

namespace Substitution

variable {E : Type}

/-- The entries are listed with increasing names. -/
theorem ascending_entries (σ : Substitution E) :
    σ.entries.Pairwise (fun a b => a.1 < b.1) := by
  unfold entries
  rw [List.pairwise_filterMap]
  apply (OrderedMap.ofList σ.layers).ascending.imp
  intro a b hlt a' ha' b' hb'
  obtain ⟨v, -, rfl⟩ := Option.map_eq_some_iff.mp ha'
  obtain ⟨w, -, rfl⟩ := Option.map_eq_some_iff.mp hb'
  exact hlt

/-- The finite map that a substitution stands for. -/
def toMap (σ : Substitution E) : OrderedMap Name E := ⟨σ.entries, σ.ascending_entries⟩

/-- Listing keeps the newest layer of each name, if it has a term, and looking up stops at that same
layer. -/
theorem get?_toMap (σ : Substitution E) (x : Name) : σ.toMap.get? x = σ.get? x := by
  apply Option.ext
  intro e
  have hentry : (x, e) ∈ σ.entries ↔ (x, some e) ∈ (OrderedMap.ofList σ.layers).toList := by
    simp only [entries, List.mem_filterMap, Option.map_eq_some_iff, Prod.mk.injEq]
    constructor
    · rintro ⟨⟨y, o⟩, hmem, v, ho, rfl, rfl⟩
      exact (show o = some v from ho) ▸ hmem
    · exact fun hmem => ⟨(x, some e), hmem, e, rfl, rfl, rfl⟩
  rw [OrderedMap.get?_eq_some_iff, show σ.toMap.toList = σ.entries from rfl, hentry,
    ← OrderedMap.get?_eq_some_iff, OrderedMap.get?_ofList, get?, Option.join_eq_some_iff]

/-- A substitution contains the names of its map. -/
theorem contains_iff_toMap (σ : Substitution E) (x : Name) :
    σ.contains x = true ↔ ∃ e, σ.toMap.get? x = some e := by
  rw [contains, ← get?_toMap, Option.isSome_iff_exists]

/-- A name stands for what the map has, or else for itself. -/
theorem lookup_eq_toMap [OfName E] (σ : Substitution E) (x : Name) :
    σ.lookup x = (σ.toMap.get? x).getD (OfName.ofName x) := by
  rw [lookup, get?_toMap]

/-! ### One change -/

/-- Adding a term sets it in the map. -/
theorem toMap_add (σ : Substitution E) (x : Name) (e : E) :
    (σ.add x e).toMap = σ.toMap.set x e := by
  apply OrderedMap.ext
  intro z
  rw [get?_toMap, get?_add, OrderedMap.get?_set, get?_toMap]

/-- Adding terms one after the other sets them in the map one after the other. -/
theorem toMap_foldl_add (es : List (Name × E)) (σ : Substitution E) :
    (es.foldl (fun τ e => τ.add e.1 e.2) σ).toMap =
      es.foldl (fun m e => m.set e.1 e.2) σ.toMap := by
  induction es generalizing σ with
  | nil => rfl
  | cons e es ih => rw [List.foldl_cons, List.foldl_cons, ih, toMap_add]

section

variable [OfName E]

/-- Whether or not a layer is added for a name that comes to stand for itself, its entry is gone. -/
theorem toMap_addRename (σ : Substitution E) (x y : Name) :
    (σ.addRename x y).toMap = Edit.renameIn σ.toMap x y := by
  apply OrderedMap.ext
  intro z
  rw [get?_toMap, get?_addRename, Edit.renameIn]
  by_cases hxy : x = y
  · rw [if_pos hxy, if_pos hxy, OrderedMap.get?_erase, get?_toMap]
  · rw [if_neg hxy, if_neg hxy, OrderedMap.get?_set, get?_toMap]

/-- Renaming names one after the other renames them in the map one after the other. -/
theorem toMap_foldl_addRename (es : List (Name × Name)) (σ : Substitution E) :
    (es.foldl (fun τ e => τ.addRename e.1 e.2) σ).toMap =
      es.foldl (fun m e => Edit.renameIn m e.1 e.2) σ.toMap := by
  induction es generalizing σ with
  | nil => rfl
  | cons e es ih => rw [List.foldl_cons, List.foldl_cons, ih, toMap_addRename]

/-- Entering a moved pattern renames each binder in the map. -/
theorem toMap_extend (σ : Substitution E) (m : Moved) :
    (σ.extend m).toMap = m.renames.foldl (fun n e => Edit.renameIn n e.1 e.2) σ.toMap :=
  toMap_foldl_addRename m.renames σ

/-- Names that move are given one after the other what they become; no name is given a term
twice. -/
theorem get?_foldl_addRename : {es : List (Name × Name)} → es.Pairwise (fun a b => a.1 < b.1) →
    (∀ e ∈ es, e.1 ≠ e.2) → ∀ (σ : Substitution E) (z : Name),
      (es.foldl (fun τ e => τ.addRename e.1 e.2) σ).get? z =
        ((es.lookup z).map OfName.ofName).or (σ.get? z)
  | [], _, _, _, _ => rfl
  | (x, y) :: es, hasc, hmoves, σ, z => by
      obtain ⟨hx, hasc⟩ := List.pairwise_cons.mp hasc
      obtain ⟨hxy, hmoves⟩ := List.forall_mem_cons.mp hmoves
      rw [List.foldl_cons, get?_foldl_addRename hasc hmoves, get?_addRename, if_neg hxy,
        lookup_cons_ite]
      by_cases hz : z = x
      · have hmiss : es.lookup x = none := by
          rw [List.lookup_eq_none_iff]
          intro e he
          exact bne_iff_ne.mpr fun heq => Std.lt_irrefl (heq ▸ hx e he)
        rw [hz, if_pos rfl, if_pos rfl, hmiss]
        rfl
      · rw [if_neg hz, if_neg hz]

/-- The map of a renaming has its entries as names. -/
theorem toMap_ofRenaming (r : Renaming) :
    (ofRenaming r : Substitution E).toMap = r.entries.mapValues OfName.ofName := by
  apply OrderedMap.ext
  intro z
  rw [get?_toMap, ofRenaming, get?_foldl_addRename r.entries.ascending r.moves,
    OrderedMap.get?_mapValues, get?_identity, Option.or_none]
  rfl

/-- A change with as many terms as binders is made, and changes the map as it should. Any other is
refused. -/
theorem onSubstitution_cases (σ : Substitution E) (a : Edit E) :
    a.Balanced ∧ (∃ τ, a.onSubstitution σ = .ok τ ∧ τ.toMap = a.onMap σ.toMap) ∨
      ∃ p es, a = .addPattern p es ∧ p.size ≠ es.length ∧
        a.onSubstitution σ = .error (.countMismatch p.size es.length) := by
  match a with
  | .add x e => exact Or.inl ⟨trivial, _, rfl, toMap_add σ x e⟩
  | .addRename x y => exact Or.inl ⟨trivial, _, rfl, toMap_addRename σ x y⟩
  | .extend m => exact Or.inl ⟨trivial, _, rfl, toMap_extend σ m⟩
  | .sink => exact Or.inl ⟨trivial, _, rfl, rfl⟩
  | .ofRenaming r => exact Or.inl ⟨trivial, _, rfl, toMap_ofRenaming r⟩
  | .addPattern p es =>
    by_cases hlen : p.size = es.length
    · exact Or.inl ⟨hlen, _, if_pos hlen, toMap_foldl_add _ σ⟩
    · exact Or.inr ⟨p, es, rfl, hlen, if_neg hlen⟩

/-! ### Any number of changes -/

/-- The substitution after changes one after the other. -/
def run (σ : Substitution E) (edits : List (Edit E)) : Except Error (Substitution E) :=
  edits.foldlM Edit.onSubstitution σ

/-- Edits either all balance and have their effect on the map, or one that does not is reported. -/
theorem run_cases (edits : List (Edit E)) (σ : Substitution E) :
    (∀ a ∈ edits, a.Balanced) ∧
        (∃ τ, σ.run edits = .ok τ ∧ τ.toMap = edits.foldl Edit.onMap σ.toMap) ∨
      ∃ p es, .addPattern p es ∈ edits ∧ p.size ≠ es.length ∧
        σ.run edits = .error (.countMismatch p.size es.length) := by
  induction edits generalizing σ with
  | nil => exact Or.inl ⟨by simp, σ, rfl, rfl⟩
  | cons a edits ih =>
    rw [run, List.foldlM_cons]
    rcases onSubstitution_cases σ a with ⟨ha, τ, hτ, hmap⟩ | ⟨p, es, rfl, hlen, herr⟩
    · rw [hτ]
      rcases ih τ with ⟨hedits, υ, hυ, hmap'⟩ | ⟨p, es, hmem, hlen, herr⟩
      · exact Or.inl ⟨List.forall_mem_cons.mpr ⟨ha, hedits⟩, υ, hυ, by rw [hmap', hmap]; rfl⟩
      · exact Or.inr ⟨p, es, List.mem_cons_of_mem _ hmem, hlen, herr⟩
    · rw [herr]
      exact Or.inr ⟨p, es, List.mem_cons_self, hlen, rfl⟩

/-- Edits that do not fail have their effect on the map. -/
theorem toMap_of_run {edits : List (Edit E)} {σ : Substitution E}
    (h : identity.run edits = .ok σ) : σ.toMap = edits.foldl Edit.onMap ∅ := by
  rcases run_cases edits identity with ⟨-, τ, hτ, hmap⟩ | ⟨p, es, -, -, herr⟩
  · rw [h] at hτ
    exact Except.ok.inj hτ ▸ hmap
  · rw [h] at herr
    exact absurd herr nofun

/-- **A substitution answers as a finite map.** Let it be changed any number of times, from the
identity on, and let the same changes be made to a map. The changes go through exactly if every
pattern gets as many terms as it has binders, and otherwise a pattern that does not is reported.
Then a name has a term if it is a key of the map, it stands for the value there or else for itself,
the size is the number of keys, and the keys are listed in increasing order with their values. -/
theorem run_answers_as_map [ToSexp E] (edits : List (Edit E)) :
    ((∃ σ, identity.run edits = .ok σ) ↔
      ∀ p es, Edit.addPattern p es ∈ edits → p.binders.length = es.length) ∧
    (∀ err, identity.run edits = .error err → ∃ p es, Edit.addPattern p es ∈ edits ∧
      p.binders.length ≠ es.length ∧ err = .countMismatch p.binders.length es.length) ∧
    ∀ σ, identity.run edits = .ok σ →
      (∀ x, σ.contains x = true ↔ ∃ e, (edits.foldl Edit.onMap ∅).get? x = some e) ∧
      (∀ x, σ.lookup x = ((edits.foldl Edit.onMap ∅).get? x).getD (OfName.ofName x)) ∧
      σ.size = (edits.foldl Edit.onMap ∅).toList.length ∧
      toSexp σ = .list ((edits.foldl Edit.onMap ∅).toList.map fun e =>
        .list [toSexp e.1, toSexp e.2]) := by
  refine ⟨?_, ?_, ?_⟩
  · rcases run_cases edits identity with ⟨hall, τ, hτ, -⟩ | ⟨p, es, hmem, hlen, herr⟩
    · exact iff_of_true ⟨τ, hτ⟩ fun p es hmem => hall _ hmem
    · refine iff_of_false ?_ fun hall => hlen (hall p es hmem)
      rintro ⟨σ, hσ⟩
      rw [herr] at hσ
      exact absurd hσ nofun
  · intro err herr
    rcases run_cases edits identity with ⟨-, τ, hτ, -⟩ | ⟨p, es, hmem, hlen, herr'⟩
    · rw [hτ] at herr
      exact absurd herr nofun
    · rw [herr'] at herr
      exact ⟨p, es, hmem, hlen, (Except.error.inj herr).symm⟩
  · intro σ hσ
    rw [← toMap_of_run hσ]
    exact ⟨σ.contains_iff_toMap, σ.lookup_eq_toMap, rfl, rfl⟩

/-- A name that is given a term twice, one that is taken back to itself, and a pattern with a
repeated binder. -/
theorem run_answers_as_map_taken_back :
    ∃ σ : Substitution String, identity.run [.add 3 "a", .add 3 "b", .addRename 3 3,
        .addPattern (.list [5, 2, 5]) ["x", "y", "z"], .sink, .addRename 4 2] = .ok σ ∧
      σ.lookup 3 = "3" ∧ σ.lookup 5 = "z" ∧ σ.size = 3 ∧
      toSexp σ = .list [.list [.atom "2", .atom "y"], .list [.atom "4", .atom "2"],
        .list [.atom "5", .atom "z"]] := by
  have h := run_answers_as_map [.add 3 "a", .add 3 "b", .addRename 3 3,
    .addPattern (.list [5, 2, 5]) ["x", "y", "z"], .sink, .addRename 4 2]
  obtain ⟨-, hlookup, hsize, hsexp⟩ := h.2.2 _ rfl
  exact ⟨_, rfl, hlookup 3, hlookup 5, hsize, hsexp⟩

end

end Substitution

end NameBinding
