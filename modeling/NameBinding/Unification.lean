import NameBinding.Pattern
import NameBinding.Renaming

/-!
# Lining up two patterns

Two patterns of the same shape are lined up by choosing one common target for each pair of binders
and renaming both sides onto the targets. A `Unifier` records the targets, the two renamings and how
much had to be renamed.

Pairs are taken in order. A pair lines up on its smaller binder, on the larger one if an earlier
pair took the smaller, and otherwise on a name that is fresh for the scope and both patterns. A
binder may hide a name of the scope; renaming the other side onto it would capture that side's
occurrences of the outer name, so it serves as a target only when both sides bind it.
-/

namespace NameBinding

namespace Unifier

/-- How much of two patterns has to be renamed, the cheapest first. -/
inductive Kind where
  | identical
  | renameRight
  | renameLeft
  | renameBoth
  | notUnifiable
  deriving DecidableEq, Inhabited

namespace Kind

/-- The kind in words. -/
def label : Kind → String
  | identical => "identical"
  | renameRight => "rename_right"
  | renameLeft => "rename_left"
  | renameBoth => "rename_both"
  | notUnifiable => "not_unifiable"

/-- The kind with a number, counted from the cheapest. -/
def ofCode : Nat → Except Error Kind
  | 0 => .ok identical
  | 1 => .ok renameRight
  | 2 => .ok renameLeft
  | 3 => .ok renameBoth
  | 4 => .ok notUnifiable
  | _ => .error .unsupported

/-- The kind of two parts together: `identical` adds nothing and `notUnifiable` spoils the whole. -/
def merge : Kind → Kind → Kind
  | notUnifiable, _ => notUnifiable
  | _, notUnifiable => notUnifiable
  | identical, k => k
  | k, identical => k
  | j, k => if j = k then j else renameBoth

end Kind

end Unifier

/-- How two patterns line up: the common binders, and the renaming of either side onto them. -/
structure Unifier where
  kind : Unifier.Kind
  binders : NameSet
  left : Renaming
  right : Renaming
  deriving DecidableEq

namespace Unifier

/-- Two patterns that do not line up. -/
def failure : Unifier := ⟨.notUnifiable, ∅, .identity, .identity⟩

/-- Two patterns without binders. -/
def unit : Unifier := ⟨.identical, ∅, .identity, .identity⟩

instance : Inhabited Unifier := ⟨failure⟩

/-- The binders `l` and `r` lined up on the name `c`. -/
def align (l r c : Name) : Unifier where
  kind :=
    if l = c then if r = c then .identical else .renameRight
    else if r = c then .renameLeft else .renameBoth
  binders := .singleton c
  left := .single l c
  right := .single r c

/-- Two parts together. The left renamings are merged first. -/
def merge (a b : Unifier) : Except Error Unifier :=
  if a.kind.merge b.kind = .notUnifiable then .ok failure
  else do
    let left ← a.left.merge b.left
    let right ← a.right.merge b.right
    return ⟨a.kind.merge b.kind, a.binders.union b.binders, left, right⟩

instance : ToSexp Unifier where
  toSexp u := .list
    [.atom u.kind.label, (Pattern.set u.binders).toSexp, toSexp u.left, toSexp u.right]

/-- The names that a pair of binders may line up on, the first choice first. -/
def candidates (l r : Name) : List Name := if r < l then [r, l] else [l, r]

/-- May the pair `(l, r)` line up on `c`? Not if an earlier pair took it, nor if it would capture a
name of the scope. -/
def usable (s : Scope) (targets : NameSet) (l r c : Name) : Bool :=
  !targets.toList.contains c && (l == r || !s.contains c)

/-- Lines up pairs of binders one after the other. `taken` has every name that is in use and
`targets` those that earlier pairs lined up on. -/
def alignPairs (s : Scope) : List (Name × Name) → Scope → NameSet → Unifier →
    Except Error Unifier
  | [], _, _, acc => .ok acc
  | (l, r) :: pairs, taken, targets, acc =>
    match (candidates l r).find? (usable s targets l r) with
    | some c => do
      let acc ← acc.merge (align l r c)
      alignPairs s pairs taken (targets.insert c) acc
    | none => do
      let c := taken.fresh
      let acc ← acc.merge (align l r c)
      alignPairs s pairs (taken.extend c) (targets.insert c) acc

end Unifier

/-- Two binders lined up on the smaller one. -/
def Name.unify (l r : Name) : Unifier := Unifier.align l r (if r < l then r else l)

/-- Two patterns inside the scope `s`, lined up pair by pair. -/
def Pattern.unify (s : Scope) (l r : Pattern) : Except Error Unifier :=
  if l.sameShape r then
    Unifier.alignPairs s (l.binders.zip r.binders) ((s.extendAll l.binders).extendAll r.binders) ∅
      .unit
  else .ok .failure

end NameBinding
