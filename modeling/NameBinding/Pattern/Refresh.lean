import NameBinding.Pattern

/-!
# Moving a pattern into a scope

A pattern that moves into another scope may have to give up binders that clash with it.
`Pattern.moveInto` replaces each binder by the name that `choose` picks for the scope right before
it and records every binder with its replacement, so that whatever crosses the pattern can follow.
`Pattern.refresh` replaces only the binders that clash, `Pattern.freshen` all of them.
-/

namespace NameBinding

/-- A pattern moved into a scope: the pattern to use there, the scope inside it, and each binder it
had with the binder in its place, in order. -/
structure Moved where
  pattern : Pattern
  scope : Scope
  renames : List (Name × Name)

namespace Moved

/-- Was every binder kept? -/
def unchanged (m : Moved) : Bool := m.renames.all fun e => e.1 == e.2

end Moved

namespace Pattern

/-- The pattern in the scope `s`, each binder replaced by the name chosen for the scope right
before it. -/
def moveInto (choose : Scope → Name → Name) (s : Scope) (p : Pattern) : Moved :=
  let w := p.fold (fun before x => ([(x, choose before x)], choose before x)) [] (· ++ ·) s
  ⟨w.result, w.scope, w.value⟩

/-- The pattern in the scope `s`, only the binders that clash replaced. -/
def refresh (s : Scope) (p : Pattern) : Moved := p.moveInto Scope.refresh s

/-- The pattern in the scope `s`, every binder replaced by a fresh one. -/
def freshen (s : Scope) (p : Pattern) : Moved := p.moveInto (fun before _ => before.fresh) s

end Pattern

end NameBinding
