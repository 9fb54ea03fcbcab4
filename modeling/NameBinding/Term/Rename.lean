import NameBinding.Term

/-!
# Renaming the free names of a term

Renaming keeps its own account of the names in play: below a pattern, the binders stop being renamed
and those that clash with the scope are renamed to their replacements. A renaming that has become
the identity leaves what is below as it stands.

Renaming may fail, when a pattern repeats a binder whose occurrences get different replacements.
When it succeeds the result has exactly as many variables and nodes as before (`size_of_rename`).
-/

namespace NameBinding

/-- The renaming below a pattern that was moved into a scope: binders stop being renamed and those
that were replaced are renamed to their replacements. -/
def Renaming.cross (r : Renaming) (m : Moved) : Except Error Renaming :=
  m.renames.foldlM (fun q e => q.merge (.single e.1 e.2))
    (r.withoutAll (m.renames.map Prod.fst))

namespace Term

variable {κ : Type}

mutual

/-- The term with its free names renamed, in the output scope `s`. -/
def rename (s : Scope) (r : Renaming) : Term κ → Except Error (Term κ)
  | var x => .ok (var (r.apply x))
  | node h ts ss =>
    if r.isIdentity then .ok (node h ts ss)
    else do
      let ts' ← renameTerms s r ts
      let ss' ← renameScopes s r ss
      return node h ts' ss'

/-- The plain children with their free names renamed. -/
def renameTerms (s : Scope) (r : Renaming) : List (Term κ) → Except Error (List (Term κ))
  | [] => .ok []
  | t :: ts => do
    let t' ← rename s r t
    let ts' ← renameTerms s r ts
    return t' :: ts'

/-- The scoped children with their free names renamed. -/
def renameScopes (s : Scope) (r : Renaming) :
    List (Scoped (Term κ)) → Except Error (List (Scoped (Term κ)))
  | [] => .ok []
  | ⟨p, b⟩ :: ss => do
    let m := p.refresh s
    let inner ← r.cross m
    let b' ← rename m.scope inner b
    let ss' ← renameScopes s r ss
    return ⟨m.pattern, b'⟩ :: ss'

end

/-! ### Renaming keeps the size -/

mutual

/-- Renaming neither adds nor removes variables or nodes. -/
theorem size_of_rename (s : Scope) (r : Renaming) :
    (e : Term κ) → ∀ {e'}, rename s r e = .ok e' → e'.size = e.size
  | var x, e', h => by
      rw [rename, Except.ok.injEq] at h
      rw [← h, size, size]
  | node hd ts ss, e', h => by
      rw [rename] at h
      split at h
      · rw [Except.ok.injEq] at h
        rw [h]
      · obtain ⟨ts', hts, h⟩ := Error.bind_eq_ok.mp h
        obtain ⟨ss', hss, h⟩ := Error.bind_eq_ok.mp h
        rw [← Error.pure_eq_ok.mp h, size, size, sizeTerms_of_rename s r ts hts,
          sizeScopes_of_rename s r ss hss]

/-- Renaming keeps the size of plain children. -/
theorem sizeTerms_of_rename (s : Scope) (r : Renaming) :
    (ts : List (Term κ)) → ∀ {ts'}, renameTerms s r ts = .ok ts' → sizeTerms ts' = sizeTerms ts
  | [], ts', h => by
      rw [renameTerms, Except.ok.injEq] at h
      rw [← h]
  | t :: ts, ts', h => by
      rw [renameTerms] at h
      obtain ⟨u, hu, h⟩ := Error.bind_eq_ok.mp h
      obtain ⟨us, hus, h⟩ := Error.bind_eq_ok.mp h
      rw [← Error.pure_eq_ok.mp h, sizeTerms, sizeTerms, size_of_rename s r t hu,
        sizeTerms_of_rename s r ts hus]

/-- Renaming keeps the size of scoped children. -/
theorem sizeScopes_of_rename (s : Scope) (r : Renaming) :
    (ss : List (Scoped (Term κ))) → ∀ {ss'}, renameScopes s r ss = .ok ss' →
      sizeScopes ss' = sizeScopes ss
  | [], ss', h => by
      rw [renameScopes, Except.ok.injEq] at h
      rw [← h]
  | ⟨p, b⟩ :: ss, ss', h => by
      rw [renameScopes] at h
      obtain ⟨inner, -, h⟩ := Error.bind_eq_ok.mp h
      obtain ⟨b', hb, h⟩ := Error.bind_eq_ok.mp h
      obtain ⟨us, hus, h⟩ := Error.bind_eq_ok.mp h
      rw [← Error.pure_eq_ok.mp h, sizeScopes, sizeScopes, size_of_rename _ _ b hb,
        sizeScopes_of_rename s r ss hus]

end

end Term

end NameBinding
