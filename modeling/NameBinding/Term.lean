import NameBinding.Pattern
import NameBinding.Substitution

/-!
# Terms

A term is a variable or a node. A node has a head, plain children, and scoped children, each of
which is a pattern with the body it scopes over. The heads belong to the language that is being
represented; nothing here depends on them beyond their equality and their label.

Plain children always come before scoped ones. `Term.ind` is the induction principle that the
other modules use: a property holds of every term if it holds of variables and passes from the
children of a node to the node.
-/

namespace NameBinding

/-- A pattern together with what it scopes over. -/
structure Scoped (α : Type) where
  binder : Pattern
  body : α

/-- A term whose nodes have heads in `κ`. -/
inductive Term (κ : Type) where
  | var (x : Name)
  | node (head : κ) (terms : List (Term κ)) (scopes : List (Scoped (Term κ)))

/-- Heads with a text. -/
class Labelled (κ : Type) where
  label : κ → String

namespace Term

variable {κ : Type}

instance : Inhabited (Term κ) := ⟨var 0⟩

/-- A name stands for itself as a variable. -/
instance : OfName (Term κ) := ⟨var⟩

/-! ### Induction -/

/-- Induction over terms: a property of variables that passes from children to nodes holds of every
term. -/
@[elab_as_elim, induction_eliminator]
theorem ind {motive : Term κ → Prop} (var : ∀ x, motive (var x))
    (node : ∀ h ts ss, (∀ e ∈ ts, motive e) → (∀ sc ∈ ss, motive sc.body) → motive (node h ts ss))
    (e : Term κ) : motive e :=
  @Term.rec κ motive (fun ts => ∀ e ∈ ts, motive e) (fun ss => ∀ sc ∈ ss, motive sc.body)
    (fun sc => motive sc.body) var node (fun _ h => absurd h List.not_mem_nil)
    (fun _ _ he hts _ h => (List.mem_cons.mp h).elim (fun heq => heq ▸ he) (hts _))
    (fun _ h => absurd h List.not_mem_nil)
    (fun _ _ hsc hss _ h => (List.mem_cons.mp h).elim (fun heq => heq ▸ hsc) (hss _))
    (fun _ _ hb => hb) e

/-! ### Size -/

mutual

/-- The number of variables and nodes. -/
def size : Term κ → Nat
  | var _ => 1
  | node _ ts ss => sizeTerms ts + sizeScopes ss + 1

/-- The size of all plain children together. -/
def sizeTerms : List (Term κ) → Nat
  | [] => 0
  | t :: ts => size t + sizeTerms ts

/-- The size of all scoped children together. -/
def sizeScopes : List (Scoped (Term κ)) → Nat
  | [] => 0
  | ⟨_, b⟩ :: ss => size b + sizeScopes ss

end

/-- A term has at least one variable or node. -/
theorem size_pos : (e : Term κ) → 0 < e.size
  | var _ => Nat.one_pos
  | node _ _ _ => Nat.succ_pos _

/-! ### Free names -/

mutual

/-- The names that occur free. -/
def freeNames : Term κ → NameSet
  | var x => .singleton x
  | node _ ts ss => (freeNamesTerms ts).union (freeNamesScopes ss)

/-- The names that occur free in plain children. -/
def freeNamesTerms : List (Term κ) → NameSet
  | [] => ∅
  | t :: ts => (freeNames t).union (freeNamesTerms ts)

/-- The names that occur free in scoped children: those of the bodies less the binders. -/
def freeNamesScopes : List (Scoped (Term κ)) → NameSet
  | [] => ∅
  | ⟨p, b⟩ :: ss => ((freeNames b).eraseAll p.binders).union (freeNamesScopes ss)

end

/-- A variable is the only free name of itself. -/
theorem mem_freeNames_var {x y : Name} : x ∈ (var y : Term κ).freeNames ↔ x = y := by
  rw [freeNames, OrderedSet.mem_singleton]

/-- What is free in one of the terms is free in the list. -/
theorem mem_freeNamesTerms {x : Name} {ts : List (Term κ)} :
    x ∈ freeNamesTerms ts ↔ ∃ e ∈ ts, x ∈ e.freeNames := by
  induction ts with
  | nil => simp [freeNamesTerms]
  | cons t ts ih => simp [freeNamesTerms, ih]

/-- What is free in one of the bodies and not bound by its pattern is free in the list. -/
theorem mem_freeNamesScopes {x : Name} {ss : List (Scoped (Term κ))} :
    x ∈ freeNamesScopes ss ↔ ∃ sc ∈ ss, x ∈ sc.body.freeNames ∧ x ∉ sc.binder.binders := by
  induction ss with
  | nil => simp [freeNamesScopes]
  | cons sc ss ih =>
    obtain ⟨p, b⟩ := sc
    simp [freeNamesScopes, ih]

/-- A name is free in a node if it is free in a plain child, or in the body of a scoped child whose
pattern does not bind it. -/
theorem mem_freeNames_node {x : Name} {h : κ} {ts : List (Term κ)} {ss : List (Scoped (Term κ))} :
    x ∈ (node h ts ss).freeNames ↔
      (∃ e ∈ ts, x ∈ e.freeNames) ∨
        ∃ sc ∈ ss, x ∈ sc.body.freeNames ∧ x ∉ sc.binder.binders := by
  rw [freeNames, OrderedSet.mem_union, mem_freeNamesTerms, mem_freeNamesScopes]

/-! ### Equality of terms, binders included -/

section equality

variable [DecidableEq κ]

mutual

/-- The same term, down to the binders? -/
def same : Term κ → Term κ → Bool
  | var x, var y => x == y
  | node h ts ss, node h' ts' ss' => h == h' && sameTerms ts ts' && sameScopes ss ss'
  | _, _ => false

/-- The same plain children? -/
def sameTerms : List (Term κ) → List (Term κ) → Bool
  | [], [] => true
  | t :: ts, t' :: ts' => same t t' && sameTerms ts ts'
  | _, _ => false

/-- The same scoped children? -/
def sameScopes : List (Scoped (Term κ)) → List (Scoped (Term κ)) → Bool
  | [], [] => true
  | ⟨p, b⟩ :: ss, ⟨p', b'⟩ :: ss' => p.same p' && same b b' && sameScopes ss ss'
  | _, _ => false

end

mutual

/-- Terms that compare the same are equal. -/
theorem eq_of_same : (l r : Term κ) → same l r = true → l = r
  | var x, var y, h => by rw [beq_iff_eq.mp h]
  | node _ ts ss, node _ ts' ss', h => by
      simp only [same, Bool.and_eq_true, beq_iff_eq] at h
      rw [h.1.1, eq_of_sameTerms ts ts' h.1.2, eq_of_sameScopes ss ss' h.2]
  | var _, node _ _ _, h => by simp [same] at h
  | node _ _ _, var _, h => by simp [same] at h

/-- Lists of terms that compare the same are equal. -/
theorem eq_of_sameTerms : (ts ts' : List (Term κ)) → sameTerms ts ts' = true → ts = ts'
  | [], [], _ => rfl
  | t :: ts, t' :: ts', h => by
      simp only [sameTerms, Bool.and_eq_true] at h
      rw [eq_of_same t t' h.1, eq_of_sameTerms ts ts' h.2]
  | [], _ :: _, h => by simp [sameTerms] at h
  | _ :: _, [], h => by simp [sameTerms] at h

/-- Lists of scoped terms that compare the same are equal. -/
theorem eq_of_sameScopes :
    (ss ss' : List (Scoped (Term κ))) → sameScopes ss ss' = true → ss = ss'
  | [], [], _ => rfl
  | ⟨p, b⟩ :: ss, ⟨p', b'⟩ :: ss', h => by
      simp only [sameScopes, Bool.and_eq_true] at h
      rw [Pattern.same_iff.mp h.1.1, eq_of_same b b' h.1.2, eq_of_sameScopes ss ss' h.2]
  | [], _ :: _, h => by simp [sameScopes] at h
  | _ :: _, [], h => by simp [sameScopes] at h

end

mutual

/-- A term compares the same as itself. -/
theorem same_self : (e : Term κ) → same e e = true
  | var x => by simp [same]
  | node h ts ss => by simp [same, sameTerms_self ts, sameScopes_self ss]

/-- A list of terms compares the same as itself. -/
theorem sameTerms_self : (ts : List (Term κ)) → sameTerms ts ts = true
  | [] => rfl
  | t :: ts => by rw [sameTerms, same_self t, sameTerms_self ts]; rfl

/-- A list of scoped terms compares the same as itself. -/
theorem sameScopes_self : (ss : List (Scoped (Term κ))) → sameScopes ss ss = true
  | [] => rfl
  | ⟨p, b⟩ :: ss => by
      rw [sameScopes, Pattern.same_iff.mpr rfl, same_self b, sameScopes_self ss]; rfl

end

/-- Comparing terms down to the binders decides their equality. -/
theorem same_iff {l r : Term κ} : l.same r = true ↔ l = r :=
  ⟨eq_of_same l r, fun h => h ▸ same_self l⟩

instance : DecidableEq (Term κ) := fun _ _ => decidable_of_iff _ same_iff

end equality

/-! ### Terms as S-expressions -/

section sexp

variable [Labelled κ]

mutual

/-- Variables are their digits; a node is a list of its label, its plain children and its scoped
children, each of those a list of a pattern and a body. -/
def toSexp : Term κ → Sexp
  | var x => NameBinding.toSexp x
  | node h ts ss => .tagged (Labelled.label h) (toSexpTerms ts ++ toSexpScopes ss)

/-- The plain children, one by one. -/
def toSexpTerms : List (Term κ) → List Sexp
  | [] => []
  | t :: ts => toSexp t :: toSexpTerms ts

/-- The scoped children, one by one. -/
def toSexpScopes : List (Scoped (Term κ)) → List Sexp
  | [] => []
  | ⟨p, b⟩ :: ss => .list [p.toSexp, toSexp b] :: toSexpScopes ss

end

instance : ToSexp (Term κ) := ⟨toSexp⟩

end sexp

end Term

end NameBinding
