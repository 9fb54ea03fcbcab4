import Mathlib.Algebra.GroupWithZero.Nat
import Mathlib.Algebra.Order.BigOperators.Group.List
import Mathlib.Algebra.Order.Group.Nat
import Mathlib.Logic.Relation
import NameBinding.Proofs.Shadowing
import NameBinding.Term.AlphaEquiv

/-!
# Comparing terms comes to an end

Two terms are compared up to the choice of binders by renaming the bodies below lined-up patterns
and comparing what comes out, so the comparison goes on with terms that are parts of neither side.
It ends because renaming never changes the tree of a term.

* The outline of a term is its tree without names, and of each pattern what a function `f` keeps
  (`Term.outline`). If nothing is kept, renaming preserves the outline whenever it returns; if the
  shape is kept, it does so as long as no draw wraps (`Term.outline_rename`). A draw that wraps may
  put two members of a set on one name.
* The nodes of a term are those of its outline, scoped children included (`Term.nodes`), so a
  renamed term has as many (`Term.nodes_rename`).
* `Comparison.turn` is what one call does by itself: it answers, or it leaves the answer to other
  comparisons, all of which must hold. The two procedures satisfy just that equation
  (`Comparison.answer_eq`), for all terms.
* All comparisons that one call leads to have fewer nodes together than the one it was made for
  (`Comparison.size_turn_lt`). So every call further inside is on fewer nodes
  (`Comparison.size_lt_of_calls`), and working the comparisons off one after the other stops within
  as many turns as there are nodes (`Comparison.run_eq`).
-/

namespace NameBinding

/-! ### Shapes of moved patterns -/

/-- A pattern keeps its shape when it moves into a scope without a draw that wraps. Its sets may be
listed in another order, but no member is lost. -/
theorem Pattern.moveInto_shape_of_hasRoom {choose : Scope → Name → Name}
    (hchoose : Scope.KeepsOrDraws choose) {s : Scope} {p : Pattern} (h : p.HasRoom choose s) :
    (p.moveInto choose s).pattern.shape = p.shape := by
  show (p.walk (moveVisit choose) s []).result.shape = p.shape
  generalize ([] : List (Name × Name)) = acc
  induction p generalizing s acc with
  | wildcard => rfl
  | single x => rfl
  | list xs => simp only [walk, shape, walkNames_moveVisit, length_replacements]
  | set xs =>
    have hlength := (walk_moveVisit_perm hchoose h acc).length_eq
    rw [length_replacements] at hlength
    exact congrArg Shape.set hlength
  | pair l r ihl ihr =>
    obtain ⟨hl, hr⟩ := hasRoomForAll_append.mp h
    simp only [walk, shape, walk_scope, walkNames_moveVisit, ihl hl, ihr hr]

/-- With the largest name of all in play, both members of a set are drawn as `0`. -/
example : ((Pattern.set (.ofList [0, Name.largest])).refresh
    (Scope.empty.extendAll [0, Name.largest])).pattern.shape = .set 1 := by decide

/-! ### The tree of a term -/

/-- The tree of a term: variables without their names, nodes with their heads and children, and for
each scoped child something about its pattern. -/
inductive Outline (κ π : Type) where
  | leaf
  | node (head : κ) (terms : List (Outline κ π)) (scopes : List (π × Outline κ π))

namespace Outline

variable {κ π : Type}

mutual

/-- The number of nodes of a tree. A scoped child is a node of its own above its body. -/
def count : Outline κ π → Nat
  | leaf => 1
  | node _ ts ss => countTerms ts + countScopes ss + 1

/-- The nodes of all plain children together. -/
def countTerms : List (Outline κ π) → Nat
  | [] => 0
  | t :: ts => count t + countTerms ts

/-- The nodes of all scoped children together. -/
def countScopes : List (π × Outline κ π) → Nat
  | [] => 0
  | (_, b) :: ss => count b + 1 + countScopes ss

end

/-- An outline has at least one node. -/
theorem count_pos (o : Outline κ π) : 0 < o.count := by
  cases o with
  | leaf => exact Nat.one_pos
  | node h ts ss => exact Nat.succ_pos _

end Outline

namespace Term

variable {κ π : Type}

section outline

variable (f : Pattern → π)

mutual

/-- The tree of a term, with `f p` for each pattern `p`. -/
def outline : Term κ → Outline κ π
  | var _ => .leaf
  | node h ts ss => .node h (outlineTerms ts) (outlineScopes ss)

/-- The trees of plain children. -/
def outlineTerms : List (Term κ) → List (Outline κ π)
  | [] => []
  | t :: ts => outline t :: outlineTerms ts

/-- The trees of scoped children. -/
def outlineScopes : List (Scoped (Term κ)) → List (π × Outline κ π)
  | [] => []
  | ⟨p, b⟩ :: ss => (f p, outline b) :: outlineScopes ss

end

/-- The outline of a node is made from those of its children. -/
theorem outline_node (h : κ) (ts : List (Term κ)) (ss : List (Scoped (Term κ))) :
    (node h ts ss).outline f =
      .node h (ts.map (outline f)) (ss.map fun sc => (f sc.binder, sc.body.outline f)) := by
  have hterms : outlineTerms f ts = ts.map (outline f) := by
    induction ts with
    | nil => rfl
    | cons t ts ih => rw [outlineTerms, ih, List.map_cons]
  have hscopes : outlineScopes f ss = ss.map fun sc => (f sc.binder, sc.body.outline f) := by
    induction ss with
    | nil => rfl
    | cons sc ss ih => rw [outlineScopes, ih, List.map_cons]
  rw [outline, hterms, hscopes]

end outline

/-- Room for renaming a node is room for renaming its children. -/
theorem RenameHasRoom.children {s : Scope} {r : Renaming} {h : κ} {ts : List (Term κ)}
    {ss : List (Scoped (Term κ))} (hroom : RenameHasRoom s r (.node h ts ss))
    (hr : r ≠ .identity) :
    (∀ e ∈ ts, RenameHasRoom s r e) ∧
      ∀ sc ∈ ss, sc.binder.HasRoom Scope.refresh s ∧
        ∀ inner, r.cross (sc.binder.refresh s) = .ok inner →
          RenameHasRoom (sc.binder.refresh s).scope inner sc.body := by
  rcases hroom with _ | _ | ⟨hts, hbs, hss⟩
  · exact absurd rfl hr
  · exact ⟨hts, fun sc hsc => ⟨hbs sc hsc, hss sc hsc⟩⟩

/-- Renaming keeps the tree of a term. Of the patterns it keeps what does not change without a draw
that wraps; what is the same for all patterns is kept also if one does. -/
theorem outline_rename {f : Pattern → π}
    (hf : ∀ s p, p.HasRoom Scope.refresh s → f (p.refresh s).pattern = f p) (e : Term κ)
    {e' : Term κ} {s : Scope} {r : Renaming} (h : rename s r e = .ok e')
    (hroom : RenameHasRoom s r e ∨ ∀ p q, f p = f q) : e'.outline f = e.outline f := by
  induction e generalizing e' s r with
  | var x =>
    cases h
    rfl
  | node hd ts ss ihts ihss =>
    rcases rename_node_eq_ok.mp h with ⟨rfl, rfl⟩ | ⟨hr, ts', ss', rfl, hts', hss'⟩
    · rfl
    · have hinside := hroom.imp_left fun hroom => hroom.children hr
      rw [outline_node, outline_node]
      congr 1
      · refine map_eq_map_of_forall₂ hts' fun t ht t' htt' => ihts t ht htt' ?_
        exact hinside.imp_left fun hroom => hroom.1 t ht
      · refine map_eq_map_of_forall₂ hss' ?_
        rintro sc hsc ⟨p', b'⟩ ⟨rfl, inner, hinner, hb'⟩
        have hpattern : f (sc.binder.refresh s).pattern = f sc.binder := by
          rcases hinside with hroom | hconst
          · exact hf s sc.binder (hroom.2 sc hsc).1
          · exact hconst _ _
        have hbody : b'.outline f = sc.body.outline f :=
          ihss sc hsc hb' (hinside.imp_left fun hroom => (hroom.2 sc hsc).2 inner hinner)
        rw [hpattern, hbody]

/-- The number of nodes of a term. Variables and scoped children are nodes as well. -/
def nodes (e : Term κ) : Nat := (e.outline fun _ => ()).count

/-- A term has at least one node. -/
theorem nodes_pos (e : Term κ) : 0 < e.nodes := Outline.count_pos _

/-- A node counts its plain children, its scoped children with their patterns, and itself. -/
theorem nodes_node (h : κ) (ts : List (Term κ)) (ss : List (Scoped (Term κ))) :
    (node h ts ss).nodes =
      (ts.map nodes).sum + (ss.map fun sc => sc.body.nodes + 1).sum + 1 := by
  have hterms : Outline.countTerms (outlineTerms (fun _ => ()) ts) = (ts.map nodes).sum := by
    induction ts with
    | nil => rfl
    | cons t ts ih => rw [outlineTerms, Outline.countTerms, ih, List.map_cons, List.sum_cons, nodes]
  have hscopes : Outline.countScopes (outlineScopes (fun _ => ()) ss) =
      (ss.map fun sc => sc.body.nodes + 1).sum := by
    induction ss with
    | nil => rfl
    | cons sc ss ih =>
      rw [outlineScopes, Outline.countScopes, ih, List.map_cons, List.sum_cons, nodes]
  rw [nodes, outline, Outline.count, hterms, hscopes]

/-- Renaming keeps the number of nodes. -/
theorem nodes_rename {e e' : Term κ} {s : Scope} {r : Renaming} (h : rename s r e = .ok e') :
    e'.nodes = e.nodes :=
  congrArg Outline.count (outline_rename (fun _ _ _ => rfl) e h (Or.inr fun _ _ => rfl))

end Term

/-! ### One call of a comparison -/

/-- A comparison up to the choice of binders, of two terms or of two scoped terms. -/
inductive Comparison (κ : Type) where
  | terms (s : Scope) (l r : Term κ)
  | scopes (s : Scope) (l r : Scoped (Term κ))

/-- What one call does by itself: it answers, or it leaves the answer to other comparisons, which
must all hold. -/
inductive Turn (κ : Type) where
  | answer (a : Except Error Bool)
  | all (cs : List (Comparison κ))

/-- The comparisons that a call leads to. -/
def Turn.calls {κ : Type} : Turn κ → List (Comparison κ)
  | answer _ => []
  | all cs => cs

namespace Comparison

open NameBinding.Term (alphaEquiv alphaEquivTerms alphaEquivScoped alphaEquivScopes rename)

variable {κ : Type}

/-- The number of nodes on both sides. -/
def size : Comparison κ → Nat
  | terms _ l r => l.nodes + r.nodes
  | scopes _ l r => (l.body.nodes + 1) + (r.body.nodes + 1)

section calls

variable [DecidableEq κ]

/-- What the procedures for terms and for scoped terms say. -/
def answer : Comparison κ → Except Error Bool
  | terms s l r => alphaEquiv s l r
  | scopes s l r => alphaEquivScoped s l r

/-- One call. Nodes leave the answer to their children, plain ones first; scoped terms leave it to
their renamed bodies, of which the right one is renamed first. Whether both sides are one and the
same value is not asked: a call that asked would answer at once, so it would make no calls but
these. -/
def turn : Comparison κ → Turn κ
  | terms _ (.var x) (.var y) => .answer (.ok (x == y))
  | terms s (.node h ts ss) (.node h' ts' ss') =>
    if h = h' ∧ ts.length = ts'.length ∧ ss.length = ss'.length then
      .all (List.zipWith (terms s) ts ts' ++ List.zipWith (scopes s) ss ss')
    else .answer (.ok false)
  | terms _ _ _ => .answer (.ok false)
  | scopes s l r =>
    match l.binder.unify s r.binder with
    | .error e => .answer (.error e)
    | .ok u =>
      if u.kind = .notUnifiable then .answer (.ok false)
      else
        match rename (s.extendAll u.binders.toList) u.right r.body with
        | .error e => .answer (.error e)
        | .ok rb =>
          match rename (s.extendAll u.binders.toList) u.left l.body with
          | .error e => .answer (.error e)
          | .ok lb => .all [terms (s.extendAll u.binders.toList) lb rb]

/-- Do the comparisons all hold? The first one that does not, or fails, decides. -/
def allHold : List (Comparison κ) → Except Error Bool
  | [] => .ok true
  | c :: cs => do if ← c.answer then allHold cs else return false

/-- The answer that a call leaves to other comparisons. -/
def resolve : Turn κ → Except Error Bool
  | .answer a => a
  | .all cs => allHold cs

/-- A single comparison holds if it is answered so. -/
theorem allHold_singleton (c : Comparison κ) : allHold [c] = c.answer := by
  rw [allHold]
  rcases c.answer with e | (_ | _) <;> rfl

/-- Two lists of comparisons hold if the one does and then the other. -/
theorem allHold_append (cs ds : List (Comparison κ)) :
    allHold (cs ++ ds) = (do if ← allHold cs then allHold ds else return false) := by
  induction cs with
  | nil => rfl
  | cons c cs ih =>
    rw [List.cons_append, allHold, allHold, ih, bind_assoc]
    congr 1
    funext b
    cases b <;> rfl

/-- Plain children compare as all their comparisons hold. -/
theorem alphaEquivTerms_eq_allHold (s : Scope) (ls rs : List (Term κ)) :
    alphaEquivTerms s ls rs = allHold (List.zipWith (terms s) ls rs) := by
  induction ls generalizing rs with
  | nil => simp [alphaEquivTerms, allHold]
  | cons l ls ih =>
    cases rs with
    | nil => simp [alphaEquivTerms, allHold]
    | cons r rs =>
      rw [alphaEquivTerms, ih]
      rfl

/-- Scoped children compare as all their comparisons hold. -/
theorem alphaEquivScopes_eq_allHold (s : Scope) (ls rs : List (Scoped (Term κ))) :
    alphaEquivScopes s ls rs = allHold (List.zipWith (scopes s) ls rs) := by
  induction ls generalizing rs with
  | nil => simp [alphaEquivScopes, allHold]
  | cons l ls ih =>
    cases rs with
    | nil => simp [alphaEquivScopes, allHold]
    | cons r rs =>
      rw [alphaEquivScopes, ih]
      rfl

/-- The procedures answer as one call and the comparisons it leads to. -/
theorem answer_eq (c : Comparison κ) : c.answer = resolve c.turn := by
  match c with
  | terms s (.var x) (.var y) => rw [answer, alphaEquiv, turn, resolve]
  | terms s (.var x) (.node h ts ss) =>
    rw [answer, alphaEquiv, turn, resolve]
    all_goals simp
  | terms s (.node h ts ss) (.var y) =>
    rw [answer, alphaEquiv, turn, resolve]
    all_goals simp
  | terms s (.node h ts ss) (.node h' ts' ss') =>
    rw [answer, alphaEquiv, turn]
    split
    · rw [resolve, allHold_append, alphaEquivTerms_eq_allHold, alphaEquivScopes_eq_allHold]
    · rfl
  | scopes s l r =>
    rw [answer, Term.alphaEquivScoped_eq, turn]
    cases l.binder.unify s r.binder with
    | error e => rfl
    | ok u =>
      dsimp only [bind, Except.bind]
      split
      · rfl
      · cases rename (s.extendAll u.binders.toList) u.right r.body with
        | error e => rfl
        | ok rb =>
          cases rename (s.extendAll u.binders.toList) u.left l.body with
          | error e => rfl
          | ok lb =>
            exact (allHold_singleton (terms (s.extendAll u.binders.toList) lb rb)).symm

end calls

/-! ### Every call is on less -/

/-- A comparison has at least one node. -/
theorem size_pos (c : Comparison κ) : 0 < c.size := by
  cases c with
  | terms s l r => exact Nat.add_pos_left l.nodes_pos _
  | scopes s l r => exact Nat.succ_pos _

/-- Comparing lists pair by pair leads to no more nodes than the lists have. -/
theorem sum_size_zipWith_le {α : Type} (compare : α → α → Comparison κ) {count : α → Nat}
    (h : ∀ a b, (compare a b).size = count a + count b) (ls rs : List α) :
    ((List.zipWith compare ls rs).map size).sum ≤ (ls.map count).sum + (rs.map count).sum := by
  induction ls generalizing rs with
  | nil => simp
  | cons l ls ih =>
    cases rs with
    | nil => simp
    | cons r rs =>
      have hrest := ih rs
      simp only [List.zipWith_cons_cons, List.map_cons, List.sum_cons, h]
      omega

section runs

variable [DecidableEq κ]

/-- The comparisons that a call leads to have fewer nodes together than the one it was made for. -/
theorem size_turn_lt (c : Comparison κ) : (c.turn.calls.map size).sum < c.size := by
  have hpos := c.size_pos
  match c with
  | terms s (.var x) (.var y) => exact hpos
  | terms s (.var x) (.node h ts ss) => exact hpos
  | terms s (.node h ts ss) (.var y) => exact hpos
  | terms s (.node h ts ss) (.node h' ts' ss') =>
    rw [turn]
    split
    · have hts := sum_size_zipWith_le (terms s) (fun _ _ => rfl) ts ts'
      have hss := sum_size_zipWith_le (scopes s) (fun _ _ => rfl) ss ss'
      simp only [Turn.calls, List.map_append, List.sum_append, size, Term.nodes_node]
      omega
    · exact hpos
  | scopes s l r =>
    rw [turn]
    split
    · exact hpos
    · split
      · exact hpos
      · split
        · exact hpos
        · rename_i rb hrb
          split
          · exact hpos
          · rename_i lb hlb
            -- the bodies are left, renamed but with as many nodes, and the scoped terms are gone
            simp only [Turn.calls, List.map_cons, List.map_nil, List.sum_cons, List.sum_nil, size,
              Term.nodes_rename hlb, Term.nodes_rename hrb]
            omega

/-- One comparison leads to another. -/
def Calls (c d : Comparison κ) : Prop := d ∈ c.turn.calls

/-- A comparison calls smaller ones only. -/
theorem Calls.size_lt {c d : Comparison κ} (h : Calls c d) : d.size < c.size :=
  Nat.lt_of_le_of_lt (List.le_sum_of_mem (List.mem_map_of_mem h)) c.size_turn_lt

/-- A call further inside is on fewer nodes. -/
theorem size_lt_of_calls {c d : Comparison κ} (h : Relation.TransGen Calls c d) :
    d.size < c.size := by
  induction h with
  | single h => exact h.size_lt
  | tail _ h ih => exact h.size_lt.trans ih

/-! ### Working off comparisons -/

/-- Works off pending comparisons one after the other, with at most `n` turns. -/
def run : Nat → List (Comparison κ) → Option (Except Error Bool)
  | 0, _ => none
  | _ + 1, [] => some (.ok true)
  | n + 1, c :: cs =>
    match c.turn with
    | .answer (.ok true) => run n cs
    | .answer a => some a
    | .all ds => run n (ds ++ cs)

/-- With more turns than the pending comparisons have nodes, there is an answer, and it is that of
the procedures. -/
theorem run_eq {n : Nat} {cs : List (Comparison κ)} (h : (cs.map size).sum < n) :
    run n cs = some (allHold cs) := by
  induction n generalizing cs with
  | zero => omega
  | succ n ih =>
    cases cs with
    | nil => rfl
    | cons c cs =>
      have hpos := c.size_pos
      have hless := c.size_turn_lt
      rw [List.map_cons, List.sum_cons] at h
      rw [run, allHold, answer_eq]
      cases hturn : c.turn with
      | answer a =>
        rcases a with e | (_ | _)
        · rfl
        · rfl
        · exact ih (by omega)
      | all ds =>
        rw [hturn, Turn.calls] at hless
        rw [resolve, ← allHold_append]
        apply ih
        rw [List.map_append, List.sum_append]
        omega

end runs

end Comparison

/-! ### All of it at once -/

/-- **Comparing terms comes to an end, whatever the terms.** If renaming returns, the result has the
tree of the term: the same heads, and the same numbers of plain and scoped children at every place.
If no draw wraps, every pattern has its shape as well. The two procedures of the comparison answer
as one call of each and the calls that it leads to, and each call further inside is on fewer nodes,
though it may be on renamed bodies. So working off the calls one after the other gives the answer, a
truth value or a failure, after at most one turn more than there are nodes. -/
theorem Term.alphaEquiv_terminates {κ : Type} [DecidableEq κ] :
    (∀ (s : Scope) (r : Renaming) (e e' : Term κ), rename s r e = .ok e' →
      (e'.outline fun _ => ()) = (e.outline fun _ => ()) ∧
      (RenameHasRoom s r e → e'.outline Pattern.shape = e.outline Pattern.shape)) ∧
    (∀ c : Comparison κ, c.answer = Comparison.resolve c.turn) ∧
    (∀ c d : Comparison κ, Relation.TransGen Comparison.Calls c d → d.size < c.size) ∧
    ∀ (c : Comparison κ) (n : Nat), c.size < n → Comparison.run n [c] = some c.answer := by
  refine ⟨fun s r e e' h => ⟨?_, fun hroom => ?_⟩, Comparison.answer_eq,
    fun c d => Comparison.size_lt_of_calls, fun c n hn => ?_⟩
  · exact outline_rename (fun _ _ _ => rfl) e h (Or.inr fun _ _ => rfl)
  · refine outline_rename (fun s p hp => ?_) e h (Or.inl hroom)
    exact Pattern.moveInto_shape_of_hasRoom Scope.refresh_keepsOrDraws hp
  · rw [← Comparison.allHold_singleton]
    apply Comparison.run_eq
    rwa [List.map_singleton, List.sum_singleton]

/-- Two arguments without an order, over one of them and the free name `5`. -/
def Term.unorderedOverFree : Term String :=
  node "lam" [] [⟨.set (.ofList [0, 1]), node "app" [var 0, var 5] []⟩]

/-- Two arguments in order. -/
def Term.orderedArguments (x y : Name) : Term String :=
  node "lam" [] [⟨.list [x, y], node "app" [var x, var y] []⟩]

/-- Where `0` is in scope the set is listed in another order after renaming, and both bodies of the
lists are renamed before they are compared. -/
theorem Term.alphaEquiv_terminates_renamed :
    (∃ e', rename (Scope.empty.extendAll [0, 7]) (.single 5 7) unorderedOverFree = .ok e' ∧
      RenameHasRoom (Scope.empty.extendAll [0, 7]) (.single 5 7) unorderedOverFree ∧
      e'.outline Pattern.shape = unorderedOverFree.outline Pattern.shape) ∧
    alphaEquiv (Scope.empty.extend 0) (orderedArguments 0 1) (orderedArguments 1 0) = .ok true := by
  obtain ⟨hrename, -, -, hrun⟩ := alphaEquiv_terminates (κ := String)
  have hvars : ∀ s r, RenameHasRoom s r (node "app" [var 0, var 5] [] : Term String) :=
    fun s r => .node (by simp [RenameHasRoom.var]) (by simp) (by simp)
  have hroom : RenameHasRoom (Scope.empty.extendAll [0, 7]) (.single 5 7) unorderedOverFree :=
    .node (by simp) (by simp; decide) (by simp [hvars])
  refine ⟨⟨_, rfl, hroom, (hrename _ _ _ _ rfl).2 hroom⟩, ?_⟩
  have hanswer := hrun (.terms (Scope.empty.extend 0) (orderedArguments 0 1) (orderedArguments 1 0))
    11 (by decide)
  exact Option.some.inj (hanswer.symm.trans rfl)

end NameBinding
