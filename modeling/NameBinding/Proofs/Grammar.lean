import NameBinding.Proofs.RawSyntax
import NameBinding.Proofs.RenamedTerms

/-!
# The grammar that is read

Raw patterns are `_`, an identifier, `(list x …)` and `(pair P Q)` (`RawPattern`); raw terms are
identifiers and the nodes of the language over raw terms and raw patterns (`LambdaPi.RawTerm`).
`LambdaPi.OccursFree` says which identifiers occur outside the patterns that bind them.

Reading a pattern binds its identifiers from left to right, each to a fresh name, whatever the
shape of the pattern (`RawPattern.exists_read`). So the table inside a pattern, `Table.bindAll`, is
known from the list of identifiers alone.

Every S-expression is an identifier, a node, or refused (`LambdaPi.raw_cases`), and is so in one way
(`LambdaPi.RawNode.unique`, `RawPattern.unique`). From that, reading succeeds exactly on the terms
of the grammar whose free identifiers are bound (`LambdaPi.exists_read_iff`); a term of the grammar
is refused only for an identifier that is not bound (`LambdaPi.RawTerm.exists_read_or_unbound`); and
nothing else ever goes wrong (`LambdaPi.read_eq_error`).
-/

namespace NameBinding

/-- A run that ends by finding some raw syntax without meaning. -/
def Malformed {α : Type} (x : Except Error α) : Prop :=
  ∃ what part, x = .error (.malformed what part)

namespace Malformed

variable {α β : Type} {x : Except Error α}

/-- A run that finds raw syntax without meaning gives no result. -/
theorem ne_ok (h : Malformed x) (a : α) : x ≠ .ok a := by
  obtain ⟨what, part, rfl⟩ := h
  exact nofun

/-- Such a run fails in no other way. -/
theorem of_eq_error (h : Malformed x) {err : Error} (herr : x = .error err) :
    ∃ what part, err = .malformed what part := by
  obtain ⟨what, part, rfl⟩ := h
  exact ⟨what, part, (Except.error.inj herr).symm⟩

/-- What comes after such a run is never reached. -/
theorem bind (h : Malformed x) (f : α → Except Error β) : Malformed (x >>= f) := by
  obtain ⟨what, part, rfl⟩ := h
  exact ⟨what, part, rfl⟩

end Malformed

/-! ### Several identifiers at once -/

namespace Table

/-- The table inside binding sites of the identifiers of a list, the last one innermost. -/
def bindAll (t : Table) : List String → Table
  | [] => t
  | id :: ids => (t.bind id).2.bindAll ids

/-- The names that the identifiers of a list are bound to. -/
def draws (t : Table) : List String → List Name
  | [] => []
  | id :: ids => (t.bind id).1 :: (t.bind id).2.draws ids

/-- Two lists of identifiers are bound one after the other. -/
theorem bindAll_append (t : Table) (ids ids' : List String) :
    t.bindAll (ids ++ ids') = (t.bindAll ids).bindAll ids' := by
  induction ids generalizing t with
  | nil => rfl
  | cons id ids ih => exact ih (t.bind id).2

/-- The names for a second list are drawn with the first one bound. -/
theorem draws_append (t : Table) (ids ids' : List String) :
    t.draws (ids ++ ids') = t.draws ids ++ (t.bindAll ids).draws ids' := by
  induction ids generalizing t with
  | nil => rfl
  | cons id ids ih => exact congrArg (_ :: ·) (ih (t.bind id).2)

/-- A name is drawn for each identifier. -/
@[simp] theorem length_draws (t : Table) (ids : List String) :
    (t.draws ids).length = ids.length := by
  induction ids generalizing t with
  | nil => rfl
  | cons id ids ih => exact congrArg (· + 1) (ih (t.bind id).2)

/-- Binding identifiers adds the names that are drawn to the scope. -/
theorem scope_bindAll (t : Table) (ids : List String) :
    (t.bindAll ids).scope = t.scope.extendAll (t.draws ids) := by
  induction ids generalizing t with
  | nil => rfl
  | cons id ids ih => exact ih (t.bind id).2

/-- Position `i` is the last one at which a list has the identifier. -/
def LastAt (ids : List String) (id : String) (i : Nat) : Prop :=
  ids[i]? = some id ∧ ∀ j, i < j → ids[j]? ≠ some id

/-- An identifier stands for the name drawn at its last position, or for what it stood for
outside. -/
theorem get?_bindAll (t : Table) (ids : List String) (id : String) :
    (id ∉ ids ∧ (t.bindAll ids).get? id = t.get? id) ∨
      ∃ i x, LastAt ids id i ∧ (t.draws ids)[i]? = some x ∧ (t.bindAll ids).get? id = some x := by
  induction ids generalizing t with
  | nil => exact Or.inl ⟨List.not_mem_nil, rfl⟩
  | cons id' ids ih =>
    rcases ih (t.bind id').2 with ⟨hnot, hget⟩ | ⟨i, x, ⟨hi, hlast⟩, hx, hget⟩
    · by_cases heq : id = id'
      · subst heq
        refine Or.inr ⟨0, t.scope.fresh, ⟨rfl, ?_⟩, rfl, ?_⟩
        · rintro (_ | j) hj hid
          · exact absurd hj (Nat.lt_irrefl 0)
          · exact hnot (List.mem_of_getElem? hid)
        · exact hget.trans ((get?_bindAs t id id t.scope.fresh).trans (if_pos rfl))
      · refine Or.inl ⟨by simp [heq, hnot], ?_⟩
        exact hget.trans ((get?_bindAs t id' id t.scope.fresh).trans (if_neg heq))
    · refine Or.inr ⟨i + 1, x, ⟨hi, ?_⟩, hx, hget⟩
      rintro (_ | j) hj
      · exact absurd hj (Nat.not_lt_zero _)
      · exact hlast j (Nat.lt_of_succ_lt_succ hj)

/-- After binding, the new identifiers are known as well. -/
theorem contains_bindAll {t : Table} {ids : List String} {id : String} :
    (t.bindAll ids).contains id = true ↔ id ∈ ids ∨ t.contains id = true := by
  unfold contains
  rcases get?_bindAll t ids id with ⟨hnot, hget⟩ | ⟨i, x, hlast, -, hget⟩
  · simp [hnot, hget]
  · simp [List.mem_of_getElem? hlast.1, hget]

end Table

/-! ### Raw patterns -/

/-- The raw patterns, with the shape and the identifiers that each one writes. -/
inductive RawPattern : Shape → List String → Sexp → Prop where
  | wildcard : RawPattern .wildcard [] (.atom "_")
  | single {id : String} (valid : Identifier.isValid id = true) :
      RawPattern .single [id] (.atom id)
  | list {ids : List String} (valid : ∀ id ∈ ids, Identifier.isValid id = true) :
      RawPattern (.list ids.length) ids (.tagged "list" (ids.map .atom))
  | pair {shapeL shapeR : Shape} {idsL idsR : List String} {l r : Sexp}
      (left : RawPattern shapeL idsL l) (right : RawPattern shapeR idsR r) :
      RawPattern (.pair shapeL shapeR) (idsL ++ idsR) (.tagged "pair" [l, r])

namespace Pattern

/-- Entries that are identifiers are bound from left to right. -/
theorem readEntries_atoms (t : Table) {ids : List String}
    (h : ∀ id ∈ ids, Identifier.isValid id = true) :
    readEntries t (ids.map .atom) = .ok (t.draws ids, t.bindAll ids) := by
  induction ids generalizing t with
  | nil => rfl
  | cons id ids ih =>
    obtain ⟨hid, hids⟩ := List.forall_mem_cons.mp h
    simp only [List.map_cons, readEntries, hid, if_true, ih (t.bind id).2 hids]
    rfl

/-- The entries of a list pattern are identifiers, or one of them is refused. -/
theorem readEntries_cases : (args : List Sexp) →
    (∃ ids : List String, (∀ id ∈ ids, Identifier.isValid id = true) ∧ args = ids.map .atom) ∨
      ∀ t, Malformed (readEntries t args)
  | [] => Or.inl ⟨[], by simp, rfl⟩
  | .list xs :: rest => Or.inr fun _ => ⟨_, _, rfl⟩
  | .atom a :: rest => by
      by_cases ha : Identifier.isValid a = true
      · rcases readEntries_cases rest with ⟨ids, hids, rfl⟩ | hrest
        · exact Or.inl ⟨a :: ids, List.forall_mem_cons.mpr ⟨ha, hids⟩, rfl⟩
        · refine Or.inr fun t => ?_
          rw [readEntries, if_pos ha]
          exact (hrest (t.bind a).2).bind _
      · refine Or.inr fun t => ⟨"list pattern entry", .atom a, ?_⟩
        simp only [readEntries, if_neg ha]

end Pattern

/-- A raw pattern is read: its identifiers are bound from left to right. -/
theorem RawPattern.exists_read {shape : Shape} {ids : List String} {raw : Sexp}
    (h : RawPattern shape ids raw) (t : Table) :
    ∃ p, Pattern.read t raw = .ok (p, t.bindAll ids) ∧ p.shape = shape ∧
      p.binders = t.draws ids := by
  induction h generalizing t with
  | wildcard => exact ⟨.wildcard, by simp [Pattern.read, Table.bindAll], rfl, rfl⟩
  | @single id valid =>
    obtain ⟨-, hwild, -⟩ := Identifier.isValid_iff.mp valid
    refine ⟨.single (t.bind id).1, ?_, rfl, rfl⟩
    simp only [Pattern.read, if_neg hwild, valid, if_true, Table.bindAll]
  | @list ids valid =>
    refine ⟨.list (t.draws ids), ?_, ?_, rfl⟩
    · rw [Pattern.read_list, Pattern.readEntries_atoms t valid]
      rfl
    · rw [Pattern.shape, Table.length_draws]
  | @pair _ _ idsL idsR _ _ _ _ ihl ihr =>
    obtain ⟨p, hp, hshapeP, hbindersP⟩ := ihl t
    obtain ⟨q, hq, hshapeQ, hbindersQ⟩ := ihr (t.bindAll idsL)
    refine ⟨.pair p q, ?_, ?_, ?_⟩
    · rw [Pattern.read_pair, hp, Table.bindAll_append]
      show (Pattern.read (t.bindAll idsL) _ >>= _) = _
      rw [hq]
      rfl
    · rw [Pattern.shape, hshapeP, hshapeQ]
    · rw [Pattern.binders, hbindersP, hbindersQ, Table.draws_append]

/-- A raw pattern has one shape and one list of identifiers. -/
theorem RawPattern.unique {shape shape' : Shape} {ids ids' : List String} {raw : Sexp}
    (h : RawPattern shape ids raw) (h' : RawPattern shape' ids' raw) :
    shape = shape' ∧ ids = ids' := by
  induction h generalizing shape' ids' with
  | wildcard =>
    cases h' with
    | wildcard => exact ⟨rfl, rfl⟩
    | single valid => exact absurd rfl (Identifier.isValid_iff.mp valid).2.1
  | single valid =>
    cases h' with
    | wildcard => exact absurd rfl (Identifier.isValid_iff.mp valid).2.1
    | single valid' => exact ⟨rfl, rfl⟩
  | @list ids valid =>
    generalize hraw : Sexp.tagged "list" (ids.map .atom) = raw at h'
    cases h' with
    | wildcard | single => cases hraw
    | @list ids' valid' =>
      have hmap : ids.map Sexp.atom = ids'.map Sexp.atom := by simpa [Sexp.tagged] using hraw
      obtain rfl := List.map_injective_iff.mpr (fun _ _ => Sexp.atom.inj) hmap
      exact ⟨rfl, rfl⟩
    | pair => simp [Sexp.tagged] at hraw
  | @pair _ _ _ _ l r hl hr ihl ihr =>
    generalize hraw : Sexp.tagged "pair" [l, r] = raw at h'
    cases h' with
    | wildcard | single => cases hraw
    | list => simp [Sexp.tagged] at hraw
    | pair hl' hr' =>
      obtain ⟨rfl, rfl⟩ : l = _ ∧ r = _ := by simpa [Sexp.tagged] using hraw
      obtain ⟨rfl, rfl⟩ := ihl hl'
      obtain ⟨rfl, rfl⟩ := ihr hr'
      exact ⟨rfl, rfl⟩

namespace Pattern

/-- A pair pattern is refused if its right part is, inside its left part. -/
theorem read_pair_malformed_right {t inner : Table} {p : Pattern} {l r : Sexp}
    (hl : read t l = .ok (p, inner)) (hr : Malformed (read inner r)) :
    Malformed (read t (.tagged "pair" [l, r])) := by
  rw [read_pair, hl]
  exact hr.bind _

/-- A pair pattern has two parts. -/
theorem read_pair_malformed (t : Table) {args : List Sexp} (h : ∀ l r, args ≠ [l, r]) :
    Malformed (read t (.tagged "pair" args)) := by
  refine ⟨"pair pattern", .tagged "pair" args, ?_⟩
  rw [Sexp.tagged, read, if_pos rfl]
  exact h

/-- Only pairs and lists have parts. -/
theorem read_malformed_of_head (t : Table) {head : String} (args : List Sexp)
    (hpair : head ≠ "pair") (hlist : head ≠ "list") : Malformed (read t (.tagged head args)) := by
  refine ⟨"pattern", .tagged head args, ?_⟩
  unfold Sexp.tagged read
  simp [hpair, hlist]

end Pattern

/-- An S-expression is a raw pattern, or it is refused as one. -/
theorem rawPattern_cases : (raw : Sexp) →
    (∃ shape ids, RawPattern shape ids raw) ∨ ∀ t, Malformed (Pattern.read t raw)
  | .atom a => by
      by_cases hwild : a = "_"
      · subst hwild
        exact Or.inl ⟨_, _, .wildcard⟩
      · by_cases ha : Identifier.isValid a = true
        · exact Or.inl ⟨_, _, .single ha⟩
        · refine Or.inr fun t => ⟨"pattern", .atom a, ?_⟩
          simp only [Pattern.read, if_neg hwild, if_neg ha]
  | .list [] => Or.inr fun t => ⟨_, _, by rw [Pattern.read]; simp⟩
  | .list (.list xs :: rest) => Or.inr fun t => ⟨_, _, by rw [Pattern.read]; simp⟩
  | .list (.atom head :: args) => by
      by_cases hpair : head = "pair"
      · subst hpair
        by_cases hargs : ∃ l r, args = [l, r]
        · obtain ⟨l, r, rfl⟩ := hargs
          rcases rawPattern_cases l with ⟨shapeL, idsL, hl⟩ | hl
          · rcases rawPattern_cases r with ⟨shapeR, idsR, hr⟩ | hr
            · exact Or.inl ⟨_, _, .pair hl hr⟩
            · refine Or.inr fun t => ?_
              obtain ⟨p, hp, -, -⟩ := hl.exists_read t
              exact Pattern.read_pair_malformed_right hp (hr _)
          · exact Or.inr fun t => Pattern.read_pair t l r ▸ (hl t).bind _
        · exact Or.inr fun t => Pattern.read_pair_malformed t fun l r h => hargs ⟨l, r, h⟩
      · by_cases hlist : head = "list"
        · subst hlist
          rcases Pattern.readEntries_cases args with ⟨ids, hids, rfl⟩ | hargs
          · exact Or.inl ⟨_, _, .list hids⟩
          · exact Or.inr fun t => Pattern.read_list t args ▸ (hargs t).bind _
        · exact Or.inr fun t => Pattern.read_malformed_of_head t args hpair hlist

/-! ### Raw terms -/

namespace LambdaPi

/-- A form is found by its own word only. -/
theorem Form.eq_label_of_ofWord? {word : String} {f : Form} (h : ofWord? word = some f) :
    word = f.label := by
  unfold ofWord? at h
  repeat' split at h
  all_goals cases h
  all_goals assumption

/-- The terms of the grammar: identifiers, and nodes over raw patterns and raw terms. -/
inductive RawTerm : Sexp → Prop where
  | identifier {id : String} (valid : Identifier.isValid id = true) : RawTerm (.atom id)
  | node {f : Form} {us : List Sexp} {vs : List (Sexp × Sexp)} {raw : Sexp}
      (written : RawNode f us vs raw) (terms : ∀ u ∈ us, RawTerm u)
      (patterns : ∀ v ∈ vs, ∃ shape ids, RawPattern shape ids v.1)
      (bodies : ∀ v ∈ vs, RawTerm v.2) : RawTerm raw

/-- The identifier occurs, as a term, where no pattern around it binds it. -/
inductive OccursFree (id : String) : Sexp → Prop where
  | identifier (valid : Identifier.isValid id = true) : OccursFree id (.atom id)
  | term {f : Form} {us : List Sexp} {vs : List (Sexp × Sexp)} {raw u : Sexp}
      (written : RawNode f us vs raw) (mem : u ∈ us) (occurs : OccursFree id u) : OccursFree id raw
  | body {f : Form} {us : List Sexp} {vs : List (Sexp × Sexp)} {raw p b : Sexp} {shape : Shape}
      {ids : List String} (written : RawNode f us vs raw) (mem : (p, b) ∈ vs)
      (pattern : RawPattern shape ids p) (unbound : id ∉ ids) (occurs : OccursFree id b) :
      OccursFree id raw

/-- A node is written in one way. -/
theorem RawNode.unique {f f' : Form} {us us' : List Sexp} {vs vs' : List (Sexp × Sexp)}
    {raw : Sexp} (h : RawNode f us vs raw) (h' : RawNode f' us' vs' raw) :
    f = f' ∧ us = us' ∧ vs = vs' := by
  generalize hraw : raw = raw' at h'
  cases h <;> cases h' <;> simp_all [Sexp.tagged]

/-- A node that is an atom is no identifier. -/
theorem RawNode.not_identifier {f : Form} {us : List Sexp} {vs : List (Sexp × Sexp)} {id : String}
    (h : RawNode f us vs (.atom id)) : Identifier.isValid id ≠ true := by
  cases h
  decide

/-- An identifier occurs free in itself and in no other. -/
theorem occursFree_identifier {id id' : String} (valid : Identifier.isValid id' = true) :
    OccursFree id (.atom id') ↔ id = id' := by
  constructor
  · rintro (_ | ⟨hnode, -, -⟩ | ⟨hnode, -, -, -, -⟩)
    · rfl
    · exact absurd valid hnode.not_identifier
    · exact absurd valid hnode.not_identifier
  · rintro rfl
    exact .identifier valid

/-- An identifier occurs free in a node if it does so in a plain child, or in a body whose pattern
does not bind it. -/
theorem occursFree_node {id : String} {f : Form} {us : List Sexp} {vs : List (Sexp × Sexp)}
    {raw : Sexp} (h : RawNode f us vs raw) :
    OccursFree id raw ↔
      (∃ u ∈ us, OccursFree id u) ∨
        ∃ v ∈ vs, ∃ shape ids, RawPattern shape ids v.1 ∧ id ∉ ids ∧ OccursFree id v.2 := by
  constructor
  · rintro (valid | ⟨h', hu, hfree⟩ | ⟨h', hv, hraw, hid, hfree⟩)
    · exact absurd valid h.not_identifier
    · obtain ⟨rfl, rfl, rfl⟩ := h.unique h'
      exact Or.inl ⟨_, hu, hfree⟩
    · obtain ⟨rfl, rfl, rfl⟩ := h.unique h'
      exact Or.inr ⟨_, hv, _, _, hraw, hid, hfree⟩
  · rintro (⟨u, hu, hfree⟩ | ⟨v, hv, shape, ids, hraw, hid, hfree⟩)
    · exact .term h hu hfree
    · exact .body h hv hraw hid hfree

/-- An S-expression is an identifier, or a node, or it is refused. -/
theorem raw_cases (t : Table) (raw : Sexp) :
    (∃ id, Identifier.isValid id = true ∧ raw = .atom id) ∨ (∃ f us vs, RawNode f us vs raw) ∨
      Malformed (Expr.read t raw) := by
  fun_cases Expr.read t raw with
  | case1 => exact Or.inr (Or.inl ⟨_, _, _, .univ⟩)
  | case2 a _ valid => exact Or.inl ⟨a, valid, rfl⟩
  | case3 | case11 | case12 | case13 => exact Or.inr (Or.inr ⟨_, _, rfl⟩)
  | case4 word f x hword =>
    rw [Form.eq_label_of_ofWord? hword]
    exact Or.inr (Or.inl ⟨_, _, _, .app f x⟩)
  | case5 word a b hword =>
    rw [Form.eq_label_of_ofWord? hword]
    exact Or.inr (Or.inl ⟨_, _, _, .pair a b⟩)
  | case6 word a b hword =>
    rw [Form.eq_label_of_ofWord? hword]
    exact Or.inr (Or.inl ⟨_, _, _, .product a b⟩)
  | case7 word e hword =>
    rw [Form.eq_label_of_ofWord? hword]
    exact Or.inr (Or.inl ⟨_, _, _, .first e⟩)
  | case8 word e hword =>
    rw [Form.eq_label_of_ofWord? hword]
    exact Or.inr (Or.inl ⟨_, _, _, .second e⟩)
  | case9 word p b hword =>
    rw [Form.eq_label_of_ofWord? hword]
    exact Or.inr (Or.inl ⟨_, _, _, .lam p b⟩)
  | case10 word p a b hword =>
    rw [Form.eq_label_of_ofWord? hword]
    exact Or.inr (Or.inl ⟨_, _, _, .pi p a b⟩)

/-- Plain children are smaller than their node. -/
theorem RawNode.sizeOf_term_lt {f : Form} {us : List Sexp} {vs : List (Sexp × Sexp)} {raw u : Sexp}
    (h : RawNode f us vs raw) (hu : u ∈ us) : sizeOf u < sizeOf raw := by
  cases h <;> simp only [List.mem_cons, List.not_mem_nil, or_false] at hu
  all_goals
    simp only [Sexp.tagged, Sexp.list.sizeOf_spec, List.cons.sizeOf_spec, List.nil.sizeOf_spec]
    grind

/-- The bodies of scoped children are smaller than their node. -/
theorem RawNode.sizeOf_body_lt {f : Form} {us : List Sexp} {vs : List (Sexp × Sexp)} {raw : Sexp}
    {v : Sexp × Sexp} (h : RawNode f us vs raw) (hv : v ∈ vs) : sizeOf v.2 < sizeOf raw := by
  cases h <;> simp only [List.mem_cons, List.not_mem_nil, or_false] at hv
  all_goals
    subst hv
    simp only [Sexp.tagged, Sexp.list.sizeOf_spec, List.cons.sizeOf_spec, List.nil.sizeOf_spec]
    omega

/-- Induction over raw syntax: what holds of identifiers, passes from the parts of a node to the
node, and holds of whatever is refused, holds of every S-expression. -/
@[elab_as_elim]
theorem raw_induction {motive : Sexp → Prop}
    (identifier : ∀ id, Identifier.isValid id = true → motive (.atom id))
    (node : ∀ f us vs raw, RawNode f us vs raw → (∀ u ∈ us, motive u) → (∀ v ∈ vs, motive v.2) →
      motive raw)
    (refused : ∀ raw, (∀ t, Malformed (Expr.read t raw)) → motive raw) (raw : Sexp) :
    motive raw := by
  by_cases hmeant : (∃ id, Identifier.isValid id = true ∧ raw = .atom id) ∨
      ∃ f us vs, RawNode f us vs raw
  · rcases hmeant with ⟨id, valid, rfl⟩ | ⟨f, us, vs, hnode⟩
    · exact identifier id valid
    · exact node f us vs raw hnode
        (fun u hu => raw_induction identifier node refused u)
        (fun v hv => raw_induction identifier node refused v.2)
  · refine refused raw fun t => ?_
    rcases raw_cases t raw with h | h | h
    · exact absurd (Or.inl h) hmeant
    · exact absurd (Or.inr h) hmeant
    · exact h
termination_by sizeOf raw
decreasing_by
  · exact hnode.sizeOf_term_lt hu
  · exact hnode.sizeOf_body_lt hv

/-! ### What is read -/

/-- An identifier is read by looking it up. -/
theorem read_identifier {id : String} (valid : Identifier.isValid id = true) (t : Table) :
    Expr.read t (.atom id) = (do
      let x ← t.lookup id
      return .var x) := by
  obtain ⟨-, -, hU⟩ := Identifier.isValid_iff.mp valid
  rw [Expr.read, if_neg hU, if_pos valid]

/-- An identifier is read as the variable that it is bound to. -/
theorem read_identifier_eq_ok {id : String} (valid : Identifier.isValid id = true) {t : Table}
    {e : Expr} : Expr.read t (.atom id) = .ok e ↔ ∃ x, t.get? id = some x ∧ .var x = e := by
  rw [read_identifier valid]
  simp only [Error.bind_eq_ok, Error.pure_eq_ok, Table.lookup_eq_ok]

/-- A scoped child is read by reading its body with the identifiers of its pattern bound. -/
theorem readScoped_eq {t : Table} {v : Sexp × Sexp} {shape : Shape} {ids : List String}
    (h : RawPattern shape ids v.1) :
    ∃ p : Pattern, p.shape = shape ∧ p.binders = t.draws ids ∧
      readScoped t v = (do
        let b ← Expr.read (t.bindAll ids) v.2
        return ⟨p, b⟩) := by
  obtain ⟨p, hp, hshape, hbinders⟩ := h.exists_read t
  refine ⟨p, hshape, hbinders, ?_⟩
  unfold readScoped
  rw [hp]
  rfl

/-- A scoped child whose pattern is refused is refused. -/
theorem readScoped_malformed {t : Table} {v : Sexp × Sexp} (h : Malformed (Pattern.read t v.1)) :
    Malformed (readScoped t v) := h.bind _

/-- A scoped child that is read has a raw pattern, and a body that is read inside it. -/
theorem exists_of_readScoped_eq_ok {t : Table} {v : Sexp × Sexp} {sc : Scoped Expr}
    (h : readScoped t v = .ok sc) :
    ∃ ids, RawPattern sc.binder.shape ids v.1 ∧ sc.binder.binders = t.draws ids ∧
      Expr.read (t.bindAll ids) v.2 = .ok sc.body := by
  rcases rawPattern_cases v.1 with ⟨shape, ids, hraw⟩ | hrefused
  · obtain ⟨p, rfl, hbinders, hread⟩ := readScoped_eq (t := t) hraw
    obtain ⟨b, hb, hsc⟩ := Error.bind_eq_ok.mp (hread.symm.trans h)
    obtain rfl := Error.pure_eq_ok.mp hsc
    exact ⟨ids, hraw, hbinders, hb⟩
  · exact absurd h ((readScoped_malformed (hrefused t)).ne_ok sc)

/-- A scoped child with a raw pattern fails as its body does. -/
theorem read_body_eq_error {t : Table} {v : Sexp × Sexp} {shape : Shape} {ids : List String}
    (hraw : RawPattern shape ids v.1) {err : Error} (h : readScoped t v = .error err) :
    Expr.read (t.bindAll ids) v.2 = .error err := by
  obtain ⟨p, -, -, hread⟩ := readScoped_eq (t := t) hraw
  rcases Error.bind_eq_error.mp (hread.symm.trans h) with hb | ⟨b, -, hsc⟩
  · exact hb
  · exact absurd hsc nofun

/-- Whatever is read is a term of the grammar. -/
theorem rawTerm_of_read {raw : Sexp} {t : Table} {e : Expr} (h : Expr.read t raw = .ok e) :
    RawTerm raw := by
  induction raw using raw_induction generalizing t e with
  | identifier id valid => exact .identifier valid
  | node f us vs raw hnode ihus ihvs =>
    obtain ⟨ts, ss, hts, hss, rfl⟩ := hnode.read_eq_ok.mp h
    have hvs : ∀ v ∈ vs, ∃ sc, readScoped t v = .ok sc := fun v hv =>
      (exists_of_mem_of_forall₂ hss.flip hv).imp fun _ => And.right
    refine .node hnode ?_ ?_ ?_
    · intro u hu
      obtain ⟨e, -, he⟩ := exists_of_mem_of_forall₂ hts.flip hu
      exact ihus u hu he
    · intro v hv
      obtain ⟨sc, hsc⟩ := hvs v hv
      obtain ⟨ids, hraw, -, -⟩ := exists_of_readScoped_eq_ok hsc
      exact ⟨_, ids, hraw⟩
    · intro v hv
      obtain ⟨sc, hsc⟩ := hvs v hv
      obtain ⟨ids, -, -, hb⟩ := exists_of_readScoped_eq_ok hsc
      exact ihvs v hv hb
  | refused raw hrefused => exact absurd h ((hrefused t).ne_ok e)

/-- The free identifiers of what is read are bound. -/
theorem OccursFree.contains_of_read {id : String} {raw : Sexp} (h : OccursFree id raw) {t : Table}
    {e : Expr} (he : Expr.read t raw = .ok e) : t.contains id = true := by
  induction h generalizing t e with
  | identifier valid =>
    obtain ⟨x, hx, -⟩ := (read_identifier_eq_ok valid).mp he
    rw [Table.contains, hx, Option.isSome_some]
  | term hnode hu _ ih =>
    obtain ⟨ts, ss, hts, -, -⟩ := hnode.read_eq_ok.mp he
    obtain ⟨e', -, he'⟩ := exists_of_mem_of_forall₂ hts.flip hu
    exact ih he'
  | body hnode hv hraw hid _ ih =>
    obtain ⟨ts, ss, -, hss, -⟩ := hnode.read_eq_ok.mp he
    obtain ⟨sc, -, hsc⟩ := exists_of_mem_of_forall₂ hss.flip hv
    obtain ⟨p, -, -, hread⟩ := readScoped_eq (t := t) (v := (_, _)) hraw
    obtain ⟨b, hb, -⟩ := Error.bind_eq_ok.mp (hread.symm.trans hsc)
    exact (Table.contains_bindAll.mp (ih hb)).resolve_left hid

/-- A term of the grammar is read, or it has a free identifier that is not bound. -/
theorem RawTerm.exists_read_or_unbound {raw : Sexp} (h : RawTerm raw) (t : Table) :
    (∃ e, Expr.read t raw = .ok e) ∨
      ∃ id, OccursFree id raw ∧ t.contains id = false ∧
        Expr.read t raw = .error (.unboundIdentifier id) := by
  induction h generalizing t with
  | @identifier id valid =>
    rcases hid : t.get? id with _ | x
    · refine Or.inr ⟨id, .identifier valid, by simp [Table.contains, hid], ?_⟩
      rw [read_identifier valid, Table.lookup, hid]
      rfl
    · exact Or.inl ⟨.var x, (read_identifier_eq_ok valid).mpr ⟨x, hid, rfl⟩⟩
  | @node f us vs raw hnode _ hpatterns _ ihus ihvs =>
    rcases hread : Expr.read t raw with err | e
    · refine Or.inr ?_
      rcases hnode.exists_of_read_eq_error hread with ⟨u, hu, herr⟩ | ⟨v, hv, herr⟩
      · rcases ihus u hu t with ⟨e, he⟩ | ⟨id, hfree, hid, herr'⟩
        · exact absurd (he.symm.trans herr) nofun
        · obtain rfl := Except.error.inj (herr.symm.trans herr')
          exact ⟨id, .term hnode hu hfree, hid, rfl⟩
      · obtain ⟨shape, ids, hraw⟩ := hpatterns v hv
        have herr := read_body_eq_error hraw herr
        rcases ihvs v hv (t.bindAll ids) with ⟨b, hb⟩ | ⟨id, hfree, hid, herr'⟩
        · exact absurd (hb.symm.trans herr) nofun
        · obtain rfl := Except.error.inj (herr.symm.trans herr')
          have hout : ¬ (id ∈ ids ∨ t.contains id = true) := by
            rw [← Table.contains_bindAll, hid]
            exact Bool.false_ne_true
          obtain ⟨hids, hid⟩ := not_or.mp hout
          exact ⟨id, .body hnode hv hraw hids hfree, Bool.eq_false_iff.mpr hid, rfl⟩
    · exact Or.inl ⟨e, rfl⟩

/-- Reading fails on syntax without meaning and on identifiers that are not bound, and in no other
way. -/
theorem read_eq_error {raw : Sexp} {t : Table} {err : Error} (h : Expr.read t raw = .error err) :
    (∃ what part, err = .malformed what part) ∨ ∃ id, err = .unboundIdentifier id := by
  induction raw using raw_induction generalizing t with
  | identifier id valid =>
    rcases (RawTerm.identifier valid).exists_read_or_unbound t with ⟨e, he⟩ | ⟨id, -, -, herr⟩
    · exact absurd (he.symm.trans h) nofun
    · exact Or.inr ⟨id, Except.error.inj (h.symm.trans herr)⟩
  | node f us vs raw hnode ihus ihvs =>
    rcases hnode.exists_of_read_eq_error h with ⟨u, hu, herr⟩ | ⟨v, hv, herr⟩
    · exact ihus u hu herr
    · rcases rawPattern_cases v.1 with ⟨shape, ids, hraw⟩ | hrefused
      · exact ihvs v hv (read_body_eq_error hraw herr)
      · exact Or.inl ((readScoped_malformed (hrefused t)).of_eq_error herr)
  | refused raw hrefused => exact Or.inl ((hrefused t).of_eq_error h)

/-- Reading succeeds exactly on the terms of the grammar whose free identifiers are bound. -/
theorem exists_read_iff {t : Table} {raw : Sexp} :
    (∃ e, Expr.read t raw = .ok e) ↔
      RawTerm raw ∧ ∀ id, OccursFree id raw → t.contains id = true := by
  constructor
  · rintro ⟨e, he⟩
    exact ⟨rawTerm_of_read he, fun id hid => hid.contains_of_read he⟩
  · rintro ⟨hraw, hbound⟩
    rcases hraw.exists_read_or_unbound t with hread | ⟨id, hfree, hid, -⟩
    · exact hread
    · exact absurd (hbound id hfree) (Bool.eq_false_iff.mp hid)

end LambdaPi

end NameBinding
