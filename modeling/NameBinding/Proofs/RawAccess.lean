import NameBinding.Proofs.Grammar
import NameBinding.Sexp.Access

/-!
# Raw syntax, item by item

Raw syntax can be taken apart by asking for the number of items of a list, for the item at an index
and for the text of an atom, each of which may fail (`Sexp.size`, `Sexp.item`, `Sexp.text`). Here
terms and patterns are read in that way, and the result is what pattern matching gives.

* `LambdaPi.peel` takes one node off a raw term. Every index that it uses is covered by the number
  of items that it has asked for, so it never fails but for raw syntax without meaning
  (`LambdaPi.peel_malformed`). Reading a term is peeling a node and reading its parts
  (`LambdaPi.read_eq_peel`).
* `Pattern.readItems` goes through a list pattern index by index, and `Pattern.readLayer` reads one
  layer of a raw pattern, again without a failing access (`Pattern.readLayer_malformed`). Reading a
  pattern is doing so at every layer (`Pattern.read_eq_readLayer`).
-/

namespace NameBinding

namespace Sexp

/-- An item that is there is found. -/
theorem item_list {xs : List Sexp} {i : Nat} {x : Sexp} (h : xs[i]? = some x) :
    (list xs).item i = .ok x := by
  simp [item, items, h, bind, Except.bind, pure, Except.pure]

end Sexp

/-! ### Patterns -/

namespace Pattern

/-- Binds `n` entries of a list pattern from the index `i` on. -/
def readItems (raw : Sexp) (t : Table) (i : Nat) : Nat → Except Error (List Name × Table)
  | 0 => .ok ([], t)
  | n + 1 => do
    let entry ← raw.item i
    if entry.isAtom then
      let id ← entry.text
      if Identifier.isValid id then
        let (x, t) := t.bind id
        let (xs, t) ← readItems raw t (i + 1) n
        return (x :: xs, t)
      else .error (.malformed "list pattern entry" entry)
    else .error (.malformed "list pattern entry" entry)

/-- Reads one layer of a raw pattern, and its parts as patterns are read. -/
def readLayer (t : Table) (raw : Sexp) : Except Error (Pattern × Table) :=
  if raw.isAtomOf "_" then .ok (wildcard, t)
  else if raw.isAtom then do
    let id ← raw.text
    if Identifier.isValid id then
      let (x, t) := t.bind id
      return (single x, t)
    else .error (.malformed "pattern" raw)
  else do
    let n ← raw.size
    if n = 0 then .error (.malformed "pattern" raw)
    else do
      let head ← raw.item 0
      if !head.isAtom then .error (.malformed "pattern" raw)
      else if head.isAtomOf "pair" then
        if n = 3 then do
          let (p, t) ← read t (← raw.item 1)
          let (q, t) ← read t (← raw.item 2)
          return (pair p q, t)
        else .error (.malformed "pair pattern" raw)
      else if head.isAtomOf "list" then do
        let (xs, t) ← readItems raw t 1 (n - 1)
        return (list xs, t)
      else .error (.malformed "pattern" raw)

/-- Going through the items from an index on is going through the rest of the list. -/
theorem readItems_eq (before args : List Sexp) (t : Table) :
    readItems (.list (before ++ args)) t before.length args.length = readEntries t args := by
  induction args generalizing before t with
  | nil => rfl
  | cons arg args ih =>
    have hitem : (Sexp.list (before ++ arg :: args)).item before.length = .ok arg :=
      Sexp.item_list (by simp)
    have hrest := ih (before ++ [arg])
    rw [List.append_assoc, List.singleton_append, List.length_append, List.length_singleton]
      at hrest
    rw [List.length_cons, readItems, hitem]
    cases arg with
    | atom id => simp only [readEntries, ← hrest]; rfl
    | list xs => rfl

/-- An atom is a wildcard, an identifier, or without meaning. -/
theorem readLayer_atom (t : Table) (a : String) :
    readLayer t (.atom a) =
      if a == "_" then .ok (wildcard, t)
      else if Identifier.isValid a then .ok (single (t.bind a).1, (t.bind a).2)
      else .error (.malformed "pattern" (.atom a)) := rfl

/-- Only pairs and lists have parts. -/
theorem readLayer_eq_error (t : Table) {head : String} (args : List Sexp) (hpair : head ≠ "pair")
    (hlist : head ≠ "list") :
    readLayer t (.list (.atom head :: args)) =
      .error (.malformed "pattern" (.list (.atom head :: args))) := by
  show (if (head == "pair") = true then _ else if (head == "list") = true then _ else _) = _
  rw [if_neg (by simpa using hpair), if_neg (by simpa using hlist)]

/-- A pattern is read layer by layer, and no access to its parts fails. -/
theorem read_eq_readLayer (t : Table) (raw : Sexp) : read t raw = readLayer t raw := by
  obtain a | _ | ⟨head | xs, args⟩ := raw
  · simp only [read, readLayer_atom, beq_iff_eq]
  · rfl
  · by_cases hpair : head = "pair"
    · subst hpair
      -- of all numbers of arguments only two are a pair
      obtain _ | ⟨l, _ | ⟨r, _ | ⟨u, us⟩⟩⟩ := args
      · rfl
      · rfl
      · exact read_pair t l r
      · rfl
    · by_cases hlist : head = "list"
      · subst hlist
        have hentries : readItems (.tagged "list" args) t 1 args.length = readEntries t args :=
          readItems_eq [.atom "list"] args t
        refine (read_list t args).trans ?_
        rw [← hentries]
        rfl
      · rw [readLayer_eq_error t args hpair hlist]
        unfold read
        simp [hpair, hlist]
  · rfl

/-- Reading a layer fails for raw syntax without meaning only: no access to an item or a text
does. -/
theorem readLayer_malformed {t : Table} {raw : Sexp} {err : Error}
    (h : readLayer t raw = .error err) : ∃ what part, err = .malformed what part := by
  rw [← read_eq_readLayer] at h
  rcases rawPattern_cases raw with ⟨shape, ids, hraw⟩ | hrefused
  · obtain ⟨p, hread, -, -⟩ := hraw.exists_read t
    exact absurd (hread.symm.trans h) nofun
  · exact (hrefused t).of_eq_error h

end Pattern

/-! ### Terms -/

namespace LambdaPi

namespace Form

/-- The indices at which the plain children of a node stand, and those of the patterns and bodies of
its scoped children. -/
def layout : Form → List Nat × List (Nat × Nat)
  | app | pair | product => ([1, 2], [])
  | first | second => ([1], [])
  | lam => ([], [(1, 2)])
  | pi => ([2], [(1, 3)])
  | univ => ([], [])

/-- The number of items of a node, its word included. -/
def items (f : Form) : Nat := 1 + f.layout.1.length + 2 * f.layout.2.length

end Form

/-- One node of a raw term over its raw children, or an identifier. -/
inductive Peeled where
  | identifier (id : String)
  | node (f : Form) (terms : List Sexp) (scopes : List (Sexp × Sexp))

/-- The children of a node, taken out by index. -/
def children (f : Form) (raw : Sexp) : Except Error Peeled := do
  let terms ← f.layout.1.mapM raw.item
  let scopes ← f.layout.2.mapM fun (i, j) => do return (← raw.item i, ← raw.item j)
  return .node f terms scopes

/-- Takes one node off a raw term. -/
def peel (raw : Sexp) : Except Error Peeled :=
  if raw.isAtomOf "U" then .ok (.node .univ [] [])
  else if raw.isAtom then do
    let id ← raw.text
    if Identifier.isValid id then return .identifier id
    else .error (.malformed "term" raw)
  else do
    let n ← raw.size
    if n = 0 then .error (.malformed "term" raw)
    else do
      let head ← raw.item 0
      if head.isAtom then
        let word ← head.text
        match Form.ofWord? word with
        | some f => if n = f.items then children f raw else .error (.malformed f.description raw)
        | none => .error (.malformed "term" raw)
      else .error (.malformed "term" raw)

/-- An atom is the universe, an identifier, or without meaning. -/
theorem peel_atom (a : String) :
    peel (.atom a) =
      if a == "U" then .ok (.node .univ [] [])
      else if Identifier.isValid a then .ok (.identifier a)
      else .error (.malformed "term" (.atom a)) := rfl

/-- A list headed by a word is a node if the word is that of a form and there are as many items as
the form asks for. -/
theorem peel_headed (word : String) (args : List Sexp) :
    peel (.list (.atom word :: args)) =
      (match Form.ofWord? word with
        | some f =>
          if args.length + 1 = f.items then children f (.list (.atom word :: args))
          else .error (.malformed f.description (.list (.atom word :: args)))
        | none => .error (.malformed "term" (.list (.atom word :: args)))) := rfl

/-- Reads the parts of a node, plain children before scoped ones. -/
def readPeeled (t : Table) : Peeled → Except Error Expr
  | .identifier id => do
    let x ← t.lookup id
    return .var x
  | .node f us vs => do
    let ts ← us.mapM (Expr.read t)
    let ss ← vs.mapM (readScoped t)
    return .node (.form f) ts ss

/-- A list headed by the word of a form that has as many items as the form asks for is a node, and
its children are found. -/
theorem exists_children {f : Form} {word : String} {args : List Sexp}
    (hword : Form.ofWord? word = some f) (hitems : args.length + 1 = f.items) :
    ∃ us vs, RawNode f us vs (.list (.atom word :: args)) ∧
      children f (.list (.atom word :: args)) = .ok (.node f us vs) := by
  obtain rfl := Form.eq_label_of_ofWord? hword
  cases f with
  | univ => cases hword
  | app | pair | product =>
    obtain ⟨u, v, rfl⟩ := List.length_eq_two.mp (Nat.succ.inj hitems)
    exact ⟨_, _, by constructor, rfl⟩
  | first | second =>
    obtain ⟨u, rfl⟩ := List.length_eq_one_iff.mp (Nat.succ.inj hitems)
    exact ⟨_, _, by constructor, rfl⟩
  | lam =>
    obtain ⟨p, b, rfl⟩ := List.length_eq_two.mp (Nat.succ.inj hitems)
    exact ⟨_, _, .lam p b, rfl⟩
  | pi =>
    obtain ⟨p, a, b, rfl⟩ := List.length_eq_three.mp (Nat.succ.inj hitems)
    exact ⟨_, _, .pi p a b, rfl⟩

/-- A list headed by the word of a form is refused if it has not as many items as the form asks
for. -/
theorem read_eq_error_of_items_ne {f : Form} {word : String} {args : List Sexp}
    (hword : Form.ofWord? word = some f) (hitems : args.length + 1 ≠ f.items) (t : Table) :
    Expr.read t (.list (.atom word :: args)) =
      .error (.malformed f.description (.list (.atom word :: args))) := by
  unfold Expr.read
  split
  case h_8 => grind
  case h_9 => grind
  all_goals
    -- here the list has the items of a form
    rename_i hform
    obtain rfl := Option.some.inj (hword.symm.trans hform)
    exact absurd rfl hitems

/-- What is peeled is an identifier or a node; what is not is refused, for the same reason when it
is read. -/
theorem peel_cases (raw : Sexp) :
    (∃ id, Identifier.isValid id = true ∧ raw = .atom id ∧ peel raw = .ok (.identifier id)) ∨
      (∃ f us vs, RawNode f us vs raw ∧ peel raw = .ok (.node f us vs)) ∨
        ∃ what, peel raw = .error (.malformed what raw) ∧
          ∀ t, Expr.read t raw = .error (.malformed what raw) := by
  match raw with
  | .atom a =>
    by_cases hU : a = "U"
    · subst hU
      exact Or.inr (Or.inl ⟨_, _, _, .univ, rfl⟩)
    · by_cases ha : Identifier.isValid a = true
      · exact Or.inl ⟨a, ha, rfl, by simp [peel_atom, hU, ha]⟩
      · refine Or.inr (Or.inr ⟨"term", by simp [peel_atom, hU, ha], fun t => ?_⟩)
        rw [Expr.read, if_neg hU, if_neg ha]
  | .list [] => exact Or.inr (Or.inr ⟨"term", rfl, fun t => rfl⟩)
  | .list (.list xs :: rest) => exact Or.inr (Or.inr ⟨"term", rfl, fun t => rfl⟩)
  | .list (.atom word :: args) =>
    cases hword : Form.ofWord? word with
    | none =>
      refine Or.inr (Or.inr ⟨"term", by rw [peel_headed, hword], fun t => ?_⟩)
      simp [Expr.read, hword]
    | some f =>
      by_cases hitems : args.length + 1 = f.items
      · obtain ⟨us, vs, hnode, hchildren⟩ := exists_children hword hitems
        refine Or.inr (Or.inl ⟨f, us, vs, hnode, ?_⟩)
        simp only [peel_headed, hword, if_pos hitems, hchildren]
      · refine Or.inr (Or.inr ⟨f.description, ?_, read_eq_error_of_items_ne hword hitems⟩)
        simp only [peel_headed, hword, if_neg hitems]

/-- Peeling fails for raw syntax without meaning only: no access to an item or a text does. -/
theorem peel_malformed {raw : Sexp} {err : Error} (h : peel raw = .error err) :
    ∃ what, err = .malformed what raw := by
  rcases peel_cases raw with ⟨id, -, -, hpeel⟩ | ⟨f, us, vs, -, hpeel⟩ | ⟨what, hpeel, -⟩
  · exact absurd (hpeel.symm.trans h) nofun
  · exact absurd (hpeel.symm.trans h) nofun
  · exact ⟨what, Except.error.inj (h.symm.trans hpeel)⟩

/-- A term is read by peeling a node and reading its parts. -/
theorem read_eq_peel (t : Table) (raw : Sexp) : Expr.read t raw = peel raw >>= readPeeled t := by
  rcases peel_cases raw with ⟨id, valid, rfl, hpeel⟩ | ⟨f, us, vs, hnode, hpeel⟩ |
    ⟨what, hpeel, hread⟩
  · rw [hpeel, read_identifier valid]
    rfl
  · rw [hpeel, hnode.read_eq]
    rfl
  · rw [hpeel, hread]
    rfl

end LambdaPi

end NameBinding
