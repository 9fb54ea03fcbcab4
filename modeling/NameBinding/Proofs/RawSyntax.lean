import Mathlib.Data.List.Forall2
import NameBinding.LambdaPi.Export
import NameBinding.LambdaPi.Import

/-!
# Raw syntax, node by node

`LambdaPi.RawNode` is the notation of each form. A node with as many children as its form asks for
is written in it (`LambdaPi.exists_writeNode`), and what is written in it is read as the same form
over the children that the parts are read as (`LambdaPi.RawNode.read_eq`). No other proof about
written terms looks at the notation of a form.

Binders are written with the identifiers of a supply: an endless sequence without repeats, all of
which can be read as variables. The numbered identifiers of any stem are one
(`Identifier.numbered_supply`).
-/

namespace NameBinding

/-! ### Supplies of identifiers -/

namespace Identifier

/-- An identifier is valid if it is neither empty, nor the wildcard, nor the universe. -/
theorem isValid_iff {id : String} : isValid id = true ↔ id ≠ "" ∧ id ≠ "_" ∧ id ≠ "U" := by
  simp [isValid, and_assoc]

/-- An endless sequence of identifiers, no two of them equal. -/
structure Supply (fresh : Nat → String) : Prop where
  valid : ∀ n, isValid (fresh n) = true
  injective : ∀ m n, fresh m = fresh n → m = n

/-- A numbered identifier is its stem followed by digits. -/
theorem toList_numbered (stem : String) (n : Nat) :
    (numbered stem n).toList = stem.toList ++ Nat.toDigits 10 n := by
  rw [numbered, String.toList_append, Nat.toList_repr]

/-- A numbered identifier has a digit, which neither `_` nor `U` has. -/
theorem exists_digit_of_numbered (stem : String) (n : Nat) :
    ∃ c ∈ (numbered stem n).toList, c.isDigit = true := by
  obtain ⟨c, hc⟩ := List.exists_mem_of_ne_nil _ (Nat.toDigits_ne_nil (n := n) (b := 10))
  refine ⟨c, ?_, Nat.isDigit_of_mem_toDigits (by decide) (by decide) hc⟩
  rw [toList_numbered]
  exact List.mem_append_right _ hc

/-- Numbered identifiers with a stem are valid and all different. -/
theorem numbered_supply (stem : String) : Supply (numbered stem) where
  valid n := by
    obtain ⟨c, hc, hdigit⟩ := exists_digit_of_numbered stem n
    rw [isValid_iff]
    refine ⟨?_, ?_, ?_⟩
    all_goals
      intro h
      rw [h] at hc
      simp at hc
    · rw [hc] at hdigit
      cases hdigit
    · rw [hc] at hdigit
      cases hdigit
  injective m n h := by
    have hlist := congrArg String.toList h
    rw [toList_numbered, toList_numbered] at hlist
    have hdigits := List.append_cancel_left hlist
    have hvalue := congrArg (fun ds => Nat.ofDigitChars 10 ds 0) hdigits
    simpa only [Nat.ofDigitChars_ten_toDigits] using hvalue

end Identifier

/-! ### Looking up -/

/-- Looking a name up gives what the map has for it. -/
theorem NameMap.lookup_eq_ok {α : Type} {m : NameMap α} {x : Name} {a : α} :
    m.lookup x = .ok a ↔ m.get? x = some a := by
  unfold lookup
  split <;> simp [*]

/-- Looking an identifier up gives what the table has for it. -/
theorem Table.lookup_eq_ok {t : Table} {id : String} {x : Name} :
    t.lookup id = .ok x ↔ t.get? id = some x := by
  unfold lookup
  split <;> simp [*]

/-! ### Lists of children -/

section mapM

variable {α β : Type} {f : α → Except Error β}

/-- A list is gone through with success when each member is. -/
theorem mapM_eq_ok {xs : List α} {ys : List β} :
    xs.mapM f = .ok ys ↔ List.Forall₂ (fun x y => f x = .ok y) xs ys := by
  induction xs generalizing ys with
  | nil => rw [List.mapM_nil, List.forall₂_nil_left_iff, Error.pure_eq_ok, eq_comm]
  | cons x xs ih =>
    rw [List.mapM_cons, List.forall₂_cons_left_iff]
    simp only [Error.bind_eq_ok, Error.pure_eq_ok, ih]
    constructor
    · rintro ⟨y, hy, ys, hys, rfl⟩
      exact ⟨y, ys, hy, hys, rfl⟩
    · rintro ⟨y, ys, hy, hys, rfl⟩
      exact ⟨y, hy, ys, hys, rfl⟩

/-- A failure comes from a member. -/
theorem exists_of_mapM_eq_error {xs : List α} {err : Error} (h : xs.mapM f = .error err) :
    ∃ x ∈ xs, f x = .error err := by
  induction xs with
  | nil => exact absurd h nofun
  | cons x xs ih =>
    rw [List.mapM_cons] at h
    rcases Error.bind_eq_error.mp h with hx | ⟨y, -, h⟩
    · exact ⟨x, List.mem_cons_self, hx⟩
    · rcases Error.bind_eq_error.mp h with hxs | ⟨ys, -, h⟩
      · obtain ⟨x', hx', herr⟩ := ih hxs
        exact ⟨x', List.mem_cons_of_mem _ hx', herr⟩
      · exact absurd h nofun

end mapM

/-! ### Patterns with parts -/

namespace Pattern

/-- A raw list is read entry by entry. -/
theorem read_list (t : Table) (args : List Sexp) :
    read t (.tagged "list" args) = (do
      let (xs, t) ← readEntries t args
      return (list xs, t)) := by
  unfold Sexp.tagged read
  simp

/-- A raw pair is read left side first, and its right side with the table that this leaves. -/
theorem read_pair (t : Table) (l r : Sexp) :
    read t (.tagged "pair" [l, r]) = (do
      let (p, t) ← read t l
      let (q, t) ← read t r
      return (pair p q, t)) := by
  rw [Sexp.tagged, read]
  simp

end Pattern

namespace LambdaPi

/-! ### Arities -/

/-- Every node has as many plain and scoped children as its form asks for. -/
inductive Expr.ArityCorrect : Expr → Prop where
  | var (x : Name) : ArityCorrect (.var x)
  | node {f : Form} {ts : List Expr} {ss : List (Scoped Expr)}
      (arity : (ts.length, ss.length) = f.arity) (terms : ∀ e ∈ ts, ArityCorrect e)
      (bodies : ∀ sc ∈ ss, ArityCorrect sc.body) : ArityCorrect (.node (.form f) ts ss)

/-! ### One node -/

/-- The scoped term that a raw pattern and a raw body write. -/
def readScoped (t : Table) (raw : Sexp × Sexp) : Except Error (Scoped Expr) := do
  let (p, inner) ← Pattern.read t raw.1
  let b ← Expr.read inner raw.2
  return ⟨p, b⟩

/-- A scoped term is read if its pattern is and then its body, with the identifiers of the pattern
bound. -/
theorem readScoped_eq_ok {t : Table} {p b : Sexp} {sc : Scoped Expr} :
    readScoped t (p, b) = .ok sc ↔
      ∃ q inner c, Pattern.read t p = .ok (q, inner) ∧ Expr.read inner b = .ok c ∧ ⟨q, c⟩ = sc := by
  unfold readScoped
  simp only [Error.bind_eq_ok, Error.pure_eq_ok]
  constructor
  · rintro ⟨⟨q, inner⟩, hp, c, hb, hsc⟩
    exact ⟨q, inner, c, hp, hb, hsc⟩
  · rintro ⟨q, inner, c, hp, hb, hsc⟩
    exact ⟨(q, inner), hp, c, hb, hsc⟩

/-- How a node of each form is written over its raw children: the plain ones, and the scoped ones
with their patterns. -/
inductive RawNode : Form → List Sexp → List (Sexp × Sexp) → Sexp → Prop where
  | univ : RawNode .univ [] [] (.atom "U")
  | app (f x : Sexp) : RawNode .app [f, x] [] (.tagged "app" [f, x])
  | lam (p b : Sexp) : RawNode .lam [] [(p, b)] (.tagged "lam" [p, b])
  | pi (p a b : Sexp) : RawNode .pi [a] [(p, b)] (.tagged "pi" [p, a, b])
  | pair (a b : Sexp) : RawNode .pair [a, b] [] (.tagged "pair" [a, b])
  | product (a b : Sexp) : RawNode .product [a, b] [] (.tagged "product" [a, b])
  | first (e : Sexp) : RawNode .first [e] [] (.tagged "first" [e])
  | second (e : Sexp) : RawNode .second [e] [] (.tagged "second" [e])

namespace RawNode

variable {f : Form} {us : List Sexp} {vs : List (Sexp × Sexp)} {raw : Sexp}

/-- A node is read by reading its plain children and then its scoped ones. -/
theorem read_eq (h : RawNode f us vs raw) (t : Table) :
    Expr.read t raw = (do
      let ts ← us.mapM (Expr.read t)
      let ss ← vs.mapM (readScoped t)
      return .node (.form f) ts ss) := by
  cases h with
  | univ =>
    rw [Expr.read, if_pos rfl]
    rfl
  | lam p b => simp [Expr.read, Sexp.tagged, Form.ofWord?, readScoped, Expr.lam]
  | pi p a b => simp [Expr.read, Sexp.tagged, Form.ofWord?, readScoped, Expr.pi]
  | _ => simp [Expr.read, Sexp.tagged, Form.ofWord?, Expr.app, Expr.pair, Expr.product, Expr.first,
      Expr.second]

/-- A raw node is read if all its children are, and as the node of what they are read as. -/
theorem read_eq_ok (h : RawNode f us vs raw) {t : Table} {e : Expr} :
    Expr.read t raw = .ok e ↔
      ∃ ts ss, List.Forall₂ (fun u e => Expr.read t u = .ok e) us ts ∧
        List.Forall₂ (fun v sc => readScoped t v = .ok sc) vs ss ∧ .node (.form f) ts ss = e := by
  rw [h.read_eq]
  simp only [Error.bind_eq_ok, Error.pure_eq_ok, mapM_eq_ok]
  constructor
  · rintro ⟨ts, hts, ss, hss, he⟩
    exact ⟨ts, ss, hts, hss, he⟩
  · rintro ⟨ts, ss, hts, hss, he⟩
    exact ⟨ts, hts, ss, hss, he⟩

/-- A failure comes from a child. -/
theorem exists_of_read_eq_error (h : RawNode f us vs raw) {t : Table} {err : Error}
    (herr : Expr.read t raw = .error err) :
    (∃ u ∈ us, Expr.read t u = .error err) ∨ ∃ v ∈ vs, readScoped t v = .error err := by
  rw [h.read_eq] at herr
  rcases Error.bind_eq_error.mp herr with hus | ⟨ts, -, herr⟩
  · exact Or.inl (exists_of_mapM_eq_error hus)
  · rcases Error.bind_eq_error.mp herr with hvs | ⟨ss, -, herr⟩
    · exact Or.inr (exists_of_mapM_eq_error hvs)
    · exact absurd herr nofun

end RawNode

/-- A node with as many children as its form asks for is written. -/
theorem exists_writeNode (f : Form) (us : List Sexp) (vs : List (Sexp × Sexp))
    (harity : (us.length, vs.length) = f.arity) :
    ∃ raw, writeNode (.form f) us vs = .ok raw ∧ RawNode f us vs raw := by
  obtain ⟨hus, hvs⟩ := Prod.mk.inj harity
  cases f with
  | univ =>
    obtain rfl := List.length_eq_zero_iff.mp hus
    obtain rfl := List.length_eq_zero_iff.mp hvs
    exact ⟨_, rfl, .univ⟩
  | app | pair | product =>
    obtain ⟨u, v, rfl⟩ := List.length_eq_two.mp hus
    obtain rfl := List.length_eq_zero_iff.mp hvs
    exact ⟨_, rfl, by constructor⟩
  | first | second =>
    obtain ⟨u, rfl⟩ := List.length_eq_one_iff.mp hus
    obtain rfl := List.length_eq_zero_iff.mp hvs
    exact ⟨_, rfl, by constructor⟩
  | lam =>
    obtain rfl := List.length_eq_zero_iff.mp hus
    obtain ⟨⟨p, b⟩, rfl⟩ := List.length_eq_one_iff.mp hvs
    exact ⟨_, rfl, .lam p b⟩
  | pi =>
    obtain ⟨u, rfl⟩ := List.length_eq_one_iff.mp hus
    obtain ⟨⟨p, b⟩, rfl⟩ := List.length_eq_one_iff.mp hvs
    exact ⟨_, rfl, .pi p u b⟩

end LambdaPi

end NameBinding
