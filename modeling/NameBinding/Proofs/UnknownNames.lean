import Mathlib.Algebra.GroupWithZero.Nat
import NameBinding.Proofs.NameBounds
import NameBinding.Proofs.RoundTrip

/-!
# Writing fails exactly on unknown names

While a term is written, the identifiers of the names in play are kept in a map that grows at every
binder and is forgotten again behind the body of the pattern. Only the free names of the term are
ever missed in it: at a variable all the binders in between have been given an identifier, and
nothing else has (`Pattern.mem_names_write`).

`Accounts` puts together what can come of writing: either every free name is known, all is written
and one identifier is drawn for each binder, or a free name that is not known is reported. It passes
from the body of a pattern to what is outside (`Accounts.outside`), from children to a list of them
(`accounts_writeEach`), and so to every term of the language (`LambdaPi.writesAll`). The main
statement is `LambdaPi.write_fails_on_unknown`.
-/

namespace NameBinding

/-! ### Names with a value -/

namespace NameMap

variable {α : Type}

/-- A map has the names that have a value. -/
instance : Membership Name (NameMap α) := ⟨fun m x => (m.get? x).isSome = true⟩

/-- A map has a name if it has an identifier for it. -/
theorem mem_iff {m : NameMap α} {x : Name} : x ∈ m ↔ ∃ a, m.get? x = some a :=
  Option.isSome_iff_exists

/-- Adding a name adds it and no other. -/
@[simp] theorem mem_add {m : NameMap α} {x y : Name} {a : α} : y ∈ m.add x a ↔ y = x ∨ y ∈ m := by
  rw [mem_iff, mem_iff, get?_add]
  by_cases hy : y = x <;> simp [hy]

/-- The values of a list attached one after the other. -/
def ofList (given : List (Name × α)) : NameMap α := given.foldl (fun m e => m.add e.1 e.2) ∅

/-- Adding names one after the other adds all of them and no others. -/
theorem mem_foldl_add {x : Name} (given : List (Name × α)) (m : NameMap α) :
    x ∈ given.foldl (fun m e => m.add e.1 e.2) m ↔ x ∈ given.map Prod.fst ∨ x ∈ m := by
  induction given generalizing m with
  | nil => simp
  | cons e given ih =>
    rw [List.foldl_cons, ih, mem_add, List.map_cons, List.mem_cons]
    exact or_left_comm.trans or_assoc.symm

/-- A map made from a list has the names of the list. -/
theorem mem_ofList {given : List (Name × α)} {x : Name} :
    x ∈ ofList given ↔ x ∈ given.map Prod.fst := by
  rw [ofList, mem_foldl_add]
  exact or_iff_left Bool.false_ne_true

end NameMap

/-! ### Patterns -/

/-- One identifier is drawn for each name. -/
theorem Naming.next_drawAll (fresh : Nat → String) (v : Naming) (xs : List Name) :
    (v.drawAll fresh xs).2.next = v.next + xs.length := by
  induction xs generalizing v with
  | nil => rfl
  | cons x xs ih =>
    rw [drawAll, ih, List.length_cons]
    dsimp only
    omega

/-- The names that identifiers are drawn for are known afterwards, and what was known before. -/
theorem Naming.mem_names_drawAll (fresh : Nat → String) (v : Naming) {xs : List Name} {z : Name} :
    z ∈ (v.drawAll fresh xs).2.names ↔ z ∈ xs ∨ z ∈ v.names := by
  induction xs generalizing v with
  | nil => simp [drawAll]
  | cons x xs ih =>
    rw [drawAll, ih, List.mem_cons, NameMap.mem_add]
    exact or_left_comm.trans or_assoc.symm

namespace Pattern

/-- One identifier is drawn for each binder. -/
theorem next_write (fresh : Nat → String) (v : Naming) (p : Pattern) :
    (p.write fresh v).2.next = v.next + p.binders.length := by
  induction p generalizing v with
  | wildcard => rfl
  | single x => rfl
  | list xs => exact v.next_drawAll fresh xs
  | set xs => exact v.next_drawAll fresh xs.toList
  | pair l r ihl ihr =>
    rw [write, binders, List.length_append, ihr, ihl]
    omega

/-- Inside a pattern its binders are known, and what was known outside. -/
theorem mem_names_write (fresh : Nat → String) (v : Naming) {p : Pattern} {z : Name} :
    z ∈ (p.write fresh v).2.names ↔ z ∈ p.binders ∨ z ∈ v.names := by
  induction p generalizing v with
  | wildcard => simp [write, binders]
  | single x => rw [write, binders, List.mem_singleton, NameMap.mem_add]
  | list xs => exact v.mem_names_drawAll fresh
  | set xs => exact v.mem_names_drawAll fresh
  | pair l r ihl ihr =>
    rw [write, binders, List.mem_append, ihr, ihl]
    exact or_left_comm.trans or_assoc.symm

end Pattern

/-! ### What can come of writing -/

/-- Either all the names are known, and what is written took `k` identifiers from the `n`-th on, or
one of the names is not known and is reported. -/
def Accounts {α : Type} (names : NameMap String) (free : Name → Prop) (k n : Nat)
    (result : Except Error (α × Nat)) : Prop :=
  (∀ x, free x → x ∈ names) ∧ (∃ a, result = .ok (a, n + k)) ∨
    ∃ x, free x ∧ x ∉ names ∧ result = .error (.unknownName x)

namespace Accounts

variable {α β : Type} {names : NameMap String} {free free' all : Name → Prop} {k k' n : Nat}
  {result : Except Error (α × Nat)}

/-- Something is written exactly if all the names are known. -/
theorem exists_ok_iff (h : Accounts names free k n result) :
    (∃ r, result = .ok r) ↔ ∀ x, free x → x ∈ names := by
  rcases h with ⟨hknown, a, ha⟩ | ⟨x, hx, hunknown, herr⟩
  · exact iff_of_true ⟨_, ha⟩ hknown
  · refine iff_of_false ?_ fun hknown => hunknown (hknown x hx)
    rintro ⟨r, hr⟩
    exact absurd (herr.symm.trans hr) nofun

/-- A failure reports a name that is not known. -/
theorem of_eq_error (h : Accounts names free k n result) {err : Error}
    (herr : result = .error err) : ∃ x, free x ∧ x ∉ names ∧ err = .unknownName x := by
  rcases h with ⟨-, a, ha⟩ | ⟨x, hx, hunknown, herr'⟩
  · exact absurd (ha.symm.trans herr) nofun
  · exact ⟨x, hx, hunknown, Except.error.inj (herr.symm.trans herr')⟩

/-- What is written took `k` identifiers. -/
theorem of_eq_ok (h : Accounts names free k n result) {a : α} {m : Nat}
    (hok : result = .ok (a, m)) : m = n + k := by
  rcases h with ⟨-, b, hb⟩ | ⟨x, -, -, herr⟩
  · exact (Prod.mk.inj (Except.ok.inj (hok.symm.trans hb))).2
  · exact absurd (hok.symm.trans herr) nofun

/-- One thing is written after another, from the identifiers that the first leaves. -/
theorem andThen {rest : α × Nat → Except Error (β × Nat)} (h : Accounts names free k n result)
    (h' : ∀ a, result = .ok (a, n + k) → Accounts names free' k' (n + k) (rest (a, n + k)))
    (hall : ∀ x, all x ↔ free x ∨ free' x) : Accounts names all (k + k') n (result >>= rest) := by
  rcases h with ⟨hknown, a, ha⟩ | ⟨x, hx, hunknown, herr⟩
  · have hbind : (result >>= rest) = rest (a, n + k) := by rw [ha]; rfl
    rw [hbind]
    rcases h' a ha with ⟨hknown', b, hb⟩ | ⟨x, hx, hunknown, herr⟩
    · refine Or.inl ⟨fun x hx => ((hall x).mp hx).elim (hknown x) (hknown' x), b, ?_⟩
      rw [hb, Nat.add_assoc]
    · exact Or.inr ⟨x, (hall x).mpr (Or.inr hx), hunknown, herr⟩
  · refine Or.inr ⟨x, (hall x).mpr (Or.inl hx), hunknown, ?_⟩
    rw [herr]
    rfl

/-- What is written is put together further, which neither asks for names nor draws. -/
theorem finish {rest : α × Nat → Except Error (β × Nat)} (h : Accounts names free k n result)
    (h' : ∀ a, result = .ok (a, n + k) → ∃ b, rest (a, n + k) = .ok (b, n + k)) :
    Accounts names free k n (result >>= rest) := by
  have hrest : ∀ a, result = .ok (a, n + k) →
      Accounts names (fun _ => False) 0 (n + k) (rest (a, n + k)) :=
    fun a ha => Or.inl ⟨fun _ hx => hx.elim, h' a ha⟩
  exact h.andThen hrest fun _ => (or_iff_left id).symm

/-- Behind a pattern its binders are not asked for any more. -/
theorem outside {fresh : Nat → String} {p : Pattern}
    (h : Accounts (p.write fresh ⟨names, n⟩).2.names free k (p.write fresh ⟨names, n⟩).2.next
      result) :
    Accounts names (fun x => free x ∧ x ∉ p.binders) (p.binders.length + k) n result := by
  rcases h with ⟨hknown, a, ha⟩ | ⟨x, hx, hunknown, herr⟩
  · refine Or.inl ⟨?_, a, ?_⟩
    · rintro x ⟨hx, hbinders⟩
      exact ((Pattern.mem_names_write fresh _).mp (hknown x hx)).resolve_left hbinders
    · rw [ha, p.next_write, Nat.add_assoc]
  · obtain ⟨hbinders, hnames⟩ := not_or.mp (mt (Pattern.mem_names_write fresh _).mpr hunknown)
    exact Or.inr ⟨x, ⟨hx, hbinders⟩, hnames, herr⟩

end Accounts

/-! ### Children -/

section children

variable {α β : Type} {write : Nat → α → Except Error (β × Nat)}

/-- As many are written as there are. -/
theorem length_of_writeEach : {as : List α} → {n : Nat} → {bs : List β} → {n' : Nat} →
    writeEach write n as = .ok (bs, n') → bs.length = as.length
  | [], _, _, _, h => by
      obtain ⟨rfl, -⟩ := Prod.mk.inj (Except.ok.inj h)
      rfl
  | a :: as, _, _, _, h => by
      obtain ⟨⟨b, n₁⟩, -, h⟩ := Error.bind_eq_ok.mp h
      obtain ⟨⟨bs, n₂⟩, hbs, h⟩ := Error.bind_eq_ok.mp h
      obtain ⟨rfl, -⟩ := Prod.mk.inj (Error.pure_eq_ok.mp h)
      rw [List.length_cons, List.length_cons, length_of_writeEach hbs]

/-- Children one after the other have the free names and the binders of each. -/
theorem accounts_writeEach {names : NameMap String} {free : α → Name → Prop} {count : α → Nat} :
    (as : List α) → (∀ a ∈ as, ∀ n, Accounts names (free a) (count a) n (write n a)) → ∀ n,
      Accounts names (fun x => ∃ a ∈ as, free a x) (as.map count).sum n (writeEach write n as)
  | [], _, _ => Or.inl ⟨by simp, [], rfl⟩
  | a :: as, h, n => by
      obtain ⟨ha, has⟩ := List.forall_mem_cons.mp h
      rw [List.map_cons, List.sum_cons, writeEach]
      have hrest := accounts_writeEach as has (n + count a)
      exact (ha n).andThen (fun b _ => hrest.finish fun bs _ => ⟨b :: bs, rfl⟩) fun x => by simp

end children

namespace Term

variable {κ : Type}

/-- The binders of plain children are counted one by one. -/
theorem binderCountTerms_eq (ts : List (Term κ)) :
    binderCountTerms ts = (ts.map binderCount).sum := by
  induction ts with
  | nil => rfl
  | cons t ts ih => rw [binderCountTerms, ih, List.map_cons, List.sum_cons]

/-- The binders of scoped children are counted one by one, with those of their patterns. -/
theorem binderCountScopes_eq (ss : List (Scoped (Term κ))) :
    binderCountScopes ss =
      (ss.map fun sc => sc.binder.binders.length + sc.body.binderCount).sum := by
  induction ss with
  | nil => rfl
  | cons sc ss ih => rw [binderCountScopes, ih, List.map_cons, List.sum_cons]

end Term

namespace LambdaPi

/-! ### Terms -/

/-- Whatever is known and wherever it begins, writing the term accounts for its free names and its
binders. -/
def WritesAll (fresh : Nat → String) (e : Expr) : Prop :=
  ∀ names n, Accounts names (· ∈ e.freeNames) e.binderCount n (Term.write exporter fresh names n e)

variable {fresh : Nat → String}

/-- A variable is written exactly if its name is known. -/
theorem writesAll_var (x : Name) : WritesAll fresh (.var x) := by
  intro names n
  rcases hx : names.get? x with _ | id
  · refine Or.inr ⟨x, Term.mem_freeNames_var.mpr rfl, ?_, ?_⟩
    · rw [NameMap.mem_iff, hx]
      exact nofun
    · simp only [Term.write, NameMap.lookup, hx]
      rfl
  · refine Or.inl ⟨?_, .atom id, ?_⟩
    · intro y hy
      rw [Term.mem_freeNames_var.mp hy]
      exact NameMap.mem_iff.mpr ⟨id, hx⟩
    · simp only [Term.write, NameMap.lookup, hx]
      rfl

/-- A scoped term is written exactly if the names of its body other than the binders are known. -/
theorem WritesAll.scoped {sc : Scoped Expr} (hbody : WritesAll fresh sc.body)
    (hp : sc.binder.setFree = true) (names : NameMap String) (n : Nat) :
    Accounts names (fun x => x ∈ sc.body.freeNames ∧ x ∉ sc.binder.binders)
      (sc.binder.binders.length + sc.body.binderCount) n
      (Term.writeScoped exporter fresh names n sc) := by
  unfold Term.writeScoped
  rw [if_pos (show exporter.admits sc.binder = true from hp)]
  exact (hbody _ _).outside.finish fun rawBody _ =>
    ⟨((sc.binder.write fresh ⟨names, n⟩).1, rawBody), rfl⟩

/-- A node is written exactly if the names of its children are known. -/
theorem writesAll_node {f : Form} {ts : List Expr} {ss : List (Scoped Expr)}
    (harity : (ts.length, ss.length) = f.arity) (hts : ∀ e ∈ ts, WritesAll fresh e)
    (hss : ∀ sc ∈ ss, sc.binder.setFree = true ∧ WritesAll fresh sc.body) :
    WritesAll fresh (.node (.form f) ts ss) := by
  intro names n
  rw [Term.write, Term.writeTerms_eq, Term.binderCount, Term.binderCountTerms_eq,
    Term.binderCountScopes_eq]
  refine (accounts_writeEach ts (fun e he m => hts e he names m) n).andThen ?_
    fun x => Term.mem_freeNames_node
  intro us hus
  dsimp only
  rw [Term.writeScopes_eq]
  refine (accounts_writeEach ss (fun sc hsc m => (hss sc hsc).2.scoped (hss sc hsc).1 names m)
    _).finish ?_
  intro vs hvs
  have hlen : (us.length, vs.length) = f.arity := by
    rw [length_of_writeEach hus, length_of_writeEach hvs, harity]
  obtain ⟨raw, hraw, -⟩ := exists_writeNode f us vs hlen
  refine ⟨raw, ?_⟩
  dsimp only
  rw [show exporter.node (.form f) us vs = .ok raw from hraw]
  rfl

/-- Every term of the language without sets accounts for its names and binders. -/
theorem writesAll {e : Expr} (harity : e.ArityCorrect) (hsets : e.SetFree) :
    WritesAll fresh e := by
  induction harity with
  | var x => exact writesAll_var x
  | node hlen _ _ ihts ihss =>
    obtain ⟨hsets_ts, hsets_ss⟩ := Term.allPatterns_node.mp hsets
    refine writesAll_node hlen (fun e he => ihts e he (hsets_ts e he)) ?_
    intro sc hsc
    exact ⟨(hsets_ss sc hsc).1, ihss sc hsc (hsets_ss sc hsc).2⟩

/-- Writing starts at the first identifier, and forgets how many were drawn. -/
theorem write_eq_ok_iff {e : Expr} {names : NameMap String} {raw : Sexp} :
    e.write names fresh = .ok raw ↔ ∃ n, Term.write exporter fresh names 0 e = .ok (raw, n) := by
  unfold Expr.write
  simp only [Error.bind_eq_ok, Error.pure_eq_ok]
  constructor
  · rintro ⟨⟨raw, n⟩, hwrite, rfl⟩
    exact ⟨n, hwrite⟩
  · rintro ⟨n, hwrite⟩
    exact ⟨(raw, n), hwrite, rfl⟩

/-- Writing fails as it does from the first identifier on. -/
theorem write_eq_error_iff {e : Expr} {names : NameMap String} {err : Error} :
    e.write names fresh = .error err ↔ Term.write exporter fresh names 0 e = .error err := by
  unfold Expr.write
  rw [Error.bind_eq_error]
  exact or_iff_left fun ⟨_, _, herr⟩ => absurd herr nofun

/-- **Writing fails exactly on unknown names.** Let identifiers be given to names one after the
other, later ones hiding earlier ones, and let the binders take those of any sequence. A term of the
language without sets is written exactly if every name that is free in it was given an identifier.
Otherwise a name is reported that is free in the term and was not given one. When the term is
written, as many identifiers have been drawn as it has binders. -/
theorem write_fails_on_unknown (e : Expr) (harity : e.ArityCorrect) (hsets : e.SetFree)
    (given : List (Name × String)) (fresh : Nat → String) :
    ((∃ raw, e.write (.ofList given) fresh = .ok raw) ↔
      ∀ x ∈ e.freeNames, x ∈ given.map Prod.fst) ∧
    (∀ err, e.write (.ofList given) fresh = .error err →
      ∃ x ∈ e.freeNames, x ∉ given.map Prod.fst ∧ err = .unknownName x) ∧
    ∀ raw, e.write (.ofList given) fresh = .ok raw →
      Term.write exporter fresh (.ofList given) 0 e = .ok (raw, e.binderCount) := by
  have haccounts : Accounts (.ofList given) (· ∈ e.freeNames) e.binderCount 0
      (Term.write exporter fresh (.ofList given) 0 e) := writesAll harity hsets (.ofList given) 0
  simp only [← NameMap.mem_ofList, write_eq_ok_iff, write_eq_error_iff]
  refine ⟨?_, ?_, ?_⟩
  · rw [← haccounts.exists_ok_iff, Prod.exists]
  · exact fun err herr => haccounts.of_eq_error herr
  · rintro raw ⟨n, hn⟩
    rw [hn, haccounts.of_eq_ok hn, Nat.zero_add]

/-- A name that is bound in one component and free in the other: the binder of the first does not
help the second. -/
def boundThenFree : Expr := .pair (.lam (.single 1) (.var 1)) (.var 1)

/-- A bound occurrence is written as the identifier drawn for its binder, a free one as the last
entry of the map says, and without an entry it is reported. -/
theorem write_fails_on_unknown_boundThenFree :
    Term.write exporter (Identifier.numbered "x") (.ofList [(1, "y"), (1, "z")]) 0 boundThenFree =
        .ok (.tagged "pair" [.tagged "lam" [.atom "x0", .atom "x0"], .atom "z"], 1) ∧
      ∃ x ∈ boundThenFree.freeNames,
        boundThenFree.write (.ofList []) (Identifier.numbered "x") = .error (.unknownName x) := by
  have harity : boundThenFree.ArityCorrect := by
    refine .node rfl ?_ (by simp)
    simp only [List.forall_mem_cons]
    refine ⟨.node rfl (by simp) ?_, .var 1, by simp⟩
    simp only [List.forall_mem_cons]
    exact ⟨.var 1, by simp⟩
  have hsets : boundThenFree.SetFree := by
    simp [boundThenFree, Expr.pair, Expr.lam, Term.SetFree, Term.allPatterns_node,
      Term.AllPatterns.var, Pattern.setFree]
  have hgiven := write_fails_on_unknown boundThenFree harity hsets [(1, "y"), (1, "z")]
    (Identifier.numbered "x")
  have hempty := write_fails_on_unknown boundThenFree harity hsets [] (Identifier.numbered "x")
  refine ⟨hgiven.2.2 _ rfl, ?_⟩
  obtain ⟨x, hx, -, herr⟩ := hempty.2.1 (.unknownName 1) rfl
  exact ⟨x, hx, herr ▸ rfl⟩

end LambdaPi

end NameBinding
