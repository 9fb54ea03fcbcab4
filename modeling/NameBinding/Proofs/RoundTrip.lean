import NameBinding.Proofs.CaptureFree
import NameBinding.Proofs.RawSyntax

/-!
# Writing a term and reading it back

Writing, reading and freshening walk over a term on their own, each with its own account of the
names in play: identifiers by name, names by identifier, and names by name. `Agrees` says of one
name that the three accounts fit together. A binder makes its own name agree and leaves the others
as they were (`Binds.single`), so does a whole pattern (`exists_readPattern`), and by induction over
the term whatever is written is read as the term freshened (`readsBack`).

Nothing is asked of the size of names: where fresh names wrap around, reading and freshening choose
the same ones all the same.

The main statement is `read_write_eq_freshen`.
-/

namespace NameBinding

namespace LambdaPi

/-! ### Names, identifiers and names again -/

/-- The name `x` is written as an identifier that is not drawn any more, and what the table reads it
as is what the substitution gives `x`. -/
def Agrees (fresh : Nat → String) (v : Naming) (t : Table) (σ : Substitution Expr) (x : Name) :
    Prop :=
  ∃ id y, v.names.get? x = some id ∧ Identifier.isValid id = true ∧
    (∀ k, v.next ≤ k → fresh k ≠ id) ∧ t.get? id = some y ∧ σ.lookup x = .var y

/-- What agrees still does after more identifiers were drawn. -/
theorem Agrees.mono {fresh : Nat → String} {names : NameMap String} {m n : Nat} {t : Table}
    {σ : Substitution Expr} {x : Name} (h : Agrees fresh ⟨names, m⟩ t σ x) (hmn : m ≤ n) :
    Agrees fresh ⟨names, n⟩ t σ x := by
  obtain ⟨id, y, hid, hvalid, hunused, hy, hσ⟩ := h
  exact ⟨id, y, hid, hvalid, fun k hk => hunused k (Nat.le_trans hmn hk), hy, hσ⟩

/-- The names `xs` were bound one after the other: written with the identifiers that were next, and
these read as the names `ys`. Whatever agreed before and is not hidden still agrees, and so do the
names that were bound. -/
structure Binds (fresh : Nat → String) (v : Naming) (t : Table) (xs ys : List Name) (v' : Naming)
    (t' : Table) : Prop where
  length : xs.length = ys.length
  scope : t'.scope = t.scope.extendAll ys
  next : v.next ≤ v'.next
  agrees : ∀ (σ : Substitution Expr) (z : Name), (z ∉ xs → Agrees fresh v t σ z) →
    Agrees fresh v' t' ((xs.zip ys).foldl (fun τ e => τ.addRename e.1 e.2) σ) z

namespace Binds

variable {fresh : Nat → String} {v v' v'' : Naming} {t t' t'' : Table} {xs ys xs' ys' : List Name}

/-- Without binders nothing changes. -/
theorem nil (v : Naming) (t : Table) : Binds fresh v t [] [] v t :=
  ⟨rfl, rfl, Nat.le_refl _, fun _ _ h => h List.not_mem_nil⟩

/-- One binder. -/
theorem single (hfresh : Identifier.Supply fresh) (v : Naming) (t : Table) (x y : Name) :
    Binds fresh v t [x] [y] ⟨v.names.add x (fresh v.next), v.next + 1⟩
      (t.bindAs (fresh v.next) y) := by
  refine ⟨rfl, rfl, Nat.le_succ _, ?_⟩
  intro σ z h
  show Agrees _ _ _ (σ.addRename x y) z
  by_cases hz : z = x
  · refine ⟨fresh v.next, y, ?_, hfresh.valid _, ?_, ?_, ?_⟩
    · rw [NameMap.get?_add, if_pos hz]
    · intro k hk heq
      have := hfresh.injective _ _ heq
      dsimp only at hk
      omega
    · rw [Table.get?_bindAs, if_pos rfl]
    · rw [Substitution.lookup_addRename, if_pos hz]
      rfl
  · obtain ⟨id, w, hid, hvalid, hunused, hw, hσ⟩ := h (by simpa using hz)
    have hne : id ≠ fresh v.next := fun heq => hunused _ (Nat.le_refl _) heq.symm
    refine ⟨id, w, ?_, hvalid, fun k hk => hunused k (Nat.le_of_succ_le hk), ?_, ?_⟩
    · rw [NameMap.get?_add, if_neg hz, hid]
    · rw [Table.get?_bindAs, if_neg hne, hw]
    · rw [Substitution.lookup_addRename, if_neg hz, hσ]

/-- Binders after binders. -/
theorem append (h : Binds fresh v t xs ys v' t') (h' : Binds fresh v' t' xs' ys' v'' t'') :
    Binds fresh v t (xs ++ xs') (ys ++ ys') v'' t'' := by
  refine ⟨?_, ?_, Nat.le_trans h.next h'.next, ?_⟩
  · rw [List.length_append, List.length_append, h.length, h'.length]
  · rw [h'.scope, h.scope, Scope.extendAll_append]
  · intro σ z hz
    rw [List.zip_append h.length, List.foldl_append]
    apply h'.agrees
    intro hz'
    apply h.agrees
    intro hzx
    exact hz fun hmem => (List.mem_append.mp hmem).elim hzx hz'

end Binds

/-! ### Patterns -/

section

variable {fresh : Nat → String} (hfresh : Identifier.Supply fresh)
include hfresh

/-- The entries of a list are read as the fresh names that replace its binders. -/
theorem exists_readEntries : (xs : List Name) → (v : Naming) → (t : Table) →
    ∃ t', Pattern.readEntries t (v.drawAll fresh xs).1 =
        .ok (Pattern.replacements (fun before _ => before.fresh) t.scope xs, t') ∧
      Binds fresh v t xs (Pattern.replacements (fun before _ => before.fresh) t.scope xs)
        (v.drawAll fresh xs).2 t'
  | [], v, t => ⟨t, rfl, .nil v t⟩
  | x :: xs, v, t => by
      have hstep := Binds.single hfresh v t x t.scope.fresh
      obtain ⟨t', hread, hbinds⟩ := exists_readEntries xs
        ⟨v.names.add x (fresh v.next), v.next + 1⟩ (t.bindAs (fresh v.next) t.scope.fresh)
      refine ⟨t', ?_, hstep.append hbinds⟩
      simp only [Naming.drawAll, Pattern.readEntries, hfresh.valid, if_true, Table.bind, hread]
      rfl

/-- A written pattern is read as one of the same shape, with fresh names for its binders. -/
theorem exists_readPattern {p : Pattern} (hp : p.setFree = true) (v : Naming) (t : Table) :
    ∃ q t', Pattern.read t (p.write fresh v).1 = .ok (q, t') ∧ q.shape = p.shape ∧
      q.binders = Pattern.replacements (fun before _ => before.fresh) t.scope p.binders ∧
      Binds fresh v t p.binders q.binders (p.write fresh v).2 t' := by
  induction p generalizing v t with
  | wildcard => exact ⟨.wildcard, t, by simp [Pattern.write, Pattern.read], rfl, rfl, .nil v t⟩
  | single x =>
    obtain ⟨-, hwild, -⟩ := Identifier.isValid_iff.mp (hfresh.valid v.next)
    refine ⟨.single t.scope.fresh, t.bindAs (fresh v.next) t.scope.fresh, ?_, rfl, rfl,
      .single hfresh v t x t.scope.fresh⟩
    simp only [Pattern.write, Pattern.read, if_neg hwild, hfresh.valid, if_true, Table.bind]
  | list xs =>
    obtain ⟨t', hread, hbinds⟩ := exists_readEntries hfresh xs v t
    refine ⟨.list _, t', ?_, ?_, rfl, hbinds⟩
    · simp only [Pattern.write, Pattern.read_list, hread]
      rfl
    · rw [Pattern.shape, Pattern.shape, Pattern.length_replacements, Pattern.binders]
  | set xs => cases hp
  | pair l r ihl ihr =>
    obtain ⟨hl, hr⟩ := Bool.and_eq_true_iff.mp hp
    obtain ⟨ql, tl, hreadl, hshapel, hql, hbindsl⟩ := ihl hl v t
    obtain ⟨qr, tr, hreadr, hshaper, hqr, hbindsr⟩ := ihr hr (l.write fresh v).2 tl
    refine ⟨.pair ql qr, tr, ?_, ?_, ?_, hbindsl.append hbindsr⟩
    · simp only [Pattern.write, Pattern.read_pair, hreadl]
      show (Pattern.read tl _ >>= fun _ => _) = _
      rw [hreadr]
      rfl
    · simp only [Pattern.shape, hshapel, hshaper]
    · rw [Pattern.binders, Pattern.binders, Pattern.replacements_append, hqr, hbindsl.scope, hql]

/-- A written pattern is read as the freshened one, and agreement passes to what is inside. -/
theorem exists_read_write_pattern {p : Pattern} (hp : p.setFree = true) (v : Naming) (t : Table) :
    ∃ t', Pattern.read t (p.write fresh v).1 = .ok ((p.freshen t.scope).pattern, t') ∧
      t'.scope = (p.freshen t.scope).scope ∧ v.next ≤ (p.write fresh v).2.next ∧
      ∀ (σ : Substitution Expr) (z : Name), (z ∉ p.binders → Agrees fresh v t σ z) →
        Agrees fresh (p.write fresh v).2 t' (σ.extend (p.freshen t.scope)) z := by
  obtain ⟨q, t', hread, hshape, hbinders, hbinds⟩ := exists_readPattern hfresh hp v t
  have hq : q = (p.freshen t.scope).pattern := by
    unfold Pattern.freshen
    apply Pattern.ext
    · rw [hshape, Pattern.moveInto_shape _ _ hp]
    · rw [hbinders, Pattern.moveInto_binders _ _ hp]
  refine ⟨t', hq ▸ hread, ?_, hbinds.next, ?_⟩
  · unfold Pattern.freshen
    rw [hbinds.scope, Pattern.moveInto_scope, hbinders]
  · unfold Pattern.freshen Substitution.extend
    rw [Pattern.moveInto_renames, ← hbinders]
    exact hbinds.agrees

end

end LambdaPi

/-! ### Children one after the other -/

/-- Writes the members of a list one after the other, each from the number that the one before it
left. -/
def writeEach {α β : Type} (write : Nat → α → Except Error (β × Nat)) :
    Nat → List α → Except Error (List β × Nat)
  | n, [] => .ok ([], n)
  | n, a :: as => do
    let (b, n) ← write n a
    let (bs, n) ← writeEach write n as
    return (b :: bs, n)

/-- If every member is written, from whatever number at least `m`, then all are. -/
theorem exists_writeEach {α β : Type} {write : Nat → α → Except Error (β × Nat)}
    {R : β → α → Prop} {m : Nat} :
    (as : List α) → (∀ a ∈ as, ∀ n, m ≤ n → ∃ b n', write n a = .ok (b, n') ∧ n ≤ n' ∧ R b a) →
      ∀ n, m ≤ n → ∃ bs n', writeEach write n as = .ok (bs, n') ∧ n ≤ n' ∧ List.Forall₂ R bs as
  | [], _, n, _ => ⟨[], n, rfl, Nat.le_refl n, .nil⟩
  | a :: as, h, n, hn => by
      obtain ⟨b, n₁, hb, hn₁, hR⟩ := h a List.mem_cons_self n hn
      obtain ⟨bs, n₂, hbs, hn₂, hRs⟩ := exists_writeEach as
        (fun a' ha' => h a' (List.mem_cons_of_mem _ ha')) n₁ (Nat.le_trans hn hn₁)
      refine ⟨b :: bs, n₂, ?_, Nat.le_trans hn₁ hn₂, .cons hR hRs⟩
      simp [writeEach, hb, hbs, Error.bind_eq_ok]

namespace Term

variable {κ : Type} (ex : Exporter κ) (fresh : Nat → String)

/-- Plain children are written one after the other. -/
theorem writeTerms_eq (names : NameMap String) (n : Nat) (ts : List (Term κ)) :
    writeTerms ex fresh names n ts = writeEach (write ex fresh names) n ts := by
  induction ts generalizing n with
  | nil => rfl
  | cons t ts ih => simp only [writeTerms, writeEach, ih]

/-- Scoped children are written one after the other. -/
theorem writeScopes_eq (names : NameMap String) (n : Nat) (ss : List (Scoped (Term κ))) :
    writeScopes ex fresh names n ss = writeEach (writeScoped ex fresh names) n ss := by
  induction ss generalizing n with
  | nil => rfl
  | cons sc ss ih =>
    obtain ⟨p, b⟩ := sc
    simp only [writeScopes, writeEach, writeScoped, ih]
    by_cases hp : ex.admits p
    · simp only [hp, if_true, bind_assoc]
      rfl
    · simp [hp]
      rfl

end Term

namespace LambdaPi

/-! ### Terms -/

/-- A written node: its children are written one after the other. -/
theorem write_node_eq_ok {fresh : Nat → String} {names : NameMap String} {n n₁ n₂ : Nat} {h : Head}
    {ts : List Expr} {ss : List (Scoped Expr)} {us : List Sexp} {vs : List (Sexp × Sexp)}
    {raw : Sexp} (hts : writeEach (Term.write exporter fresh names) n ts = .ok (us, n₁))
    (hss : writeEach (Term.writeScoped exporter fresh names) n₁ ss = .ok (vs, n₂))
    (hraw : writeNode h us vs = .ok raw) :
    Term.write exporter fresh names n (.node h ts ss) = .ok (raw, n₂) := by
  rw [Term.write, Term.writeTerms_eq, hts]
  show (Term.writeScopes exporter fresh names n₁ ss >>= _) = _
  rw [Term.writeScopes_eq, hss]
  show (writeNode h us vs >>= _) = _
  rw [hraw]
  rfl

/-- Wherever its free names agree, the term is written, and what is written is read as the term with
fresh names for its binders and its free names replaced as the substitution says. -/
def ReadsBack (fresh : Nat → String) (e : Expr) : Prop :=
  ∀ (v : Naming) (t : Table) (σ : Substitution Expr), (∀ x ∈ e.freeNames, Agrees fresh v t σ x) →
    ∃ raw n, Term.write exporter fresh v.names v.next e = .ok (raw, n) ∧ v.next ≤ n ∧
      Expr.read t raw = .ok (e.substituteFresh t.scope σ)

section

variable {fresh : Nat → String}

/-- A variable is read back. -/
theorem readsBack_var (x : Name) : ReadsBack fresh (.var x) := by
  intro v t σ hagrees
  obtain ⟨id, y, hid, hvalid, -, hy, hσ⟩ := hagrees x (Term.mem_freeNames_var.mpr rfl)
  obtain ⟨-, -, hU⟩ := Identifier.isValid_iff.mp hvalid
  refine ⟨.atom id, v.next, ?_, Nat.le_refl _, ?_⟩
  · simp only [Term.write, NameMap.lookup, hid]
    rfl
  · simp only [Expr.read, if_neg hU, hvalid, if_true, Table.lookup, hy]
    show _ = Except.ok (σ.lookup x)
    rw [hσ]
    rfl

/-- A scoped term is read back if its body is. -/
theorem ReadsBack.scoped (hfresh : Identifier.Supply fresh) {sc : Scoped Expr}
    (hbody : ReadsBack fresh sc.body) (hp : sc.binder.setFree = true) {names : NameMap String}
    {n : Nat} {t : Table} {σ : Substitution Expr}
    (hagrees : ∀ x ∈ sc.body.freeNames, x ∉ sc.binder.binders → Agrees fresh ⟨names, n⟩ t σ x) :
    ∃ raw n', Term.writeScoped exporter fresh names n sc = .ok (raw, n') ∧ n ≤ n' ∧
      readScoped t raw =
        .ok (Term.substituteScoped (fun before _ => before.fresh) t.scope σ sc) := by
  obtain ⟨t', hread, hscope, hnext, hinside⟩ := exists_read_write_pattern hfresh hp ⟨names, n⟩ t
  obtain ⟨raw, n', hwrite, hn', hraw⟩ := hbody _ t' _ fun x hx => hinside σ x (hagrees x hx)
  refine ⟨((sc.binder.write fresh ⟨names, n⟩).1, raw), n', ?_, Nat.le_trans hnext hn', ?_⟩
  · unfold Term.writeScoped
    rw [if_pos (show exporter.admits sc.binder = true from hp)]
    show (Term.write exporter fresh _ _ sc.body >>= _) = _
    rw [hwrite]
    rfl
  · refine readScoped_eq_ok.mpr ⟨_, t', _, hread, hraw, ?_⟩
    rw [hscope]
    rfl

/-- A node is read back if its children are. -/
theorem readsBack_node (hfresh : Identifier.Supply fresh) {f : Form} {ts : List Expr}
    {ss : List (Scoped Expr)} (harity : (ts.length, ss.length) = f.arity)
    (hts : ∀ e ∈ ts, ReadsBack fresh e)
    (hss : ∀ sc ∈ ss, sc.binder.setFree = true ∧ ReadsBack fresh sc.body) :
    ReadsBack fresh (.node (.form f) ts ss) := by
  rintro ⟨names, n⟩ t σ hagrees
  obtain ⟨us, n₁, hus, hn₁, hus_read⟩ := exists_writeEach ts (fun e he m hm =>
    hts e he ⟨names, m⟩ t σ fun x hx =>
      (hagrees x (Term.mem_freeNames_node.mpr (Or.inl ⟨e, he, hx⟩))).mono hm) n (Nat.le_refl n)
  obtain ⟨vs, n₂, hvs, hn₂, hvs_read⟩ := exists_writeEach ss (fun sc hsc m hm =>
    (hss sc hsc).2.scoped hfresh (hss sc hsc).1 fun x hx hxp =>
      (hagrees x (Term.mem_freeNames_node.mpr (Or.inr ⟨sc, hsc, hx, hxp⟩))).mono hm) n₁ hn₁
  have hlen : (us.length, vs.length) = f.arity := by
    rw [hus_read.length_eq, hvs_read.length_eq, harity]
  obtain ⟨raw, hraw, hnode⟩ := exists_writeNode f us vs hlen
  refine ⟨raw, n₂, write_node_eq_ok hus hvs hraw, Nat.le_trans hn₁ hn₂, ?_⟩
  unfold Term.substituteFresh
  rw [Term.substituteWith_node]
  exact hnode.read_eq_ok.mpr ⟨_, _, List.forall₂_map_right_iff.mpr hus_read,
    List.forall₂_map_right_iff.mpr hvs_read, rfl⟩

/-- Every term of the language without sets is read back. -/
theorem readsBack (hfresh : Identifier.Supply fresh) {e : Expr} (harity : e.ArityCorrect)
    (hsets : e.SetFree) : ReadsBack fresh e := by
  induction harity with
  | var x => exact readsBack_var x
  | node hlen _ _ ihts ihss =>
    obtain ⟨hsets_ts, hsets_ss⟩ := Term.allPatterns_node.mp hsets
    refine readsBack_node hfresh hlen (fun e he => ihts e he (hsets_ts e he)) ?_
    intro sc hsc
    exact ⟨(hsets_ss sc hsc).1, ihss sc hsc (hsets_ss sc hsc).2⟩

end

/-- **Writing a term and reading it back chooses its binders canonically.** Let every free name of
`e` be written as an identifier that is never drawn for a binder and that the table reads as the
same name. Then `e` is written, what is written is read, and the result is `e` freshened for the
scope of the table. The numbered identifiers of any stem can be drawn for the binders. -/
theorem read_write_eq_freshen :
    (∀ stem, Identifier.Supply (Identifier.numbered stem)) ∧
    ∀ (t : Table) (e : Expr) (names : NameMap String) (fresh : Nat → String),
      Identifier.Supply fresh → e.ArityCorrect → e.SetFree →
      (∀ x ∈ e.freeNames, ∃ id, names.lookup x = .ok id ∧ Identifier.isValid id = true ∧
        (∀ n, fresh n ≠ id) ∧ t.lookup id = .ok x) →
      ∃ raw e', e.write names fresh = .ok raw ∧ Expr.read t raw = .ok e' ∧
        e'.same (e.freshen t.scope) = true := by
  refine ⟨Identifier.numbered_supply, ?_⟩
  intro t e names fresh hfresh harity hsets hnames
  have hagrees : ∀ x ∈ e.freeNames, Agrees fresh ⟨names, 0⟩ t .identity x := by
    intro x hx
    obtain ⟨id, hid, hvalid, hunused, hx⟩ := hnames x hx
    exact ⟨id, x, NameMap.lookup_eq_ok.mp hid, hvalid, fun k _ => hunused k,
      Table.lookup_eq_ok.mp hx, rfl⟩
  obtain ⟨raw, n, hwrite, -, hread⟩ :=
    readsBack hfresh harity hsets ⟨names, 0⟩ t .identity hagrees
  refine ⟨raw, _, ?_, hread, Term.same_iff.mpr rfl⟩
  unfold Expr.write
  rw [hwrite]
  rfl

/-- A function of a list with a repeated binder, applied to a free name. -/
theorem read_write_repeated_binder :
    ((Expr.lam (.list [1, 1]) (.app (.var 0) (.var 1))).write ((∅ : NameMap String).add 0 "y")
        (Identifier.numbered "x") >>= Expr.read ((Table.ofScope ∅).bindAs "y" 0)) =
      .ok (.lam (.list [1, 2]) (.app (.var 0) (.var 2))) := by
  have harity : (Expr.lam (.list [1, 1]) (.app (.var 0) (.var 1))).ArityCorrect := by
    refine .node rfl (by simp) ?_
    simp only [List.mem_singleton, forall_eq]
    refine .node rfl ?_ (by simp)
    simp only [List.forall_mem_cons]
    exact ⟨.var 0, .var 1, by simp⟩
  have hsets : (Expr.lam (.list [1, 1]) (.app (.var 0) (.var 1))).SetFree := by
    simp [Expr.lam, Expr.app, Term.SetFree, Term.allPatterns_node, Term.AllPatterns.var,
      Pattern.setFree]
  have hnames : ∀ x ∈ (Expr.lam (.list [1, 1]) (.app (.var 0) (.var 1))).freeNames, ∃ id,
      ((∅ : NameMap String).add 0 "y").lookup x = .ok id ∧ Identifier.isValid id = true ∧
        (∀ n, Identifier.numbered "x" n ≠ id) ∧
        ((Table.ofScope ∅).bindAs "y" 0).lookup id = .ok x := by
    intro x hx
    have hx0 : x = 0 := by
      have hmem : x ∈ ([0] : List Name) := hx
      simpa using hmem
    subst hx0
    refine ⟨"y", rfl, rfl, ?_, rfl⟩
    intro n h
    have hlist := congrArg String.toList h
    rw [Identifier.toList_numbered] at hlist
    simp at hlist
  obtain ⟨raw, e', hwrite, hread, hsame⟩ := read_write_eq_freshen.2
    ((Table.ofScope ∅).bindAs "y" 0) (.lam (.list [1, 1]) (.app (.var 0) (.var 1)))
    ((∅ : NameMap String).add 0 "y") (Identifier.numbered "x") (Identifier.numbered_supply "x")
    harity hsets hnames
  rw [hwrite]
  show Expr.read _ raw = _
  rw [hread, Term.same_iff.mp hsame]
  rfl

end LambdaPi

end NameBinding
