import NameBinding.Proofs.Grammar
import NameBinding.Proofs.Nameless

/-!
# Lexical scope

What an identifier means is decided by where it stands. `LambdaPi.Refers` finds its binding site:
the innermost pattern around it that has it, at the last position there, and the table if there is
no such pattern. `LambdaPi.Denotes` puts this together for a whole raw term and gives the nameless
form that the term must have; it gives one at most (`LambdaPi.Denotes.unique`).

Reading knows nothing of positions. It draws a fresh name for every binding site and looks
identifiers up. As long as no draw wraps around, the names drawn for a pattern are distinct and new,
so the table inside the pattern still tells binding sites apart (`LambdaPi.Tracks.bindAll`), and the
term that is read has the nameless form that the raw term denotes (`LambdaPi.denotes_of_read`).

The main statement is `LambdaPi.read_resolves`.
-/

namespace NameBinding

namespace Table

/-! ### Tables -/

/-- The tables there are: over a scope, and with one more identifier bound. -/
inductive Built : Table → Prop where
  | ofScope (s : Scope) : Built (ofScope s)
  | bindAs {t : Table} (built : Built t) (id : String) (x : Name) : Built (t.bindAs id x)

/-- Identifiers stand for names of the scope. -/
def InScope (t : Table) : Prop := ∀ id x, t.get? id = some x → x ∈ t.scope

/-- A table stays within its scope when an identifier is bound to any name. -/
theorem InScope.bindAs {t : Table} (h : t.InScope) (id : String) (x : Name) :
    (t.bindAs id x).InScope := by
  intro id' y hy
  rw [get?_bindAs] at hy
  rw [scope_bindAs, Scope.mem_extend]
  split at hy
  · cases hy
    exact Or.inl rfl
  · exact Or.inr (h id' y hy)

/-- Every table that there is stays within its scope. -/
theorem Built.inScope {t : Table} (h : t.Built) : t.InScope := by
  induction h with
  | ofScope s => simp [InScope]
  | bindAs _ id x ih => exact ih.bindAs id x

/-- A table stays within its scope when identifiers are bound to fresh names. -/
theorem InScope.bindAll {t : Table} (h : t.InScope) (ids : List String) :
    (t.bindAll ids).InScope := by
  induction ids generalizing t with
  | nil => exact h
  | cons id ids ih => exact ih (h.bindAs id t.scope.fresh)

/-- No draw wraps while the identifiers of a list are bound. -/
def HasRoomFor (t : Table) : List String → Prop
  | [] => True
  | id :: ids => t.scope.HasRoom ∧ (t.bind id).2.HasRoomFor ids

instance decidableHasRoomFor : (t : Table) → (ids : List String) → Decidable (t.HasRoomFor ids)
  | _, [] => inferInstanceAs (Decidable True)
  | t, id :: ids =>
    have := decidableHasRoomFor (t.bind id).2 ids
    inferInstanceAs (Decidable (_ ∧ _))

/-- The names drawn for identifiers are the fresh replacements of any names, themselves included. -/
theorem replacements_draws (t : Table) (ids : List String) :
    Pattern.replacements (fun before _ => before.fresh) t.scope (t.draws ids) = t.draws ids := by
  induction ids generalizing t with
  | nil => rfl
  | cons id ids ih => exact congrArg (_ :: ·) (ih (t.bind id).2)

/-- Room for binding identifiers is room for replacing the names drawn. -/
theorem HasRoomFor.hasRoomForAll {t : Table} {ids : List String} (h : t.HasRoomFor ids) :
    Pattern.HasRoomForAll (fun before _ => before.fresh) t.scope (t.draws ids) := by
  induction ids generalizing t with
  | nil => trivial
  | cons id ids ih => exact ⟨Or.inr h.1, ih h.2⟩

/-- Different names are drawn for the identifiers of a list. -/
theorem HasRoomFor.nodup_draws {t : Table} {ids : List String} (h : t.HasRoomFor ids) :
    (t.draws ids).Nodup := by
  rw [← replacements_draws]
  exact Pattern.nodup_replacements Scope.fresh_keepsOrDraws h.hasRoomForAll

/-- The names drawn for identifiers are not in the scope of the table. -/
theorem HasRoomFor.draws_not_mem {t : Table} {ids : List String} (h : t.HasRoomFor ids) :
    ∀ x ∈ t.draws ids, x ∉ t.scope := by
  rw [← replacements_draws]
  exact Pattern.replacements_not_mem Scope.fresh_keepsOrDraws h.hasRoomForAll

end Table

namespace LambdaPi

/-! ### What a raw term means -/

/-- What an occurrence of an identifier refers to inside patterns with the identifiers `env`, the
innermost first: the last position of the innermost pattern that has it, or the name that the table
has for it. -/
inductive Refers (t : Table) : List (List String) → String → Occurrence → Prop where
  | table {id : String} {x : Name} (found : t.get? id = some x) : Refers t [] id (.free x)
  | here {ids : List String} {env : List (List String)} {id : String} {i : Nat}
      (last : Table.LastAt ids id i) : Refers t (ids :: env) id (.bound 0 i)
  | outside {ids : List String} {env : List (List String)} {id : String} {o : Occurrence}
      (not_here : id ∉ ids) (refers : Refers t env id o) : Refers t (ids :: env) id o.sink

mutual

/-- The nameless form of a raw term inside patterns with the identifiers `env`. -/
inductive Denotes (t : Table) : List (List String) → Sexp → Nameless Head → Prop where
  | identifier {env : List (List String)} {id : String} {o : Occurrence}
      (valid : Identifier.isValid id = true) (refers : Refers t env id o) :
      Denotes t env (.atom id) (.leaf o)
  | node {env : List (List String)} {f : Form} {us : List Sexp} {vs : List (Sexp × Sexp)}
      {raw : Sexp} {ts : List (Nameless Head)} {ss : List (Shape × Nameless Head)}
      (written : RawNode f us vs raw) (terms : DenotesTerms t env us ts)
      (scopes : DenotesScopes t env vs ss) : Denotes t env raw (.node (.form f) ts ss)

/-- The nameless forms of plain children. -/
inductive DenotesTerms (t : Table) :
    List (List String) → List Sexp → List (Nameless Head) → Prop where
  | nil {env : List (List String)} : DenotesTerms t env [] []
  | cons {env : List (List String)} {u : Sexp} {us : List Sexp} {d : Nameless Head}
      {ds : List (Nameless Head)} (term : Denotes t env u d) (terms : DenotesTerms t env us ds) :
      DenotesTerms t env (u :: us) (d :: ds)

/-- The nameless forms of scoped children, whose bodies are inside one pattern more. -/
inductive DenotesScopes (t : Table) :
    List (List String) → List (Sexp × Sexp) → List (Shape × Nameless Head) → Prop where
  | nil {env : List (List String)} : DenotesScopes t env [] []
  | cons {env : List (List String)} {p b : Sexp} {vs : List (Sexp × Sexp)} {shape : Shape}
      {ids : List String} {d : Nameless Head} {ds : List (Shape × Nameless Head)}
      (pattern : RawPattern shape ids p) (body : Denotes t (ids :: env) b d)
      (scopes : DenotesScopes t env vs ds) : DenotesScopes t env ((p, b) :: vs) ((shape, d) :: ds)

end

/-! ### A raw term means one thing -/

/-- An identifier refers to one thing only. -/
theorem Refers.unique {t : Table} {env : List (List String)} {id : String} {o o' : Occurrence}
    (h : Refers t env id o) (h' : Refers t env id o') : o = o' := by
  induction h generalizing o' with
  | table found =>
    rcases h' with found' | _ | _
    rw [found] at found'
    cases found'
    rfl
  | @here ids env id i last =>
    rcases h' with _ | last' | ⟨hnot, _⟩
    · rename_i j
      -- neither position is behind the other
      have hij : ¬ i < j := fun hlt => last.2 j hlt last'.1
      have hji : ¬ j < i := fun hlt => last'.2 i hlt last.1
      rw [show i = j by omega]
    · exact absurd (List.mem_of_getElem? last.1) hnot
  | outside hnot _ ih =>
    rcases h' with _ | last' | ⟨_, hrefers⟩
    · exact absurd (List.mem_of_getElem? last'.1) hnot
    · rw [ih hrefers]

mutual

/-- A raw term denotes one nameless form only. -/
theorem Denotes.unique {t : Table} {env : List (List String)} {raw : Sexp} {d d' : Nameless Head} :
    Denotes t env raw d → Denotes t env raw d' → d = d'
  | .identifier valid hrefers, h' => by
      rcases h' with ⟨-, hrefers'⟩ | ⟨hnode', -, -⟩
      · rw [hrefers.unique hrefers']
      · exact absurd valid hnode'.not_identifier
  | .node hnode hterms hscopes, h' => by
      rcases h' with ⟨valid, -⟩ | ⟨hnode', hterms', hscopes'⟩
      · exact absurd valid hnode.not_identifier
      · obtain ⟨rfl, rfl, rfl⟩ := hnode.unique hnode'
        rw [hterms.unique hterms', hscopes.unique hscopes']

/-- Raw plain children denote one list of nameless forms only. -/
theorem DenotesTerms.unique {t : Table} {env : List (List String)} {us : List Sexp}
    {ds ds' : List (Nameless Head)} :
    DenotesTerms t env us ds → DenotesTerms t env us ds' → ds = ds'
  | .nil, .nil => rfl
  | .cons hterm hterms, .cons hterm' hterms' => by
      rw [hterm.unique hterm', hterms.unique hterms']

/-- Raw scoped children denote one list of shapes and nameless forms only. -/
theorem DenotesScopes.unique {t : Table} {env : List (List String)} {vs : List (Sexp × Sexp)}
    {ds ds' : List (Shape × Nameless Head)} :
    DenotesScopes t env vs ds → DenotesScopes t env vs ds' → ds = ds'
  | .nil, .nil => rfl
  | .cons hpattern hbody hscopes, .cons hpattern' hbody' hscopes' => by
      obtain ⟨rfl, rfl⟩ := hpattern.unique hpattern'
      rw [hbody.unique hbody', hscopes.unique hscopes']

end

/-! ### Reading resolves identifiers -/

/-- No draw wraps while a raw term is read. -/
inductive ReadHasRoom : Table → Sexp → Prop where
  | identifier (t : Table) {id : String} (valid : Identifier.isValid id = true) :
      ReadHasRoom t (.atom id)
  | node {t : Table} {f : Form} {us : List Sexp} {vs : List (Sexp × Sexp)} {raw : Sexp}
      (written : RawNode f us vs raw) (terms : ∀ u ∈ us, ReadHasRoom t u)
      (patterns : ∀ v ∈ vs, ∀ shape ids, RawPattern shape ids v.1 → t.HasRoomFor ids)
      (bodies : ∀ v ∈ vs, ∀ shape ids, RawPattern shape ids v.1 →
        ReadHasRoom (t.bindAll ids) v.2) :
      ReadHasRoom t raw

/-- Inside patterns with the identifiers `env`, the table `inner` has for each identifier a name
that is read as what the identifier refers to. -/
def Tracks (t : Table) (env : List (List String)) (inner : Table) (ρ : Reading) : Prop :=
  ∀ id x, inner.get? id = some x → Refers t env id (ρ x)

/-- Outside of all patterns the table keeps track of itself. -/
theorem Tracks.top (t : Table) : Tracks t [] t .top := fun _ _ hx => .table hx

/-- Binding the identifiers of one more pattern keeps track of them. -/
theorem Tracks.bindAll {t inner : Table} {env : List (List String)} {ρ : Reading}
    (h : Tracks t env inner ρ) (hscope : inner.InScope) {ids : List String}
    (hroom : inner.HasRoomFor ids) :
    Tracks t (ids :: env) (inner.bindAll ids) (ρ.enter (inner.draws ids)) := by
  intro id x hx
  rcases inner.get?_bindAll ids id with ⟨hnot, hget⟩ | ⟨i, y, hlast, hy, hget⟩
  · -- a name of the table outside is in its scope, so it was not drawn again
    rw [hget] at hx
    have hnew : x ∉ inner.draws ids := fun hmem => hroom.draws_not_mem x hmem (hscope id x hx)
    rw [Reading.enter_of_not_mem hnew]
    exact .outside hnot (h id x hx)
  · rw [hget] at hx
    cases hx
    rw [Reading.enter_of_lastPosition? (Name.lastPosition?_of_nodup hroom.nodup_draws hy)]
    exact .here hlast

/-- Plain children denote what they are read as if each of them does. -/
theorem denotesTerms_of_read {t inner : Table} {env : List (List String)} {ρ : Reading}
    {us : List Sexp} {ts : List Expr}
    (hread : List.Forall₂ (fun u e => Expr.read inner u = .ok e) us ts)
    (h : ∀ u ∈ us, ∀ e, Expr.read inner u = .ok e → Denotes t env u (e.namelessIn ρ)) :
    DenotesTerms t env us (ts.map (Term.namelessIn ρ)) := by
  induction hread with
  | nil => exact .nil
  | cons hu _ ih =>
    obtain ⟨h, hrest⟩ := List.forall_mem_cons.mp h
    exact .cons (h _ hu) (ih hrest)

/-- Scoped children denote what they are read as if each body does, inside the identifiers of its
pattern. -/
theorem denotesScopes_of_read {t inner : Table} {env : List (List String)} {ρ : Reading}
    {vs : List (Sexp × Sexp)} {ss : List (Scoped Expr)}
    (hread : List.Forall₂ (fun v sc => readScoped inner v = .ok sc) vs ss)
    (h : ∀ v ∈ vs, ∀ shape ids, RawPattern shape ids v.1 → ∀ b,
      Expr.read (inner.bindAll ids) v.2 = .ok b →
        Denotes t (ids :: env) v.2 (b.namelessIn (ρ.enter (inner.draws ids)))) :
    DenotesScopes t env vs (ss.map (Term.namelessScoped ρ)) := by
  induction hread with
  | nil => exact .nil
  | cons hv _ ih =>
    obtain ⟨h, hrest⟩ := List.forall_mem_cons.mp h
    obtain ⟨ids, hraw, hbinders, hb⟩ := exists_of_readScoped_eq_ok hv
    refine .cons hraw ?_ (ih hrest)
    rw [hbinders]
    exact h _ ids hraw _ hb

/-- What is read has the nameless form that the raw term denotes. -/
theorem denotes_of_read {t inner : Table} {raw : Sexp} (hroom : ReadHasRoom inner raw)
    (hscope : inner.InScope) {env : List (List String)} {ρ : Reading}
    (htracks : Tracks t env inner ρ) {e : Expr} (he : Expr.read inner raw = .ok e) :
    Denotes t env raw (e.namelessIn ρ) := by
  induction hroom generalizing env ρ e with
  | identifier inner valid =>
    obtain ⟨x, hx, rfl⟩ := (read_identifier_eq_ok valid).mp he
    exact .identifier valid (htracks _ x hx)
  | node hnode _ hpatterns _ ihus ihvs =>
    obtain ⟨ts, ss, hts, hss, rfl⟩ := hnode.read_eq_ok.mp he
    rw [Term.namelessIn_node]
    refine .node hnode (denotesTerms_of_read hts ?_) (denotesScopes_of_read hss ?_)
    · intro u hu e he
      exact ihus u hu hscope htracks he
    · intro v hv shape ids hraw b hb
      exact ihvs v hv shape ids hraw (hscope.bindAll ids)
        (htracks.bindAll hscope (hpatterns v hv shape ids hraw)) hb

/-- A name that the table inside a pattern has for an identifier, and that the pattern does not
bind, comes from the table outside. -/
theorem get?_bindAll_iff {t : Table} (hscope : t.InScope) {ids : List String}
    (hroom : t.HasRoomFor ids) {id : String} {x : Name} :
    (t.bindAll ids).get? id = some x ∧ x ∉ t.draws ids ↔ id ∉ ids ∧ t.get? id = some x := by
  rcases t.get?_bindAll ids id with ⟨hnot, hget⟩ | ⟨i, y, hlast, hy, hget⟩
  · rw [hget]
    constructor
    · exact fun h => ⟨hnot, h.1⟩
    · exact fun h => ⟨h.2, fun hmem => hroom.draws_not_mem x hmem (hscope id x h.2)⟩
  · rw [hget]
    constructor
    · rintro ⟨hxy, hx⟩
      cases hxy
      exact absurd (List.mem_of_getElem? hy) hx
    · exact fun h => absurd (List.mem_of_getElem? hlast.1) h.1

/-- The free names of what is read are the names that the table has for the free identifiers. -/
theorem mem_freeNames_of_read {t : Table} {raw : Sexp} (hroom : ReadHasRoom t raw)
    (hscope : t.InScope) {e : Expr} (he : Expr.read t raw = .ok e) (x : Name) :
    x ∈ e.freeNames ↔ ∃ id, OccursFree id raw ∧ t.get? id = some x := by
  induction hroom generalizing e with
  | @identifier t id valid =>
    obtain ⟨y, hy, rfl⟩ := (read_identifier_eq_ok valid).mp he
    simp only [Term.mem_freeNames_var, occursFree_identifier valid, exists_eq_left, hy,
      Option.some.injEq]
    exact eq_comm
  | @node t f us vs raw hnode _ hpatterns _ ihus ihvs =>
    obtain ⟨ts, ss, hts, hss, rfl⟩ := hnode.read_eq_ok.mp he
    rw [Term.mem_freeNames_node]
    simp only [occursFree_node hnode]
    -- the name of an identifier below a pattern, seen from inside the pattern and from outside
    have hbody : ∀ v ∈ vs, ∀ sc, readScoped t v = .ok sc →
        (x ∈ sc.body.freeNames ∧ x ∉ sc.binder.binders ↔
          ∃ id shape ids, RawPattern shape ids v.1 ∧ id ∉ ids ∧ OccursFree id v.2 ∧
            t.get? id = some x) := by
      intro v hv sc hsc
      obtain ⟨ids, hraw, hbinders, hb⟩ := exists_of_readScoped_eq_ok hsc
      have hroom := hpatterns v hv _ ids hraw
      rw [ihvs v hv _ ids hraw (hscope.bindAll ids) hb, hbinders]
      constructor
      · rintro ⟨⟨id, hfree, hx⟩, hnot⟩
        obtain ⟨hid, hx⟩ := (get?_bindAll_iff hscope hroom).mp ⟨hx, hnot⟩
        exact ⟨id, _, ids, hraw, hid, hfree, hx⟩
      · rintro ⟨id, shape, ids', hraw', hid, hfree, hx⟩
        obtain ⟨-, rfl⟩ := hraw.unique hraw'
        obtain ⟨hx, hnot⟩ := (get?_bindAll_iff hscope hroom).mpr ⟨hid, hx⟩
        exact ⟨⟨id, hfree, hx⟩, hnot⟩
    constructor
    · rintro (⟨e, he, hx⟩ | ⟨sc, hsc, hx⟩)
      · obtain ⟨u, hu, hue⟩ := exists_of_mem_of_forall₂ hts he
        obtain ⟨id, hfree, hid⟩ := (ihus u hu hscope hue).mp hx
        exact ⟨id, Or.inl ⟨u, hu, hfree⟩, hid⟩
      · obtain ⟨v, hv, hvsc⟩ := exists_of_mem_of_forall₂ hss hsc
        obtain ⟨id, shape, ids, hraw, hid, hfree, hx⟩ := (hbody v hv sc hvsc).mp hx
        exact ⟨id, Or.inr ⟨v, hv, shape, ids, hraw, hid, hfree⟩, hx⟩
    · rintro ⟨id, ⟨u, hu, hfree⟩ | ⟨v, hv, shape, ids, hraw, hid, hfree⟩, hx⟩
      · obtain ⟨e, he, hue⟩ := exists_of_mem_of_forall₂ hts.flip hu
        exact Or.inl ⟨e, he, (ihus u hu hscope hue).mpr ⟨id, hfree, hx⟩⟩
      · obtain ⟨sc, hsc, hvsc⟩ := exists_of_mem_of_forall₂ hss.flip hv
        exact Or.inr ⟨sc, hsc, (hbody v hv sc hvsc).mpr ⟨id, shape, ids, hraw, hid, hfree, hx⟩⟩

/-- What is read binds new names only. -/
theorem bindersNew_of_read {t : Table} {raw : Sexp} (hroom : ReadHasRoom t raw) {e : Expr}
    (he : Expr.read t raw = .ok e) : e.BindersNew t.scope := by
  induction hroom generalizing e with
  | identifier t valid =>
    obtain ⟨x, -, rfl⟩ := (read_identifier_eq_ok valid).mp he
    exact .var t.scope x
  | @node t f us vs raw hnode _ hpatterns _ ihus ihvs =>
    obtain ⟨ts, ss, hts, hss, rfl⟩ := hnode.read_eq_ok.mp he
    have hscoped : ∀ sc ∈ ss, sc.binder.binders.Nodup ∧ (∀ x ∈ sc.binder.binders, x ∉ t.scope) ∧
        sc.body.BindersNew (t.scope.extendAll sc.binder.binders) := by
      intro sc hsc
      obtain ⟨v, hv, hvsc⟩ := exists_of_mem_of_forall₂ hss hsc
      obtain ⟨ids, hraw, hbinders, hb⟩ := exists_of_readScoped_eq_ok hvsc
      have hroom := hpatterns v hv _ ids hraw
      rw [hbinders, ← Table.scope_bindAll]
      exact ⟨hroom.nodup_draws, hroom.draws_not_mem, ihvs v hv _ ids hraw hb⟩
    refine .node ?_ (fun sc hsc => (hscoped sc hsc).1) (fun sc hsc => (hscoped sc hsc).2.1)
      fun sc hsc => (hscoped sc hsc).2.2
    intro e he
    obtain ⟨u, hu, hue⟩ := exists_of_mem_of_forall₂ hts he
    exact ihus u hu hue

/-- **Exactly the grammar is read, and identifiers are resolved lexically.** An S-expression is read
if and only if it is a term of the grammar whose free identifiers are bound. A term with a free
identifier that is not bound is refused for such an identifier, and whatever is refused is refused
for an identifier that is not bound or for syntax without meaning. As long as no draw wraps, what is
read has the one nameless form that the raw term denotes, its free names are those that the table
has for the free identifiers, and every pattern binds distinct names that are new for the scope it
stands in. -/
theorem read_resolves (t : Table) (raw : Sexp) :
    ((∃ e, Expr.read t raw = .ok e) ↔
      RawTerm raw ∧ ∀ id, OccursFree id raw → t.contains id = true) ∧
    (RawTerm raw → (∃ id, OccursFree id raw ∧ t.contains id = false) →
      ∃ id, OccursFree id raw ∧ t.contains id = false ∧
        Expr.read t raw = .error (.unboundIdentifier id)) ∧
    (∀ err, Expr.read t raw = .error err →
      (∃ what part, err = .malformed what part) ∨ ∃ id, err = .unboundIdentifier id) ∧
    (t.Built → ReadHasRoom t raw → ∀ e, Expr.read t raw = .ok e →
      (∀ d, Denotes t [] raw d ↔ d = e.nameless) ∧
      (∀ x, x ∈ e.freeNames ↔ ∃ id, OccursFree id raw ∧ t.get? id = some x) ∧
      e.BindersNew t.scope) := by
  refine ⟨exists_read_iff, ?_, fun err => read_eq_error, ?_⟩
  · rintro hraw ⟨id, hfree, hid⟩
    rcases hraw.exists_read_or_unbound t with ⟨e, he⟩ | hunbound
    · exact absurd (hfree.contains_of_read he) (Bool.eq_false_iff.mp hid)
    · exact hunbound
  · intro hbuilt hroom e he
    have hdenotes : Denotes t [] raw e.nameless :=
      denotes_of_read hroom hbuilt.inScope (Tracks.top t) he
    refine ⟨fun d => ?_, mem_freeNames_of_read hroom hbuilt.inScope he, bindersNew_of_read hroom he⟩
    constructor
    · exact fun hd => hd.unique hdenotes
    · rintro rfl
      exact hdenotes

/-- The raw term `(lam (list x y x) (pi x x (app x z)))`. The type in the middle is outside the
inner pattern, so its `x` is the last one of the list. -/
def shadowing : Sexp :=
  .tagged "lam" [.tagged "list" [.atom "x", .atom "y", .atom "x"],
    .tagged "pi" [.atom "x", .atom "x", .tagged "app" [.atom "x", .atom "z"]]]

/-- Shadowing within a pattern and between patterns. -/
theorem read_resolves_shadowing :
    Expr.read ((Table.ofScope ∅).bindAs "z" 0) shadowing =
        .ok (.lam (.list [1, 2, 3]) (.pi (.single 4) (.var 3) (.app (.var 4) (.var 0)))) ∧
      Denotes ((Table.ofScope ∅).bindAs "z" 0) [] shadowing
        (.node (.form .lam) [] [(.list 3, .node (.form .pi) [.leaf (.bound 0 2)]
          [(.single, .node (.form .app) [.leaf (.bound 0 0), .leaf (.free 0)] [])])]) := by
  have hroom : ReadHasRoom ((Table.ofScope ∅).bindAs "z" 0) shadowing := by
    have hlist : RawPattern (.list 3) ["x", "y", "x"]
        (.tagged "list" [.atom "x", .atom "y", .atom "x"]) :=
      @RawPattern.list ["x", "y", "x"] (by decide)
    have hx : RawPattern .single ["x"] (.atom "x") := .single (by decide)
    refine .node (.lam _ _) (by simp) ?_ ?_
    · simp only [List.mem_singleton, forall_eq]
      intro shape ids hraw
      obtain ⟨-, rfl⟩ := hlist.unique hraw
      decide
    · simp only [List.mem_singleton, forall_eq]
      intro shape ids hraw
      obtain ⟨-, rfl⟩ := hlist.unique hraw
      refine .node (.pi _ _ _) ?_ ?_ ?_
      · simp only [List.mem_singleton, forall_eq]
        exact .identifier _ (by decide)
      · simp only [List.mem_singleton, forall_eq]
        intro shape ids hraw
        obtain ⟨-, rfl⟩ := hx.unique hraw
        decide
      · simp only [List.mem_singleton, forall_eq]
        intro shape ids hraw
        obtain ⟨-, rfl⟩ := hx.unique hraw
        refine .node (.app _ _) ?_ (by simp) (by simp)
        simp only [List.forall_mem_cons]
        exact ⟨.identifier _ (by decide), .identifier _ (by decide), by simp⟩
  have hread : Expr.read ((Table.ofScope ∅).bindAs "z" 0) shadowing =
      .ok (.lam (.list [1, 2, 3]) (.pi (.single 4) (.var 3) (.app (.var 4) (.var 0)))) := rfl
  obtain ⟨hdenotes, -, -⟩ := (read_resolves _ _).2.2.2 (.bindAs (.ofScope ∅) "z" 0) hroom _ hread
  exact ⟨hread, (hdenotes _).mpr rfl⟩

end LambdaPi

end NameBinding
