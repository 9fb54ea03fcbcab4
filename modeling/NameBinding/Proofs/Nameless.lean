import NameBinding.Term

/-!
# Terms without names

The nameless form of a term keeps what alpha-equivalence keeps: the heads, the shapes of the
patterns, the free names, and for every bound occurrence how many scoped layers lie between it and
the pattern that binds it together with the position of its binder there. Of a repeated binder the
last position counts.

A `Reading` says what each name refers to at some point of a term, and `Reading.enter` is the
reading inside a pattern. The nameless form depends on the reading of the free names only
(`Term.namelessIn_congr`), so a term may be carried from one reading to another as long as its free
names are.

Free names of a nameless form can be replaced by other forms (`Nameless.bind`). Nothing has to be
shifted on the way, since the whole form of a term has no occurrence that refers outside it.
-/

namespace NameBinding

/-! ### Positions in a list of binders -/

/-- The last position at which a name stands in a list. -/
def Name.lastPosition? (x : Name) : List Name → Option Nat
  | [] => none
  | y :: ys =>
    match lastPosition? x ys with
    | some i => some (i + 1)
    | none => if x = y then some 0 else none

namespace Name

/-- A position in the rest of the list wins over the head. -/
theorem lastPosition?_cons_of_some {x : Name} {ys : List Name} {i : Nat}
    (h : x.lastPosition? ys = some i) (y : Name) : x.lastPosition? (y :: ys) = some (i + 1) := by
  simp only [lastPosition?, h]

/-- A name that is not in the rest of the list is at the head or nowhere. -/
theorem lastPosition?_cons_of_none {x : Name} {ys : List Name} (h : x.lastPosition? ys = none)
    (y : Name) : x.lastPosition? (y :: ys) = if x = y then some 0 else none := by
  simp only [lastPosition?, h]

/-- A name has no position exactly in the lists it is not in. -/
theorem lastPosition?_eq_none_iff {x : Name} :
    {ys : List Name} → (x.lastPosition? ys = none ↔ x ∉ ys)
  | [] => by simp [lastPosition?]
  | y :: ys => by
      have ih : x.lastPosition? ys = none ↔ x ∉ ys := lastPosition?_eq_none_iff
      rcases h : x.lastPosition? ys with _ | i
      · rw [lastPosition?_cons_of_none h]
        have hys : x ∉ ys := ih.mp h
        by_cases hxy : x = y
        · simp [hxy]
        · simp [hxy, hys]
      · rw [lastPosition?_cons_of_some h]
        have hys : x ∈ ys := by
          apply Decidable.not_not.mp
          intro hx
          rw [ih.mpr hx] at h
          cases h
        simp [hys]

/-- A name of the list has a last position. -/
theorem exists_lastPosition? {x : Name} {ys : List Name} (h : x ∈ ys) :
    ∃ i, x.lastPosition? ys = some i := by
  rcases hx : x.lastPosition? ys with _ | i
  · exact absurd h (lastPosition?_eq_none_iff.mp hx)
  · exact ⟨i, rfl⟩

/-- At its last position a name stands indeed. -/
theorem getElem?_of_lastPosition? {x : Name} :
    {ys : List Name} → {i : Nat} → x.lastPosition? ys = some i → ys[i]? = some x
  | [], i, h => by cases h
  | y :: ys, i, h => by
      rcases hx : x.lastPosition? ys with _ | j
      · rw [lastPosition?_cons_of_none hx] at h
        split at h
        · rename_i hxy
          cases h
          simp [hxy]
        · cases h
      · rw [lastPosition?_cons_of_some hx] at h
        cases h
        simpa using getElem?_of_lastPosition? hx

/-- In a list without repeats every position of a name is its last one. -/
theorem lastPosition?_of_nodup {x : Name} :
    {ys : List Name} → ys.Nodup → {i : Nat} → ys[i]? = some x → x.lastPosition? ys = some i
  | [], _, i, h => by simp at h
  | y :: ys, hnd, i, h => by
      have hy := List.nodup_cons.mp hnd
      cases i with
      | zero =>
        have hxy : y = x := by simpa using h
        subst hxy
        rw [lastPosition?_cons_of_none (lastPosition?_eq_none_iff.mpr hy.1), if_pos rfl]
      | succ i =>
        have hi : ys[i]? = some x := by simpa using h
        exact lastPosition?_cons_of_some (lastPosition?_of_nodup hy.2 hi) y

end Name

/-! ### Readings -/

/-- What an occurrence of a name refers to: a binder, by the number of scoped layers in between and
its position in the pattern, or nothing inside the term. -/
inductive Occurrence where
  | bound (layers position : Nat)
  | free (x : Name)
  deriving DecidableEq

/-- The same occurrence seen from one scoped layer further inside. -/
def Occurrence.sink : Occurrence → Occurrence
  | bound n i => bound (n + 1) i
  | free x => free x

/-- Entering a pattern confuses no two occurrences. -/
theorem Occurrence.sink_injective {o o' : Occurrence} (h : o.sink = o'.sink) : o = o' := by
  cases o <;> cases o' <;> simp_all [Occurrence.sink]

/-- Nothing outside a layer is bound by the layer itself. -/
theorem Occurrence.sink_ne_bound_zero (o : Occurrence) (i : Nat) : o.sink ≠ .bound 0 i := by
  cases o <;> simp [Occurrence.sink]

/-- What each name refers to at some point of a term. -/
def Reading := Name → Occurrence

namespace Reading

/-- Outside all patterns every name is free. -/
def top : Reading := .free

/-- The reading inside a pattern with the given binders. -/
def enter (ρ : Reading) (bs : List Name) : Reading := fun x =>
  match x.lastPosition? bs with
  | some i => .bound 0 i
  | none => (ρ x).sink

/-- Inside a pattern a binder is read as its last position. -/
theorem enter_of_lastPosition? {bs : List Name} {x : Name} {i : Nat}
    (h : x.lastPosition? bs = some i) (ρ : Reading) : ρ.enter bs x = .bound 0 i := by
  simp only [enter, h]

/-- Inside a pattern other names are read as outside of it. -/
theorem enter_of_not_mem {bs : List Name} {x : Name} (h : x ∉ bs) (ρ : Reading) :
    ρ.enter bs x = (ρ x).sink := by
  simp only [enter, Name.lastPosition?_eq_none_iff.mpr h]

/-- A binder is read alike on both sides of a function that sends binders to distinct names. -/
theorem enter_map_of_mem {f : Name → Name} {bs : List Name} (hnd : (bs.map f).Nodup) {x : Name}
    (hx : x ∈ bs) (ρ ρ' : Reading) : ρ'.enter (bs.map f) (f x) = ρ.enter bs x := by
  obtain ⟨i, hi⟩ := Name.exists_lastPosition? hx
  have hfx : (bs.map f)[i]? = some (f x) := by
    rw [List.getElem?_map, Name.getElem?_of_lastPosition? hi, Option.map_some]
  rw [enter_of_lastPosition? hi, enter_of_lastPosition? (Name.lastPosition?_of_nodup hnd hfx)]

/-- Readings that agree on a name outside a pattern agree on it inside. -/
theorem enter_congr {ρ ρ' : Reading} {bs : List Name} {x : Name} (h : x ∉ bs → ρ x = ρ' x) :
    ρ.enter bs x = ρ'.enter bs x := by
  by_cases hx : x ∈ bs
  · obtain ⟨i, hi⟩ := Name.exists_lastPosition? hx
    rw [enter_of_lastPosition? hi, enter_of_lastPosition? hi]
  · rw [enter_of_not_mem hx, enter_of_not_mem hx, h hx]

/-- Names that are read alike inside two patterns are binders of one position, or both come from
outside and are read alike there. -/
theorem enter_eq_enter {ρ ρ' : Reading} {bs cs : List Name} {x y : Name}
    (h : ρ.enter bs x = ρ'.enter cs y) :
    (∃ i, x.lastPosition? bs = some i ∧ y.lastPosition? cs = some i) ∨
      (x ∉ bs ∧ y ∉ cs ∧ ρ x = ρ' y) := by
  rcases hx : x.lastPosition? bs with _ | i <;> rcases hy : y.lastPosition? cs with _ | j
  · have hxb := Name.lastPosition?_eq_none_iff.mp hx
    have hyc := Name.lastPosition?_eq_none_iff.mp hy
    rw [enter_of_not_mem hxb, enter_of_not_mem hyc] at h
    exact Or.inr ⟨hxb, hyc, Occurrence.sink_injective h⟩
  · rw [enter_of_not_mem (Name.lastPosition?_eq_none_iff.mp hx), enter_of_lastPosition? hy] at h
    exact absurd h (Occurrence.sink_ne_bound_zero _ j)
  · rw [enter_of_lastPosition? hx, enter_of_not_mem (Name.lastPosition?_eq_none_iff.mp hy)] at h
    exact absurd h.symm (Occurrence.sink_ne_bound_zero _ i)
  · rw [enter_of_lastPosition? hx, enter_of_lastPosition? hy] at h
    exact Or.inl ⟨i, rfl, by rw [(Occurrence.bound.inj h).2]⟩

end Reading

/-! ### Nameless terms -/

/-- A term without names: an occurrence, or a node whose scoped children have shapes in place of
patterns. -/
inductive Nameless (κ : Type) where
  | leaf (o : Occurrence)
  | node (head : κ) (terms : List (Nameless κ)) (scopes : List (Shape × Nameless κ))

namespace Nameless

variable {κ : Type} (f : Name → Nameless κ)

mutual

/-- The form with every free name `x` replaced by `f x`, all at once. -/
def bind : Nameless κ → Nameless κ
  | leaf (.bound n i) => leaf (.bound n i)
  | leaf (.free x) => f x
  | node h ts ss => node h (bindTerms ts) (bindScopes ss)

/-- The plain children with their free names replaced. -/
def bindTerms : List (Nameless κ) → List (Nameless κ)
  | [] => []
  | t :: ts => bind t :: bindTerms ts

/-- The scoped children with their free names replaced. -/
def bindScopes : List (Shape × Nameless κ) → List (Shape × Nameless κ)
  | [] => []
  | (p, b) :: ss => (p, bind b) :: bindScopes ss

end

/-- Plain children are replaced in one by one. -/
theorem bindTerms_eq_map (ts : List (Nameless κ)) : bindTerms f ts = ts.map (bind f) := by
  induction ts with
  | nil => rfl
  | cons t ts ih => rw [bindTerms, ih, List.map_cons]

/-- Scoped children are replaced in one by one, and keep their shapes. -/
theorem bindScopes_eq_map (ss : List (Shape × Nameless κ)) :
    bindScopes f ss = ss.map fun sc => (sc.1, sc.2.bind f) := by
  induction ss with
  | nil => rfl
  | cons sc ss ih => rw [bindScopes, ih, List.map_cons]

variable (g : Name → Nameless κ)

mutual

/-- Replacing free names twice is replacing them once, by what the first replacements become. -/
theorem bind_bind : (t : Nameless κ) → (t.bind f).bind g = t.bind fun x => (f x).bind g
  | leaf (.bound _ _) => rfl
  | leaf (.free _) => rfl
  | node _ ts ss => by
      rw [bind, bind, bind, bindTerms_bindTerms ts, bindScopes_bindScopes ss]

/-- Two replacements in plain children are one. -/
theorem bindTerms_bindTerms : (ts : List (Nameless κ)) →
    bindTerms g (bindTerms f ts) = bindTerms (fun x => (f x).bind g) ts
  | [] => rfl
  | t :: ts => by rw [bindTerms, bindTerms, bindTerms, bind_bind t, bindTerms_bindTerms ts]

/-- Two replacements in scoped children are one. -/
theorem bindScopes_bindScopes : (ss : List (Shape × Nameless κ)) →
    bindScopes g (bindScopes f ss) = bindScopes (fun x => (f x).bind g) ss
  | [] => rfl
  | (p, b) :: ss => by
      rw [bindScopes, bindScopes, bindScopes, bind_bind b, bindScopes_bindScopes ss]

end

end Nameless

namespace Term

variable {κ : Type}

mutual

/-- The nameless form of a term whose free names are read as `ρ` says. -/
def namelessIn (ρ : Reading) : Term κ → Nameless κ
  | var x => .leaf (ρ x)
  | node h ts ss => .node h (namelessTerms ρ ts) (namelessScopes ρ ss)

/-- The nameless forms of plain children. -/
def namelessTerms (ρ : Reading) : List (Term κ) → List (Nameless κ)
  | [] => []
  | t :: ts => namelessIn ρ t :: namelessTerms ρ ts

/-- The nameless forms of scoped children, each with the shape of its pattern. -/
def namelessScopes (ρ : Reading) : List (Scoped (Term κ)) → List (Shape × Nameless κ)
  | [] => []
  | ⟨p, b⟩ :: ss => (p.shape, namelessIn (ρ.enter p.binders) b) :: namelessScopes ρ ss

end

/-- The nameless form of a whole term. -/
def nameless (e : Term κ) : Nameless κ := e.namelessIn .top

/-- The nameless form of a scoped term: the shape of its pattern and the form of its body. -/
def namelessScoped (ρ : Reading) (sc : Scoped (Term κ)) : Shape × Nameless κ :=
  (sc.binder.shape, sc.body.namelessIn (ρ.enter sc.binder.binders))

/-- Plain children have their nameless forms one by one. -/
theorem namelessTerms_eq_map (ρ : Reading) (ts : List (Term κ)) :
    namelessTerms ρ ts = ts.map (namelessIn ρ) := by
  induction ts with
  | nil => rfl
  | cons t ts ih => rw [namelessTerms, ih, List.map_cons]

/-- Scoped children have their nameless forms one by one. -/
theorem namelessScopes_eq_map (ρ : Reading) (ss : List (Scoped (Term κ))) :
    namelessScopes ρ ss = ss.map (namelessScoped ρ) := by
  induction ss with
  | nil => rfl
  | cons sc ss ih =>
    obtain ⟨p, b⟩ := sc
    rw [namelessScopes, ih, List.map_cons]
    rfl

/-- The nameless form of a node is that of its children. -/
theorem namelessIn_node (ρ : Reading) (h : κ) (ts : List (Term κ)) (ss : List (Scoped (Term κ))) :
    (node h ts ss).namelessIn ρ =
      .node h (ts.map (namelessIn ρ)) (ss.map (namelessScoped ρ)) := by
  rw [namelessIn, namelessTerms_eq_map, namelessScopes_eq_map]

/-- Two nodes have the same nameless form when their heads and the forms of their children
agree. -/
theorem namelessIn_node_inj {ρ ρ' : Reading} {h h' : κ} {ts ts' : List (Term κ)}
    {ss ss' : List (Scoped (Term κ))} :
    (node h ts ss).namelessIn ρ = (node h' ts' ss').namelessIn ρ' ↔
      h = h' ∧ ts.map (namelessIn ρ) = ts'.map (namelessIn ρ') ∧
        ss.map (namelessScoped ρ) = ss'.map (namelessScoped ρ') := by
  rw [namelessIn_node, namelessIn_node, Nameless.node.injEq]

/-- Replacing in the nameless form of a node replaces in those of its children. -/
theorem bind_namelessIn_node (f : Name → Nameless κ) (ρ : Reading) (h : κ) (ts : List (Term κ))
    (ss : List (Scoped (Term κ))) :
    ((node h ts ss).namelessIn ρ).bind f =
      .node h (ts.map fun e => (e.namelessIn ρ).bind f)
        (ss.map fun sc => ((namelessScoped ρ sc).1, (namelessScoped ρ sc).2.bind f)) := by
  rw [namelessIn_node, Nameless.bind, Nameless.bindTerms_eq_map, Nameless.bindScopes_eq_map,
    List.map_map, List.map_map]
  rfl

/-- The nameless form depends on the reading of the free names only. -/
theorem namelessIn_congr (e : Term κ) {ρ ρ' : Reading} (h : ∀ x ∈ e.freeNames, ρ x = ρ' x) :
    e.namelessIn ρ = e.namelessIn ρ' := by
  induction e generalizing ρ ρ' with
  | var x =>
    rw [namelessIn, namelessIn, h x (mem_freeNames_var.mpr rfl)]
  | node hd ts ss ihts ihss =>
    rw [namelessIn_node_inj]
    refine ⟨rfl, List.map_congr_left fun e he => ?_, List.map_congr_left fun sc hsc => ?_⟩
    · apply ihts e he
      intro x hx
      exact h x (mem_freeNames_node.mpr (Or.inl ⟨e, he, hx⟩))
    · unfold namelessScoped
      rw [ihss sc hsc]
      intro x hx
      apply Reading.enter_congr
      intro hnot
      exact h x (mem_freeNames_node.mpr (Or.inr ⟨sc, hsc, hx, hnot⟩))

/-- Replacing every free name by itself changes nothing. -/
theorem bind_leaf_namelessIn (e : Term κ) (ρ : Reading) :
    (e.namelessIn ρ).bind (fun x => .leaf (.free x)) = e.namelessIn ρ := by
  induction e generalizing ρ with
  | var x =>
    rw [namelessIn]
    cases ρ x <;> rfl
  | node hd ts ss ihts ihss =>
    rw [bind_namelessIn_node, namelessIn_node, Nameless.node.injEq]
    refine ⟨rfl, List.map_congr_left fun e he => ihts e he ρ, List.map_congr_left ?_⟩
    intro sc hsc
    unfold namelessScoped
    rw [ihss sc hsc]

end Term

/-! ### Free names replaced on both sides -/

/-- Lists with equal images under one pair of functions have equal images under another pair that
agrees wherever the first does. -/
theorem map_eq_map_of_map_eq_map {α β γ δ : Type} {f : α → γ} {g : β → γ} {F : α → δ} {G : β → δ} :
    {as : List α} → {bs : List β} → as.map f = bs.map g →
      (∀ a ∈ as, ∀ b ∈ bs, f a = g b → F a = G b) → as.map F = bs.map G
  | [], [], _, _ => rfl
  | [], _ :: _, h, _ => by simp at h
  | _ :: _, [], h, _ => by simp at h
  | a :: as, b :: bs, h, hFG => by
      simp only [List.map_cons, List.cons.injEq] at h ⊢
      refine ⟨hFG a List.mem_cons_self b List.mem_cons_self h.1, ?_⟩
      apply map_eq_map_of_map_eq_map h.2
      intro a' ha' b' hb'
      exact hFG a' (List.mem_cons_of_mem _ ha') b' (List.mem_cons_of_mem _ hb')

section alike

variable {κ : Type}

/-- Two occurrences that are replaced alike: the same binder, or two free names with the same
replacement. -/
inductive Occurrence.Alike (f g : Name → Nameless κ) : Occurrence → Occurrence → Prop where
  | bound (n i : Nat) : Alike f g (.bound n i) (.bound n i)
  | free {x y : Name} (h : f x = g y) : Alike f g (.free x) (.free y)

/-- Occurrences that are replaced alike outside a pattern are inside it. -/
theorem Occurrence.Alike.sink {f g : Name → Nameless κ} {o o' : Occurrence} (h : Alike f g o o') :
    Alike f g o.sink o'.sink := by
  cases h with
  | bound n i => exact .bound (n + 1) i
  | free h => exact .free h

/-- Occurrences that are replaced alike have the same replacement. -/
theorem Occurrence.Alike.bind_leaf_eq {f g : Name → Nameless κ} {o o' : Occurrence}
    (h : Alike f g o o') : (Nameless.leaf o).bind f = (Nameless.leaf o').bind g := by
  cases h with
  | bound n i => rfl
  | free h => exact h

/-- Names replaced alike outside are replaced alike inside two patterns, as far as they are read
alike there. -/
theorem Reading.alike_enter {f g : Name → Nameless κ} {ρ ρ' ψ ψ' : Reading} {bs cs : List Name}
    {x y : Name} (h : x ∉ bs → y ∉ cs → ρ x = ρ' y → Occurrence.Alike f g (ψ x) (ψ' y))
    (hxy : ρ.enter bs x = ρ'.enter cs y) :
    Occurrence.Alike f g (ψ.enter bs x) (ψ'.enter cs y) := by
  rcases enter_eq_enter hxy with ⟨i, hi, hj⟩ | ⟨hx, hy, hreads⟩
  · rw [enter_of_lastPosition? hi, enter_of_lastPosition? hj]
    exact .bound 0 i
  · rw [enter_of_not_mem hx, enter_of_not_mem hy]
    exact (h hx hy hreads).sink

/-- Terms with the same nameless form keep it under replacements, in other readings, if names read
alike are replaced alike. -/
theorem Term.bind_namelessIn_congr {f g : Name → Nameless κ} (l r : Term κ) {ρ ρ' ψ ψ' : Reading}
    (h : l.namelessIn ρ = r.namelessIn ρ')
    (halike : ∀ x ∈ l.freeNames, ∀ y ∈ r.freeNames, ρ x = ρ' y →
      Occurrence.Alike f g (ψ x) (ψ' y)) :
    (l.namelessIn ψ).bind f = (r.namelessIn ψ').bind g := by
  induction l generalizing r ρ ρ' ψ ψ' with
  | var x =>
    cases r with
    | var y =>
      have hxy : ρ x = ρ' y := Nameless.leaf.inj h
      exact (halike x (mem_freeNames_var.mpr rfl) y (mem_freeNames_var.mpr rfl) hxy).bind_leaf_eq
    | node h' ts' ss' => cases h
  | node hd ts ss ihts ihss =>
    cases r with
    | var y => cases h
    | node hd' ts' ss' =>
      obtain ⟨hhd, hts, hss⟩ := namelessIn_node_inj.mp h
      rw [bind_namelessIn_node, bind_namelessIn_node, Nameless.node.injEq]
      refine ⟨hhd, map_eq_map_of_map_eq_map hts ?_, map_eq_map_of_map_eq_map hss ?_⟩
      · intro t ht t' ht' htt'
        apply ihts t ht t' htt'
        intro x hx y hy
        exact halike x (mem_freeNames_node.mpr (Or.inl ⟨t, ht, hx⟩))
          y (mem_freeNames_node.mpr (Or.inl ⟨t', ht', hy⟩))
      · intro sc hsc sc' hsc' hscsc'
        obtain ⟨hshape, hbody⟩ := Prod.mk.inj hscsc'
        refine Prod.ext hshape (ihss sc hsc sc'.body hbody ?_)
        intro x hx y hy
        apply Reading.alike_enter
        intro hxp hyq
        exact halike x (mem_freeNames_node.mpr (Or.inr ⟨sc, hsc, hx, hxp⟩))
          y (mem_freeNames_node.mpr (Or.inr ⟨sc', hsc', hy, hyq⟩))

/-- Only the replacements of the free names matter. -/
theorem Term.bind_nameless_congr {f g : Name → Nameless κ} (e : Term κ)
    (h : ∀ x ∈ e.freeNames, f x = g x) : e.nameless.bind f = e.nameless.bind g := by
  apply bind_namelessIn_congr e e rfl
  intro x hx y _ hxy
  obtain rfl : x = y := Occurrence.free.inj hxy
  exact .free (h x hx)

end alike

end NameBinding
