import NameBinding.Proofs.Extensionality
import NameBinding.Proofs.LiningUp

/-!
# Merging is order-independent

Merging two renamings is a partial operation: it is defined when they agree on every name that both
move, and then it is their union (`Renaming.merge_eq_ok_iff`). Where they do not agree, the least
name on which they differ is reported, whichever of the two comes first. So merging is commutative
with its failures included (`Renaming.merge_comm`). It is associative as far as definedness goes
(`Renaming.merge_assoc`); which name is reported may depend on the brackets.

Lining up merges the renamings of both sides pair by pair, and inherits these laws, with one
difference. Parts that do not line up spoil the whole before any renaming is looked at, so one
bracketing of three parts may fail where the other gives `Unifier.failure`. Where both give an
answer it is the same (`Unifier.merge_assoc_of_ok`).
-/

namespace NameBinding

namespace Renaming

/-! ### Where two renamings differ -/

/-- The two renamings send `x` to different names. -/
def DiffersAt (r q : Renaming) (x : Name) : Prop :=
  ∃ y z, r.target? x = some y ∧ q.target? x = some z ∧ y ≠ z

/-- The two renamings send every name that both move to the same name. -/
def Agrees (r q : Renaming) : Prop :=
  ∀ x y z, r.target? x = some y → q.target? x = some z → y = z

/-- The two renamings differ at `x`, and at no smaller name. -/
def FirstDiffersAt (r q : Renaming) (x : Name) : Prop :=
  r.DiffersAt q x ∧ ∀ w, w < x → ¬ r.DiffersAt q w

variable {r q s t : Renaming}

/-- Two renamings differ at a name in either order. -/
theorem DiffersAt.symm {x : Name} (h : r.DiffersAt q x) : q.DiffersAt r x := by
  obtain ⟨y, z, hy, hz, hne⟩ := h
  exact ⟨z, y, hz, hy, hne.symm⟩

/-- Two renamings agree in either order. -/
theorem Agrees.symm (h : r.Agrees q) : q.Agrees r :=
  fun x y z hy hz => (h x z y hz hy).symm

/-- A renaming agrees with itself. -/
theorem Agrees.refl (r : Renaming) : r.Agrees r := by
  intro x y z hy hz
  rw [hy] at hz
  exact Option.some_inj.mp hz

/-- Renamings that agree differ nowhere. -/
theorem Agrees.not_differsAt (h : r.Agrees q) (x : Name) : ¬ r.DiffersAt q x := by
  rintro ⟨y, z, hy, hz, hne⟩
  exact hne (h x y z hy hz)

/-- The first difference is one in either order. -/
theorem FirstDiffersAt.symm {x : Name} (h : r.FirstDiffersAt q x) : q.FirstDiffersAt r x :=
  ⟨h.1.symm, fun w hw hdiffers => h.2 w hw hdiffers.symm⟩

/-- There is one first difference only. -/
theorem FirstDiffersAt.unique {x y : Name} (hx : r.FirstDiffersAt q x)
    (hy : r.FirstDiffersAt q y) : x = y :=
  OrderedSet.eq_of_not_lt (fun hlt => hy.2 x hlt hx.1) (fun hlt => hx.2 y hlt hy.1)

/-! ### When merging is defined -/

/-- The renaming sends the name of the entry elsewhere. -/
def Clashes (r : Renaming) (e : Name × Name) : Prop := ∃ z, r.target? e.1 = some z ∧ z ≠ e.2

/-- The first entry that clashes is reported. -/
theorem mergeEntries_cons_of_clashes {x y : Name} {es : List (Name × Name)}
    (hes : ∀ e ∈ (x, y) :: es, e.1 ≠ e.2) (h : r.Clashes (x, y)) :
    r.mergeEntries ((x, y) :: es) hes = .error (.disagreement x) := by
  obtain ⟨z, hz, hne⟩ := h
  dsimp only at hz hne
  simp only [mergeEntries, hz, if_neg hne]

/-- An entry that does not clash is passed, and leaves all other names where they were sent. -/
theorem exists_mergeEntries_cons {x y : Name} {es : List (Name × Name)}
    (hes : ∀ e ∈ (x, y) :: es, e.1 ≠ e.2) (h : ¬ r.Clashes (x, y)) :
    ∃ r' : Renaming, r.mergeEntries ((x, y) :: es) hes =
        r'.mergeEntries es (fun e he => hes e (List.mem_cons_of_mem _ he)) ∧
      ∀ w, w ≠ x → r'.target? w = r.target? w := by
  rcases hx : r.target? x with _ | z
  · refine ⟨r.addNew x y (hes (x, y) List.mem_cons_self), ?_, ?_⟩
    · simp only [mergeEntries, hx]
    · intro w hw
      rw [target?_addNew, if_neg hw]
  · have hzy : z = y := Decidable.not_not.mp fun hne => h ⟨z, hx, hne⟩
    exact ⟨r, by simp only [mergeEntries, hx, if_pos hzy], fun _ _ => rfl⟩

/-- Going through ascending entries succeeds if none of them clashes, and stops at the first that
does. -/
theorem mergeEntries_cases : (es : List (Name × Name)) → es.Pairwise (fun a b => a.1 < b.1) →
    (hes : ∀ e ∈ es, e.1 ≠ e.2) → (r : Renaming) →
      (∀ e ∈ es, ¬ r.Clashes e) ∧ (∃ t, r.mergeEntries es hes = .ok t) ∨
        ∃ e ∈ es, r.Clashes e ∧ (∀ d ∈ es, d.1 < e.1 → ¬ r.Clashes d) ∧
          r.mergeEntries es hes = .error (.disagreement e.1)
  | [], _, _, r => Or.inl ⟨by simp, r, rfl⟩
  | (x, y) :: es, hasc, hes, r => by
      obtain ⟨hx, hasc⟩ := List.pairwise_cons.mp hasc
      by_cases hclash : r.Clashes (x, y)
      · refine Or.inr ⟨(x, y), List.mem_cons_self, hclash, ?_,
          mergeEntries_cons_of_clashes hes hclash⟩
        intro d hd hlt
        rcases List.mem_cons.mp hd with rfl | hd
        · exact absurd hlt Std.lt_irrefl
        · exact absurd (Std.lt_trans hlt (hx d hd)) Std.lt_irrefl
      · obtain ⟨r', hstep, hkeep⟩ := exists_mergeEntries_cons hes hclash
        -- keys do not repeat, so the entry just passed is none of those that follow
        have hsame : ∀ e ∈ es, r'.Clashes e ↔ r.Clashes e := by
          intro e he
          unfold Clashes
          rw [hkeep e.1 fun heq => Std.lt_irrefl (heq ▸ hx e he)]
        rw [hstep]
        rcases mergeEntries_cases es hasc _ r' with ⟨hall, hok⟩ | ⟨e, he, hz, hfirst, herr⟩
        · refine Or.inl ⟨List.forall_mem_cons.mpr ⟨hclash, ?_⟩, hok⟩
          exact fun e he => mt (hsame e he).mpr (hall e he)
        · refine Or.inr ⟨e, List.mem_cons_of_mem _ he, (hsame e he).mp hz, ?_, herr⟩
          refine List.forall_mem_cons.mpr ⟨fun _ => hclash, ?_⟩
          exact fun d hd hlt => mt (hsame d hd).mpr (hfirst d hd hlt)

/-- Two renamings merge if they agree, and otherwise the least name at which they differ is
reported. -/
theorem merge_cases (r q : Renaming) :
    r.Agrees q ∧ (∃ t, r.merge q = .ok t) ∨
      ∃ x, r.FirstDiffersAt q x ∧ r.merge q = .error (.disagreement x) := by
  rcases mergeEntries_cases q.entries.toList q.entries.ascending q.moves r with
    ⟨hall, hok⟩ | ⟨⟨x, z⟩, he, ⟨y, hy, hne⟩, hfirst, herr⟩
  · refine Or.inl ⟨?_, hok⟩
    intro x y z hy hz
    exact Decidable.not_not.mp fun hne =>
      hall (x, z) (OrderedMap.get?_eq_some_iff.mp hz) ⟨y, hy, hne⟩
  · refine Or.inr ⟨x, ⟨⟨y, z, hy, OrderedMap.get?_eq_some_iff.mpr he, hne⟩, ?_⟩, herr⟩
    rintro w hw ⟨y', z', hy', hz', hne'⟩
    exact hfirst (w, z') (OrderedMap.get?_eq_some_iff.mp hz') hw ⟨y', hy', hne'⟩

/-- Two renamings merge exactly if they agree. -/
theorem exists_merge_iff : (∃ t, r.merge q = .ok t) ↔ r.Agrees q := by
  rcases merge_cases r q with ⟨hagrees, hok⟩ | ⟨x, hx, herr⟩
  · exact iff_of_true hok hagrees
  · refine iff_of_false ?_ fun hagrees => hagrees.not_differsAt x hx.1
    rintro ⟨t, ht⟩
    rw [herr] at ht
    exact absurd ht nofun

/-- Merging is defined for renamings that agree, and gives the renaming that moves what either
moves. -/
theorem merge_eq_ok_iff :
    r.merge q = .ok t ↔ r.Agrees q ∧ ∀ x, t.target? x = (r.target? x).or (q.target? x) := by
  constructor
  · exact fun h => ⟨exists_merge_iff.mp ⟨t, h⟩, target?_of_merge h⟩
  · rintro ⟨hagrees, ht⟩
    obtain ⟨u, hu⟩ := exists_merge_iff.mpr hagrees
    have hut : u = t := Renaming.ext fun x => by rw [target?_of_merge hu, ht]
    rw [hu, hut]

/-- Of two renamings that agree, either may be looked at first. -/
theorem Agrees.or_comm (h : r.Agrees q) (x : Name) :
    (r.target? x).or (q.target? x) = (q.target? x).or (r.target? x) := by
  rcases hy : r.target? x with _ | y
  · simp
  · rcases hz : q.target? x with _ | z
    · simp
    · simp [h x y z hy hz]

/-- The entries of a merged renaming are those of both parts. -/
theorem target?_eq_some_iff_of_merge (h : r.merge q = .ok t) {x y : Name} :
    t.target? x = some y ↔ r.target? x = some y ∨ q.target? x = some y := by
  obtain ⟨hagrees, ht⟩ := merge_eq_ok_iff.mp h
  constructor
  · intro hy
    rw [ht, Option.or_eq_some_iff] at hy
    exact hy.imp_right And.right
  · rintro (hy | hy)
    · rw [ht, hy, Option.some_or]
    · rw [ht, hagrees.or_comm, hy, Option.some_or]

/-! ### Laws of merging -/

/-- Merging renamings does not depend on the order, failures included. -/
theorem merge_comm (r q : Renaming) : r.merge q = q.merge r := by
  rcases merge_cases r q with ⟨hagrees, t, ht⟩ | ⟨x, hx, herr⟩
  · rw [ht, eq_comm, merge_eq_ok_iff]
    refine ⟨hagrees.symm, fun x => ?_⟩
    rw [target?_of_merge ht, hagrees.or_comm]
  · rcases merge_cases q r with ⟨hagrees, -⟩ | ⟨y, hy, herr'⟩
    · exact absurd hx.1.symm (hagrees.not_differsAt x)
    · rw [herr, herr', hx.unique hy.symm]

/-- A renaming merged with itself is itself. -/
theorem merge_self (r : Renaming) : r.merge r = .ok r :=
  merge_eq_ok_iff.mpr ⟨.refl r, fun _ => (Option.or_self ..).symm⟩

/-- The identity adds nothing on the right. -/
theorem merge_identity (r : Renaming) : r.merge .identity = .ok r :=
  merge_eq_ok_iff.mpr ⟨fun _ _ _ _ h => absurd h nofun, fun _ => Option.or_none.symm⟩

/-- The identity adds nothing on the left. -/
theorem identity_merge (r : Renaming) : identity.merge r = .ok r := by
  rw [merge_comm, merge_identity]

/-- A merged renaming agrees with whatever both parts agree with. -/
theorem agrees_iff_of_merge (h : r.merge q = .ok t) :
    t.Agrees s ↔ r.Agrees s ∧ q.Agrees s := by
  constructor
  · intro ht
    exact ⟨fun x y z hy => ht x y z ((target?_eq_some_iff_of_merge h).mpr (Or.inl hy)),
      fun x y z hy => ht x y z ((target?_eq_some_iff_of_merge h).mpr (Or.inr hy))⟩
  · rintro ⟨hr, hq⟩ x y z hy hz
    rcases (target?_eq_some_iff_of_merge h).mp hy with hy | hy
    · exact hr x y z hy hz
    · exact hq x y z hy hz

/-- Three renamings merge one after the other if any two of them agree. -/
theorem merge_merge_eq_ok_iff :
    (r.merge q >>= fun u => u.merge s) = .ok t ↔
      (r.Agrees q ∧ r.Agrees s ∧ q.Agrees s) ∧
        ∀ x, t.target? x = ((r.target? x).or (q.target? x)).or (s.target? x) := by
  rw [Error.bind_eq_ok]
  constructor
  · rintro ⟨u, hu, ht⟩
    obtain ⟨hagrees, ht⟩ := merge_eq_ok_iff.mp ht
    refine ⟨⟨exists_merge_iff.mp ⟨u, hu⟩, (agrees_iff_of_merge hu).mp hagrees⟩, fun x => ?_⟩
    rw [ht, target?_of_merge hu]
  · rintro ⟨⟨hrq, hs⟩, ht⟩
    obtain ⟨u, hu⟩ := exists_merge_iff.mpr hrq
    refine ⟨u, hu, merge_eq_ok_iff.mpr ⟨(agrees_iff_of_merge hu).mpr hs, fun x => ?_⟩⟩
    rw [ht, target?_of_merge hu]

/-- It does not matter which of three renamings comes first. -/
theorem merge_rotate (r q s t : Renaming) :
    (q.merge s >>= fun u => u.merge r) = .ok t ↔ (r.merge q >>= fun u => u.merge s) = .ok t := by
  rw [merge_merge_eq_ok_iff, merge_merge_eq_ok_iff]
  constructor
  · rintro ⟨⟨hqs, hqr, hsr⟩, ht⟩
    refine ⟨⟨hqr.symm, hsr.symm, hqs⟩, fun x => ?_⟩
    rw [ht, Option.or_assoc, hsr.or_comm, ← Option.or_assoc, hqr.or_comm]
  · rintro ⟨⟨hrq, hrs, hqs⟩, ht⟩
    refine ⟨⟨hqs, hrq.symm, hrs.symm⟩, fun x => ?_⟩
    rw [ht, hrq.or_comm, Option.or_assoc, hrs.or_comm, Option.or_assoc]

/-- Either way of bracketing three renamings is defined when the other is, and gives the same. -/
theorem merge_assoc (r q s t : Renaming) :
    (r.merge q >>= fun u => u.merge s) = .ok t ↔ (q.merge s >>= fun u => r.merge u) = .ok t := by
  rw [← merge_rotate]
  simp only [merge_comm r]

end Renaming

namespace Unifier

/-! ### Kinds -/

/-- Merging kinds does not depend on the order. -/
theorem Kind.merge_comm (j k : Kind) : j.merge k = k.merge j := by
  cases j <;> cases k <;> rfl

/-- Merging kinds does not depend on the grouping. -/
theorem Kind.merge_assoc (i j k : Kind) : (i.merge j).merge k = i.merge (j.merge k) := by
  cases i <;> cases j <;> cases k <;> rfl

/-- A kind merged with itself is itself. -/
theorem Kind.merge_self (k : Kind) : k.merge k = k := by
  cases k <;> rfl

/-- The kind that renames neither side adds nothing. -/
theorem Kind.identical_merge (k : Kind) : identical.merge k = k := by
  cases k <;> rfl

/-! ### Two parts -/

variable {a b c u v : Unifier}

/-- A part that does not line up spoils the whole. -/
theorem merge_of_notUnifiable (h : a.kind.merge b.kind = .notUnifiable) :
    a.merge b = .ok failure := by
  unfold merge
  rw [if_pos h]

/-- Parts that line up are merged field by field. -/
theorem merge_eq_ok_iff (h : a.kind.merge b.kind ≠ .notUnifiable) :
    a.merge b = .ok u ↔ u.kind = a.kind.merge b.kind ∧ u.binders = a.binders.union b.binders ∧
      a.left.merge b.left = .ok u.left ∧ a.right.merge b.right = .ok u.right := by
  unfold merge
  rw [if_neg h]
  simp only [Error.bind_eq_ok, Error.pure_eq_ok]
  constructor
  · rintro ⟨left, hleft, right, hright, rfl⟩
    exact ⟨rfl, rfl, hleft, hright⟩
  · rintro ⟨hkind, hbinders, hleft, hright⟩
    exact ⟨u.left, hleft, u.right, hright, by rw [← hkind, ← hbinders]⟩

/-- The kind of a merge is the merge of the kinds. -/
theorem kind_of_merge (h : a.merge b = .ok u) : u.kind = a.kind.merge b.kind := by
  by_cases hkind : a.kind.merge b.kind = .notUnifiable
  · rw [merge_of_notUnifiable hkind] at h
    rw [← Except.ok.inj h, hkind]
    rfl
  · exact ((merge_eq_ok_iff hkind).mp h).1

/-- Merging results does not depend on the order, failures included. -/
theorem merge_comm (a b : Unifier) : a.merge b = b.merge a := by
  have hbinders : a.binders.union b.binders = b.binders.union a.binders :=
    OrderedSet.ext fun _ => by simp only [OrderedSet.mem_union, or_comm]
  unfold merge
  rw [Kind.merge_comm, hbinders, Renaming.merge_comm a.left, Renaming.merge_comm a.right]

/-! ### Three parts -/

/-- Three parts that line up are merged field by field, one after the other. -/
theorem merge_merge_eq_ok_iff (h : (a.kind.merge b.kind).merge c.kind ≠ .notUnifiable) :
    (a.merge b >>= fun d => d.merge c) = .ok u ↔
      u.kind = (a.kind.merge b.kind).merge c.kind ∧
      u.binders = (a.binders.union b.binders).union c.binders ∧
      (a.left.merge b.left >>= fun r => r.merge c.left) = .ok u.left ∧
      (a.right.merge b.right >>= fun r => r.merge c.right) = .ok u.right := by
  have hab : a.kind.merge b.kind ≠ .notUnifiable := fun hkind => h (by rw [hkind]; rfl)
  simp only [Error.bind_eq_ok]
  constructor
  · rintro ⟨d, hd, hu⟩
    obtain ⟨hkind, hbinders, hleft, hright⟩ := (merge_eq_ok_iff hab).mp hd
    obtain ⟨hkind', hbinders', hleft', hright'⟩ := (merge_eq_ok_iff (hkind ▸ h)).mp hu
    exact ⟨hkind' ▸ hkind ▸ rfl, hbinders ▸ hbinders', ⟨d.left, hleft, hleft'⟩,
      d.right, hright, hright'⟩
  · rintro ⟨hkind, hbinders, ⟨left, hleft, hleft'⟩, right, hright, hright'⟩
    refine ⟨⟨a.kind.merge b.kind, a.binders.union b.binders, left, right⟩, ?_, ?_⟩
    · exact (merge_eq_ok_iff hab).mpr ⟨rfl, rfl, hleft, hright⟩
    · exact (merge_eq_ok_iff h).mpr ⟨hkind, hbinders, hleft', hright'⟩

/-- For three parts that line up, either way of bracketing is defined when the other is, and gives
the same. -/
theorem merge_assoc (h : (a.kind.merge b.kind).merge c.kind ≠ .notUnifiable) :
    (a.merge b >>= fun d => d.merge c) = .ok u ↔ (b.merge c >>= fun d => a.merge d) = .ok u := by
  have hkind : (b.kind.merge c.kind).merge a.kind = (a.kind.merge b.kind).merge c.kind := by
    rw [Kind.merge_comm, Kind.merge_assoc]
  have hbinders : (b.binders.union c.binders).union a.binders =
      (a.binders.union b.binders).union c.binders :=
    OrderedSet.ext fun _ => by simp only [OrderedSet.mem_union, or_comm, or_assoc]
  have hright : (b.merge c >>= fun d => a.merge d) = (b.merge c >>= fun d => d.merge a) := by
    simp only [merge_comm a]
  rw [hright, merge_merge_eq_ok_iff h, merge_merge_eq_ok_iff (hkind ▸ h), hkind, hbinders,
    Renaming.merge_rotate a.left, Renaming.merge_rotate a.right]

/-- Where both ways of bracketing three parts are defined they give the same. -/
theorem merge_assoc_of_ok (hu : (a.merge b >>= fun d => d.merge c) = .ok u)
    (hv : (b.merge c >>= fun d => a.merge d) = .ok v) : u = v := by
  by_cases h : (a.kind.merge b.kind).merge c.kind = .notUnifiable
  · obtain ⟨d, hd, hu⟩ := Error.bind_eq_ok.mp hu
    obtain ⟨e, he, hv⟩ := Error.bind_eq_ok.mp hv
    rw [merge_of_notUnifiable (by rw [kind_of_merge hd, h])] at hu
    rw [merge_of_notUnifiable (by rw [kind_of_merge he, ← Kind.merge_assoc, h])] at hv
    exact Except.ok.inj (hu.symm.trans hv)
  · exact Except.ok.inj (((merge_assoc h).mp hu).symm.trans hv)

-- of the two ways, only the one that meets the failure early gets past the disagreement
example : ((Name.unify 3 1).merge (Name.unify 3 2) >>= fun d => d.merge failure) =
      .error (.disagreement 3) ∧
    ((Name.unify 3 2).merge failure >>= fun d => (Name.unify 3 1).merge d) = .ok failure :=
  ⟨rfl, rfl⟩

/-! ### Results that can be obtained -/

/-- The results that lining up names, lining up patterns and merging can give. -/
inductive Obtained : Unifier → Prop where
  | failure : Obtained failure
  | names (l r : Name) : Obtained (Name.unify l r)
  | patterns {s : Scope} {l r : Pattern} {u : Unifier} (h : l.unify s r = .ok u) : Obtained u
  | merge {a b u : Unifier} (ha : Obtained a) (hb : Obtained b) (h : a.merge b = .ok u) : Obtained u

/-- Merging keeps the kind exact. -/
theorem Exact.of_merge (ha : a.Exact) (hb : b.Exact) (h : a.merge b = .ok u) : u.Exact := by
  have hkind : a.kind.merge b.kind ≠ .notUnifiable := by
    rw [ha, hb, Kind.merge_ofMoves]
    exact Kind.ofMoves_ne_notUnifiable _ _
  obtain ⟨-, -, hleft, hright⟩ := (merge_eq_ok_iff hkind).mp h
  obtain ⟨w, hw, hexact, -⟩ := merge_of_exact ha hb hleft hright
  exact Except.ok.inj (hw.symm.trans h) ▸ hexact

/-- Merging pair after pair keeps the kind exact. -/
theorem Exact.of_mergeAligned : {ts : List ((Name × Name) × Name)} → {acc : Unifier} →
    acc.Exact → mergeAligned acc ts = .ok u → u.Exact
  | [], _, hacc, h => Except.ok.inj h ▸ hacc
  | ((l, r), c) :: _, _, hacc, h => by
      obtain ⟨acc', hmerge, h⟩ := Error.bind_eq_ok.mp h
      exact (hacc.of_merge (align_exact l r c) hmerge).of_mergeAligned h

/-- What can be obtained is either the one result for parts that do not line up, or says exactly
which side is renamed. -/
theorem Obtained.eq_failure_or_exact (h : u.Obtained) : u = .failure ∨ u.Exact := by
  induction h with
  | failure => exact Or.inl rfl
  | names l r => exact Or.inr (align_exact l r _)
  | @patterns s l r u h =>
    by_cases hshape : l.shape = r.shape
    · rw [Pattern.unify_eq_of_shape hshape] at h
      exact Or.inr (unit_exact.of_mergeAligned h)
    · rw [Pattern.unify_eq_of_shape_ne hshape] at h
      exact Or.inl (Except.ok.inj h).symm
  | @merge a b u _ _ h iha ihb =>
    rcases iha with rfl | hexact
    · rw [merge_of_notUnifiable rfl] at h
      exact Or.inl (Except.ok.inj h).symm
    · rcases ihb with rfl | hexact'
      · rw [merge_comm, merge_of_notUnifiable rfl] at h
        exact Or.inl (Except.ok.inj h).symm
      · exact Or.inr (hexact.of_merge hexact' h)

/-- There is one result for parts that do not line up. -/
theorem Obtained.eq_failure (h : u.Obtained) (hkind : u.kind = .notUnifiable) : u = .failure :=
  h.eq_failure_or_exact.resolve_right fun hexact => hexact.kind_ne_notUnifiable hkind

/-- There is one result with neither binders nor a side that is renamed. -/
theorem Obtained.eq_unit (h : u.Obtained) (hkind : u.kind = .identical) (hbinders : u.binders = ∅) :
    u = unit := by
  rcases h.eq_failure_or_exact with rfl | hexact
  · exact absurd hkind nofun
  · obtain ⟨kind, binders, left, right⟩ := u
    obtain ⟨hleft, hright⟩ := hexact.kind_iff.1.mp hkind
    cases hkind
    cases hbinders
    cases hleft
    cases hright
    rfl

/-- Lining up two wildcards gives the result for no parts at all. -/
theorem obtained_unit : unit.Obtained :=
  .patterns (s := ∅) (l := .wildcard) (r := .wildcard) rfl

/-- A result merged with itself is itself. -/
theorem Obtained.merge_self (h : u.Obtained) : u.merge u = .ok u := by
  by_cases hkind : u.kind = .notUnifiable
  · rw [h.eq_failure hkind]
    rfl
  · have hbinders : u.binders = u.binders.union u.binders := OrderedSet.ext fun _ => by simp
    have hself := Kind.merge_self u.kind
    exact (merge_eq_ok_iff (hself.symm ▸ hkind)).mpr
      ⟨hself.symm, hbinders, u.left.merge_self, u.right.merge_self⟩

/-- The result for no parts at all adds nothing. -/
theorem Obtained.unit_merge (h : u.Obtained) : unit.merge u = .ok u := by
  by_cases hkind : u.kind = .notUnifiable
  · rw [h.eq_failure hkind]
    rfl
  · have hbinders : u.binders = (∅ : NameSet).union u.binders := OrderedSet.ext fun _ => by simp
    have hunit : unit.kind.merge u.kind = u.kind := Kind.identical_merge u.kind
    exact (merge_eq_ok_iff (hunit.symm ▸ hkind)).mpr
      ⟨hunit.symm, hbinders, u.left.identity_merge, u.right.identity_merge⟩

end Unifier

/-! ### All laws at once -/

/-- **Merging is a partial commutative idempotent monoid.** No renaming sends a name to itself, so
the one without entries is the one that fixes every name. Two renamings merge exactly if they agree
on every name that both move, and the result has the entries of both. Merging renamings is
commutative and idempotent, with the identity as unit, and associative, definedness included.

Of the results of lining up, those that do not line up absorb, and the one that renames nothing and
binds nothing is the unit. Merging them is commutative, definedness included, and idempotent, and
where both ways of bracketing three of them are defined they give the same. -/
theorem merge_partialMonoid :
    (∀ a b c : Renaming,
      (∀ x y, a.target? x = some y → x ≠ y) ∧ (a.isIdentity = true ↔ ∀ x, a.apply x = x) ∧
      ((∃ t, a.merge b = .ok t) ↔
        ∀ x y z, a.target? x = some y → b.target? x = some z → y = z) ∧
      (∀ t, a.merge b = .ok t →
        ∀ x y, t.target? x = some y ↔ a.target? x = some y ∨ b.target? x = some y) ∧
      a.merge b = b.merge a ∧
      (∀ t, (a.merge b >>= fun u => u.merge c) = .ok t ↔
        (b.merge c >>= fun u => a.merge u) = .ok t) ∧
      a.merge a = .ok a ∧ Renaming.identity.merge a = .ok a ∧ a.merge .identity = .ok a) ∧
    Unifier.unit.Obtained ∧
    ∀ a b c : Unifier, a.Obtained → b.Obtained → c.Obtained →
      a.merge b = b.merge a ∧ a.merge a = .ok a ∧
      (a.kind = .notUnifiable → a.merge b = .ok a ∧ b.merge a = .ok a) ∧
      (a.kind = .identical → a.binders = ∅ → a.merge b = .ok b ∧ b.merge a = .ok b) ∧
      ∀ u v, (a.merge b >>= fun d => d.merge c) = .ok u →
        (b.merge c >>= fun d => a.merge d) = .ok v → u = v := by
  refine ⟨?_, Unifier.obtained_unit, ?_⟩
  · intro a b c
    refine ⟨fun _ _ => Renaming.ne_of_target?, ?_, Renaming.exists_merge_iff,
      fun _ h _ _ => Renaming.target?_eq_some_iff_of_merge h, Renaming.merge_comm a b,
      Renaming.merge_assoc a b c, a.merge_self, a.identity_merge, a.merge_identity⟩
    rw [Renaming.isIdentity_iff_target?]
    constructor
    · intro h x
      rw [Renaming.apply, h x, Option.getD_none]
    · exact fun h x => Renaming.target?_eq_none_of_apply (h x)
  · intro a b c ha hb _
    refine ⟨Unifier.merge_comm a b, ha.merge_self, ?_, ?_, fun _ _ => Unifier.merge_assoc_of_ok⟩
    · intro hkind
      obtain rfl := ha.eq_failure hkind
      rw [Unifier.merge_comm b]
      exact ⟨rfl, rfl⟩
    · intro hkind hbinders
      obtain rfl := ha.eq_unit hkind hbinders
      rw [Unifier.merge_comm b]
      exact ⟨hb.unit_merge, hb.unit_merge⟩

/-- Three pairs of names, one renamed on either side and one on neither, put together in both
ways. -/
theorem merge_partialMonoid_three_pairs :
    ∃ u v, ((Name.unify 3 1).merge (Name.unify 4 5) >>= fun d => d.merge (Name.unify 2 2)) = .ok u ∧
      ((Name.unify 4 5).merge (Name.unify 2 2) >>= fun d => (Name.unify 3 1).merge d) = .ok v ∧
      u.kind = .renameBoth ∧ u = v := by
  have h := merge_partialMonoid.2.2 (Name.unify 3 1) (Name.unify 4 5) (Name.unify 2 2) (.names 3 1)
    (.names 4 5) (.names 2 2)
  exact ⟨_, _, rfl, rfl, rfl, h.2.2.2.2 _ _ rfl rfl⟩

end NameBinding
