import NameBinding.Export
import NameBinding.Pattern.Refresh
import NameBinding.Proofs.Extensionality

/-!
# What moving a pattern does

A walk over a pattern is a walk over the list of its binders (`Pattern.walk_scope`,
`Pattern.walk_value`). A pattern moved into a scope is therefore known from the list of its
`replacements`, each chosen for the scope extended by the ones before it.

It is rebuilt position by position as long as its sets stay in order (`Pattern.InOrder`,
`Pattern.walk_moveVisit`). A set is always listed in increasing order, and a member that is replaced
by a larger name may come behind one that is kept. Patterns without sets are always in order, and so
is every pattern all of whose binders are replaced by fresh names (`Pattern.HasRoom.inOrder_fresh`).

A fresh name is new unless drawing it wraps around, which happens exactly when the largest name of
all is in play (`Scope.HasRoom`). `Pattern.HasRoom` says of a whole pattern that no draw wraps. Then
the replacements are distinct and outside the scope (`Pattern.nodup_replacements`,
`Pattern.replacements_not_mem`).
-/

namespace NameBinding

/-! ### Room for one more name -/

/-- The largest name of all. The name after it is `0`. -/
def Name.largest : Name := UInt64.ofNat (UInt64.size - 1)

/-- The successor of any name but the largest does not wrap. -/
theorem Name.toNat_add_one_lt {x : Name} (h : x ≠ largest) : x.toNat + 1 < UInt64.size := by
  have hlt : x.toNat < UInt64.size := x.toNat_lt_size
  have hne : x.toNat ≠ UInt64.size - 1 := by
    intro heq
    apply h
    rw [largest, ← heq, UInt64.ofNat_toNat]
  omega

/-- A fresh name can be drawn from the scope without wrapping around. -/
def Scope.HasRoom (s : Scope) : Prop := Name.largest ∉ s

instance (s : Scope) : Decidable s.HasRoom := inferInstanceAs (Decidable (¬ _))

/-- With room the successor of no name of the scope wraps. -/
theorem Scope.HasRoom.toNat_add_one_lt {s : Scope} (h : s.HasRoom) :
    ∀ x ∈ s, x.toNat + 1 < UInt64.size := by
  intro x hx
  apply Name.toNat_add_one_lt
  rintro rfl
  exact h hx

/-- With room the fresh name is new. -/
theorem Scope.HasRoom.fresh_not_mem {s : Scope} (h : s.HasRoom) : s.fresh ∉ s :=
  Scope.fresh_not_mem h.toNat_add_one_lt

/-- Fresh names can be drawn from the scope `n` times, each scope extended by the name drawn last,
without wrapping around. -/
def Scope.HasRoomFor (s : Scope) : Nat → Prop
  | 0 => True
  | n + 1 => s.HasRoom ∧ (s.extend s.fresh).HasRoomFor n

instance Scope.decidableHasRoomFor : (s : Scope) → (n : Nat) → Decidable (s.HasRoomFor n)
  | _, 0 => inferInstanceAs (Decidable True)
  | s, n + 1 =>
    have := decidableHasRoomFor (s.extend s.fresh) n
    inferInstanceAs (Decidable (_ ∧ _))

/-! ### Ways of choosing a replacement -/

/-- A way of choosing replacements that keeps a new name or draws a fresh one. -/
def Scope.KeepsOrDraws (choose : Scope → Name → Name) : Prop :=
  ∀ (s : Scope) (x : Name), (choose s x = x ∧ x ∉ s) ∨ choose s x = s.fresh

/-- Replacing only names that clash keeps a new name or draws one. -/
theorem Scope.refresh_keepsOrDraws : KeepsOrDraws refresh := by
  intro s x
  unfold refresh
  split
  · exact Or.inr rfl
  · rename_i hx
    exact Or.inl ⟨rfl, fun hmem => hx (contains_iff.mpr hmem)⟩

/-- Replacing every name draws one. -/
theorem Scope.fresh_keepsOrDraws : KeepsOrDraws fun before _ => before.fresh :=
  fun _ _ => Or.inr rfl

namespace Pattern

/-! ### A walk over a pattern is a walk over its binders -/

section walk

variable {σ : Type} (visit : Scope → Name → σ → Name × σ)

/-- A walk over two lists is a walk over the one and then over the other. -/
theorem walkNames_append (s : Scope) (v : σ) (xs ys : List Name) :
    walkNames visit s v (xs ++ ys) =
      (let w := walkNames visit s v xs
       let w' := walkNames visit w.scope w.value ys
       ⟨w.result ++ w'.result, w'.scope, w'.value⟩) := by
  induction xs generalizing s v with
  | nil => rfl
  | cons x xs ih => simp only [List.cons_append, walkNames, ih]

/-- The scope and the value after a walk come from the binders alone, for every kind of pattern. -/
theorem walk_scope_value (p : Pattern) (s : Scope) (v : σ) :
    (p.walk visit s v).scope = (walkNames visit s v p.binders).scope ∧
      (p.walk visit s v).value = (walkNames visit s v p.binders).value := by
  induction p generalizing s v with
  | wildcard => exact ⟨rfl, rfl⟩
  | single x => exact ⟨rfl, rfl⟩
  | list xs => exact ⟨rfl, rfl⟩
  | set xs => exact ⟨rfl, rfl⟩
  | pair l r ihl ihr =>
    obtain ⟨hls, hlv⟩ := ihl s v
    obtain ⟨hrs, hrv⟩ := ihr (walkNames visit s v l.binders).scope
      (walkNames visit s v l.binders).value
    simp only [walk, binders, walkNames_append, hls, hlv]
    exact ⟨hrs, hrv⟩

/-- A walk over a pattern ends in the scope of the walk over its binders. -/
theorem walk_scope (p : Pattern) (s : Scope) (v : σ) :
    (p.walk visit s v).scope = (walkNames visit s v p.binders).scope :=
  (walk_scope_value visit p s v).1

/-- A walk over a pattern ends with the value of the walk over its binders. -/
theorem walk_value (p : Pattern) (s : Scope) (v : σ) :
    (p.walk visit s v).value = (walkNames visit s v p.binders).value :=
  (walk_scope_value visit p s v).2

end walk

/-! ### Replacements -/

section replacements

variable (choose : Scope → Name → Name)

/-- The replacements for a list of binders, each chosen for the scope right before it. -/
def replacements (s : Scope) : List Name → List Name
  | [] => []
  | x :: xs => choose s x :: replacements (s.extend (choose s x)) xs

/-- There is one replacement for each name. -/
@[simp] theorem length_replacements (s : Scope) (xs : List Name) :
    (replacements choose s xs).length = xs.length := by
  induction xs generalizing s with
  | nil => rfl
  | cons x xs ih => simp only [replacements, List.length_cons, ih]

/-- Replacements are chosen one after the other. -/
theorem replacements_append (s : Scope) (xs ys : List Name) :
    replacements choose s (xs ++ ys) =
      replacements choose s xs ++
        replacements choose (s.extendAll (replacements choose s xs)) ys := by
  induction xs generalizing s with
  | nil => rfl
  | cons x xs ih => simp only [List.cons_append, replacements, ih, Scope.extendAll_cons]

/-- Drawing a fresh name every time, the replacements depend on the number of binders only. -/
theorem replacements_fresh_congr (s : Scope) {xs ys : List Name} (h : xs.length = ys.length) :
    replacements (fun before _ => before.fresh) s xs =
      replacements (fun before _ => before.fresh) s ys := by
  induction xs generalizing s ys with
  | nil =>
    cases ys with
    | nil => rfl
    | cons y ys => simp at h
  | cons x xs ih =>
    cases ys with
    | nil => simp at h
    | cons y ys =>
      have hlen : xs.length = ys.length := by simpa using h
      simp only [replacements, ih _ hlen]

/-- What a move does at one binder. -/
def moveVisit (before : Scope) (x : Name) (acc : List (Name × Name)) :
    Name × List (Name × Name) :=
  (choose before x, acc ++ [(x, choose before x)])

/-- What the walk of a move leaves behind. -/
theorem walkNames_moveVisit (s : Scope) (acc : List (Name × Name)) (xs : List Name) :
    walkNames (moveVisit choose) s acc xs =
      ⟨replacements choose s xs, s.extendAll (replacements choose s xs),
        acc ++ xs.zip (replacements choose s xs)⟩ := by
  induction xs generalizing s acc with
  | nil => simp [walkNames, replacements]
  | cons x xs ih => simp [walkNames, moveVisit, replacements, ih]

/-- The record of a move pairs each binder with its replacement. -/
theorem moveInto_renames (s : Scope) (p : Pattern) :
    (p.moveInto choose s).renames = p.binders.zip (replacements choose s p.binders) := by
  show (p.walk (moveVisit choose) s []).value = _
  rw [walk_value, walkNames_moveVisit, List.nil_append]

/-- A move ends in the scope with all replacements. -/
theorem moveInto_scope (s : Scope) (p : Pattern) :
    (p.moveInto choose s).scope = s.extendAll (replacements choose s p.binders) := by
  show (p.walk (moveVisit choose) s []).scope = _
  rw [walk_scope, walkNames_moveVisit]

/-- Each set of the pattern keeps its members in increasing order when the pattern moves into the
scope. -/
def InOrder : Scope → Pattern → Prop
  | _, wildcard => True
  | _, single _ => True
  | _, list _ => True
  | s, set xs => (replacements choose s xs.toList).Pairwise (· < ·)
  | s, pair l r => InOrder s l ∧ InOrder (s.extendAll (replacements choose s l.binders)) r

/-- Without sets nothing is put in another order. -/
theorem inOrder_of_setFree (s : Scope) {p : Pattern} (hp : p.setFree = true) :
    p.InOrder choose s := by
  induction p generalizing s with
  | wildcard => trivial
  | single x => trivial
  | list xs => trivial
  | set xs => cases hp
  | pair l r ihl ihr =>
    simp only [setFree, Bool.and_eq_true] at hp
    exact ⟨ihl s hp.1, ihr _ hp.2⟩

/-- A pattern whose sets stay in order is rebuilt position by position. A set that does not is
listed in another order than its replacements were chosen in. -/
theorem walk_moveVisit {s : Scope} {p : Pattern} (hp : p.InOrder choose s)
    (acc : List (Name × Name)) :
    (p.walk (moveVisit choose) s acc).result.shape = p.shape ∧
      (p.walk (moveVisit choose) s acc).result.binders = replacements choose s p.binders := by
  induction p generalizing s acc with
  | wildcard => exact ⟨rfl, rfl⟩
  | single x => exact ⟨rfl, rfl⟩
  | list xs => simp only [walk, shape, binders, walkNames_moveVisit, length_replacements, and_self]
  | set xs =>
    have hlist := OrderedSet.toList_ofList hp
    simp only [walk, shape, binders, walkNames_moveVisit, OrderedSet.size, hlist,
      length_replacements, and_self]
  | pair l r ihl ihr =>
    have hscope : (l.walk (moveVisit choose) s acc).scope =
        s.extendAll (replacements choose s l.binders) := by
      rw [walk_scope, walkNames_moveVisit]
    obtain ⟨hls, hlb⟩ := ihl hp.1 acc
    obtain ⟨hrs, hrb⟩ := ihr hp.2 (l.walk (moveVisit choose) s acc).value
    simp only [walk, shape, binders, hscope, hls, hlb, hrs, hrb, replacements_append, and_self]

/-- A pattern whose sets stay in order keeps its shape. -/
theorem moveInto_shape_of_inOrder {s : Scope} {p : Pattern} (hp : p.InOrder choose s) :
    (p.moveInto choose s).pattern.shape = p.shape :=
  (walk_moveVisit choose hp []).1

/-- A pattern whose sets stay in order has the replacements for binders, position by position. -/
theorem moveInto_binders_of_inOrder {s : Scope} {p : Pattern} (hp : p.InOrder choose s) :
    (p.moveInto choose s).pattern.binders = replacements choose s p.binders :=
  (walk_moveVisit choose hp []).2

/-- The binders of a moved pattern are the replacements, in whatever order its sets list them. -/
theorem mem_moveInto_binders (s : Scope) (p : Pattern) {x : Name} :
    x ∈ (p.moveInto choose s).pattern.binders ↔ x ∈ replacements choose s p.binders := by
  show x ∈ (p.walk (moveVisit choose) s []).result.binders ↔ _
  generalize ([] : List (Name × Name)) = acc
  induction p generalizing s acc with
  | wildcard => rfl
  | single y => rfl
  | list ys => simp only [walk, binders, walkNames_moveVisit]
  | set ys => simp only [walk, binders, walkNames_moveVisit, OrderedSet.mem_toList,
      OrderedSet.mem_ofList]
  | pair l r ihl ihr =>
    simp only [walk, binders, replacements_append, List.mem_append, ihl, ihr, walk_scope,
      walkNames_moveVisit]

/-- A pattern without sets keeps its shape. -/
theorem moveInto_shape (s : Scope) {p : Pattern} (hp : p.setFree = true) :
    (p.moveInto choose s).pattern.shape = p.shape :=
  moveInto_shape_of_inOrder choose (inOrder_of_setFree choose s hp)

/-- A pattern without sets has the replacements for binders, position by position. -/
theorem moveInto_binders (s : Scope) {p : Pattern} (hp : p.setFree = true) :
    (p.moveInto choose s).pattern.binders = replacements choose s p.binders :=
  moveInto_binders_of_inOrder choose (inOrder_of_setFree choose s hp)

/-- The binders that a move records are those of the pattern. -/
theorem moveInto_renames_fst (s : Scope) (p : Pattern) :
    (p.moveInto choose s).renames.map Prod.fst = p.binders := by
  rw [moveInto_renames, List.map_fst_zip (by simp)]

/-- Having no sets is a matter of the shape. -/
theorem setFree_of_shape {p q : Pattern} (h : p.shape = q.shape) (hq : q.setFree = true) :
    p.setFree = true := by
  induction p generalizing q with
  | wildcard => rfl
  | single x => rfl
  | list xs => rfl
  | set xs => cases q <;> simp [shape, setFree] at h hq
  | pair l r ihl ihr =>
    cases q <;> simp only [shape, Shape.pair.injEq, reduceCtorEq] at h
    simp only [setFree, Bool.and_eq_true] at hq ⊢
    exact ⟨ihl h.1 hq.1, ihr h.2 hq.2⟩

/-- A pattern without sets gets none by moving. -/
theorem moveInto_setFree (s : Scope) {p : Pattern} (hp : p.setFree = true) :
    (p.moveInto choose s).pattern.setFree = true :=
  setFree_of_shape (moveInto_shape choose s hp) hp

/-! ### Room for all replacements -/

/-- No draw wraps while the binders of a list are replaced from left to right: each is kept and new,
or there is room for a fresh name at its place. -/
def HasRoomForAll (s : Scope) : List Name → Prop
  | [] => True
  | x :: xs =>
    ((choose s x = x ∧ x ∉ s) ∨ s.HasRoom) ∧ HasRoomForAll (s.extend (choose s x)) xs

/-- No draw wraps while the pattern moves into the scope. -/
def HasRoom (s : Scope) (p : Pattern) : Prop := HasRoomForAll choose s p.binders

instance decidableHasRoomForAll (s : Scope) :
    (xs : List Name) → Decidable (HasRoomForAll choose s xs)
  | [] => inferInstanceAs (Decidable True)
  | x :: xs =>
    have := decidableHasRoomForAll (s.extend (choose s x)) xs
    inferInstanceAs (Decidable (_ ∧ _))

instance (s : Scope) (p : Pattern) : Decidable (p.HasRoom choose s) :=
  decidableHasRoomForAll choose s p.binders

variable {choose} (hchoose : Scope.KeepsOrDraws choose)
include hchoose

/-- The chosen name is not in the scope, if it is the name itself and new, or there is room for a
draw. -/
theorem choose_not_mem {s : Scope} {x : Name} (h : (choose s x = x ∧ x ∉ s) ∨ s.HasRoom) :
    choose s x ∉ s := by
  rcases h with ⟨hkeep, hx⟩ | hroom
  · rwa [hkeep]
  · rcases hchoose s x with ⟨hkeep, hx⟩ | hdraw
    · rwa [hkeep]
    · rw [hdraw]
      exact hroom.fresh_not_mem

/-- Replacements are outside the scope. -/
theorem replacements_not_mem {s : Scope} {xs : List Name} (h : HasRoomForAll choose s xs) :
    ∀ c ∈ replacements choose s xs, c ∉ s := by
  induction xs generalizing s with
  | nil => simp [replacements]
  | cons x xs ih =>
    obtain ⟨hx, hxs⟩ := h
    intro c hc
    rcases List.mem_cons.mp hc with rfl | hc
    · exact choose_not_mem hchoose hx
    · intro hcs
      exact ih hxs c hc (Scope.mem_extend.mpr (Or.inr hcs))

/-- Replacements are distinct. -/
theorem nodup_replacements {s : Scope} {xs : List Name} (h : HasRoomForAll choose s xs) :
    (replacements choose s xs).Nodup := by
  induction xs generalizing s with
  | nil => exact List.nodup_nil
  | cons x xs ih =>
    obtain ⟨-, hxs⟩ := h
    refine List.nodup_cons.mpr ⟨?_, ih hxs⟩
    -- the first replacement is in the scope from which the others are chosen
    intro hmem
    exact replacements_not_mem hchoose hxs _ hmem (Scope.mem_extend.mpr (Or.inl rfl))

end replacements

/-! ### Fresh replacements stay in order -/

/-- Where there is no room, drawing a name wraps around to `0`. -/
theorem fresh_eq_zero {s : Scope} (h : ¬ s.HasRoom) : s.fresh = 0 := by
  have hmem : Name.largest ∈ s := Decidable.not_not.mp h
  rcases Scope.fresh_eq s with ⟨hs, -⟩ | ⟨x, -, hle, hfresh⟩
  · exact absurd hmem (hs _)
  · have hx : x = Name.largest := by
      apply Decidable.not_not.mp
      intro hne
      have hlt := Name.toNat_add_one_lt hne
      have hge := UInt64.le_iff_toNat_le.mp (hle _ hmem)
      have hsize : Name.largest.toNat = UInt64.size - 1 := rfl
      omega
    rw [hfresh, hx]
    rfl

section fresh

variable {s : Scope} {xs : List Name}

/-- Fresh replacements are above the scope. -/
theorem lt_of_mem_replacements_fresh (h : s.HasRoomFor xs.length) :
    ∀ c ∈ replacements (fun before _ => before.fresh) s xs, ∀ y ∈ s, y < c := by
  induction xs generalizing s with
  | nil => simp [replacements]
  | cons x xs ih =>
    intro c hc y hy
    rcases List.mem_cons.mp hc with rfl | hc
    · exact Scope.lt_fresh h.1.toNat_add_one_lt hy
    · exact ih h.2 c hc y (Scope.mem_extend.mpr (Or.inr hy))

/-- Fresh replacements are in order. -/
theorem pairwise_replacements_fresh (h : s.HasRoomFor xs.length) :
    (replacements (fun before _ => before.fresh) s xs).Pairwise (· < ·) := by
  induction xs generalizing s with
  | nil => exact .nil
  | cons x xs ih =>
    refine List.pairwise_cons.mpr ⟨fun c hc => ?_, ih h.2⟩
    exact lt_of_mem_replacements_fresh h.2 c hc _ (Scope.mem_extend.mpr (Or.inl rfl))

/-- Room for as many draws as there are names is room for replacing all of them. -/
theorem hasRoomForAll_fresh (h : s.HasRoomFor xs.length) :
    HasRoomForAll (fun before _ => before.fresh) s xs := by
  induction xs generalizing s with
  | nil => trivial
  | cons x xs ih => exact ⟨Or.inr h.1, ih h.2⟩

/-- A draw that wraps gives `0`, so names other than `0` are never kept by wrapping around. -/
theorem HasRoomForAll.hasRoomFor (h : HasRoomForAll (fun before _ => before.fresh) s xs)
    (hxs : ∀ x ∈ xs, x ≠ 0) : s.HasRoomFor xs.length := by
  induction xs generalizing s with
  | nil => trivial
  | cons x xs ih =>
    obtain ⟨hx, hrest⟩ := List.forall_mem_cons.mp hxs
    refine ⟨?_, ih h.2 hrest⟩
    rcases h.1 with ⟨hkeep, -⟩ | hroom
    · apply Decidable.not_not.mp
      intro hno
      exact hx (hkeep.symm.trans (fresh_eq_zero hno))
    · exact hroom

/-- Fresh replacements for the members of a set are in order. -/
theorem pairwise_replacements_fresh_of_ascending (hxs : xs.Pairwise (· < ·))
    (h : HasRoomForAll (fun before _ => before.fresh) s xs) :
    (replacements (fun before _ => before.fresh) s xs).Pairwise (· < ·) := by
  cases xs with
  | nil => exact .nil
  | cons x xs =>
    obtain ⟨hx, -⟩ := List.pairwise_cons.mp hxs
    -- the members after the first are not `0`, so none of them was drawn by wrapping around
    have hne : ∀ y ∈ xs, y ≠ 0 := by
      rintro y hy rfl
      exact absurd (hx 0 hy) (by simp)
    have hroom := h.2.hasRoomFor hne
    refine List.pairwise_cons.mpr ⟨fun c hc => ?_, pairwise_replacements_fresh hroom⟩
    exact lt_of_mem_replacements_fresh hroom c hc _ (Scope.mem_extend.mpr (Or.inl rfl))

end fresh

/-- Room for two lists is room for the one, and for the other after it. -/
theorem hasRoomForAll_append {choose : Scope → Name → Name} {s : Scope} {xs ys : List Name} :
    HasRoomForAll choose s (xs ++ ys) ↔
      HasRoomForAll choose s xs ∧
        HasRoomForAll choose (s.extendAll (replacements choose s xs)) ys := by
  induction xs generalizing s with
  | nil => simp [HasRoomForAll, replacements]
  | cons x xs ih =>
    simp only [List.cons_append, HasRoomForAll, replacements, Scope.extendAll_cons, ih, and_assoc]

/-- Drawing a fresh name for every binder keeps all sets in order. -/
theorem HasRoom.inOrder_fresh {s : Scope} {p : Pattern}
    (h : p.HasRoom (fun before _ => before.fresh) s) :
    p.InOrder (fun before _ => before.fresh) s := by
  induction p generalizing s with
  | wildcard => trivial
  | single x => trivial
  | list xs => trivial
  | set xs => exact pairwise_replacements_fresh_of_ascending xs.ascending h
  | pair l r ihl ihr =>
    obtain ⟨hl, hr⟩ := hasRoomForAll_append.mp h
    exact ⟨ihl hl, ihr hr⟩

end Pattern

/-! ### Terms -/

namespace Term

variable {κ : Type}

/-- Every pattern of the term has the property `P`. -/
inductive AllPatterns (P : Pattern → Prop) : Term κ → Prop where
  | var (x : Name) : AllPatterns P (var x)
  | node {h : κ} {ts : List (Term κ)} {ss : List (Scoped (Term κ))}
      (terms : ∀ e ∈ ts, AllPatterns P e) (binders : ∀ sc ∈ ss, P sc.binder)
      (bodies : ∀ sc ∈ ss, AllPatterns P sc.body) : AllPatterns P (node h ts ss)

/-- The patterns of a node are those of its children. -/
theorem allPatterns_node {P : Pattern → Prop} {h : κ} {ts : List (Term κ)}
    {ss : List (Scoped (Term κ))} :
    (node h ts ss).AllPatterns P ↔
      (∀ e ∈ ts, e.AllPatterns P) ∧ ∀ sc ∈ ss, P sc.binder ∧ sc.body.AllPatterns P := by
  constructor
  · rintro (_ | ⟨hts, hbs, hss⟩)
    exact ⟨hts, fun sc hsc => ⟨hbs sc hsc, hss sc hsc⟩⟩
  · rintro ⟨hts, hss⟩
    exact .node hts (fun sc hsc => (hss sc hsc).1) fun sc hsc => (hss sc hsc).2

/-- No pattern of the term is or contains a set. -/
def SetFree (e : Term κ) : Prop := e.AllPatterns fun p => p.setFree = true

/-- No pattern of the term repeats a binder. Different patterns may share binders. -/
def DistinctBinders (e : Term κ) : Prop := e.AllPatterns fun p => p.binders.Nodup

/-- No draw wraps while every pattern of the term moves, layer by layer, into the scope of the
layers outside it. -/
inductive HasRoom (choose : Scope → Name → Name) : Scope → Term κ → Prop where
  | var (s : Scope) (x : Name) : HasRoom choose s (var x)
  | node {s : Scope} {h : κ} {ts : List (Term κ)} {ss : List (Scoped (Term κ))}
      (terms : ∀ e ∈ ts, HasRoom choose s e) (binders : ∀ sc ∈ ss, sc.binder.HasRoom choose s)
      (bodies : ∀ sc ∈ ss, HasRoom choose (sc.binder.moveInto choose s).scope sc.body) :
      HasRoom choose s (node h ts ss)

/-- Room for a node is room for its children, for each body inside its pattern. -/
theorem hasRoom_node {choose : Scope → Name → Name} {s : Scope} {h : κ} {ts : List (Term κ)}
    {ss : List (Scoped (Term κ))} :
    (node h ts ss).HasRoom choose s ↔
      (∀ e ∈ ts, e.HasRoom choose s) ∧
        ∀ sc ∈ ss, sc.binder.HasRoom choose s ∧
          sc.body.HasRoom choose (sc.binder.moveInto choose s).scope := by
  constructor
  · rintro (_ | ⟨hts, hbs, hss⟩)
    exact ⟨hts, fun sc hsc => ⟨hbs sc hsc, hss sc hsc⟩⟩
  · rintro ⟨hts, hss⟩
    exact .node hts (fun sc hsc => (hss sc hsc).1) fun sc hsc => (hss sc hsc).2

/-- Every set of the term keeps its members in order while the patterns of the term move, layer by
layer, into the scope of the layers outside them. -/
inductive InOrder (choose : Scope → Name → Name) : Scope → Term κ → Prop where
  | var (s : Scope) (x : Name) : InOrder choose s (var x)
  | node {s : Scope} {h : κ} {ts : List (Term κ)} {ss : List (Scoped (Term κ))}
      (terms : ∀ e ∈ ts, InOrder choose s e) (binders : ∀ sc ∈ ss, sc.binder.InOrder choose s)
      (bodies : ∀ sc ∈ ss, InOrder choose (sc.binder.moveInto choose s).scope sc.body) :
      InOrder choose s (node h ts ss)

/-- In a term without sets nothing is put in another order. -/
theorem SetFree.inOrder {e : Term κ} (h : e.SetFree) (choose : Scope → Name → Name) (s : Scope) :
    e.InOrder choose s := by
  induction e generalizing s with
  | var x => exact .var s x
  | node hd ts ss ihts ihss =>
    obtain ⟨hts, hss⟩ := allPatterns_node.mp h
    exact .node (fun e he => ihts e he (hts e he) s)
      (fun sc hsc => Pattern.inOrder_of_setFree choose s (hss sc hsc).1)
      fun sc hsc => ihss sc hsc (hss sc hsc).2 _

/-- Fresh names increase, so sets that are replaced by them stay in order. -/
theorem HasRoom.inOrder_fresh {e : Term κ} {s : Scope}
    (h : e.HasRoom (fun before _ => before.fresh) s) :
    e.InOrder (fun before _ => before.fresh) s := by
  induction h with
  | var s x => exact .var s x
  | node _ hbs _ ihts ihss => exact .node ihts (fun sc hsc => (hbs sc hsc).inOrder_fresh) ihss

/-- Every pattern of the term binds distinct names, none of which is in the scope of the layers
outside it. So no name is bound twice on the way from the root to a variable. -/
inductive BindersNew : Scope → Term κ → Prop where
  | var (s : Scope) (x : Name) : BindersNew s (var x)
  | node {s : Scope} {h : κ} {ts : List (Term κ)} {ss : List (Scoped (Term κ))}
      (terms : ∀ e ∈ ts, BindersNew s e) (distinct : ∀ sc ∈ ss, sc.binder.binders.Nodup)
      (new : ∀ sc ∈ ss, ∀ x ∈ sc.binder.binders, x ∉ s)
      (bodies : ∀ sc ∈ ss, BindersNew (s.extendAll sc.binder.binders) sc.body) :
      BindersNew s (node h ts ss)

end Term

end NameBinding
