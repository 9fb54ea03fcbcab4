import NameBinding.Proofs.Shadowing

/-!
# A pattern moved into a scope

Whichever binders are replaced, a pattern without sets keeps its shape and its positions, and its
binders become distinct names outside the scope (`Pattern.MovedTo`, `Pattern.movedTo_moveInto`).
The two ways of moving differ in which binders stay.

* `Pattern.refresh` keeps a binder exactly where neither the scope nor an earlier replacement has it
  (`Pattern.replacements_refresh_kept_iff`). A fresh name that was put for one binder may be a later
  binder, which then has to move as well.
* `Pattern.freshen` replaces all binders by names in increasing order, above the scope
  (`Pattern.pairwise_replacements_fresh`, `Pattern.lt_of_mem_replacements_fresh`).

`Pattern.refresh_freshen_movedTo` is the whole of it.
-/

namespace NameBinding

/-- Every binder was kept if both sides of the record are the same. -/
theorem Moved.unchanged_iff {m : Moved} :
    m.unchanged = true ↔ m.renames.map Prod.fst = m.renames.map Prod.snd := by
  simp [unchanged]

/-- A name stays where only clashing names are replaced, exactly if the scope does not have it. -/
theorem Scope.refresh_eq_self_iff {s : Scope} {x : Name}
    (h : (s.refresh x = x ∧ x ∉ s) ∨ s.HasRoom) : s.refresh x = x ↔ x ∉ s := by
  constructor
  · intro hkeep hx
    have hnew := Pattern.choose_not_mem Scope.refresh_keepsOrDraws h
    rw [hkeep] at hnew
    exact hnew hx
  · intro hx
    exact if_neg fun hmem => hx (contains_iff.mp hmem)

namespace Pattern

/-! ### Positions -/

/-- The record `m` moves the pattern `p` into the scope `s`: position by position, onto distinct
names outside the scope. -/
structure MovedTo (s : Scope) (p : Pattern) (m : Moved) : Prop where
  /-- The binders the pattern had. -/
  sources : m.renames.map Prod.fst = p.binders
  /-- The binders it has now, at the same positions. -/
  targets : m.renames.map Prod.snd = m.pattern.binders
  shape : m.pattern.shape = p.shape
  distinct : m.pattern.binders.Nodup
  new : ∀ x ∈ m.pattern.binders, x ∉ s
  scope : ∀ x, x ∈ m.scope ↔ x ∈ s ∨ x ∈ m.pattern.binders

/-- Moving a pattern without sets moves it position by position onto distinct new names. -/
theorem movedTo_moveInto {choose : Scope → Name → Name} (hchoose : Scope.KeepsOrDraws choose)
    {s : Scope} {p : Pattern} (hp : p.setFree = true) (h : p.HasRoom choose s) :
    MovedTo s p (p.moveInto choose s) := by
  have hbinders := moveInto_binders choose s hp
  refine ⟨moveInto_renames_fst choose s p, ?_, moveInto_shape choose s hp,
    nodup_moveInto_binders hchoose h, ?_, fun x => ?_⟩
  · rw [moveInto_renames, hbinders, List.map_snd_zip (by simp)]
  · rw [hbinders]
    exact replacements_not_mem hchoose h
  · rw [moveInto_scope, hbinders, Scope.mem_extendAll]

/-! ### Binders that stay -/

/-- The binder at a position stays exactly if neither the scope nor an earlier replacement has
it. -/
theorem replacements_refresh_kept_iff {s : Scope} {xs : List Name}
    (h : HasRoomForAll Scope.refresh s xs) {i : Nat} {x c : Name} (hx : xs[i]? = some x)
    (hc : (replacements Scope.refresh s xs)[i]? = some c) :
    c = x ↔ x ∉ s ∧ x ∉ (replacements Scope.refresh s xs).take i := by
  induction xs generalizing s i with
  | nil => cases hx
  | cons y ys ih =>
    obtain ⟨hy, hys⟩ := h
    cases i with
    | zero =>
      obtain rfl : y = x := Option.some.inj hx
      obtain rfl : s.refresh y = c := Option.some.inj hc
      rw [Scope.refresh_eq_self_iff hy, List.take_zero]
      simp
    | succ i =>
      -- the first replacement is in the scope from which the others are chosen
      rw [replacements, List.take_succ_cons, List.mem_cons, not_or, ih hys hx hc,
        Scope.mem_extend, not_or, and_assoc]
      exact and_left_comm

/-- All binders stay exactly if they are distinct and outside the scope. -/
theorem unchanged_refresh_iff {s : Scope} {p : Pattern} (h : MovedTo s p (p.refresh s)) :
    (p.refresh s).unchanged = true ↔ p.binders.Nodup ∧ p.clashes s = false := by
  have hclash : p.clashes s = false ↔ ∀ x ∈ p.binders, x ∉ s := by
    rw [← Bool.not_eq_true, clashes_iff]
    simp
  rw [Moved.unchanged_iff, h.sources, h.targets, hclash]
  constructor
  · intro heq
    rw [heq]
    exact ⟨h.distinct, h.new⟩
  · rintro ⟨hnodup, hnew⟩
    have hsettled : p.Settled Scope.refresh s := replacements_refresh_of_new hnodup hnew
    exact (congrArg binders hsettled.moveInto_pattern).symm

/-- If all binders stay, so does the pattern. -/
theorem MovedTo.pattern_eq {s : Scope} {p : Pattern} {m : Moved} (h : MovedTo s p m)
    (hunchanged : m.unchanged = true) : m.pattern = p := by
  have hbinders := Moved.unchanged_iff.mp hunchanged
  rw [h.sources, h.targets] at hbinders
  exact ext h.shape hbinders.symm

/-- **Moving a pattern keeps its positions and ends all clashes.** Let `p` be without sets; its
binders may be repeated. Where clashing binders only are replaced and no draw wraps, `p` moves into
the scope position by position, and the binder at a position stays exactly if neither the scope nor
an earlier replacement has it. All binders stay exactly if they are distinct and none clashes, and
the pattern is then the same. Where all binders are replaced and no draw wraps, `p` moves into the
scope position by position, onto names in increasing order above all names of the scope. -/
theorem refresh_freshen_movedTo (s : Scope) (p : Pattern) (hp : p.setFree = true) :
    (p.HasRoom Scope.refresh s →
      MovedTo s p (p.refresh s) ∧
      (∀ (i : Nat) (x c : Name), p.binders[i]? = some x →
        (p.refresh s).pattern.binders[i]? = some c →
        (c = x ↔ x ∉ s ∧ x ∉ (p.refresh s).pattern.binders.take i)) ∧
      ((p.refresh s).unchanged = true ↔ p.binders.Nodup ∧ p.clashes s = false) ∧
      ((p.refresh s).unchanged = true → (p.refresh s).pattern = p)) ∧
    (s.HasRoomFor p.size →
      MovedTo s p (p.freshen s) ∧
      (p.freshen s).pattern.binders.Pairwise (· < ·) ∧
      ∀ c ∈ (p.freshen s).pattern.binders, ∀ x ∈ s, x < c) := by
  constructor
  · intro hroom
    have hmoved : MovedTo s p (p.refresh s) := movedTo_moveInto Scope.refresh_keepsOrDraws hp hroom
    have hbinders : (p.refresh s).pattern.binders = _ := moveInto_binders Scope.refresh s hp
    refine ⟨hmoved, ?_, unchanged_refresh_iff hmoved, hmoved.pattern_eq⟩
    rw [hbinders]
    intro i x c hx hc
    exact replacements_refresh_kept_iff hroom hx hc
  · intro hroom
    have hbinders : (p.freshen s).pattern.binders = _ :=
      moveInto_binders (fun before _ => before.fresh) s hp
    refine ⟨movedTo_moveInto Scope.fresh_keepsOrDraws hp (hasRoomForAll_fresh hroom), ?_, ?_⟩
    · rw [hbinders]
      exact pairwise_replacements_fresh hroom
    · rw [hbinders]
      exact lt_of_mem_replacements_fresh hroom

/-- A pattern that binds `1`, `5` and `2`. -/
def oneFiveTwo : Pattern := .pair (.list [1, 5]) (.single 2)

/-- In a scope with `1` and `4` the binder `1` is replaced by `5`. The second binder is `5` itself
and has to move on to `6`, and `2` stays. If all are replaced they become `5`, `6` and `7`. -/
theorem refresh_freshen_oneFiveTwo :
    (oneFiveTwo.refresh (Scope.empty.extendAll [1, 4])).pattern =
        .pair (.list [5, 6]) (.single 2) ∧
      (oneFiveTwo.refresh (Scope.empty.extendAll [1, 4])).unchanged = false ∧
      (oneFiveTwo.freshen (Scope.empty.extendAll [1, 4])).pattern =
        .pair (.list [5, 6]) (.single 7) ∧
      MovedTo (Scope.empty.extendAll [1, 4]) oneFiveTwo
        (oneFiveTwo.freshen (Scope.empty.extendAll [1, 4])) := by
  obtain ⟨hrefresh, hfreshen⟩ :=
    refresh_freshen_movedTo (Scope.empty.extendAll [1, 4]) oneFiveTwo rfl
  obtain ⟨-, -, hunchanged, -⟩ := hrefresh (by decide)
  refine ⟨rfl, ?_, rfl, (hfreshen (by decide)).1⟩
  rw [← Bool.not_eq_true, hunchanged]
  rintro ⟨-, hclash⟩
  cases hclash

end Pattern

end NameBinding
