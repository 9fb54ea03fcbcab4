import NameBinding.Proofs.Extensionality

/-!
# Merging renamings

A merged renaming moves what either part moves, to the same place (`Renaming.target?_of_merge`), so
it is the identity only if both parts are (`Renaming.isIdentity_of_merge`). Entries for distinct
names that do not move yet never disagree with what is there (`Renaming.exists_mergeSingles`).
-/

namespace NameBinding

/-- A function that sends each item of a list to the item beside it sends the list to the other. -/
theorem map_eq_of_forall_mem_zip {α β : Type} {f : α → β} :
    {xs : List α} → {ys : List β} → xs.length = ys.length →
      (∀ e ∈ xs.zip ys, f e.1 = e.2) → xs.map f = ys
  | [], [], _, _ => rfl
  | [], _ :: _, h, _ => by simp at h
  | _ :: _, [], h, _ => by simp at h
  | x :: xs, y :: ys, hlen, h => by
      have hrest : xs.map f = ys := by
        apply map_eq_of_forall_mem_zip (by simpa using hlen)
        intro e he
        exact h e (List.mem_cons_of_mem _ he)
      rw [List.map_cons, hrest, h (x, y) List.mem_cons_self]

namespace Renaming

/-- A renaming has no entry for a name that stays. -/
theorem target?_eq_none_of_apply {r : Renaming} {x : Name} (h : r.apply x = x) :
    r.target? x = none := by
  rcases hx : r.target? x with _ | y
  · rfl
  · unfold apply at h
    rw [hx, Option.getD_some] at h
    exact absurd h.symm (ne_of_target? hx)

/-- Renamings with the same entry for a name send it to the same name. -/
theorem apply_of_target?_eq {r q : Renaming} {x : Name} (h : r.target? x = q.target? x) :
    r.apply x = q.apply x := by
  unfold apply
  rw [h]

/-- The identity is the renaming without entries. -/
theorem isIdentity_iff_target? {r : Renaming} : r.isIdentity = true ↔ ∀ x, r.target? x = none := by
  rw [isIdentity_iff]
  constructor
  · rintro rfl x
    rfl
  · intro h
    apply Renaming.ext
    intro x
    rw [h x, target?_identity]

/-- A renaming that sends the names of a list to those of another, and fixes all else, is the
identity exactly when the two lists are one. -/
theorem eq_identity_iff {r : Renaming} {bs cs : List Name} (hmap : bs.map r.apply = cs)
    (hout : ∀ x, x ∉ bs → r.apply x = x) : r = .identity ↔ cs = bs := by
  rw [← isIdentity_iff, isIdentity_iff_target?]
  constructor
  · intro hid
    rw [← hmap]
    exact List.map_id'' (fun x => by simp [apply, hid x]) bs
  · intro hcs x
    apply target?_eq_none_of_apply
    by_cases hx : x ∈ bs
    · have hfix : bs.map r.apply = bs.map id := by rw [hmap, hcs, List.map_id]
      exact List.map_inj_left.mp hfix x hx
    · exact hout x hx

/-! ### Both parts at once -/

/-- Merging keeps every entry of both sides. -/
theorem target?_of_mergeEntries : (es : List (Name × Name)) → (hes : ∀ e ∈ es, e.1 ≠ e.2) →
    (r t : Renaming) → r.mergeEntries es hes = .ok t →
      ∀ z, t.target? z = (r.target? z).or (es.lookup z)
  | [], _, r, t, h, z => by
      cases h
      simp
  | (x, y) :: es, hes, r, t, h, z => by
      unfold mergeEntries at h
      rw [lookup_cons_ite]
      split at h
      · rename_i w hw
        split at h
        · rename_i hwy
          rw [target?_of_mergeEntries es _ r t h z]
          by_cases hz : z = x
          · simp [hz, hw]
          · simp [hz]
        · cases h
      · rename_i hx
        rw [target?_of_mergeEntries es _ _ t h z, target?_addNew]
        by_cases hz : z = x
        · simp [hz, hx]
        · simp [hz]

/-- A merge sends a name where the first renaming does, or else where the second does. -/
theorem target?_of_merge {r q t : Renaming} (h : r.merge q = .ok t) (z : Name) :
    t.target? z = (r.target? z).or (q.target? z) :=
  target?_of_mergeEntries q.entries.toList q.moves r t h z

/-- Two renamings together move nothing only if neither does. -/
theorem isIdentity_of_merge {r q t : Renaming} (h : r.merge q = .ok t) :
    t.isIdentity = (r.isIdentity && q.isIdentity) := by
  rw [Bool.eq_iff_iff, Bool.and_eq_true, isIdentity_iff_target?, isIdentity_iff_target?,
    isIdentity_iff_target?]
  simp only [target?_of_merge h, Option.or_eq_none_iff, forall_and]

/-! ### One entry at a time -/

/-- An entry for a name that does not move yet can always be merged. -/
theorem exists_merge_single {r : Renaming} {x : Name} (h : r.target? x = none) (y : Name) :
    ∃ q, r.merge (.single x y) = .ok q := by
  by_cases hxy : x = y
  · refine ⟨r, ?_⟩
    unfold single
    rw [dif_pos hxy]
    rfl
  · refine ⟨r.addNew x y hxy, ?_⟩
    have hsingle : (single x y).entries.toList = [(x, y)] := by
      unfold single
      rw [dif_neg hxy]
      rfl
    unfold merge
    simp only [hsingle, mergeEntries, h]

/-- Entries merged into a renaming one after the other. -/
def mergeSingles (r : Renaming) (es : List (Name × Name)) : Except Error Renaming :=
  es.foldlM (fun q e => q.merge (.single e.1 e.2)) r

/-- Entries for distinct names that do not move yet can be merged one after the other. -/
theorem exists_mergeSingles : (es : List (Name × Name)) → (es.map Prod.fst).Nodup →
    (r : Renaming) → (∀ x ∈ es.map Prod.fst, r.target? x = none) →
      ∃ q, r.mergeSingles es = .ok q ∧ (∀ e ∈ es, q.apply e.1 = e.2) ∧
        ∀ z, z ∉ es.map Prod.fst → q.target? z = r.target? z
  | [], _, r, _ => ⟨r, rfl, by simp, fun _ _ => rfl⟩
  | (x, y) :: es, hnd, r, hr => by
      obtain ⟨hx, hes⟩ := List.nodup_cons.mp hnd
      have hrx : r.target? x = none := hr x List.mem_cons_self
      obtain ⟨r', hmerge⟩ := exists_merge_single hrx y
      have htarget : ∀ z, z ≠ x → r'.target? z = r.target? z := by
        intro z hz
        rw [target?_of_merge hmerge, target?_single, if_neg fun h => hz h.1, Option.or_none]
      have hr' : ∀ z ∈ es.map Prod.fst, r'.target? z = none := by
        intro z hz
        rw [htarget z fun h => hx (h ▸ hz)]
        exact hr z (List.mem_cons_of_mem _ hz)
      obtain ⟨q, hfold, happly, hout⟩ := exists_mergeSingles es hes r' hr'
      refine ⟨q, ?_, ?_, ?_⟩
      · unfold mergeSingles
        rw [List.foldlM_cons, hmerge]
        exact hfold
      · intro e he
        rcases List.mem_cons.mp he with rfl | he
        · unfold apply
          rw [hout x hx, target?_of_merge hmerge, hrx, target?_single]
          by_cases hxy : x = y <;> simp [hxy]
        · exact happly e he
      · intro z hz
        obtain ⟨hzx, hzes⟩ : z ≠ x ∧ z ∉ es.map Prod.fst := by simpa [List.mem_cons] using hz
        rw [hout z hzes, htarget z hzx]

end Renaming

end NameBinding
