import Mathlib.Tactic.Ring
import NameBinding.Proofs.Freshening
import NameBinding.Proofs.NameBounds

/-!
# Comparing terms decides equality of nameless forms

The comparison works on renamed bodies, so nothing about it can be shown for one fixed reading of
the names. What is shown is that at every point of a run, in a scope whose names the current reading
tells apart, comparing two well-formed terms decides whether their nameless forms in this reading
are equal (`Term.alphaEquiv_decides`). Sets may stand in outermost patterns, which are compared
before anything is renamed (`Term.Comparable.alphaEquiv_decides`).

One step inside goes through the targets `cs` on which two patterns line up. Renaming either body
onto them keeps its nameless form, from the reading inside its own pattern to the reading inside
`cs` (`Pattern.LinesUp.follows_left`, `Pattern.LinesUp.follows_right`), and the latter tells the
names of the inner scope apart (`Reading.Separates.enter`).

All of this holds of runs in which no draw wraps (`Term.AlphaEquivHasRoom`). Each layer may enlarge
the names by the number of binders that are left, on either side, so a run stays clear of wrapping
when the square of that number still fits (`Term.alphaEquivHasRoom_of_below`).
`Term.alphaEquiv_iff_nameless` puts the two together, and adds the comparison of fresh choices.
-/

namespace NameBinding

/-! ### Readings that tell names apart -/

/-- The reading tells the names of the scope apart. -/
def Reading.Separates (ρ : Reading) (s : Scope) : Prop :=
  ∀ x ∈ s, ∀ y ∈ s, ρ x = ρ y → x = y

/-- At the top every name stands for itself, so no two are confused. -/
theorem Reading.top_separates (s : Scope) : top.Separates s :=
  fun _ _ _ _ h => Occurrence.free.inj h

/-- Inside a pattern the names of the scope and the binders are told apart. -/
theorem Reading.Separates.enter {ρ : Reading} {s s' : Scope} {cs : List Name}
    (h : ρ.Separates s) (hs' : ∀ x ∈ s', x ∈ s ∨ x ∈ cs) : (ρ.enter cs).Separates s' := by
  intro x hx y hy heq
  rcases enter_eq_enter heq with ⟨i, hxi, hyi⟩ | ⟨hxc, hyc, hreads⟩
  · have hx' := Name.getElem?_of_lastPosition? hxi
    rw [Name.getElem?_of_lastPosition? hyi] at hx'
    exact (Option.some.inj hx').symm
  · exact h x ((hs' x hx).resolve_right hxc) y ((hs' y hy).resolve_right hyc) hreads

/-! ### Bodies renamed onto the targets -/

/-- Renaming the binders of one side onto targets that capture nothing follows the names of the
body. -/
theorem Term.follows_of_targets {κ : Type} {s inner : Scope} {q : Renaming} {bs cs : List Name}
    {body : Term κ} (ρ : Reading) (hmap : bs.map q.apply = cs)
    (hfix : ∀ x, x ∉ bs → q.apply x = x) (hnd : cs.Nodup) (hout : ∀ c ∈ cs, c ∈ s → c ∈ bs)
    (hinner : ∀ x, x ∈ inner ↔ x ∈ s ∨ x ∈ cs)
    (hbody : ∀ x ∈ body.freeNames, x ∈ s.extendAll bs) :
    Follows inner q (ρ.enter bs) (ρ.enter cs) body := by
  intro x hx
  by_cases hxb : x ∈ bs
  · subst hmap
    refine ⟨(hinner _).mpr (Or.inr (List.mem_map_of_mem hxb)), ?_⟩
    exact Reading.enter_map_of_mem hnd hxb ρ ρ
  · have hxs : x ∈ s := (Scope.mem_extendAll.mp (hbody x hx)).resolve_right hxb
    have hxc : x ∉ cs := fun hc => hxb (hout x hc hxs)
    rw [hfix x hxb, Reading.enter_of_not_mem hxc, Reading.enter_of_not_mem hxb]
    exact ⟨(hinner x).mpr (Or.inl hxs), rfl⟩

namespace Pattern.LinesUp

variable {κ : Type} {s : Scope} {l r : Pattern} {u : Unifier} {cs : List Name}

/-- The scope that the bodies are compared in has the names outside and the targets. -/
theorem mem_inner (h : LinesUp s l r u cs) (x : Name) :
    x ∈ s.extendAll u.binders.toList ↔ x ∈ s ∨ x ∈ cs := by
  rw [Scope.mem_extendAll]
  exact or_congr_right (h.binders x)

/-- The left body follows its renaming onto the common binders. -/
theorem follows_left (h : LinesUp s l r u cs) (ρ : Reading) {body : Term κ}
    (hbody : body.WellFormed (s.extendAll l.binders)) :
    body.Follows (s.extendAll u.binders.toList) u.left (ρ.enter l.binders) (ρ.enter cs) := by
  refine Term.follows_of_targets ρ h.left h.left_fixes h.nodup ?_ h.mem_inner hbody.inScope
  intro c hc hcs
  obtain ⟨i, hi⟩ := List.getElem?_of_mem hc
  exact List.mem_of_getElem? (h.outside i c hi hcs).1

/-- The right body follows its renaming onto the common binders. -/
theorem follows_right (h : LinesUp s l r u cs) (ρ : Reading) {body : Term κ}
    (hbody : body.WellFormed (s.extendAll r.binders)) :
    body.Follows (s.extendAll u.binders.toList) u.right (ρ.enter r.binders) (ρ.enter cs) := by
  refine Term.follows_of_targets ρ h.right h.right_fixes h.nodup ?_ h.mem_inner hbody.inScope
  intro c hc hcs
  obtain ⟨i, hi⟩ := List.getElem?_of_mem hc
  exact List.mem_of_getElem? (h.outside i c hi hcs).2

end Pattern.LinesUp

/-! ### Answers -/

/-- The computation returns an answer, and the answer is whether `P` holds. -/
def Decides (x : Except Error Bool) (P : Prop) : Prop := ∃ b, x = .ok b ∧ (b = true ↔ P)

/-- An answer decides what it is equivalent to. -/
theorem Decides.ok {b : Bool} {P : Prop} (h : b = true ↔ P) : Decides (.ok b) P := ⟨b, rfl, h⟩

/-- What decides a statement decides every equivalent one. -/
theorem Decides.congr {x : Except Error Bool} {P Q : Prop} (h : Decides x P) (hPQ : P ↔ Q) :
    Decides x Q := by
  obtain ⟨b, hb, hP⟩ := h
  exact ⟨b, hb, hP.trans hPQ⟩

/-- Answering two questions one after the other, the second only where the first was answered
yes. -/
theorem Decides.and {x y : Except Error Bool} {P Q : Prop} (hx : Decides x P)
    (hy : x = .ok true → Decides y Q) :
    Decides (do if ← x then y else return false) (P ∧ Q) := by
  obtain ⟨b, rfl, hP⟩ := hx
  cases b with
  | true =>
    obtain ⟨c, hc, hQ⟩ := hy rfl
    refine ⟨c, hc, ?_⟩
    rw [hQ, ← hP]
    simp
  | false =>
    refine ⟨false, rfl, ?_⟩
    rw [← hP]
    simp

namespace Term

variable {κ : Type}

/-! ### Terms that can be compared -/

/-- A scoped term whose pattern repeats no binder, but may have sets, and whose body is well formed
inside the pattern. -/
structure ComparableScoped (s : Scope) (sc : Scoped (Term κ)) : Prop where
  nodup : sc.binder.binders.Nodup
  body : sc.body.WellFormed (s.extendAll sc.binder.binders)

/-- A term that is well formed but for sets in its outermost patterns. These are lined up where they
stand; further inside patterns are renamed first, and a set may fall out of order. -/
inductive Comparable (s : Scope) : Term κ → Prop where
  | var {x : Name} (hx : x ∈ s) : Comparable s (var x)
  | node {h : κ} {ts : List (Term κ)} {ss : List (Scoped (Term κ))}
      (terms : ∀ e ∈ ts, Comparable s e) (scopes : ∀ sc ∈ ss, ComparableScoped s sc) :
      Comparable s (node h ts ss)

/-- Scoped terms without sets can be compared. -/
theorem WellFormedScoped.comparable {s : Scope} {sc : Scoped (Term κ)}
    (h : WellFormedScoped s sc) : ComparableScoped s sc :=
  ⟨h.nodup, h.body⟩

/-- Terms without sets can be compared. -/
theorem WellFormed.comparable {s : Scope} {e : Term κ} (h : e.WellFormed s) : e.Comparable s := by
  induction e with
  | var x => exact .var (h.inScope x (mem_freeNames_var.mpr rfl))
  | node hd ts ss ihts _ =>
    obtain ⟨hts, hss⟩ := wellFormed_node.mp h
    exact .node (fun e he => ihts e he (hts e he)) fun sc hsc => (hss sc hsc).comparable

/-! ### Names that are small enough -/

/-- Names below `B` are small enough for comparing terms that have `k` binders together. -/
def SmallEnough (B k : Nat) : Prop := B + k * k ≤ UInt64.size

instance (B k : Nat) : Decidable (SmallEnough B k) := inferInstanceAs (Decidable (_ ≤ _))

/-- A bound that suffices for `k` binders suffices for fewer. -/
theorem SmallEnough.mono {B k j : Nat} (h : SmallEnough B k) (hjk : j ≤ k) : SmallEnough B j := by
  have hsq : j * j ≤ k * k := Nat.mul_self_le_mul_self hjk
  unfold SmallEnough at *
  omega

/-- A bound that suffices for `k` binders leaves room for one draw for each of them. -/
theorem SmallEnough.add_le {B k : Nat} (h : SmallEnough B k) : B + k ≤ UInt64.size := by
  have hsq : k ≤ k * k := Nat.le_mul_self k
  unfold SmallEnough at h
  omega

/-- One step inside costs a name for each pair of binders and a name for each binder further inside.
The square leaves enough for comparing the bodies. -/
theorem SmallEnough.inside {B n k : Nat} (h : SmallEnough B (n + n + k)) (hn : 0 < n) :
    SmallEnough (B + n + k) k := by
  have hnn : n ≤ n * n := Nat.le_mul_of_pos_left n hn
  have hnk : k ≤ n * k := Nat.le_mul_of_pos_left k hn
  have hexpand : (n + n + k) * (n + n + k) = 4 * (n * n) + 4 * (n * k) + k * k := by ring
  unfold SmallEnough at *
  omega

/-- One step inside, both bodies are renamed without wrapping and are small enough for the
comparison to go on. Patterns without binders cost nothing. -/
theorem exists_smallEnough_inside {s : Scope} {l r : Scoped (Term κ)} {u : Unifier} {B : Nat}
    (hl : ComparableScoped s l) (hr : ComparableScoped s r)
    (hshape : l.binder.shape = r.binder.shape)
    (hlines : Pattern.LinesUp s l.binder r.binder u (l.binder.targets s r.binder))
    (hs : s.Below B) (hlB : (∀ x ∈ l.binder.binders, x.toNat < B) ∧ l.body.NamesBelow B)
    (hrB : (∀ x ∈ r.binder.binders, x.toNat < B) ∧ r.body.NamesBelow B)
    (hB : SmallEnough B (l.binder.binders.length + l.binder.binders.length +
      (l.body.binderCount + r.body.binderCount))) :
    ∃ C, (s.extendAll u.binders.toList).Below C ∧
      SmallEnough C (l.body.binderCount + r.body.binderCount) ∧
      RenamesBelow (s.extendAll u.binders.toList) u.left l.body C ∧
      RenamesBelow (s.extendAll u.binders.toList) u.right r.body C := by
  have hlen := Pattern.length_binders_of_shape hshape
  have htargets := Pattern.targets_below hs hlB.1 hrB.1 hshape
  have hinner : (s.extendAll u.binders.toList).Below (B + l.binder.binders.length) := by
    refine (hs.mono (Nat.le_add_right _ _)).extendAll ?_
    exact fun x hx => htargets x ((hlines.binders x).mp hx)
  rcases Nat.eq_zero_or_pos l.binder.binders.length with hn | hn
  · have hlnil := List.length_eq_zero_iff.mp hn
    have hrnil := List.length_eq_zero_iff.mp (hlen ▸ hn)
    have htwins := hlines.twins (hlnil.trans hrnil.symm)
    have hleft := (Renaming.eq_identity_iff hlines.left hlines.left_fixes).mpr htwins
    have hright := (Renaming.eq_identity_iff hlines.right hlines.right_fixes).mpr
      (htwins.trans (hlnil.trans hrnil.symm))
    rw [hleft, hright]
    rw [hn] at hinner hB
    exact ⟨B, hinner, hB.mono (by omega), renamesBelow_identity hlB.2, renamesBelow_identity hrB.2⟩
  · have hinside := hB.inside hn
    have hsize := hinside.add_le
    have hleft := Renaming.targetsBelow_of_map hlines.left hlines.left_fixes htargets
    have hright := Renaming.targetsBelow_of_map hlines.right hlines.right_fixes htargets
    refine ⟨_, hinner.mono (Nat.le_add_right _ _), hinside, ?_, ?_⟩
    · exact hl.body.renamesBelow hinner (hlB.2.mono (Nat.le_add_right _ _)) hleft (by omega)
        (by omega)
    · exact hr.body.renamesBelow hinner (hrB.2.mono (Nat.le_add_right _ _)) hright (by omega)
        (by omega)

variable [DecidableEq κ]

/-! ### Runs without wrapping -/

mutual

/-- No draw wraps while two terms are compared. What the comparison does not come to does not
count. -/
def AlphaEquivHasRoom (s : Scope) (l r : Term κ) : Prop :=
  match l, r with
  | node h ts ss, node h' ts' ss' =>
    h = h' ∧ ts.length = ts'.length ∧ ss.length = ss'.length →
      TermsHaveRoom s ts ts' ∧ (alphaEquivTerms s ts ts' = .ok true → ScopesHaveRoom s ss ss')
  | _, _ => True
termination_by 3 * l.size
decreasing_by
  all_goals simp only [size]; omega

/-- No draw wraps while plain children are compared. -/
def TermsHaveRoom (s : Scope) (ls rs : List (Term κ)) : Prop :=
  match ls, rs with
  | l :: ls, r :: rs =>
    AlphaEquivHasRoom s l r ∧ (alphaEquiv s l r = .ok true → TermsHaveRoom s ls rs)
  | _, _ => True
termination_by 3 * sizeTerms ls + 2
decreasing_by
  all_goals have := size_pos l; simp only [sizeTerms]; omega

/-- No draw wraps while two scoped terms are compared: neither when their patterns are lined up, nor
when the bodies are renamed, nor when the renamed bodies are compared. -/
def ScopedHasRoom (s : Scope) (l r : Scoped (Term κ)) : Prop :=
  l.binder.UnifyHasRoom s r.binder ∧
    ∀ u, l.binder.unify s r.binder = .ok u → u.kind ≠ .notUnifiable →
      RenameHasRoom (s.extendAll u.binders.toList) u.left l.body ∧
      RenameHasRoom (s.extendAll u.binders.toList) u.right r.body ∧
      ∀ lb rb, rename (s.extendAll u.binders.toList) u.left l.body = .ok lb →
        rename (s.extendAll u.binders.toList) u.right r.body = .ok rb →
        AlphaEquivHasRoom (s.extendAll u.binders.toList) lb rb
termination_by 3 * l.body.size + 1
decreasing_by
  rw [size_of_rename _ _ _ ‹rename _ u.left _ = _›]
  omega

/-- No draw wraps while scoped children are compared. -/
def ScopesHaveRoom (s : Scope) (ls rs : List (Scoped (Term κ))) : Prop :=
  match ls, rs with
  | l :: ls, r :: rs =>
    ScopedHasRoom s l r ∧ (alphaEquivScoped s l r = .ok true → ScopesHaveRoom s ls rs)
  | _, _ => True
termination_by 3 * sizeScopes ls + 2
decreasing_by
  all_goals have := size_pos l.body; simp only [sizeScopes]; omega

end

mutual

/-- No draw wraps while two terms are compared whose names are small enough. -/
theorem Comparable.alphaEquivHasRoom_of_below {s : Scope} {B : Nat} (l r : Term κ)
    (hl : l.Comparable s) (hr : r.Comparable s) (hs : s.Below B) (hlB : l.NamesBelow B)
    (hrB : r.NamesBelow B) (hB : SmallEnough B (l.binderCount + r.binderCount)) :
    AlphaEquivHasRoom s l r :=
  match l, r with
  | var _, var _ => by simp [AlphaEquivHasRoom]
  | var _, node _ _ _ => by simp [AlphaEquivHasRoom]
  | node _ _ _, var _ => by simp [AlphaEquivHasRoom]
  | node h ts ss, node h' ts' ss' => by
      rcases hl with _ | ⟨hlts, hlss⟩
      rcases hr with _ | ⟨hrts, hrss⟩
      obtain ⟨hltsB, hlssB⟩ := namesBelow_node.mp hlB
      obtain ⟨hrtsB, hrssB⟩ := namesBelow_node.mp hrB
      rw [binderCount, binderCount] at hB
      rw [AlphaEquivHasRoom]
      intro _
      have hts := termsHaveRoom_of_below ts ts' hlts hrts hs hltsB hrtsB (hB.mono (by omega))
      have hss := scopesHaveRoom_of_below ss ss' hlss hrss hs hlssB hrssB (hB.mono (by omega))
      exact ⟨hts, fun _ => hss⟩
termination_by 3 * l.size
decreasing_by
  all_goals simp only [size]; omega

/-- Plain children are compared without wrapping if names and binders are few enough. -/
theorem termsHaveRoom_of_below {s : Scope} {B : Nat} (ls rs : List (Term κ))
    (hl : ∀ e ∈ ls, e.Comparable s) (hr : ∀ e ∈ rs, e.Comparable s) (hs : s.Below B)
    (hlB : ∀ e ∈ ls, e.NamesBelow B) (hrB : ∀ e ∈ rs, e.NamesBelow B)
    (hB : SmallEnough B (binderCountTerms ls + binderCountTerms rs)) : TermsHaveRoom s ls rs :=
  match ls, rs with
  | [], _ => by simp [TermsHaveRoom]
  | _ :: _, [] => by simp [TermsHaveRoom]
  | l :: ls, r :: rs => by
      obtain ⟨hl, hls⟩ := List.forall_mem_cons.mp hl
      obtain ⟨hr, hrs⟩ := List.forall_mem_cons.mp hr
      obtain ⟨hlB, hlsB⟩ := List.forall_mem_cons.mp hlB
      obtain ⟨hrB, hrsB⟩ := List.forall_mem_cons.mp hrB
      rw [binderCountTerms, binderCountTerms] at hB
      rw [TermsHaveRoom]
      have hhead := Comparable.alphaEquivHasRoom_of_below l r hl hr hs hlB hrB (hB.mono (by omega))
      have hrest := termsHaveRoom_of_below ls rs hls hrs hs hlsB hrsB (hB.mono (by omega))
      exact ⟨hhead, fun _ => hrest⟩
termination_by 3 * sizeTerms ls + 2
decreasing_by
  all_goals have := size_pos l; simp only [sizeTerms]; omega

/-- Scoped terms are compared without wrapping if names and binders are few enough. The bodies are
compared with a bound that has grown by the draws for the patterns. -/
theorem scopedHasRoom_of_below {s : Scope} {B : Nat} (l r : Scoped (Term κ))
    (hl : ComparableScoped s l) (hr : ComparableScoped s r) (hs : s.Below B)
    (hlB : (∀ x ∈ l.binder.binders, x.toNat < B) ∧ l.body.NamesBelow B)
    (hrB : (∀ x ∈ r.binder.binders, x.toNat < B) ∧ r.body.NamesBelow B)
    (hB : SmallEnough B (l.binder.binders.length + l.body.binderCount +
      (r.binder.binders.length + r.body.binderCount))) : ScopedHasRoom s l r := by
  rw [ScopedHasRoom]
  have hsize := hB.add_le
  have hunify := Pattern.unifyHasRoom_of_below hs hlB.1 hrB.1 (by omega)
  refine ⟨hunify, ?_⟩
  intro u hu hkind
  by_cases hshape : l.binder.shape = r.binder.shape
  · obtain ⟨u', hu', hlines⟩ := Pattern.exists_linesUp hl.nodup hr.nodup hshape hunify
    have huu : u' = u := Except.ok.inj (hu'.symm.trans hu)
    subst huu
    have hlen := Pattern.length_binders_of_shape hshape
    obtain ⟨C, hinner, hC, hleft, hright⟩ := exists_smallEnough_inside hl hr hshape hlines hs
      hlB hrB (hB.mono (by omega))
    refine ⟨hleft.hasRoom, hright.hasRoom, ?_⟩
    intro lb rb hlb hrb
    have hwl := wellFormed_rename l.body hlb hl.body.setFree hl.body.distinct hleft.hasRoom
      (hlines.follows_left .top hl.body)
    have hwr := wellFormed_rename r.body hrb hr.body.setFree hr.body.distinct hright.hasRoom
      (hlines.follows_right .top hr.body)
    have hkl := binderCount_rename l.body hlb hl.body.setFree
    have hkr := binderCount_rename r.body hrb hr.body.setFree
    refine Comparable.alphaEquivHasRoom_of_below lb rb hwl.comparable hwr.comparable hinner
      (hleft.namesBelow lb hlb) (hright.namesBelow rb hrb) ?_
    rwa [hkl, hkr]
  · rw [Pattern.unify_eq_of_shape_ne hshape] at hu
    cases hu
    exact absurd rfl hkind
termination_by 3 * l.body.size + 1
decreasing_by
  rw [size_of_rename _ _ _ hlb]
  omega

/-- Scoped children are compared without wrapping if names and binders are few enough. -/
theorem scopesHaveRoom_of_below {s : Scope} {B : Nat} (ls rs : List (Scoped (Term κ)))
    (hl : ∀ sc ∈ ls, ComparableScoped s sc) (hr : ∀ sc ∈ rs, ComparableScoped s sc)
    (hs : s.Below B)
    (hlB : ∀ sc ∈ ls, (∀ x ∈ sc.binder.binders, x.toNat < B) ∧ sc.body.NamesBelow B)
    (hrB : ∀ sc ∈ rs, (∀ x ∈ sc.binder.binders, x.toNat < B) ∧ sc.body.NamesBelow B)
    (hB : SmallEnough B (binderCountScopes ls + binderCountScopes rs)) : ScopesHaveRoom s ls rs :=
  match ls, rs with
  | [], _ => by simp [ScopesHaveRoom]
  | _ :: _, [] => by simp [ScopesHaveRoom]
  | l :: ls, r :: rs => by
      obtain ⟨hl, hls⟩ := List.forall_mem_cons.mp hl
      obtain ⟨hr, hrs⟩ := List.forall_mem_cons.mp hr
      obtain ⟨hlB, hlsB⟩ := List.forall_mem_cons.mp hlB
      obtain ⟨hrB, hrsB⟩ := List.forall_mem_cons.mp hrB
      rw [binderCountScopes, binderCountScopes] at hB
      rw [ScopesHaveRoom]
      have hhead := scopedHasRoom_of_below l r hl hr hs hlB hrB (hB.mono (by omega))
      have hrest := scopesHaveRoom_of_below ls rs hls hrs hs hlsB hrsB (hB.mono (by omega))
      exact ⟨hhead, fun _ => hrest⟩
termination_by 3 * sizeScopes ls + 2
decreasing_by
  all_goals have := size_pos l.body; simp only [sizeScopes]; omega

end

/-- Well-formed terms are compared without wrapping if names and binders are few enough. -/
theorem alphaEquivHasRoom_of_below {s : Scope} {B : Nat} (l r : Term κ) (hl : l.WellFormed s)
    (hr : r.WellFormed s) (hs : s.Below B) (hlB : l.NamesBelow B) (hrB : r.NamesBelow B)
    (hB : SmallEnough B (l.binderCount + r.binderCount)) : AlphaEquivHasRoom s l r :=
  Comparable.alphaEquivHasRoom_of_below l r hl.comparable hr.comparable hs hlB hrB hB

/-! ### The comparison answers -/

/-- Scoped terms whose patterns line up are compared by comparing the renamed bodies. -/
theorem alphaEquivScoped_of_linesUp {s : Scope} {l r : Scoped (Term κ)} {u : Unifier}
    {lb rb : Term κ} (hu : l.binder.unify s r.binder = .ok u) (hkind : u.kind ≠ .notUnifiable)
    (hlb : rename (s.extendAll u.binders.toList) u.left l.body = .ok lb)
    (hrb : rename (s.extendAll u.binders.toList) u.right r.body = .ok rb) :
    alphaEquivScoped s l r = alphaEquiv (s.extendAll u.binders.toList) lb rb := by
  rw [alphaEquivScoped_eq, hu]
  simp only [bind, Except.bind, if_neg hkind, hrb, hlb]

mutual

/-- Comparing two terms that can be compared, in a scope whose names are told apart, decides whether
their nameless forms are equal. -/
theorem Comparable.alphaEquiv_decides {s : Scope} {ρ : Reading} (l r : Term κ)
    (hl : l.Comparable s) (hr : r.Comparable s) (hρ : ρ.Separates s)
    (hroom : AlphaEquivHasRoom s l r) :
    Decides (alphaEquiv s l r) (l.namelessIn ρ = r.namelessIn ρ) :=
  match l, r with
  | var x, var y => by
      rcases hl with hx | _
      rcases hr with hy | _
      rw [alphaEquiv, namelessIn, namelessIn, Nameless.leaf.injEq]
      apply Decides.ok
      rw [beq_iff_eq]
      exact ⟨fun h => h ▸ rfl, hρ x hx y hy⟩
  | var x, node _ _ _ => by
      rw [alphaEquiv, namelessIn, namelessIn]
      · exact Decides.ok (by simp)
      all_goals simp
  | node _ _ _, var y => by
      rw [alphaEquiv, namelessIn, namelessIn]
      · exact Decides.ok (by simp)
      all_goals simp
  | node h ts ss, node h' ts' ss' => by
      rcases hl with _ | ⟨hlts, hlss⟩
      rcases hr with _ | ⟨hrts, hrss⟩
      rw [alphaEquiv, namelessIn_node_inj]
      by_cases heq : h = h' ∧ ts.length = ts'.length ∧ ss.length = ss'.length
      · rw [AlphaEquivHasRoom] at hroom
        obtain ⟨hroom_ts, hroom_ss⟩ := hroom heq
        rw [if_pos heq]
        have hts := alphaEquivTerms_decides ts ts' heq.2.1 hlts hrts hρ hroom_ts
        have hss : alphaEquivTerms s ts ts' = .ok true → Decides (alphaEquivScopes s ss ss')
            (ss.map (namelessScoped ρ) = ss'.map (namelessScoped ρ)) := fun hok =>
          alphaEquivScopes_decides ss ss' heq.2.2 hlss hrss hρ (hroom_ss hok)
        exact (hts.and hss).congr (by simp [heq.1])
      · rw [if_neg heq]
        apply Decides.ok
        simp only [Bool.false_eq_true, false_iff]
        rintro ⟨hh, hts, hss⟩
        have hlen_ts := congrArg List.length hts
        have hlen_ss := congrArg List.length hss
        simp only [List.length_map] at hlen_ts hlen_ss
        exact heq ⟨hh, hlen_ts, hlen_ss⟩
termination_by 3 * l.size
decreasing_by
  all_goals simp only [size]; omega

/-- Comparing plain children decides whether their nameless forms are equal one by one. -/
theorem alphaEquivTerms_decides {s : Scope} {ρ : Reading} (ls rs : List (Term κ))
    (hlen : ls.length = rs.length) (hl : ∀ e ∈ ls, e.Comparable s) (hr : ∀ e ∈ rs, e.Comparable s)
    (hρ : ρ.Separates s) (hroom : TermsHaveRoom s ls rs) :
    Decides (alphaEquivTerms s ls rs) (ls.map (namelessIn ρ) = rs.map (namelessIn ρ)) :=
  match ls, rs with
  | [], [] => by
      rw [alphaEquivTerms]
      · exact Decides.ok (by simp)
      simp
  | l :: ls, r :: rs => by
      rw [TermsHaveRoom] at hroom
      obtain ⟨hl, hls⟩ := List.forall_mem_cons.mp hl
      obtain ⟨hr, hrs⟩ := List.forall_mem_cons.mp hr
      have hlen' : ls.length = rs.length := by simpa using hlen
      have hhead := Comparable.alphaEquiv_decides l r hl hr hρ hroom.1
      rw [alphaEquivTerms, List.map_cons, List.map_cons, List.cons.injEq]
      exact hhead.and fun hok => alphaEquivTerms_decides ls rs hlen' hls hrs hρ (hroom.2 hok)
termination_by 3 * sizeTerms ls + 2
decreasing_by
  all_goals have := size_pos l; simp only [sizeTerms]; omega

/-- Comparing scoped terms decides whether their patterns have one shape and their bodies one
nameless form. -/
theorem alphaEquivScoped_decides {s : Scope} {ρ : Reading} (l r : Scoped (Term κ))
    (hl : ComparableScoped s l) (hr : ComparableScoped s r) (hρ : ρ.Separates s)
    (hroom : ScopedHasRoom s l r) :
    Decides (alphaEquivScoped s l r) (namelessScoped ρ l = namelessScoped ρ r) := by
  rw [ScopedHasRoom] at hroom
  unfold namelessScoped
  rw [Prod.mk.injEq]
  by_cases hshape : l.binder.shape = r.binder.shape
  · obtain ⟨u, hu, hlines⟩ := Pattern.exists_linesUp hl.nodup hr.nodup hshape hroom.1
    have hkind := hlines.exact.kind_ne_notUnifiable
    obtain ⟨hroom_l, hroom_r, hroom_b⟩ := hroom.2 u hu hkind
    obtain ⟨lb, hlb, hwl, hnl⟩ := hl.body.exists_rename hroom_l (hlines.follows_left ρ hl.body)
    obtain ⟨rb, hrb, hwr, hnr⟩ := hr.body.exists_rename hroom_r (hlines.follows_right ρ hr.body)
    have hρ' := hρ.enter fun x hx => (hlines.mem_inner x).mp hx
    have hbody := Comparable.alphaEquiv_decides lb rb hwl.comparable hwr.comparable hρ'
      (hroom_b lb rb hlb hrb)
    rw [hnl, hnr] at hbody
    rw [alphaEquivScoped_of_linesUp hu hkind hlb hrb]
    exact hbody.congr (by simp [hshape])
  · rw [alphaEquivScoped_eq, Pattern.unify_eq_of_shape_ne hshape]
    exact Decides.ok (by simp [hshape])
termination_by 3 * l.body.size + 1
decreasing_by
  rw [size_of_rename _ _ _ hlb]
  omega

/-- Comparing scoped children decides whether their nameless forms are equal one by one. -/
theorem alphaEquivScopes_decides {s : Scope} {ρ : Reading} (ls rs : List (Scoped (Term κ)))
    (hlen : ls.length = rs.length)
    (hl : ∀ sc ∈ ls, ComparableScoped s sc) (hr : ∀ sc ∈ rs, ComparableScoped s sc)
    (hρ : ρ.Separates s) (hroom : ScopesHaveRoom s ls rs) :
    Decides (alphaEquivScopes s ls rs)
      (ls.map (namelessScoped ρ) = rs.map (namelessScoped ρ)) :=
  match ls, rs with
  | [], [] => by
      rw [alphaEquivScopes]
      · exact Decides.ok (by simp)
      simp
  | l :: ls, r :: rs => by
      rw [ScopesHaveRoom] at hroom
      obtain ⟨hl, hls⟩ := List.forall_mem_cons.mp hl
      obtain ⟨hr, hrs⟩ := List.forall_mem_cons.mp hr
      have hlen' : ls.length = rs.length := by simpa using hlen
      have hhead := alphaEquivScoped_decides l r hl hr hρ hroom.1
      rw [alphaEquivScopes, List.map_cons, List.map_cons, List.cons.injEq]
      exact hhead.and fun hok => alphaEquivScopes_decides ls rs hlen' hls hrs hρ (hroom.2 hok)
termination_by 3 * sizeScopes ls + 2
decreasing_by
  all_goals have := size_pos l.body; simp only [sizeScopes]; omega

end

/-- Comparing well-formed terms decides whether their nameless forms are equal. -/
theorem alphaEquiv_decides {s : Scope} {ρ : Reading} (l r : Term κ) (hl : l.WellFormed s)
    (hr : r.WellFormed s) (hρ : ρ.Separates s) (hroom : AlphaEquivHasRoom s l r) :
    Decides (alphaEquiv s l r) (l.namelessIn ρ = r.namelessIn ρ) :=
  Comparable.alphaEquiv_decides l r hl.comparable hr.comparable hρ hroom

/-! ### Alpha-equivalence -/

/-- The comparison says yes exactly to terms with the same nameless form. -/
theorem alphaEquiv_eq_true_iff {s : Scope} {l r : Term κ} (hl : l.Comparable s)
    (hr : r.Comparable s) (hroom : AlphaEquivHasRoom s l r) :
    alphaEquiv s l r = .ok true ↔ l.nameless = r.nameless := by
  obtain ⟨b, hb, hiff⟩ := Comparable.alphaEquiv_decides l r hl hr (Reading.top_separates s) hroom
  rw [hb, Except.ok.injEq, hiff]
  rfl

/-- **Both comparisons decide alpha-equivalence.** For well-formed terms, as long as no draw wraps,
lining up patterns answers, and its answer is whether the nameless forms are equal; so is the answer
of comparing fresh choices of binders. No draw wraps when all names are below some `M` such that
`M` plus the square of the number of binders is at most the number of names. -/
theorem alphaEquiv_iff_nameless (s : Scope) (l r : Term κ) (hl : l.WellFormed s)
    (hr : r.WellFormed s) :
    (AlphaEquivHasRoom s l r →
      ∃ b, alphaEquiv s l r = .ok b ∧ (b = true ↔ l.nameless = r.nameless)) ∧
    (l.HasRoom (fun before _ => before.fresh) s → r.HasRoom (fun before _ => before.fresh) s →
      (alphaEquivFresh s l r = true ↔ l.nameless = r.nameless)) ∧
    ∀ M, s.Below M → l.NamesBelow M → r.NamesBelow M →
      M + (l.binderCount + r.binderCount) * (l.binderCount + r.binderCount) ≤ UInt64.size →
      AlphaEquivHasRoom s l r ∧ l.HasRoom (fun before _ => before.fresh) s ∧
        r.HasRoom (fun before _ => before.fresh) s := by
  refine ⟨?_, ?_, ?_⟩
  · intro hroom
    exact alphaEquiv_decides l r hl hr (Reading.top_separates s) hroom
  · intro hroom_l hroom_r
    exact alphaEquivFresh_iff hl.setFree hr.setFree hl.inScope hr.inScope hroom_l hroom_r
  · intro M hs hlM hrM hM
    have hsmall : SmallEnough M (l.binderCount + r.binderCount) := hM
    have hsize := hsmall.add_le
    exact ⟨alphaEquivHasRoom_of_below l r hl hr hs hlM hrM hsmall,
      hasRoom_of_below Scope.fresh_keepsOrDraws hs hlM (by omega),
      hasRoom_of_below Scope.fresh_keepsOrDraws hs hrM (by omega)⟩

/-- A function of two arguments, applied to them and to the name `2`. -/
def twoArguments (x y : Name) : Term String :=
  node "lam" [] [⟨.list [x, y], node "app" [var x, var y, var 2] []⟩]

/-- Two lists with the same two names the other way round, inside a scope that has one of them. -/
theorem alphaEquiv_swapped_lists :
    alphaEquiv (Scope.empty.extendAll [0, 2]) (twoArguments 0 1) (twoArguments 1 0) = .ok true ∧
      alphaEquivFresh (Scope.empty.extendAll [0, 2]) (twoArguments 0 1) (twoArguments 1 0) =
        true := by
  have hwell : ∀ x y : Name, (x = 0 ∧ y = 1) ∨ (x = 1 ∧ y = 0) →
      (twoArguments x y).WellFormed (Scope.empty.extendAll [0, 2]) ∧
        (twoArguments x y).NamesBelow 3 := by
    unfold twoArguments
    rintro x y (⟨rfl, rfl⟩ | ⟨rfl, rfl⟩)
    all_goals
      refine ⟨⟨?_, ?_, ?_⟩, ?_⟩
      · simp [mem_freeNames_node, mem_freeNames_var, Pattern.binders]
      · simp [SetFree, allPatterns_node, AllPatterns.var, Pattern.setFree]
      · simp [DistinctBinders, allPatterns_node, AllPatterns.var, Pattern.binders]
      · simp [namesBelow_node, NamesBelow.var, Pattern.binders]
  obtain ⟨hl, hlM⟩ := hwell 0 1 (by decide)
  obtain ⟨hr, hrM⟩ := hwell 1 0 (by decide)
  have hnameless : (twoArguments 0 1).nameless = (twoArguments 1 0).nameless := rfl
  obtain ⟨hlines, hfresh, hsmall⟩ := alphaEquiv_iff_nameless _ _ _ hl hr
  obtain ⟨hroom, hroom_l, hroom_r⟩ := hsmall 3 (by decide) hlM hrM (by decide)
  obtain ⟨b, hb, hiff⟩ := hlines hroom
  rw [hiff.mpr hnameless] at hb
  exact ⟨hb, (hfresh hroom_l hroom_r).mpr hnameless⟩

end Term

end NameBinding
