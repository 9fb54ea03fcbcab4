import NameBinding.Proofs.LiningUp
import NameBinding.Proofs.RenamedTerms

/-!
# How far names grow

A draw gives at most the name after the largest one in play, so names grow by at most one with each
binder that is passed. If all names are below a bound and the bound plus the number of binders is
still a name, no draw wraps: not while a term is freshened or renamed (`Term.hasRoom_of_below`,
`Term.HasRoom.renameHasRoom`), and not while two patterns are lined up
(`Pattern.unifyHasRoom_of_below`). What comes out has names below the larger bound
(`Term.namesBelow_rename`, `Pattern.targets_below`) and as many binders as before
(`Term.binderCount_rename`).
-/

namespace NameBinding

/-! ### Scopes -/

namespace Scope

/-- All names of the scope are below `B`. -/
def Below (s : Scope) (B : Nat) : Prop := ∀ x ∈ s, x.toNat < B

instance (s : Scope) (B : Nat) : Decidable (s.Below B) :=
  List.decidableBAll (fun x : Name => x.toNat < B) (s.layers.map Layer.name)

namespace Below

variable {s : Scope} {B C : Nat}

/-- A scope below a bound is below every larger one. -/
theorem mono (h : s.Below B) (hBC : B ≤ C) : s.Below C := by
  intro x hx
  have := h x hx
  omega

/-- Extending by a name below the bound stays below it. -/
theorem extend (h : s.Below B) {x : Name} (hx : x.toNat < B) : (s.extend x).Below B := by
  intro y hy
  rcases mem_extend.mp hy with rfl | hy
  · exact hx
  · exact h y hy

/-- Extending by names below the bound stays below it. -/
theorem extendAll (h : s.Below B) {xs : List Name} (hxs : ∀ x ∈ xs, x.toNat < B) :
    (s.extendAll xs).Below B := by
  intro y hy
  rcases mem_extendAll.mp hy with hy | hy
  · exact h y hy
  · exact hxs y hy

/-- A fresh name is at most the bound, whether or not the draw wraps. -/
theorem fresh_le (h : s.Below B) : s.fresh.toNat ≤ B := by
  obtain ⟨layers, capped⟩ := s
  cases layers with
  | nil => exact Nat.zero_le B
  | cons l outer =>
    obtain ⟨m, hm, hml⟩ := capped.exists_top
    have htop : l.top.toNat < B := hml ▸ h m.name (mem_iff.mpr ⟨m, hm, rfl⟩)
    show (l.top + 1).toNat ≤ B
    rw [UInt64.toNat_add, UInt64.toNat_one]
    have hmod := Nat.mod_le (l.top.toNat + 1) (2 ^ 64)
    omega

/-- A scope below a bound that is a name has room. -/
theorem hasRoom (h : s.Below B) (hB : B < UInt64.size) : s.HasRoom := by
  intro hmem
  have hlt := h _ hmem
  have hlargest : Name.largest.toNat = UInt64.size - 1 := rfl
  omega

end Below

end Scope

/-! ### Patterns that move -/

namespace Pattern

section replacements

variable {choose : Scope → Name → Name} (hchoose : Scope.KeepsOrDraws choose)
include hchoose

/-- The name chosen in place of a name below the bound is at most the bound. -/
theorem choose_le {s : Scope} {B : Nat} {x : Name} (hs : s.Below B) (hx : x.toNat < B) :
    (choose s x).toNat ≤ B := by
  rcases hchoose s x with ⟨hkeep, -⟩ | hdraw
  · rw [hkeep]
    omega
  · rw [hdraw]
    exact hs.fresh_le

/-- Replacements grow by at most one with each binder. -/
theorem replacements_below {xs : List Name} {s : Scope} {B : Nat} (hs : s.Below B)
    (hxs : ∀ x ∈ xs, x.toNat < B) :
    ∀ c ∈ replacements choose s xs, c.toNat < B + xs.length := by
  induction xs generalizing s B with
  | nil => simp [replacements]
  | cons x xs ih =>
    obtain ⟨hx, hxs⟩ := List.forall_mem_cons.mp hxs
    have hc := choose_le hchoose hs hx
    have hs' : (s.extend (choose s x)).Below (B + 1) :=
      (hs.mono (Nat.le_succ B)).extend (by omega)
    have hrest := ih hs' fun y hy => Nat.lt_succ_of_lt (hxs y hy)
    intro c hmem
    rw [List.length_cons]
    rcases List.mem_cons.mp hmem with rfl | hmem
    · omega
    · have := hrest c hmem
      omega

/-- There is room for replacements as long as the bound plus their number is. -/
theorem hasRoomForAll_of_below {xs : List Name} {s : Scope} {B : Nat} (hs : s.Below B)
    (hxs : ∀ x ∈ xs, x.toNat < B) (hB : B + xs.length ≤ UInt64.size) :
    HasRoomForAll choose s xs := by
  induction xs generalizing s B with
  | nil => trivial
  | cons x xs ih =>
    obtain ⟨hx, hxs⟩ := List.forall_mem_cons.mp hxs
    rw [List.length_cons] at hB
    have hc := choose_le hchoose hs hx
    have hs' : (s.extend (choose s x)).Below (B + 1) :=
      (hs.mono (Nat.le_succ B)).extend (by omega)
    refine ⟨Or.inr (hs.hasRoom (by omega)), ?_⟩
    exact ih hs' (fun y hy => Nat.lt_succ_of_lt (hxs y hy)) (by omega)

/-- The bound on a scope grows by at most one with each binder. -/
theorem moveInto_scope_below {p : Pattern} {s : Scope} {B : Nat} (hs : s.Below B)
    (hp : ∀ x ∈ p.binders, x.toNat < B) :
    (p.moveInto choose s).scope.Below (B + p.binders.length) := by
  rw [moveInto_scope]
  exact (hs.mono (Nat.le_add_right _ _)).extendAll (replacements_below hchoose hs hp)

end replacements

end Pattern

/-! ### Patterns that are lined up -/

/-- Lining up pairs of names below a bound, with all names in use below it too, chooses targets
below the bound plus the number of pairs, and has room if this is. -/
theorem Unifier.chooseTargets_below {s : Scope} {pairs : List (Name × Name)} {taken : Scope}
    {B : Nat} (targets : NameSet) (htaken : taken.Below B)
    (hpairs : ∀ e ∈ pairs, e.1.toNat < B ∧ e.2.toNat < B) :
    (∀ c ∈ chooseTargets s pairs taken targets, c.toNat < B + pairs.length) ∧
      (B + pairs.length ≤ UInt64.size → HasRoom s pairs taken targets) := by
  induction pairs generalizing taken targets B with
  | nil => exact ⟨by simp [chooseTargets], fun _ => trivial⟩
  | cons pair pairs ih =>
    obtain ⟨l, r⟩ := pair
    obtain ⟨⟨hl, hr⟩, hpairs⟩ := List.forall_mem_cons.mp hpairs
    unfold chooseTargets HasRoom
    rw [List.length_cons]
    split
    · rename_i c hfind
      obtain ⟨hbelow, hroom⟩ := ih (targets.insert c) htaken hpairs
      have hc : c.toNat < B := by
        rcases (of_find?_candidates hfind).1 with rfl | rfl
        · exact hl
        · exact hr
      refine ⟨?_, fun hB => hroom (by omega)⟩
      intro c' hc'
      rcases List.mem_cons.mp hc' with rfl | hc'
      · omega
      · have := hbelow c' hc'
        omega
    · have hfresh := htaken.fresh_le
      have htaken' : (taken.extend taken.fresh).Below (B + 1) :=
        (htaken.mono (Nat.le_succ B)).extend (by omega)
      obtain ⟨hbelow, hroom⟩ := ih (targets.insert taken.fresh) htaken'
        fun e he => ⟨Nat.lt_succ_of_lt (hpairs e he).1, Nat.lt_succ_of_lt (hpairs e he).2⟩
      refine ⟨?_, fun hB => ⟨htaken.hasRoom (by omega), hroom (by omega)⟩⟩
      intro c' hc'
      rcases List.mem_cons.mp hc' with rfl | hc'
      · omega
      · have := hbelow c' hc'
        omega

namespace Pattern

section targets

variable {s : Scope} {l r : Pattern} {B : Nat} (hs : s.Below B)
  (hl : ∀ x ∈ l.binders, x.toNat < B) (hr : ∀ x ∈ r.binders, x.toNat < B)
include hs hl hr

/-- With all names below a bound, targets grow by at most one with each binder, and no draw wraps if
that many names are left. -/
theorem chooseTargets_below (h : l.shape = r.shape) :
    (∀ c ∈ l.targets s r, c.toNat < B + l.binders.length) ∧
      (B + l.binders.length ≤ UInt64.size → l.UnifyHasRoom s r) := by
  have hlen : (l.binders.zip r.binders).length = l.binders.length := by
    have := length_binders_of_shape h
    rw [List.length_zip]
    omega
  obtain ⟨hbelow, hroom⟩ := Unifier.chooseTargets_below (s := s) ∅ ((hs.extendAll hl).extendAll hr)
    fun e (he : e ∈ l.binders.zip r.binders) =>
      ⟨hl _ (List.of_mem_zip he).1, hr _ (List.of_mem_zip he).2⟩
  rw [hlen] at hbelow hroom
  exact ⟨hbelow, fun hB _ => hroom hB⟩

/-- Targets grow by at most one with each binder. -/
theorem targets_below (h : l.shape = r.shape) :
    ∀ c ∈ l.targets s r, c.toNat < B + l.binders.length :=
  (chooseTargets_below hs hl hr h).1

/-- There is room for lining up as long as the bound plus the number of binders is. -/
theorem unifyHasRoom_of_below (hB : B + l.binders.length ≤ UInt64.size) : l.UnifyHasRoom s r :=
  fun h => (chooseTargets_below hs hl hr h).2 hB h

end targets

end Pattern

/-! ### Terms -/

/-- Names that move, move below `B`. -/
def Renaming.TargetsBelow (r : Renaming) (B : Nat) : Prop :=
  ∀ x, r.apply x = x ∨ (r.apply x).toNat < B

/-- A renaming that moves only the names of a list, onto names below the bound, has its targets
below it. -/
theorem Renaming.targetsBelow_of_map {r : Renaming} {bs cs : List Name} {B : Nat}
    (hmap : bs.map r.apply = cs) (hfix : ∀ x, x ∉ bs → r.apply x = x)
    (hcs : ∀ c ∈ cs, c.toNat < B) : r.TargetsBelow B := by
  intro x
  by_cases hx : x ∈ bs
  · right
    apply hcs
    rw [← hmap]
    exact List.mem_map_of_mem hx
  · exact Or.inl (hfix x hx)

namespace Term

variable {κ : Type}

mutual

/-- The number of binder occurrences in all patterns. -/
def binderCount : Term κ → Nat
  | var _ => 0
  | node _ ts ss => binderCountTerms ts + binderCountScopes ss

/-- The number of binder occurrences in plain children. -/
def binderCountTerms : List (Term κ) → Nat
  | [] => 0
  | t :: ts => binderCount t + binderCountTerms ts

/-- The number of binder occurrences in scoped children. -/
def binderCountScopes : List (Scoped (Term κ)) → Nat
  | [] => 0
  | ⟨p, b⟩ :: ss => p.binders.length + binderCount b + binderCountScopes ss

end

/-- A plain child has no more binders than its node. -/
theorem binderCount_le_of_mem (h : κ) {ts : List (Term κ)} (ss : List (Scoped (Term κ)))
    {e : Term κ} (he : e ∈ ts) : e.binderCount ≤ (node h ts ss).binderCount := by
  have hle : e.binderCount ≤ binderCountTerms ts := by
    induction ts with
    | nil => exact absurd he List.not_mem_nil
    | cons t ts ih =>
      rw [binderCountTerms]
      rcases List.mem_cons.mp he with rfl | he
      · omega
      · have := ih he
        omega
  rw [binderCount]
  omega

/-- A scoped child has no more binders than its node, those of its pattern included. -/
theorem binderCount_body_le_of_mem (h : κ) (ts : List (Term κ)) {ss : List (Scoped (Term κ))}
    {sc : Scoped (Term κ)} (hsc : sc ∈ ss) :
    sc.binder.binders.length + sc.body.binderCount ≤ (node h ts ss).binderCount := by
  have hle : sc.binder.binders.length + sc.body.binderCount ≤ binderCountScopes ss := by
    induction ss with
    | nil => exact absurd hsc List.not_mem_nil
    | cons sc' ss ih =>
      obtain ⟨p, b⟩ := sc'
      rw [binderCountScopes]
      rcases List.mem_cons.mp hsc with rfl | hsc
      · exact Nat.le_add_right _ _
      · have := ih hsc
        omega
  rw [binderCount]
  omega

/-- All names of the term, free, bound and binding, are below `B`. -/
inductive NamesBelow (B : Nat) : Term κ → Prop where
  | var {x : Name} (hx : x.toNat < B) : NamesBelow B (var x)
  | node {h : κ} {ts : List (Term κ)} {ss : List (Scoped (Term κ))}
      (terms : ∀ e ∈ ts, NamesBelow B e) (binders : ∀ sc ∈ ss, ∀ x ∈ sc.binder.binders, x.toNat < B)
      (bodies : ∀ sc ∈ ss, NamesBelow B sc.body) : NamesBelow B (node h ts ss)

/-- The names of a node are those of its children and of their patterns. -/
theorem namesBelow_node {B : Nat} {h : κ} {ts : List (Term κ)} {ss : List (Scoped (Term κ))} :
    (node h ts ss).NamesBelow B ↔
      (∀ e ∈ ts, e.NamesBelow B) ∧
        ∀ sc ∈ ss, (∀ x ∈ sc.binder.binders, x.toNat < B) ∧ sc.body.NamesBelow B := by
  constructor
  · rintro (_ | ⟨hts, hbs, hss⟩)
    exact ⟨hts, fun sc hsc => ⟨hbs sc hsc, hss sc hsc⟩⟩
  · rintro ⟨hts, hss⟩
    exact .node hts (fun sc hsc => (hss sc hsc).1) fun sc hsc => (hss sc hsc).2

/-- Names below a bound are below every larger one. -/
theorem NamesBelow.mono {e : Term κ} {B C : Nat} (h : e.NamesBelow B) (hBC : B ≤ C) :
    e.NamesBelow C := by
  induction e with
  | var x =>
    obtain ⟨hx⟩ := h
    exact .var (by omega)
  | node hd ts ss ihts ihss =>
    obtain ⟨hts, hss⟩ := namesBelow_node.mp h
    refine namesBelow_node.mpr ⟨fun e he => ihts e he (hts e he), fun sc hsc => ⟨?_, ?_⟩⟩
    · intro x hx
      have := (hss sc hsc).1 x hx
      omega
    · exact ihss sc hsc (hss sc hsc).2

/-- There is room for moving all patterns of a term as long as the bound plus the number of binders
is. -/
theorem hasRoom_of_below {choose : Scope → Name → Name} (hchoose : Scope.KeepsOrDraws choose)
    {e : Term κ} {s : Scope} {B : Nat} (hs : s.Below B) (he : e.NamesBelow B)
    (hB : B + e.binderCount ≤ UInt64.size) : e.HasRoom choose s := by
  induction e generalizing s B with
  | var x => exact .var s x
  | node hd ts ss ihts ihss =>
    obtain ⟨hts, hss⟩ := namesBelow_node.mp he
    refine hasRoom_node.mpr ⟨fun e he => ?_, fun sc hsc => ?_⟩
    · have hle := binderCount_le_of_mem hd ss he
      exact ihts e he hs (hts e he) (by omega)
    · have hle := binderCount_body_le_of_mem hd ts hsc
      obtain ⟨hp, hb⟩ := hss sc hsc
      refine ⟨Pattern.hasRoomForAll_of_below hchoose hs hp (by omega), ?_⟩
      exact ihss sc hsc (Pattern.moveInto_scope_below hchoose hs hp)
        (hb.mono (Nat.le_add_right _ _)) (by omega)

/-- Renaming draws no more than moving every pattern into the scope. -/
theorem HasRoom.renameHasRoom {e : Term κ} {s : Scope} (h : e.HasRoom Scope.refresh s)
    (r : Renaming) : RenameHasRoom s r e := by
  induction e generalizing s r with
  | var x => exact .var s r x
  | node hd ts ss ihts ihss =>
    obtain ⟨hts, hss⟩ := hasRoom_node.mp h
    refine .node (fun e he => ihts e he (hts e he) r) (fun sc hsc => (hss sc hsc).1) ?_
    intro sc hsc inner _
    exact ihss sc hsc (hss sc hsc).2 inner

/-- Plain children with the same numbers of binders have the same number in all. -/
theorem binderCountTerms_congr {ts ts' : List (Term κ)}
    (h : ts'.map binderCount = ts.map binderCount) :
    binderCountTerms ts' = binderCountTerms ts := by
  induction ts generalizing ts' with
  | nil =>
    obtain rfl := List.map_eq_nil_iff.mp h
    rfl
  | cons t ts ih =>
    obtain ⟨t', us, rfl, ht, hts⟩ := List.map_eq_cons_iff.mp h
    rw [binderCountTerms, binderCountTerms, ht, ih hts]

/-- Scoped children with the same numbers of binders have the same number in all. -/
theorem binderCountScopes_congr {ss ss' : List (Scoped (Term κ))}
    (h : ss'.map (fun sc => sc.binder.binders.length + sc.body.binderCount) =
      ss.map fun sc => sc.binder.binders.length + sc.body.binderCount) :
    binderCountScopes ss' = binderCountScopes ss := by
  induction ss generalizing ss' with
  | nil =>
    obtain rfl := List.map_eq_nil_iff.mp h
    rfl
  | cons sc ss ih =>
    obtain ⟨⟨p', b'⟩, us, rfl, hsc, hss⟩ := List.map_eq_cons_iff.mp h
    obtain ⟨p, b⟩ := sc
    rw [binderCountScopes, binderCountScopes, ih hss]
    exact congrArg (· + binderCountScopes ss) hsc

/-- Renaming neither adds nor removes binders. -/
theorem binderCount_rename (e : Term κ) {e' : Term κ} {s : Scope} {r : Renaming}
    (h : rename s r e = .ok e') (hsets : e.SetFree) : e'.binderCount = e.binderCount := by
  induction e generalizing e' s r with
  | var x =>
    cases h
    rfl
  | node hd ts ss ihts ihss =>
    rcases rename_node_eq_ok.mp h with ⟨-, rfl⟩ | ⟨-, ts', ss', rfl, hts', hss'⟩
    · rfl
    · obtain ⟨hsets_ts, hsets_ss⟩ := allPatterns_node.mp hsets
      have hts : binderCountTerms ts' = binderCountTerms ts := by
        apply binderCountTerms_congr
        apply map_eq_map_of_forall₂ hts'
        intro t ht t' htt'
        exact ihts t ht htt' (hsets_ts t ht)
      have hss : binderCountScopes ss' = binderCountScopes ss := by
        apply binderCountScopes_congr
        apply map_eq_map_of_forall₂ hss'
        rintro sc hsc ⟨p', b'⟩ ⟨rfl, inner, -, hb'⟩
        obtain ⟨hsets_p, hsets_b⟩ := hsets_ss sc hsc
        have hlen : (sc.binder.refresh s).pattern.binders.length = sc.binder.binders.length := by
          unfold Pattern.refresh
          rw [Pattern.moveInto_binders _ s hsets_p, Pattern.length_replacements]
        simp only [hlen, ihss sc hsc hb' hsets_b]
      rw [binderCount, binderCount, hts, hss]

/-- Inside a pattern the bound on the targets grows by at most one with each binder. -/
theorem targetsBelow_cross {s : Scope} {r inner : Renaming} {p : Pattern} {B : Nat}
    (hr : r.TargetsBelow B) (hs : s.Below B) (hp : ∀ x ∈ p.binders, x.toNat < B)
    (hnd : p.binders.Nodup) (hinner : r.cross (p.refresh s) = .ok inner) :
    inner.TargetsBelow (B + p.binders.length) := by
  obtain ⟨q, hq, hmap, hout⟩ := r.exists_cross Scope.refresh s hnd
  have hqi : q = inner := Except.ok.inj (hq.symm.trans hinner)
  subst hqi
  intro x
  by_cases hx : x ∈ p.binders
  · right
    apply Pattern.replacements_below Scope.refresh_keepsOrDraws hs hp
    rw [← hmap]
    exact List.mem_map_of_mem hx
  · rw [hout x hx]
    rcases hr x with heq | hlt
    · exact Or.inl heq
    · right
      omega

/-- The names of a renamed term are below the bound plus the number of binders. -/
theorem namesBelow_rename (e : Term κ) {e' : Term κ} {s : Scope} {r : Renaming} {B : Nat}
    (h : rename s r e = .ok e') (hsets : e.SetFree) (hdistinct : e.DistinctBinders)
    (hs : s.Below B) (he : e.NamesBelow B) (hr : r.TargetsBelow B) :
    e'.NamesBelow (B + e.binderCount) := by
  induction e generalizing e' s r B with
  | var x =>
    cases h
    obtain ⟨hx⟩ := he
    apply NamesBelow.var
    rcases hr x with heq | hlt
    · rw [heq]
      omega
    · omega
  | node hd ts ss ihts ihss =>
    rcases rename_node_eq_ok.mp h with ⟨-, rfl⟩ | ⟨-, ts', ss', rfl, hts', hss'⟩
    · exact he.mono (Nat.le_add_right _ _)
    · obtain ⟨hsets_ts, hsets_ss⟩ := allPatterns_node.mp hsets
      obtain ⟨hdist_ts, hdist_ss⟩ := allPatterns_node.mp hdistinct
      obtain ⟨hts, hss⟩ := namesBelow_node.mp he
      refine namesBelow_node.mpr ⟨?_, ?_⟩
      · intro t' ht'
        obtain ⟨t, ht, htt'⟩ := exists_of_mem_of_forall₂ hts' ht'
        have hle := binderCount_le_of_mem hd ss ht
        exact (ihts t ht htt' (hsets_ts t ht) (hdist_ts t ht) hs (hts t ht) hr).mono (by omega)
      · rintro ⟨p', b'⟩ hsc'
        obtain ⟨sc, hsc, rfl, inner, hinner, hb'⟩ := exists_of_mem_of_forall₂ hss' hsc'
        have hle := binderCount_body_le_of_mem hd ts hsc
        obtain ⟨hsets_p, hsets_b⟩ := hsets_ss sc hsc
        obtain ⟨hdist_p, hdist_b⟩ := hdist_ss sc hsc
        obtain ⟨hp, hb⟩ := hss sc hsc
        have hscope := Pattern.moveInto_scope_below Scope.refresh_keepsOrDraws hs hp
        have hbody := ihss sc hsc hb' hsets_b hdist_b hscope (hb.mono (Nat.le_add_right _ _))
          (targetsBelow_cross hr hs hp hdist_p hinner)
        refine ⟨?_, hbody.mono (by omega)⟩
        show ∀ x ∈ (sc.binder.moveInto Scope.refresh s).pattern.binders, _
        rw [Pattern.moveInto_binders _ s hsets_p]
        intro x hx
        have := Pattern.replacements_below Scope.refresh_keepsOrDraws hs hp x hx
        omega

/-- Renaming the term wraps nowhere, and the result has names below `C`. -/
structure RenamesBelow (s : Scope) (r : Renaming) (e : Term κ) (C : Nat) : Prop where
  hasRoom : RenameHasRoom s r e
  namesBelow : ∀ e', rename s r e = .ok e' → e'.NamesBelow C

/-- The identity draws nothing and keeps the names. -/
theorem renamesBelow_identity {s : Scope} {e : Term κ} {B : Nat} (he : e.NamesBelow B) :
    RenamesBelow s .identity e B := by
  refine ⟨.identity s e, ?_⟩
  intro e' h
  rw [rename_identity, Except.ok.injEq] at h
  exact h ▸ he

/-- Renaming wraps nowhere if the bound leaves a name for each binder. -/
theorem WellFormed.renamesBelow {s s' : Scope} {e : Term κ} (he : e.WellFormed s') {r : Renaming}
    {B C : Nat} (hs : s.Below B) (heB : e.NamesBelow B) (hr : r.TargetsBelow B)
    (hC : B + e.binderCount ≤ C) (hsize : C ≤ UInt64.size) : RenamesBelow s r e C := by
  have hroom := hasRoom_of_below Scope.refresh_keepsOrDraws hs heB (by omega)
  refine ⟨hroom.renameHasRoom r, ?_⟩
  intro e' h
  exact (namesBelow_rename e h he.setFree he.distinct hs heB hr).mono hC

end Term

end NameBinding
