import NameBinding.Proofs.Moving

/-!
# A walk is a scan of the binders

A walk over a pattern may carry any value along and may put any binder in the place of another. To
see what it asks, the visits are written down as they happen: `Pattern.logged` is a visit that also
records the scope and the binder it was given and the binder it answered with. A walk does not look
into the value it carries, so the log changes nothing else (`Pattern.walk_logged`), and
`Pattern.visits` is what a walk does with any visit.

Whatever the nesting, the visits are those of a scan of the flat list of binders: one for each
binder, in order, in the scope extended by the answers before it (`Pattern.Scans`). A pattern
without sets is rebuilt out of the answers in the same places (`Pattern.walk_rebuilds`); a set lists
them in increasing order and drops repeats. `Pattern.walk_scans_binders` is the whole of it, and a
fold over a pattern is a left fold over the values of its visits.
-/

namespace NameBinding

namespace Pattern

/-- One visit of a walk: the scope right before a binder, the binder, and the binder put in its
place. -/
structure Visit where
  before : Scope
  binder : Name
  answer : Name

section visits

variable {σ : Type} (visit : Scope → Name → σ → Name × σ)

/-- The same visit, which also writes itself down at the end of a log. -/
def logged (before : Scope) (x : Name) (v : σ × List Visit) : Name × (σ × List Visit) :=
  let step := visit before x v.1
  (step.1, (step.2, v.2 ++ [⟨before, x, step.1⟩]))

/-- The visits that a walk makes, in order. -/
def visits (s : Scope) (v : σ) (p : Pattern) : List Visit :=
  (p.walk (logged visit) s (v, [])).value.2

/-- The visits that a scan of a list makes, each in the scope extended by the answers before it. -/
def scan (s : Scope) (v : σ) : List Name → List Visit
  | [] => []
  | x :: xs =>
    let step := visit s x v
    ⟨s, x, step.1⟩ :: scan (s.extend step.1) step.2 xs

/-- The value that is carried along some visits. -/
def carried (v : σ) (cs : List Visit) : σ := cs.foldl (fun v c => (visit c.before c.binder v).2) v

/-! ### Scans -/

/-- A walk over a list of names is told by the visits of a scan: the answers, the scope with all of
them, and the value that the visits carry. -/
theorem walkNames_eq_scan (s : Scope) (v : σ) (xs : List Name) :
    walkNames visit s v xs =
      ⟨(scan visit s v xs).map Visit.answer,
        s.extendAll ((scan visit s v xs).map Visit.answer),
        carried visit v (scan visit s v xs)⟩ := by
  induction xs generalizing s v with
  | nil => rfl
  | cons x xs ih =>
    simp only [walkNames, scan, ih, List.map_cons, Scope.extendAll_cons, carried, List.foldl_cons]

/-- The second part of a list is scanned from where the first part has led. -/
theorem scan_append (s : Scope) (v : σ) (xs ys : List Name) :
    scan visit s v (xs ++ ys) =
      scan visit s v xs ++
        scan visit (s.extendAll ((scan visit s v xs).map Visit.answer))
          (carried visit v (scan visit s v xs)) ys := by
  induction xs generalizing s v with
  | nil => rfl
  | cons x xs ih =>
    simp only [List.cons_append, scan, ih, List.map_cons, Scope.extendAll_cons, carried,
      List.foldl_cons]

/-- The visits `cs` go over the names `xs` from left to right: one for each name, in the scope `s`
extended by the answers before it, and answered as `visit` does with the value carried so far. -/
structure Scans (s : Scope) (v : σ) (xs : List Name) (cs : List Visit) : Prop where
  binders : cs.map Visit.binder = xs
  before : ∀ i c, cs[i]? = some c → c.before = s.extendAll ((cs.take i).map Visit.answer)
  answer : ∀ i c, cs[i]? = some c →
    c.answer = (visit c.before c.binder (carried visit v (cs.take i))).1

/-- The visits of a scan meet the contract. -/
theorem scans_scan (s : Scope) (v : σ) (xs : List Name) :
    Scans visit s v xs (scan visit s v xs) := by
  induction xs generalizing s v with
  | nil => exact ⟨rfl, by simp [scan], by simp [scan]⟩
  | cons x xs ih =>
    have hrest := ih (s.extend (visit s x v).1) (visit s x v).2
    refine ⟨by simp only [scan, List.map_cons, hrest.binders], ?_, ?_⟩
    · rintro (_ | i) c hc
      · obtain rfl := Option.some.inj hc
        rfl
      · exact hrest.before i c hc
    · rintro (_ | i) c hc
      · obtain rfl := Option.some.inj hc
        rfl
      · exact hrest.answer i c hc

/-! ### The log of a walk -/

/-- A walk over a list that writes its visits down writes down a scan, and all else is as
without. -/
theorem walkNames_logged (s : Scope) (v : σ) (log : List Visit) (xs : List Name) :
    walkNames (logged visit) s (v, log) xs =
      (let w := walkNames visit s v xs
       ⟨w.result, w.scope, (w.value, log ++ scan visit s v xs)⟩) := by
  induction xs generalizing s v log with
  | nil => simp only [walkNames, scan, List.append_nil]
  | cons x xs ih =>
    simp only [walkNames, logged, ih, scan, List.append_assoc, List.singleton_append]

/-- A walk that writes its visits down rebuilds the same pattern, ends in the same scope and carries
the same value. What it writes down is a scan of the binders. -/
theorem walk_logged (s : Scope) (v : σ) (log : List Visit) (p : Pattern) :
    p.walk (logged visit) s (v, log) =
      (let w := p.walk visit s v
       ⟨w.result, w.scope, (w.value, log ++ scan visit s v p.binders)⟩) := by
  induction p generalizing s v log with
  | wildcard => simp only [walk, binders, scan, List.append_nil]
  | single x => simp only [walk, binders, scan, logged]
  | list xs => simp only [walk, binders, walkNames_logged]
  | set xs => simp only [walk, binders, walkNames_logged]
  | pair l r ihl ihr =>
    -- the scan of the right part starts where the walk over the left part has ended
    simp only [walk, binders, ihl, ihr, scan_append, walk_scope, walk_value, walkNames_eq_scan,
      List.append_assoc]

/-- Whatever the nesting, the visits are those of a scan of the binders. -/
theorem visits_eq_scan (s : Scope) (v : σ) (p : Pattern) :
    p.visits visit s v = scan visit s v p.binders := by
  rw [visits, walk_logged, List.nil_append]

/-- The scope inside a pattern is the scope around it with the answers of the visits. -/
theorem walk_scope_eq (s : Scope) (v : σ) (p : Pattern) :
    (p.walk visit s v).scope = s.extendAll ((p.visits visit s v).map Visit.answer) := by
  rw [walk_scope, walkNames_eq_scan, visits_eq_scan]

/-- The value that a walk leaves is the one that its visits carry. -/
theorem walk_value_eq (s : Scope) (v : σ) (p : Pattern) :
    (p.walk visit s v).value = carried visit v (p.visits visit s v) := by
  rw [walk_value, walkNames_eq_scan, visits_eq_scan]

/-- A pattern without sets is rebuilt out of the answers, place by place. -/
theorem walk_rebuilds (s : Scope) (v : σ) {p : Pattern} (hp : p.setFree = true) :
    (p.walk visit s v).result.shape = p.shape ∧
      (p.walk visit s v).result.binders = (p.visits visit s v).map Visit.answer := by
  rw [visits_eq_scan]
  induction p generalizing s v with
  | wildcard => exact ⟨rfl, rfl⟩
  | single x => exact ⟨rfl, rfl⟩
  | list xs =>
    have hlength : (scan visit s v xs).length = xs.length := by
      rw [← List.length_map, (scans_scan visit s v xs).binders]
    simp only [walk, shape, binders, walkNames_eq_scan, List.length_map, hlength, and_self]
  | set xs => cases hp
  | pair l r ihl ihr =>
    simp only [setFree, Bool.and_eq_true] at hp
    have hl := fun s v => ihl s v hp.1
    have hr := fun s v => ihr s v hp.2
    simp only [walk, shape, binders, hl, hr, scan_append, List.map_append, walk_scope, walk_value,
      walkNames_eq_scan, and_self]

end visits

/-! ### Folds -/

section fold

variable {α : Type} (onBinder : Scope → Name → α × Name)

/-- What a fold puts in the place of a binder, without its value. -/
def replacing (before : Scope) (x : Name) (u : Unit) : Name × Unit := ((onBinder before x).2, u)

/-- The visits of a fold do not depend on what it accumulates. -/
theorem scan_fold (unit : α) (combine : α → α → α) (s : Scope) (xs : List Name) :
    scan (fun before x acc => ((onBinder before x).2, combine acc (onBinder before x).1)) s unit xs
      = scan (replacing onBinder) s () xs := by
  induction xs generalizing s unit with
  | nil => rfl
  | cons x xs ih => simp only [scan, ih, replacing]

/-- A fold over a pattern is a left fold over the values of its visits. -/
theorem fold_value (unit : α) (combine : α → α → α) (s : Scope) (p : Pattern) :
    (p.fold onBinder unit combine s).value =
      ((p.visits (replacing onBinder) s ()).map fun c => (onBinder c.before c.binder).1).foldl
        combine unit := by
  rw [fold, walk_value_eq, visits_eq_scan, scan_fold, visits_eq_scan, List.foldl_map, carried]

end fold

/-- The binders of a pattern are what a walk collects that keeps them all. -/
theorem fold_binders (s : Scope) (p : Pattern) :
    (p.fold (fun _ x => ([x], x)) [] (· ++ ·) s).value = p.binders := by
  rw [fold_value, visits_eq_scan, List.foldl_map, List.foldl_append_eq_append, List.nil_append]
  have hbinders := (scans_scan (replacing fun _ x => ([x], x)) s () p.binders).binders
  exact List.map_eq_flatMap.symm.trans hbinders

/-! ### All of it at once -/

/-- **A walk is a scan of the binders.** Take any pattern and any visit, whatever value it carries.
Writing the visits down changes nothing about the walk. They are one for each binder, in order; the
scope given to each has the names of the scope around the pattern and the answers of the visits
before it; and each is answered as `visit` says. The scope inside has the names of the scope around
and all answers, and the value left is what the visits carried. Without sets, the rebuilt pattern
has the shape of the first one and the answers as its binders. A fold combines the values of its
visits from left to right, and the binders themselves are what such a fold collects. -/
theorem walk_scans_binders {σ : Type} (visit : Scope → Name → σ → Name × σ) (s : Scope) (v : σ)
    (p : Pattern) :
    (p.walk (logged visit) s (v, []) =
      ⟨(p.walk visit s v).result, (p.walk visit s v).scope,
        ((p.walk visit s v).value, p.visits visit s v)⟩) ∧
    (p.visits visit s v).map Visit.binder = p.binders ∧
    (∀ i c, (p.visits visit s v)[i]? = some c →
      (∀ x, x ∈ c.before ↔ x ∈ s ∨ x ∈ ((p.visits visit s v).take i).map Visit.answer) ∧
      c.answer =
        (visit c.before c.binder (carried visit v ((p.visits visit s v).take i))).1) ∧
    (∀ x, x ∈ (p.walk visit s v).scope ↔
      x ∈ s ∨ x ∈ (p.visits visit s v).map Visit.answer) ∧
    (p.walk visit s v).value = carried visit v (p.visits visit s v) ∧
    (p.setFree = true →
      (p.walk visit s v).result.shape = p.shape ∧
        (p.walk visit s v).result.binders = (p.visits visit s v).map Visit.answer) ∧
    (∀ (α : Type) (onBinder : Scope → Name → α × Name) (unit : α) (combine : α → α → α),
      (p.fold onBinder unit combine s).value =
        ((p.visits (replacing onBinder) s ()).map fun c => (onBinder c.before c.binder).1).foldl
          combine unit) ∧
    (p.fold (fun _ x => ([x], x)) [] (· ++ ·) ∅).value = p.binders := by
  have hscans := scans_scan visit s v p.binders
  rw [← visits_eq_scan] at hscans
  refine ⟨?_, hscans.binders, fun i c hc => ⟨fun x => ?_, hscans.answer i c hc⟩, fun x => ?_,
    walk_value_eq visit s v p, walk_rebuilds visit s v,
    fun α onBinder unit combine => fold_value onBinder unit combine s p, fold_binders ∅ p⟩
  · rw [walk_logged, visits_eq_scan, List.nil_append]
  · rw [hscans.before i c hc, Scope.mem_extendAll]
  · rw [walk_scope_eq, Scope.mem_extendAll]

/-- A list, and beside it in a pair of its own a single binder that repeats the first of it. -/
def listThenSingle : Pattern := .pair (.list [0, 2]) (.pair .wildcard (.single 0))

/-- Replaces a binder that clashes, and counts. -/
def refreshCounted (before : Scope) (x : Name) (n : Nat) : Name × Nat := (before.refresh x, n + 1)

/-- Both occurrences of the binder `0` move away, the second one past the first and past the binder
`2`, which is kept in between. -/
theorem walk_scans_binders_repeated :
    listThenSingle.setFree = true ∧
      (listThenSingle.visits refreshCounted (Scope.empty.extend 0) 0).map Visit.binder =
        [0, 2, 0] ∧
      (listThenSingle.walk refreshCounted (Scope.empty.extend 0) 0).result.shape =
        .pair (.list 2) (.pair .wildcard .single) ∧
      (listThenSingle.walk refreshCounted (Scope.empty.extend 0) 0).result.binders = [1, 2, 3] := by
  obtain ⟨-, hbinders, -, -, -, hrebuilt, -⟩ :=
    walk_scans_binders refreshCounted (Scope.empty.extend 0) 0 listThenSingle
  obtain ⟨hshape, hanswers⟩ := hrebuilt rfl
  exact ⟨rfl, hbinders, hshape, hanswers.trans (by decide)⟩

end Pattern

end NameBinding
