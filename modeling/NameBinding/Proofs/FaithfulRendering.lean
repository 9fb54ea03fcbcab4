import NameBinding.Proofs.RawSyntax
import NameBinding.Proofs.Unambiguity

/-!
# Terms can be told apart by their texts

Patterns, terms and names share one notation without marks for which is which: `(pair 1 2)` is a
pattern as well as a term, and the children of a node stand in one list, plain ones first. The text
of a term still determines the term, if its nodes are forms of the language (`Expr.Native`); their
numbers of children need not be right (`Expr.render_faithful`). A head of another language may have
the label of a form, and then two terms have one text.

The S-expression of a scoped child opens with that of a pattern. This is a list, a number or `_`,
and no label of a form is one of these, so it is clear where the plain children end
(`Expr.toSexpChildren_inj`). No atom of a term has a parenthesis or a double quote, and so the text
determines the S-expression (`Sexp.write_inj`).
-/

namespace NameBinding

/-! ### Numbers -/

namespace Name

/-- A name is written as its digits. -/
theorem toSexp_eq (x : Name) : toSexp x = .atom x.digits := rfl

/-- Numbers are the numbered identifiers of the empty stem. -/
theorem digits_eq_numbered (x : Name) : x.digits = Identifier.numbered "" x.toNat :=
  String.empty_append.symm

/-- The digits determine the name. -/
theorem digits_inj {x y : Name} (h : x.digits = y.digits) : x = y := by
  rw [digits_eq_numbered, digits_eq_numbered] at h
  exact UInt64.toNat_inj.mp ((Identifier.numbered_supply "").injective _ _ h)

/-- A text without digits is no number. -/
theorem digits_ne {x : Name} {text : String} (htext : ∀ c ∈ text.toList, c.isDigit = false) :
    x.digits ≠ text := by
  rintro rfl
  obtain ⟨c, hc, hdigit⟩ := Identifier.exists_digit_of_numbered "" x.toNat
  rw [← digits_eq_numbered] at hc
  rw [htext c hc] at hdigit
  cases hdigit

/-- The digits of a name are digits. -/
theorem isDigit_of_mem_digits {x : Name} {c : Char} (hc : c ∈ x.digits.toList) :
    c.isDigit = true := by
  rw [digits, Nat.toList_repr] at hc
  exact Nat.isDigit_of_mem_toDigits (by decide) (by decide) hc

/-- A written name has neither parentheses nor quotes. -/
theorem ordinary_toSexp (x : Name) : (toSexp x).Ordinary := by
  refine .atom fun c hc => ?_
  have hdigit := isDigit_of_mem_digits hc
  refine ⟨?_, ?_, ?_⟩
  all_goals
    rintro rfl
    cases hdigit

end Name

namespace Sexp

/-- A tagged list is ordinary if its tag and its fields are. -/
theorem Ordinary.tagged {tag : String} {fields : List Sexp} (htag : OrdinaryText tag.toList)
    (hfields : ∀ x ∈ fields, x.Ordinary) : (Sexp.tagged tag fields).Ordinary :=
  .list (List.forall_mem_cons.mpr ⟨.atom htag, hfields⟩)

/-- Can this stand for a child without a pattern? It can if it is an atom, or a list that opens with
an atom that has no digit and no `_`. -/
def isPlain : Sexp → Bool
  | atom _ => true
  | list (atom a :: _) => a.toList.all fun c => !c.isDigit && c != '_'
  | list _ => false

end Sexp

/-! ### Patterns -/

namespace Pattern

/-- Written lists of names determine the names. -/
theorem toSexpNames_inj {xs ys : List Name} :
    xs.map NameBinding.toSexp = ys.map NameBinding.toSexp ↔ xs = ys :=
  List.map_inj_right fun _ _ h => Name.digits_inj (Sexp.atom.inj h)

/-- Written lists of names have neither parentheses nor quotes in their atoms. -/
theorem ordinary_of_mem_toSexpNames {xs : List Name} {x : Sexp}
    (h : x ∈ xs.map NameBinding.toSexp) : x.Ordinary := by
  obtain ⟨n, -, rfl⟩ := List.mem_map.mp h
  exact n.ordinary_toSexp

/-- A written pattern has neither parentheses nor quotes in its atoms. -/
theorem ordinary_toSexp (p : Pattern) : p.toSexp.Ordinary := by
  induction p with
  | wildcard => exact .atom (by simp [Sexp.OrdinaryText])
  | single x => exact x.ordinary_toSexp
  | list xs => exact .tagged (by simp [Sexp.OrdinaryText]) fun _ => ordinary_of_mem_toSexpNames
  | set xs => exact .tagged (by simp [Sexp.OrdinaryText]) fun _ => ordinary_of_mem_toSexpNames
  | pair l r ihl ihr => exact .tagged (by simp [Sexp.OrdinaryText]) (by simp [ihl, ihr])

/-- A pattern is determined by its S-expression. -/
theorem toSexp_inj {p q : Pattern} (h : p.toSexp = q.toSexp) : p = q := by
  -- The tags differ from each other, which leaves a number against `_` and equal constructors.
  induction p generalizing q <;> cases q <;>
    simp only [toSexp, Name.toSexp_eq, Sexp.tagged, Sexp.atom.injEq, Sexp.list.injEq,
      List.cons.injEq, String.reduceEq, reduceCtorEq, true_and, and_true, false_and] at h
  case wildcard.wildcard => rfl
  case wildcard.single y => exact absurd h.symm (Name.digits_ne (by simp))
  case single.wildcard x => exact absurd h (Name.digits_ne (by simp))
  case single.single x y => rw [Name.digits_inj h]
  case list.list xs ys => rw [toSexpNames_inj.mp h]
  case set.set xs ys => rw [OrderedSet.toList_inj.mp (toSexpNames_inj.mp h)]
  case pair.pair l r ihl ihr l' r' => rw [ihl h.1, ihr h.2]

/-- What opens with a pattern stands for no plain child. -/
theorem isPlain_cons (p : Pattern) (xs : List Sexp) :
    (Sexp.list (p.toSexp :: xs)).isPlain = false := by
  cases p with
  | wildcard => rfl
  | single x =>
    refine Bool.eq_false_iff.mpr fun hword => Name.digits_ne (x := x) (fun c hc => ?_) rfl
    have hc := List.all_eq_true.mp hword c hc
    simp only [Bool.and_eq_true, Bool.not_eq_true'] at hc
    exact hc.1
  | list xs => rfl
  | set xs => rfl
  | pair l r => rfl

end Pattern

/-! ### Children -/

namespace Term

variable {κ : Type} [Labelled κ]

/-- The written plain children are those of the terms. -/
theorem mem_toSexpTerms {x : Sexp} {ts : List (Term κ)} :
    x ∈ toSexpTerms ts ↔ ∃ e ∈ ts, e.toSexp = x := by
  induction ts with
  | nil => simp [toSexpTerms]
  | cons t ts ih => simp [toSexpTerms, ih, eq_comm]

/-- The written scoped children are those of the scoped terms. -/
theorem mem_toSexpScopes {x : Sexp} {ss : List (Scoped (Term κ))} :
    x ∈ toSexpScopes ss ↔ ∃ sc ∈ ss, .list [sc.binder.toSexp, sc.body.toSexp] = x := by
  induction ss with
  | nil => simp [toSexpScopes]
  | cons sc ss ih =>
    obtain ⟨p, b⟩ := sc
    simp [toSexpScopes, ih, eq_comm]

end Term

namespace LambdaPi

/-! ### Labels -/

namespace Form

/-- The word determines the form. -/
theorem label_inj {f g : Form} (h : f.label = g.label) : f = g := by
  cases f <;> cases g <;> simp [label] at h ⊢

/-- No label has a digit or a `_`. -/
theorem not_isDigit_of_mem_label (f : Form) :
    ∀ c ∈ f.label.toList, (!c.isDigit && c != '_') = true := by
  cases f <;> simp [label]

/-- The words of the forms have neither parentheses nor quotes. -/
theorem ordinaryText_label (f : Form) : Sexp.OrdinaryText f.label.toList := by
  cases f <;> simp [label, Sexp.OrdinaryText]

end Form

namespace Expr

open Term (toSexp toSexpTerms toSexpScopes)

/-- Every node is a form of the language. The numbers of children are free. -/
inductive Native : Expr → Prop where
  | var (x : Name) : Native (.var x)
  | node {f : Form} {ts : List Expr} {ss : List (Scoped Expr)} (terms : ∀ e ∈ ts, Native e)
      (bodies : ∀ sc ∈ ss, Native sc.body) : Native (.node (.form f) ts ss)

/-! ### Plain children and scoped ones -/

/-- A written term is plain: an atom, or a list headed by an atom that is neither a number nor
`_`. -/
theorem Native.isPlain {e : Expr} (he : e.Native) : e.toSexp.isPlain = true := by
  cases he with
  | var x => rfl
  | node terms bodies => exact List.all_eq_true.mpr (Form.not_isDigit_of_mem_label _)

/-- Written plain children are plain. -/
theorem isPlain_of_mem_toSexpTerms {ts : List Expr} (hts : ∀ e ∈ ts, e.Native) :
    ∀ x ∈ toSexpTerms ts, x.isPlain = true := by
  intro x hx
  obtain ⟨e, he, rfl⟩ := Term.mem_toSexpTerms.mp hx
  exact (hts e he).isPlain

/-- Written scoped children are not plain, since a pattern comes first. -/
theorem not_isPlain_of_mem_toSexpScopes {ss : List (Scoped Expr)} :
    ∀ x ∈ toSexpScopes ss, x.isPlain = false := by
  intro x hx
  obtain ⟨sc, -, rfl⟩ := Term.mem_toSexpScopes.mp hx
  exact sc.binder.isPlain_cons _

/-- The children of a node in one list fall apart into plain ones and scoped ones. -/
theorem toSexpChildren_inj {ts ts' : List Expr} {ss ss' : List (Scoped Expr)}
    (hts : ∀ e ∈ ts, e.Native) (hts' : ∀ e ∈ ts', e.Native)
    (h : toSexpTerms ts ++ toSexpScopes ss = toSexpTerms ts' ++ toSexpScopes ss') :
    toSexpTerms ts = toSexpTerms ts' ∧ toSexpScopes ss = toSexpScopes ss' :=
  Sexp.stretch_inj (isPlain_of_mem_toSexpTerms hts) (isPlain_of_mem_toSexpTerms hts')
    (fun x hx => not_isPlain_of_mem_toSexpScopes x (List.mem_of_mem_head? hx))
    (fun x hx => not_isPlain_of_mem_toSexpScopes x (List.mem_of_mem_head? hx)) h

/-! ### Terms -/

mutual

/-- A term is determined by its S-expression. -/
theorem toSexp_inj : (l r : Expr) → l.Native → r.Native → l.toSexp = r.toSexp → l = r
  | .var x, .var y, _, _, h => by rw [Name.digits_inj (Sexp.atom.inj h)]
  | .node _ ts ss, .node _ ts' ss', .node hts hss, .node hts' hss', h => by
      obtain ⟨hlabel, hchildren⟩ := List.cons.inj (Sexp.list.inj h)
      obtain ⟨hterms, hscopes⟩ := toSexpChildren_inj hts hts' hchildren
      rw [Form.label_inj (Sexp.atom.inj hlabel), toSexpTerms_inj ts ts' hts hts' hterms,
        toSexpScopes_inj ss ss' hss hss' hscopes]
  | .var _, .node _ _ _, _, _, h => nomatch h
  | .node _ _ _, .var _, _, _, h => nomatch h

/-- Written plain children determine the terms. -/
theorem toSexpTerms_inj : (ts ts' : List Expr) → (∀ e ∈ ts, e.Native) → (∀ e ∈ ts', e.Native) →
    toSexpTerms ts = toSexpTerms ts' → ts = ts'
  | [], [], _, _, _ => rfl
  | t :: ts, t' :: ts', hts, hts', h => by
      obtain ⟨ht, hmore⟩ := List.forall_mem_cons.mp hts
      obtain ⟨ht', hmore'⟩ := List.forall_mem_cons.mp hts'
      obtain ⟨hterm, hterms⟩ := List.cons.inj h
      rw [toSexp_inj t t' ht ht' hterm, toSexpTerms_inj ts ts' hmore hmore' hterms]
  | [], _ :: _, _, _, h => nomatch h
  | _ :: _, [], _, _, h => nomatch h

/-- Written scoped children determine the scoped terms. -/
theorem toSexpScopes_inj : (ss ss' : List (Scoped Expr)) → (∀ sc ∈ ss, sc.body.Native) →
    (∀ sc ∈ ss', sc.body.Native) → toSexpScopes ss = toSexpScopes ss' → ss = ss'
  | [], [], _, _, _ => rfl
  | ⟨p, b⟩ :: ss, ⟨p', b'⟩ :: ss', hss, hss', h => by
      obtain ⟨hb, hmore⟩ := List.forall_mem_cons.mp hss
      obtain ⟨hb', hmore'⟩ := List.forall_mem_cons.mp hss'
      obtain ⟨hscope, hscopes⟩ := List.cons.inj h
      obtain ⟨hpattern, hbody⟩ := List.cons.inj (Sexp.list.inj hscope)
      rw [Pattern.toSexp_inj hpattern, toSexp_inj b b' hb hb' (List.cons.inj hbody).1,
        toSexpScopes_inj ss ss' hmore hmore' hscopes]
  | [], _ :: _, _, _, h => nomatch h
  | _ :: _, [], _, _, h => nomatch h

end

/-- A written term has neither parentheses nor quotes in its atoms. -/
theorem Native.ordinary_toSexp {e : Expr} (he : e.Native) : e.toSexp.Ordinary := by
  induction he with
  | var x => exact x.ordinary_toSexp
  | @node f ts ss _ _ ihts ihss =>
    refine .tagged f.ordinaryText_label fun x hx => ?_
    rcases List.mem_append.mp hx with hx | hx
    · obtain ⟨e, he, rfl⟩ := Term.mem_toSexpTerms.mp hx
      exact ihts e he
    · obtain ⟨sc, hsc, rfl⟩ := Term.mem_toSexpScopes.mp hx
      exact .list (by simp [sc.binder.ordinary_toSexp, ihss sc hsc])

/-- **Equality and text agree on terms.** Comparing the shapes of two patterns and their binders in
a row decides whether they are the same. Comparing two terms node by node decides whether they are
the same; and if all nodes are forms of the language, with any numbers of children, they are the
same exactly if they have the same text. -/
theorem render_faithful :
    (∀ p q : Pattern, p.same q = true ↔ p = q) ∧
      ∀ l r : Expr, l.Native → r.Native →
        (l.same r = true ↔ l = r) ∧ (l = r ↔ l.toSexp.render = r.toSexp.render) := by
  refine ⟨fun p q => Pattern.same_iff, fun l r hl hr => ⟨Term.same_iff, ?_, fun htext => ?_⟩⟩
  · rintro rfl
    rfl
  · have hwrite := String.ofList_inj.mp htext
    obtain ⟨hsexp, -⟩ := Sexp.write_inj l.toSexp r.toSexp hl.ordinary_toSexp hr.ordinary_toSexp
      Sexp.atEnd_nil Sexp.atEnd_nil hwrite
    exact toSexp_inj l r hl hr hsexp

/-- A form with the plain children `(pair 1 2)` and `3`. -/
def lamOfTwoChildren : Expr := .node (.form .lam) [pair (.var 1) (.var 2), .var 3] []

/-- A form with the body `3` in the scope of the pattern `(pair 1 2)`. -/
def lamOfPair : Expr := lam (.pair (.single 1) (.single 2)) (.var 3)

/-- The two forms have the same label and the same items in the same order, and only the grouping
tells them apart. -/
theorem render_faithful_lam :
    lamOfTwoChildren.Native ∧ lamOfPair.Native ∧ lamOfTwoChildren.same lamOfPair = false ∧
      lamOfTwoChildren.toSexp.render ≠ lamOfPair.toSexp.render := by
  have hpair : (pair (.var 1) (.var 2)).Native := .node (by simp [Native.var]) (by simp)
  have htwo : lamOfTwoChildren.Native := .node (by simp [hpair, Native.var]) (by simp)
  have hscoped : lamOfPair.Native := .node (by simp) (by simp [Native.var])
  obtain ⟨hsame, htext⟩ := render_faithful.2 lamOfTwoChildren lamOfPair htwo hscoped
  have hne : lamOfTwoChildren ≠ lamOfPair := by simp [lamOfTwoChildren, lamOfPair, lam]
  exact ⟨htwo, hscoped, Bool.eq_false_iff.mpr (mt hsame.mp hne), mt htext.mpr hne⟩

end Expr

end LambdaPi

end NameBinding
