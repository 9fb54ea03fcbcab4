import NameBinding.Sexp

/-!
# Written S-expressions are unambiguous

Nothing inside an atom is escaped, so parentheses and double quotes in atoms may make two
S-expressions look alike. Without them (`Sexp.Ordinary`) the text determines the S-expression
(`Sexp.render_unambiguous`), and where it ends (`Sexp.write_inj`).

The first character tells the kinds apart: a parenthesis opens a list, a double quote opens an atom
that is written between quotes, and anything else is part of a bare atom. A quoted atom ends at the
next double quote, whatever blank space it has inside. A bare atom has no blank space and ends where
the text ends, or before a space or a closing parenthesis (`Sexp.AtEnd`); nothing else ever follows
an item.
-/

namespace NameBinding

namespace Sexp

/-! ### Where a stretch ends -/

/-- If two lists begin with a stretch of items of one kind, up to an item of another kind, it is the
same stretch, and the same items come behind it. -/
theorem stretch_inj {α : Type} {kind : α → Bool} {xs ys rest rest' : List α}
    (hxs : ∀ x ∈ xs, kind x = true) (hys : ∀ y ∈ ys, kind y = true)
    (hrest : ∀ x ∈ rest.head?, kind x = false) (hrest' : ∀ x ∈ rest'.head?, kind x = false)
    (h : xs ++ rest = ys ++ rest') : xs = ys ∧ rest = rest' := by
  have hstop : ∀ rest : List α, (∀ x ∈ rest.head?, kind x = false) →
      rest.takeWhile kind = [] := by
    rintro (_ | ⟨x, rest⟩) hx
    · rfl
    · exact List.takeWhile_cons_of_neg (by simp [hx x rfl])
  have htake := congrArg (List.takeWhile kind) h
  rw [List.takeWhile_append_of_pos hxs, List.takeWhile_append_of_pos hys, hstop rest hrest,
    hstop rest' hrest', List.append_nil, List.append_nil] at htake
  subst htake
  exact ⟨rfl, List.append_cancel_left h⟩

/-- Nothing follows, or what follows is separated by a space or closes a list. -/
def AtEnd (rest : List Char) : Prop := ∀ c ∈ rest.head?, c = ' ' ∨ c = ')'

/-- The end of the text ends an atom. -/
theorem atEnd_nil : AtEnd [] := by simp [AtEnd]

/-- What follows an item of a list ends an atom. -/
theorem atEnd_writeMore (xs : List Sexp) (rest : List Char) :
    AtEnd (writeMore xs (')' :: rest)) := by
  cases xs with
  | nil => simp [writeMore, AtEnd]
  | cons x xs => simp [writeMore, AtEnd]

/-! ### Atoms -/

/-- No character is a parenthesis or a double quote. -/
def OrdinaryText (text : List Char) : Prop := ∀ c ∈ text, c ≠ '(' ∧ c ≠ ')' ∧ c ≠ '"'

/-- No atom has a parenthesis or a double quote. -/
inductive Ordinary : Sexp → Prop where
  | atom {a : String} (text : OrdinaryText a.toList) : Ordinary (atom a)
  | list {xs : List Sexp} (items : ∀ x ∈ xs, Ordinary x) : Ordinary (list xs)

section atoms

variable {a b rest rest' : List Char}

/-- The first character of an atom as written. It is a double quote exactly if the atom stands
between quotes. -/
theorem exists_writeAtom_eq_cons (ha : OrdinaryText a) :
    ∃ c cs, writeAtom a = c :: cs ∧ c ≠ '(' ∧ c ≠ ')' ∧ (c = '"' ↔ needsQuotes a = true) := by
  unfold writeAtom
  by_cases hquotes : needsQuotes a = true
  · exact ⟨'"', a ++ ['"'], if_pos hquotes, by simp, by simp, by simp [hquotes]⟩
  · cases a with
    | nil => exact absurd rfl hquotes
    | cons c cs =>
      obtain ⟨hopen, hclose, hquote⟩ := ha c List.mem_cons_self
      exact ⟨c, cs, if_neg hquotes, hopen, hclose, by simp [hquotes, hquote]⟩

/-- The first character tells whether an atom is quoted. -/
theorem needsQuotes_congr (ha : OrdinaryText a) (hb : OrdinaryText b)
    (h : writeAtom a ++ rest = writeAtom b ++ rest') : needsQuotes a = needsQuotes b := by
  obtain ⟨c, cs, hac, -, -, hca⟩ := exists_writeAtom_eq_cons ha
  obtain ⟨d, ds, hbd, -, -, hdb⟩ := exists_writeAtom_eq_cons hb
  rw [hac, hbd, List.cons_append, List.cons_append] at h
  obtain rfl : c = d := (List.cons.inj h).1
  exact Bool.eq_iff_iff.mpr (hca.symm.trans hdb)

/-- A bare atom has no space and no closing parenthesis. -/
theorem not_separator_of_bare (ha : OrdinaryText a) (hbare : ¬ needsQuotes a = true) :
    ∀ c ∈ a, (c != ' ' && c != ')') = true := by
  intro c hc
  have hspace : c ≠ ' ' := by
    rintro rfl
    refine hbare (Bool.or_eq_true_iff.mpr (Or.inr (List.any_eq_true.mpr ⟨' ', hc, rfl⟩)))
  simp [hspace, (ha c hc).2.1]

/-- An atom as written determines the atom and where it ends. -/
theorem writeAtom_inj (ha : OrdinaryText a) (hb : OrdinaryText b) (hrest : AtEnd rest)
    (hrest' : AtEnd rest') (h : writeAtom a ++ rest = writeAtom b ++ rest') :
    a = b ∧ rest = rest' := by
  have hquotes := needsQuotes_congr ha hb h
  unfold writeAtom at h
  by_cases hqa : needsQuotes a = true
  · rw [if_pos hqa, if_pos (hquotes ▸ hqa), List.cons_append, List.cons_append, List.append_assoc,
      List.append_assoc] at h
    have hclass : ∀ {text : List Char}, OrdinaryText text → ∀ c ∈ text, (c != '"') = true := by
      intro text htext c hc
      simp [(htext c hc).2.2]
    obtain ⟨rfl, hclosed⟩ := stretch_inj (hclass ha) (hclass hb) (by simp) (by simp)
      (List.cons.inj h).2
    exact ⟨rfl, (List.cons.inj hclosed).2⟩
  · rw [if_neg hqa, if_neg (hquotes ▸ hqa)] at h
    have hstop : ∀ {rest : List Char}, AtEnd rest →
        ∀ c ∈ rest.head?, (c != ' ' && c != ')') = false := by
      intro rest hrest c hc
      rcases hrest c hc with rfl | rfl
      · rfl
      · rfl
    exact stretch_inj (not_separator_of_bare ha hqa) (not_separator_of_bare hb (hquotes ▸ hqa))
      (hstop hrest) (hstop hrest') h

end atoms

/-! ### Lists -/

/-- No item begins like the end of a list. -/
theorem write_ne_close {x : Sexp} (hx : x.Ordinary) (rest rest' : List Char) :
    x.write rest ≠ ')' :: rest' := by
  cases hx with
  | atom text =>
    obtain ⟨c, cs, hwrite, -, hclose, -⟩ := exists_writeAtom_eq_cons text
    rw [write, hwrite, List.cons_append]
    exact fun h => hclose (List.cons.inj h).1
  | list items =>
    rw [write]
    simp

/-- No atom begins like a list. -/
theorem write_atom_ne_open {a : String} (ha : OrdinaryText a.toList) (rest rest' : List Char) :
    (atom a).write rest ≠ '(' :: rest' := by
  obtain ⟨c, cs, hwrite, hopen, -, -⟩ := exists_writeAtom_eq_cons ha
  rw [write, hwrite, List.cons_append]
  exact fun h => hopen (List.cons.inj h).1

mutual

/-- An S-expression as written determines the S-expression and where it ends. -/
theorem write_inj : (x y : Sexp) → x.Ordinary → y.Ordinary → ∀ {rest rest' : List Char},
    AtEnd rest → AtEnd rest' → x.write rest = y.write rest' → x = y ∧ rest = rest'
  | atom a, atom b, .atom ha, .atom hb, rest, rest', hrest, hrest', h => by
      rw [write, write] at h
      obtain ⟨htext, hends⟩ := writeAtom_inj ha hb hrest hrest' h
      exact ⟨congrArg atom (String.toList_inj.mp htext), hends⟩
  | list xs, list ys, .list hxs, .list hys, rest, rest', _, _, h => by
      rw [write, write] at h
      obtain ⟨hitems, hends⟩ := writeItems_inj xs ys hxs hys (List.cons.inj h).2
      exact ⟨congrArg list hitems, hends⟩
  | atom a, list ys, .atom ha, _, rest, rest', _, _, h => by
      exact absurd h (write_atom_ne_open ha rest _)
  | list xs, atom b, _, .atom hb, rest, rest', _, _, h => by
      exact absurd h.symm (write_atom_ne_open hb rest' _)

/-- The items of a list can be read off its text, which goes on after the closing parenthesis. -/
theorem writeItems_inj : (xs ys : List Sexp) → (∀ x ∈ xs, x.Ordinary) → (∀ y ∈ ys, y.Ordinary) →
    ∀ {rest rest' : List Char}, writeItems xs (')' :: rest) = writeItems ys (')' :: rest') →
      xs = ys ∧ rest = rest'
  | [], [], _, _, rest, rest', h => ⟨rfl, (List.cons.inj h).2⟩
  | [], y :: ys, _, hys, rest, rest', h => by
      exact absurd h.symm (write_ne_close (hys y List.mem_cons_self) _ _)
  | x :: xs, [], hxs, _, rest, rest', h => by
      exact absurd h (write_ne_close (hxs x List.mem_cons_self) _ _)
  | x :: xs, y :: ys, hxs, hys, rest, rest', h => by
      obtain ⟨hx, hmorex⟩ := List.forall_mem_cons.mp hxs
      obtain ⟨hy, hmorey⟩ := List.forall_mem_cons.mp hys
      obtain ⟨rfl, hmore⟩ := write_inj x y hx hy (atEnd_writeMore xs rest)
        (atEnd_writeMore ys rest') h
      obtain ⟨rfl, hends⟩ := writeMore_inj xs ys hmorex hmorey hmore
      exact ⟨rfl, hends⟩

/-- So can the items behind the first. -/
theorem writeMore_inj : (xs ys : List Sexp) → (∀ x ∈ xs, x.Ordinary) → (∀ y ∈ ys, y.Ordinary) →
    ∀ {rest rest' : List Char}, writeMore xs (')' :: rest) = writeMore ys (')' :: rest') →
      xs = ys ∧ rest = rest'
  | [], [], _, _, rest, rest', h => ⟨rfl, (List.cons.inj h).2⟩
  | [], y :: ys, _, _, rest, rest', h => by
      rw [writeMore, writeMore] at h
      simp at h
  | x :: xs, [], _, _, rest, rest', h => by
      rw [writeMore, writeMore] at h
      simp at h
  | x :: xs, y :: ys, hxs, hys, rest, rest', h => by
      obtain ⟨hx, hmorex⟩ := List.forall_mem_cons.mp hxs
      obtain ⟨hy, hmorey⟩ := List.forall_mem_cons.mp hys
      obtain ⟨rfl, hmore⟩ := write_inj x y hx hy (atEnd_writeMore xs rest)
        (atEnd_writeMore ys rest') (List.cons.inj h).2
      obtain ⟨rfl, hends⟩ := writeMore_inj xs ys hmorex hmorey hmore
      exact ⟨rfl, hends⟩

end

/-! ### Whole texts -/

/-- **The text of an S-expression determines it.** Comparing two S-expressions item by item decides
whether they are the same; and if no atom of either has a parenthesis or a double quote, they are
the same exactly if they have the same text. Atoms may be empty or have blank space inside, and
lists may be empty. -/
theorem render_unambiguous (x y : Sexp) (hx : x.Ordinary) (hy : y.Ordinary) :
    (x.beq y = true ↔ x = y) ∧ (x.render = y.render ↔ x = y) := by
  refine ⟨beq_iff, fun htext => ?_, fun h => congrArg render h⟩
  have hwrite : x.write [] = y.write [] := String.ofList_inj.mp htext
  exact (write_inj x y hx hy atEnd_nil atEnd_nil hwrite).1

/-- An atom with a space inside, an empty atom and an empty list. -/
def blankInside : Sexp := list [atom "a b", atom "", list []]

/-- The same with two atoms in place of the first. -/
def blankBetween : Sexp := list [atom "a", atom "b", atom "", list []]

/-- Only the quotes tell `("a b" "" ())` and `(a b "" ())` apart. -/
theorem render_unambiguous_blank_inside :
    blankInside.Ordinary ∧ blankBetween.Ordinary ∧ blankInside.render ≠ blankBetween.render := by
  have htexts : ∀ a ∈ ["a b", "a", "b", ""], ∀ c ∈ a.toList, c ≠ '(' ∧ c ≠ ')' ∧ c ≠ '"' := by
    simp
  have hatoms : ∀ a ∈ ["a b", "a", "b", ""], (atom a).Ordinary := fun a ha => .atom (htexts a ha)
  have hempty : (list []).Ordinary := .list (by simp)
  have hinside : blankInside.Ordinary := .list (by simp [hatoms, hempty])
  have hbetween : blankBetween.Ordinary := .list (by simp [hatoms, hempty])
  have hne : blankInside ≠ blankBetween := by decide
  exact ⟨hinside, hbetween, mt (render_unambiguous _ _ hinside hbetween).2.mp hne⟩

/-- With parentheses in an atom two S-expressions may have the same text. -/
example : (atom "()").render = (list []).render := by decide

end Sexp

end NameBinding
