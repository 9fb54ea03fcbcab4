/-!
# S-expressions

An S-expression is an atom, which may be any text at all, or a list. `Sexp.render` writes one on a
single line: the items of a list stand between parentheses with one space between neighbours, and
an atom is written bare unless it is empty or contains blank space, when it stands between double
quotes. Nothing inside an atom is escaped.
-/

namespace NameBinding

/-- An atom or a list of S-expressions. -/
inductive Sexp where
  | atom (text : String)
  | list (items : List Sexp)
  deriving Inhabited

namespace Sexp

/-! ### Equality -/

mutual

/-- Are two S-expressions the same? -/
def beq : Sexp → Sexp → Bool
  | atom a, atom b => a == b
  | list xs, list ys => beqItems xs ys
  | _, _ => false

/-- Are two lists of S-expressions the same? -/
def beqItems : List Sexp → List Sexp → Bool
  | [], [] => true
  | x :: xs, y :: ys => beq x y && beqItems xs ys
  | _, _ => false

end

mutual

/-- S-expressions that compare equal are equal. -/
theorem eq_of_beq : (x y : Sexp) → beq x y = true → x = y
  | atom a, atom b, h => by simpa [beq] using h
  | list xs, list ys, h => by rw [eq_of_beqItems xs ys (by simpa [beq] using h)]
  | atom _, list _, h => by simp [beq] at h
  | list _, atom _, h => by simp [beq] at h

/-- Lists that compare equal item by item are equal. -/
theorem eq_of_beqItems : (xs ys : List Sexp) → beqItems xs ys = true → xs = ys
  | [], [], _ => rfl
  | x :: xs, y :: ys, h => by
      have h' : beq x y = true ∧ beqItems xs ys = true := by simpa [beqItems] using h
      rw [eq_of_beq x y h'.1, eq_of_beqItems xs ys h'.2]
  | [], _ :: _, h => by simp [beqItems] at h
  | _ :: _, [], h => by simp [beqItems] at h

end

mutual

/-- An S-expression compares equal to itself. -/
theorem beq_self : (x : Sexp) → beq x x = true
  | atom a => by simp [beq]
  | list xs => by rw [beq, beqItems_self xs]

/-- A list compares equal to itself. -/
theorem beqItems_self : (xs : List Sexp) → beqItems xs xs = true
  | [] => rfl
  | x :: xs => by rw [beqItems, beq_self x, beqItems_self xs]; rfl

end

/-- Comparing S-expressions item by item decides equality. -/
theorem beq_iff {x y : Sexp} : beq x y = true ↔ x = y :=
  ⟨eq_of_beq x y, fun h => h ▸ beq_self x⟩

instance : DecidableEq Sexp := fun _ _ => decidable_of_iff _ beq_iff

/-! ### Shape -/

/-- Is this an atom? -/
def isAtom : Sexp → Bool
  | atom _ => true
  | list _ => false

/-- Is this the atom with the given text? -/
def isAtomOf (text : String) : Sexp → Bool
  | atom a => a == text
  | list _ => false

/-- The list that a tag opens: `(tag field …)`. -/
def tagged (tag : String) (fields : List Sexp) : Sexp := list (atom tag :: fields)

/-! ### Writing -/

/-- The six characters that count as blank space inside an atom: space, tab, line feed, vertical
tab, form feed and carriage return. -/
def isBlank (c : Char) : Bool :=
  c == ' ' || c == '\t' || c == '\n' || c == '\x0b' || c == '\x0c' || c == '\r'

/-- An atom that would be lost or fall apart if it stood bare. -/
def needsQuotes (text : List Char) : Bool := text.isEmpty || text.any isBlank

/-- The characters of an atom as written. -/
def writeAtom (text : List Char) : List Char :=
  if needsQuotes text then '"' :: (text ++ ['"']) else text

mutual

/-- The characters of an S-expression as written, in front of `rest`. -/
def write : Sexp → List Char → List Char
  | atom a, rest => writeAtom a.toList ++ rest
  | list xs, rest => '(' :: writeItems xs (')' :: rest)

/-- The items of a list, one space between neighbours. -/
def writeItems : List Sexp → List Char → List Char
  | [], rest => rest
  | x :: xs, rest => write x (writeMore xs rest)

/-- Further items of a list, each after a space. -/
def writeMore : List Sexp → List Char → List Char
  | [], rest => rest
  | x :: xs, rest => ' ' :: write x (writeMore xs rest)

end

/-- An S-expression on one line. -/
def render (x : Sexp) : String := String.ofList (x.write [])

end Sexp

end NameBinding
