import NameBinding.Error

/-!
# Diagnostics

A diagnostic names a token and, when it knows the file, points at it: the line and column of the
token, the line it stands on with the token highlighted, and a row of marks beneath. Text is a
sequence of bytes here, and columns count bytes.

A token is a stretch of some buffer. A stretch is cut where its buffer ends (`Span.within`), so a
diagnostic never points past the end of its text (`Diagnostic.inside`). Files that are offered
afterwards may be stretches of the same buffer, which locate the token if they contain all of it, or
other buffers, which never do. The last file that contains the token counts.
-/

namespace NameBinding

/-- Text as bytes. -/
abbrev Bytes := List UInt8

/-- The bytes of a text. -/
def Bytes.ofString (text : String) : Bytes := text.toUTF8.data.toList

/-- A stretch of a buffer. -/
structure Span where
  start : Nat
  length : Nat

namespace Span

/-- Where the stretch ends. -/
def stop (s : Span) : Nat := s.start + s.length

/-- Does the stretch contain all of another one? -/
def covers (s t : Span) : Bool := s.start ≤ t.start && t.stop ≤ s.stop

/-- The bytes of the stretch, as far as the buffer goes. -/
def bytes (s : Span) (buffer : Bytes) : Bytes := (buffer.drop s.start).take s.length

/-- All of a buffer. -/
def whole (buffer : Bytes) : Span := ⟨0, buffer.length⟩

/-- All of a buffer ends where the buffer ends. -/
theorem stop_whole (buffer : Bytes) : (whole buffer).stop = buffer.length := Nat.zero_add _

/-- The stretch of `length` bytes from `start` on, cut where the buffer ends. It may start right at
the end but not past it. -/
def within (buffer : Bytes) (start length : Nat) :
    Except Error { s : Span // s.stop ≤ buffer.length } :=
  if h : start ≤ buffer.length then
    .ok ⟨⟨start, min length (buffer.length - start)⟩, by
      show start + min length (buffer.length - start) ≤ buffer.length
      omega⟩
  else .error .outOfRange

end Span

namespace Diagnostic

/-- What went wrong with a token. -/
inductive Cause where
  | unboundIdentifier
  | malformed (what : Bytes)

/-- A file offered to a diagnostic. -/
inductive Source where
  /-- A stretch of the buffer that the token was taken from. -/
  | window (span : Span) (name : Bytes)
  /-- Some other buffer. -/
  | unrelated

/-! ### Styling -/

/-- Starts bold text. -/
def bold : Bytes := Bytes.ofString "\x1b[1m"

/-- Starts red text. -/
def red : Bytes := Bytes.ofString "\x1b[31m"

/-- Ends all styling. -/
def plain : Bytes := Bytes.ofString "\x1b[0m"

/-- The end of a line. -/
def newline : UInt8 := 10

end Diagnostic

/-- A report about a token: its text, the buffer and the stretch it was taken from, and the file it
is located in, if any. -/
structure Diagnostic where
  cause : Diagnostic.Cause
  token : Bytes
  buffer : Bytes
  location : Span
  file : Option (Span × Bytes)
  /-- The token does not go past the end of its buffer. -/
  inside : location.stop ≤ buffer.length

namespace Diagnostic

/-- An identifier that is not bound, found at a stretch of a buffer. -/
def unbound (buffer : Bytes) (location : Span) (inside : location.stop ≤ buffer.length) :
    Diagnostic :=
  ⟨.unboundIdentifier, location.bytes buffer, buffer, location, none, inside⟩

/-- An S-expression without meaning. Only an atom was taken from somewhere. -/
def malformed (what : String) (raw : Sexp) : Diagnostic :=
  let buffer := match raw with
    | .atom a => Bytes.ofString a
    | .list _ => []
  ⟨.malformed (Bytes.ofString what), Bytes.ofString raw.render, buffer, .whole buffer, none,
    Nat.le_of_eq (Span.stop_whole buffer)⟩

/-- The report on a failure that is about a token. -/
def ofError? : Error → Option Diagnostic
  | .unboundIdentifier id =>
    let buffer := Bytes.ofString id
    some (unbound buffer (.whole buffer) (Nat.le_of_eq (Span.stop_whole buffer)))
  | .malformed what raw => some (malformed what raw)
  | _ => none

/-- Offers a file, which is taken if it contains the token and the token is not empty. -/
def link (d : Diagnostic) : Source → Diagnostic
  | .window span name =>
    if d.location.length ≠ 0 ∧ span.covers d.location then { d with file := some (span, name) }
    else d
  | .unrelated => d

/-- What is wrong with the token, in words. -/
def describe (d : Diagnostic) : Bytes :=
  match d.cause with
  | .unboundIdentifier => Bytes.ofString "unbound identifier " ++ bold ++ d.token ++ plain
  | .malformed what =>
    Bytes.ofString "malformed " ++ what ++ Bytes.ofString " " ++ bold ++ d.token ++ plain

/-! ### Where the token stands -/

/-- A place in a file: the line and the column, both counted from one, and the line cut into what
stands before the token, the part of the token on this line, and what stands after it. -/
structure Place where
  line : Nat
  column : Nat
  before : Bytes
  shown : Bytes
  after : Bytes

/-- The place of the stretch `t` in the stretch `w` of a buffer. -/
def place (buffer : Bytes) (w t : Span) : Place :=
  let prior := (buffer.drop w.start).take (t.start - w.start)
  let before := (prior.reverse.takeWhile (· ≠ newline)).reverse
  let rest := ((buffer.drop t.start).take (w.stop - t.start)).takeWhile (· ≠ newline)
  { line := prior.count newline + 1
    column := before.length + 1
    before := before
    shown := rest.take t.length
    after := rest.drop t.length }

/-- A number in decimal. -/
def number (n : Nat) : Bytes := Bytes.ofString n.repr

/-- Blank space. -/
def spaces (n : Nat) : Bytes := List.replicate n 32

/-- The line number, padded to five columns. -/
def lineNumber (n : Nat) : Bytes := spaces (5 - (number n).length) ++ number n

/-- The line of the token, the token highlighted. -/
def sourceRow (p : Place) : Bytes :=
  lineNumber p.line ++ Bytes.ofString " | " ++ p.before ++ bold ++ red ++ p.shown ++ plain ++
    p.after ++ [newline]

/-- How many marks follow the first one beneath `n` bytes: one less than there are bytes, and none
if that is negative. It is counted in a signed number of 32 bits, so from `2 ^ 31` bytes on it
wraps. -/
def furtherMarks (n : Nat) : Nat := (Int32.ofNat n - 1).toInt.toNat

/-- The marks beneath the part of the token that is shown. -/
def markRow (p : Place) : Bytes :=
  Bytes.ofString "      |" ++ spaces p.column ++ bold ++ red ++ Bytes.ofString "^" ++
    List.replicate (furtherMarks p.shown.length) 126 ++ plain ++ [newline]

/-- The whole report. -/
def print (d : Diagnostic) : Bytes :=
  match d.file with
  | none => bold ++ red ++ Bytes.ofString "error: " ++ plain ++ d.describe ++ [newline]
  | some (w, name) =>
    let p := place d.buffer w d.location
    bold ++ name ++ Bytes.ofString ":" ++ number p.line ++ Bytes.ofString ":" ++ number p.column ++
      Bytes.ofString ": " ++ red ++ Bytes.ofString "error: " ++ plain ++ d.describe ++ [newline] ++
      sourceRow p ++ markRow p

end Diagnostic

end NameBinding
