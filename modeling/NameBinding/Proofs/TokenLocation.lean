import Mathlib.Algebra.Group.Nat.Defs
import Mathlib.Data.List.Induction
import NameBinding.Diagnostic

/-!
# Reports point at their token

A report that knows its file prints the line of the token and marks beneath it. What it prints is
measured here against the lines of the file, which are what lies between its newlines
(`List.splitOn`).

* Any text is a number of lines, each with its newline, and a rest without one
  (`Diagnostic.exists_terminated`). Cutting the file right before the token, the lines are counted
  by their newlines, and the rest, together with what follows up to the next newline, is the line of
  the token (`Diagnostic.splitOn_append`, `Diagnostic.place_eq`).
* A row is text with a highlighted part (`Diagnostic.Row`). Without its styling the row of the
  source is that line behind a column of numbers, which is five bytes wide up to line 99999
  (`Diagnostic.length_lineNumber_eq_five_iff`); only so far does the mark stand beneath the token.
* There is a mark for each byte shown, but one less is counted in 32 bits, so only for fewer than
  `2 ^ 31` bytes (`Diagnostic.furtherMarks_eq`).
* Of the files that are offered, the last one that contains the token counts
  (`Diagnostic.linkAll_eq`).

`Diagnostic.print_points_at_token` is the whole of it, and
`Diagnostic.print_underlines_long_token_once` shows a token that is too long for its marks.
-/

namespace NameBinding

namespace Diagnostic

/-! ### Lines -/

/-- Lines one after the other, each with its newline. -/
def terminated (ls : List Bytes) : Bytes := ls.flatMap (· ++ [newline])

/-- What stands behind the last newline. -/
def lastLine (text : Bytes) : Bytes := (text.reverse.takeWhile (· ≠ newline)).reverse

/-- Behind a newline the last line is empty. -/
theorem lastLine_append_newline (text : Bytes) : lastLine (text ++ [newline]) = [] := by
  simp [lastLine]

/-- A byte that is no newline goes on with the last line. -/
theorem lastLine_append_singleton (text : Bytes) {b : UInt8} (hb : b ≠ newline) :
    lastLine (text ++ [b]) = lastLine text ++ [b] := by
  simp [lastLine, hb]

/-- A text is a number of lines, each with its newline, and a last one without. -/
theorem exists_terminated (text : Bytes) :
    ∃ ls, (∀ l ∈ ls, newline ∉ l) ∧ newline ∉ lastLine text ∧
      text = terminated ls ++ lastLine text := by
  -- from the end, where a newline closes the last line and any other byte makes it longer
  induction text using List.reverseRecOn with
  | nil => exact ⟨[], by simp, by simp [lastLine], rfl⟩
  | append_singleton text b ih =>
    obtain ⟨ls, hls, hlast, htext⟩ := ih
    by_cases hb : b = newline
    · subst hb
      refine ⟨ls ++ [lastLine text], ?_, ?_, ?_⟩
      · simpa [or_imp, forall_and] using ⟨hls, hlast⟩
      · simp [lastLine_append_newline]
      · calc text ++ [newline] = (terminated ls ++ lastLine text) ++ [newline] := by rw [← htext]
          _ = terminated (ls ++ [lastLine text]) ++ lastLine (text ++ [newline]) := by
            simp [terminated, lastLine_append_newline]
    · refine ⟨ls, hls, ?_, ?_⟩
      · simp [lastLine_append_singleton text hb, hlast, Ne.symm hb]
      · rw [lastLine_append_singleton text hb, ← List.append_assoc, ← htext]

/-- There is one newline for each terminated line. -/
theorem count_terminated {ls : List Bytes} (h : ∀ l ∈ ls, newline ∉ l) :
    (terminated ls).count newline = ls.length := by
  induction ls with
  | nil => rfl
  | cons l ls ih =>
    obtain ⟨hl, hls⟩ := List.forall_mem_cons.mp h
    have hrest := ih hls
    simp only [terminated] at hrest ⊢
    simp [hrest, List.count_eq_zero.mpr hl]

/-- Lines with their newlines are split into the lines. -/
theorem splitOn_terminated_append {ls : List Bytes} (h : ∀ l ∈ ls, newline ∉ l) (rest : Bytes) :
    (terminated ls ++ rest).splitOn newline = ls ++ rest.splitOn newline := by
  induction ls with
  | nil => rfl
  | cons l ls ih =>
    obtain ⟨hl, hls⟩ := List.forall_mem_cons.mp h
    have hshape : terminated (l :: ls) ++ rest = l ++ newline :: (terminated ls ++ rest) := by
      simp [terminated]
    rw [hshape, List.splitOn_append_cons_self_of_not_mem hl, ih hls, List.cons_append]

/-- What stands before the first newline. -/
def firstLine (text : Bytes) : Bytes := text.takeWhile (· ≠ newline)

/-- The first line has no newline. -/
theorem newline_not_mem_firstLine (text : Bytes) : newline ∉ firstLine text := by
  intro hmem
  have hall := List.all_eq_true.mp List.all_takeWhile newline hmem
  simp at hall

/-- A text ends with its first line, or goes on behind a newline. -/
theorem eq_firstLine_or (text : Bytes) :
    text = firstLine text ∨ ∃ more, text = firstLine text ++ newline :: more := by
  induction text with
  | nil => exact Or.inl rfl
  | cons b text ih =>
    by_cases hb : b = newline
    · exact Or.inr ⟨text, by simp [firstLine, hb]⟩
    · have hfirst : firstLine (b :: text) = b :: firstLine text := by simp [firstLine, hb]
      rw [hfirst]
      rcases ih with htext | ⟨more, htext⟩
      · exact Or.inl (congrArg (b :: ·) htext)
      · exact Or.inr ⟨more, congrArg (b :: ·) htext⟩

/-- Before any other line comes what stands before the first newline. -/
theorem exists_splitOn_eq_cons {line : Bytes} (h : newline ∉ line) (rest : Bytes) :
    ∃ more, (line ++ rest).splitOn newline = (line ++ firstLine rest) :: more := by
  have hfirst : newline ∉ line ++ firstLine rest := by
    simp [h, newline_not_mem_firstLine]
  rcases eq_firstLine_or rest with hrest | ⟨more, hrest⟩
  · refine ⟨[], ?_⟩
    rw [← hrest] at hfirst ⊢
    exact List.splitOn_eq_singleton hfirst
  · refine ⟨more.splitOn newline, ?_⟩
    calc (line ++ rest).splitOn newline
        = ((line ++ firstLine rest) ++ newline :: more).splitOn newline := by
          rw [List.append_assoc, ← hrest]
      _ = (line ++ firstLine rest) :: more.splitOn newline :=
          List.splitOn_append_cons_self_of_not_mem hfirst more

/-- The lines of a text that is cut in two. The cut goes through the line that begins with the last
line of the first part and goes on with the first line of the second; the lines before it are
counted by the newlines of the first part, and with these they fill it up to its last line. -/
theorem splitOn_append (prior rest : Bytes) :
    ∃ ls more, (prior ++ rest).splitOn newline =
        ls ++ (lastLine prior ++ firstLine rest) :: more ∧
      ls.length = prior.count newline ∧
      (terminated ls).length + (lastLine prior).length = prior.length := by
  obtain ⟨ls, hls, hlast, hprior⟩ := exists_terminated prior
  obtain ⟨more, hmore⟩ := exists_splitOn_eq_cons hlast rest
  refine ⟨ls, more, ?_, ?_, ?_⟩
  · calc (prior ++ rest).splitOn newline
        = (terminated ls ++ (lastLine prior ++ rest)).splitOn newline := by
          rw [← List.append_assoc, ← hprior]
      _ = ls ++ (lastLine prior ++ firstLine rest) :: more := by
          rw [splitOn_terminated_append hls, hmore]
  · calc ls.length = (terminated ls ++ lastLine prior).count newline := by
          rw [List.count_append, count_terminated hls, List.count_eq_zero.mpr hlast, Nat.add_zero]
      _ = prior.count newline := by rw [← hprior]
  · calc (terminated ls).length + (lastLine prior).length
        = (terminated ls ++ lastLine prior).length := List.length_append.symm
      _ = prior.length := by rw [← hprior]

/-! ### The place of a token -/

section place

variable {buffer : Bytes} {w t : Span}

/-- A stretch covers those between its ends. -/
theorem covers_iff : w.covers t = true ↔ w.start ≤ t.start ∧ t.stop ≤ w.stop := by
  simp [Span.covers]

/-- From the token on, a window shows the buffer up to its own end. -/
theorem drop_bytes (h : w.covers t = true) :
    (w.bytes buffer).drop (t.start - w.start) =
      (buffer.drop t.start).take (w.stop - t.start) := by
  obtain ⟨hstart, hstop⟩ := covers_iff.mp h
  have hskip : w.start + (t.start - w.start) = t.start := by omega
  have hleft : w.length - (t.start - w.start) = w.stop - t.start := by
    simp only [Span.stop] at hstop ⊢
    omega
  rw [Span.bytes, List.drop_take, List.drop_drop, hskip, hleft]

/-- The place of a token, told from what stands in the window before the token and from there on. -/
theorem place_eq (h : w.covers t = true) :
    place buffer w t =
      (let prior := (w.bytes buffer).take (t.start - w.start)
       let line := firstLine ((w.bytes buffer).drop (t.start - w.start))
       { line := prior.count newline + 1
         column := (lastLine prior).length + 1
         before := lastLine prior
         shown := line.take t.length
         after := line.drop t.length }) := by
  obtain ⟨hstart, hstop⟩ := covers_iff.mp h
  simp only [Span.stop] at hstop
  have hprior : (w.bytes buffer).take (t.start - w.start) =
      (buffer.drop w.start).take (t.start - w.start) := by
    rw [Span.bytes, List.take_take, Nat.min_eq_left (by omega)]
  rw [hprior, drop_bytes h]
  rfl

/-- What is shown of a token is cut at its first newline. -/
theorem take_firstLine (h : w.covers t = true) :
    (firstLine ((w.bytes buffer).drop (t.start - w.start))).take t.length =
      firstLine (t.bytes buffer) := by
  obtain ⟨-, hstop⟩ := covers_iff.mp h
  simp only [Span.stop] at hstop
  rw [firstLine, List.take_takeWhile, drop_bytes h, List.take_take, Span.stop,
    Nat.min_eq_left (by omega)]
  rfl

/-- The place `p` is where the token stands in a file, told from the lines of the file. -/
structure PlacedIn (file : Bytes) (offset : Nat) (token : Bytes) (p : Place) : Prop where
  /-- Lines are counted by the newlines before the token. -/
  line : p.line = (file.take offset).count newline + 1
  /-- The lines before, with their newlines, and the columns before lead up to the token. -/
  column : (terminated ((file.splitOn newline).take (p.line - 1))).length + p.column = offset + 1
  /-- The three parts make up the line. -/
  text : (file.splitOn newline)[p.line - 1]? = some (p.before ++ (p.shown ++ p.after))
  before : p.column = p.before.length + 1
  /-- The token is cut where the line ends. -/
  shown : p.shown = token.takeWhile (· ≠ newline)

/-- The place of a token in a window that covers it is where the token stands in the window. -/
theorem placedIn_place (h : w.covers t = true) (hinside : t.stop ≤ buffer.length) :
    PlacedIn (w.bytes buffer) (t.start - w.start) (t.bytes buffer) (place buffer w t) := by
  have hoffset : ((w.bytes buffer).take (t.start - w.start)).length = t.start - w.start := by
    obtain ⟨hstart, hstop⟩ := covers_iff.mp h
    simp only [Span.stop] at hstop hinside
    rw [Span.bytes, List.length_take, List.length_take, List.length_drop]
    omega
  -- the file is cut right before the token
  obtain ⟨ls, more, hlines, hcount, hlength⟩ := splitOn_append
    ((w.bytes buffer).take (t.start - w.start)) ((w.bytes buffer).drop (t.start - w.start))
  rw [List.take_append_drop] at hlines
  rw [hoffset] at hlength
  rw [place_eq h]
  refine ⟨rfl, ?_, ?_, rfl, take_firstLine h⟩
  · rw [hlines, Nat.add_sub_cancel, ← hcount, List.take_left]
    exact congrArg (· + 1) hlength
  · rw [hlines, Nat.add_sub_cancel, ← hcount, List.take_append_drop,
      List.getElem?_append_right (Nat.le_refl _), Nat.sub_self, List.getElem?_cons_zero]

end place

/-! ### Rows -/

/-- A row of a report, with a highlighted part. -/
structure Row where
  before : Bytes
  marked : Bytes
  after : Bytes

namespace Row

/-- The row as printed. -/
def print (r : Row) : Bytes := r.before ++ bold ++ red ++ r.marked ++ plain ++ r.after ++ [newline]

/-- The row without its styling. -/
def text (r : Row) : Bytes := r.before ++ r.marked ++ r.after

/-- The column, counted in bytes from zero and without styling, in which the highlighted part
begins. -/
def column (r : Row) : Nat := r.before.length

end Row

/-- The row of the source. -/
def sourceLine (p : Place) : Row :=
  ⟨lineNumber p.line ++ Bytes.ofString " | " ++ p.before, p.shown, p.after⟩

/-- The row of the marks. -/
def marks (p : Place) : Row :=
  ⟨Bytes.ofString "      |" ++ spaces p.column,
    Bytes.ofString "^" ++ List.replicate (furtherMarks p.shown.length) 126, []⟩

/-- The row of the source is printed as its three parts. -/
theorem sourceRow_eq (p : Place) : sourceRow p = (sourceLine p).print := by
  simp only [sourceRow, Row.print, sourceLine]

/-- The row of the marks is printed as its three parts. -/
theorem markRow_eq (p : Place) : markRow p = (marks p).print := by
  simp only [markRow, Row.print, marks, List.append_assoc, List.nil_append]

/-- As long as they are counted without wrapping, there is a mark for each byte but the first. -/
theorem furtherMarks_eq {n : Nat} (h : n < 2 ^ 31) : furtherMarks n = n - 1 := by
  have hfits : ((n : Int) - 1).bmod (2 ^ 32) = n - 1 := by
    apply Int.bmod_eq_of_le <;> omega
  rw [furtherMarks, Int32.toInt_sub, Int32.toInt_ofNat_of_lt h, Int32.toInt_one, hfits]
  omega

/-- There is a mark for each byte shown and at least one, unless there are too many to count. -/
theorem length_marks {p : Place} (h : p.shown.length < 2 ^ 31) :
    (marks p).marked.length = max 1 p.shown.length := by
  have hcaret : (Bytes.ofString "^").length = 1 := rfl
  rw [marks, List.length_append, List.length_replicate, hcaret, furtherMarks_eq h]
  omega

/-! ### The column of line numbers -/

/-- A decimal digit is one byte. -/
theorem length_utf8EncodeChar_of_isDigit {c : Char} (h : c.isDigit = true) :
    (String.utf8EncodeChar c).length = 1 := by
  simp only [Char.isDigit, Bool.and_eq_true, decide_eq_true_eq] at h
  obtain ⟨-, hle⟩ := h
  rw [String.length_utf8EncodeChar, Char.utf8Size_eq_one_iff]
  exact UInt32.le_trans hle (by decide)

/-- A number is printed with one byte for each digit. -/
theorem length_number (n : Nat) : (number n).length = n.repr.length := by
  have hdigits : ∀ c ∈ Nat.toDigits 10 n, (String.utf8EncodeChar c).length = 1 := by
    intro c hc
    exact length_utf8EncodeChar_of_isDigit (Nat.isDigit_of_mem_toDigits (by decide) (by decide) hc)
  have hbytes : number n = (Nat.toDigits 10 n).flatMap String.utf8EncodeChar := by
    rw [number, Nat.repr_eq_ofList_toDigits]
    simp [Bytes.ofString, List.utf8Encode]
  rw [hbytes, List.length_flatMap, List.map_congr_left hdigits, List.map_const',
    List.sum_replicate_nat, Nat.mul_one, Nat.repr_eq_ofList_toDigits, String.length_ofList]

/-- Line numbers are padded to five bytes. -/
theorem length_lineNumber (n : Nat) : (lineNumber n).length = max 5 (number n).length := by
  simp only [lineNumber, spaces, List.length_append, List.length_replicate]
  omega

/-- Line numbers fit their column up to five digits. -/
theorem length_lineNumber_eq_five_iff (n : Nat) : (lineNumber n).length = 5 ↔ n ≤ 99999 := by
  have hdigits : n.repr.length ≤ 5 ↔ n < 10 ^ 5 := Nat.length_repr_le_iff (by decide)
  rw [length_lineNumber, length_number]
  omega

/-- The marks stand beneath the token exactly as long as line numbers fit their column. -/
theorem column_eq_column_iff {p : Place} (h : p.column = p.before.length + 1) :
    (sourceLine p).column = (marks p).column ↔ p.line ≤ 99999 := by
  have hbar : (Bytes.ofString " | ").length = 3 := rfl
  have hgutter : (Bytes.ofString "      |").length = 7 := rfl
  rw [← length_lineNumber_eq_five_iff]
  simp only [Row.column, sourceLine, marks, List.length_append, hbar, hgutter, spaces,
    List.length_replicate]
  omega

/-! ### Files -/

/-- The file and its name, if the source contains the stretch `t`. -/
def Source.offer? (t : Span) : Source → Option (Span × Bytes)
  | window w name => if w.covers t then some (w, name) else none
  | unrelated => none

/-- A source offers a file exactly if it is one that covers the stretch. -/
theorem Source.offer?_eq_some_iff {t w : Span} {name : Bytes} {source : Source} :
    source.offer? t = some (w, name) ↔ source = .window w name ∧ w.covers t = true := by
  cases source with
  | window w' name' =>
    simp only [offer?, Option.ite_none_right_eq_some, Option.some.injEq, Prod.mk.injEq,
      window.injEq]
    constructor
    · rintro ⟨hcovers, rfl, rfl⟩
      exact ⟨⟨rfl, rfl⟩, hcovers⟩
    · rintro ⟨⟨rfl, rfl⟩, hcovers⟩
      exact ⟨hcovers, rfl, rfl⟩
  | unrelated => simp [offer?]

/-- The report after some files were offered to it, one after the other. -/
def linkAll (d : Diagnostic) (sources : List Source) : Diagnostic := sources.foldl link d

/-- A located message takes the file that a source offers, and otherwise keeps its own. -/
theorem link_eq {d : Diagnostic} (h : d.location.length ≠ 0) (source : Source) :
    d.link source = { d with file := (source.offer? d.location).or d.file } := by
  cases source with
  | window w name =>
    simp only [link, Source.offer?, ne_eq, h, not_false_iff, true_and]
    split <;> rfl
  | unrelated => rfl

/-- Of all files that contain the token, the last one counts. -/
theorem linkAll_eq {d : Diagnostic} (h : d.location.length ≠ 0) (sources : List Source) :
    d.linkAll sources =
      { d with file := (sources.reverse.findSome? (Source.offer? d.location)).or d.file } := by
  induction sources generalizing d with
  | nil => rfl
  | cons source sources ih =>
    -- what the first file has done is the file so far for all others, which take precedence
    rw [linkAll, List.foldl_cons, ← linkAll, ih (by rwa [link_eq h])]
    simp only [link_eq h, List.reverse_cons, List.findSome?_append, List.findSome?_singleton,
      Option.or_assoc]

/-! ### The whole report -/

/-- The report points at the token of `d` in the window `w`, on line `y` and in column `x`: a
heading with these numbers, the row of the source and the row of the marks. -/
structure PointsAt (d : Diagnostic) (w : Span) (name report : Bytes) (y x : Nat)
    (source marks : Row) : Prop where
  rows : report =
    bold ++ name ++ Bytes.ofString ":" ++ number y ++ Bytes.ofString ":" ++ number x ++
      Bytes.ofString ": " ++ red ++ Bytes.ofString "error: " ++ plain ++ d.describe ++ [newline] ++
      source.print ++ marks.print
  /-- Lines are counted by the newlines before the token. -/
  line : y = ((w.bytes d.buffer).take (d.location.start - w.start)).count newline + 1
  /-- The lines before it, with their newlines, and the columns before it lead up to the token. -/
  column : (terminated (((w.bytes d.buffer).splitOn newline).take (y - 1))).length + x =
    d.location.start - w.start + 1
  /-- Without styling, the row of the source is the line behind its number. -/
  text : ∃ line, ((w.bytes d.buffer).splitOn newline)[y - 1]? = some line ∧
    source.text = lineNumber y ++ Bytes.ofString " | " ++ line ∧
    source.before = lineNumber y ++ Bytes.ofString " | " ++ line.take (x - 1)
  /-- The token is cut where its line ends. -/
  highlighted : source.marked = (d.location.bytes d.buffer).takeWhile (· ≠ newline)
  /-- The marks stand behind blank space, and nothing comes after them. -/
  underline : marks = ⟨Bytes.ofString "      |" ++ spaces x,
    94 :: List.replicate (furtherMarks source.marked.length) 126, []⟩
  /-- There is a mark for each byte, and at least one, unless there are too many to count. -/
  measure : source.marked.length < 2 ^ 31 → marks.marked.length = max 1 source.marked.length
  /-- The first mark stands beneath the first byte as long as the numbers fit their column. -/
  caret : source.column = marks.column ↔ y ≤ 99999

/-- A message that is linked to a file covering its token points at it. -/
theorem pointsAt_print (d : Diagnostic) {w : Span} (h : w.covers d.location = true)
    (name : Bytes) :
    PointsAt d w name { d with file := some (w, name) }.print (place d.buffer w d.location).line
      (place d.buffer w d.location).column (sourceLine (place d.buffer w d.location))
      (marks (place d.buffer w d.location)) := by
  have hplaced := placedIn_place h d.inside
  refine ⟨?_, hplaced.line, hplaced.column, ⟨_, hplaced.text, ?_, ?_⟩, hplaced.shown, rfl,
    length_marks, column_eq_column_iff hplaced.before⟩
  · simp only [print, sourceRow_eq, markRow_eq]
    rfl
  · simp only [Row.text, sourceLine, List.append_assoc]
  · rw [hplaced.before, Nat.add_sub_cancel, List.take_left]
    rfl

/-- **A report points at its token.** Take a token that is not empty, and offer any files to its
report, stretches of the buffer it was taken from or others. The report is located exactly if some
file that was offered contains all of the token, and then in the last such file. If so, it tells the
line and the column of the token in that file and prints the line with the token highlighted, up to
the end of the line, and with marks beneath it (`PointsAt`). If not, it tells what is wrong and
nothing else. -/
theorem print_points_at_token (d : Diagnostic) (hfile : d.file = none)
    (htoken : d.location.length ≠ 0) (sources : List Source) :
    ((d.linkAll sources).file.isSome = true ↔
      ∃ w name, Source.window w name ∈ sources ∧ w.covers d.location = true) ∧
    ((d.linkAll sources).file = none →
      (d.linkAll sources).print =
        bold ++ red ++ Bytes.ofString "error: " ++ plain ++ d.describe ++ [newline]) ∧
    ∀ w name, (d.linkAll sources).file = some (w, name) →
      (∃ earlier later, sources = earlier ++ .window w name :: later ∧
        w.covers d.location = true ∧
        ∀ w' name', Source.window w' name' ∈ later → w'.covers d.location = false) ∧
      ∃ y x source marks, PointsAt d w name (d.linkAll sources).print y x source marks := by
  have hlinked : d.linkAll sources =
      { d with file := sources.reverse.findSome? (Source.offer? d.location) } := by
    rw [linkAll_eq htoken, hfile, Option.or_none]
  rw [hlinked]
  refine ⟨?_, fun hnone => ?_, fun w name hsome => ?_⟩
  · rw [List.findSome?_isSome_iff]
    constructor
    · rintro ⟨source, hsource, hoffer⟩
      obtain ⟨⟨w, name⟩, hoffer⟩ := Option.isSome_iff_exists.mp hoffer
      obtain ⟨rfl, hcovers⟩ := Source.offer?_eq_some_iff.mp hoffer
      exact ⟨w, name, List.mem_reverse.mp hsource, hcovers⟩
    · rintro ⟨w, name, hsource, hcovers⟩
      refine ⟨.window w name, List.mem_reverse.mpr hsource, ?_⟩
      rw [Source.offer?_eq_some_iff.mpr ⟨rfl, hcovers⟩]
      rfl
  · have hnone : sources.reverse.findSome? (Source.offer? d.location) = none := hnone
    rw [hnone]
    rfl
  · have hsome : sources.reverse.findSome? (Source.offer? d.location) = some (w, name) := hsome
    obtain ⟨later, source, earlier, hsplit, hoffer, hlater⟩ := List.findSome?_eq_some_iff.mp hsome
    obtain ⟨rfl, hcovers⟩ := Source.offer?_eq_some_iff.mp hoffer
    refine ⟨⟨earlier.reverse, later.reverse, ?_, hcovers, fun w' name' hmem => ?_⟩, ?_⟩
    · simpa using congrArg List.reverse hsplit
    · rw [Bool.eq_false_iff]
      intro hcovers'
      have hrefused := hlater _ (List.mem_reverse.mp hmem)
      rw [Source.offer?_eq_some_iff.mpr ⟨rfl, hcovers'⟩] at hrefused
      cases hrefused
    · rw [hsome]
      exact ⟨_, _, _, _, pointsAt_print d hcovers name⟩

/-- Two lines, of which the second one has an identifier that is not bound. -/
def secondLine : Diagnostic :=
  unbound (Bytes.ofString "(lam x\n (app x foo))") ⟨15, 3⟩ (by decide)

/-- The file as a whole is taken, and neither a later part of it that breaks off within the token
nor another file takes its place. -/
theorem print_points_at_token_second_line :
    secondLine.location.bytes secondLine.buffer = Bytes.ofString "foo" ∧
    ∃ source marks, PointsAt secondLine ⟨0, 20⟩ (Bytes.ofString "input")
      (secondLine.linkAll [.window ⟨0, 20⟩ (Bytes.ofString "input"),
        .window ⟨7, 10⟩ (Bytes.ofString "part"), .unrelated]).print 2 9 source marks := by
  refine ⟨by decide, ?_⟩
  obtain ⟨-, -, hlocated⟩ := print_points_at_token secondLine rfl (by decide)
    [.window ⟨0, 20⟩ (Bytes.ofString "input"), .window ⟨7, 10⟩ (Bytes.ofString "part"), .unrelated]
  obtain ⟨-, y, x, source, marks, hpoints⟩ := hlocated ⟨0, 20⟩ (Bytes.ofString "input") rfl
  obtain rfl : y = 2 := hpoints.line
  obtain rfl : x = 9 := by
    have hcolumn : 7 + x = 16 := hpoints.column
    omega
  exact ⟨source, marks, hpoints⟩

/-- An identifier of `n` bytes that is not bound, in a file of its own. -/
def longToken (n : Nat) : Diagnostic :=
  unbound (List.replicate n 97) ⟨0, n⟩
    (Nat.le_of_eq ((Nat.zero_add n).trans List.length_replicate.symm))

/-- The place of the only token of a file without newlines. -/
theorem place_longToken (n : Nat) :
    place (longToken n).buffer ⟨0, n⟩ (longToken n).location =
      ⟨1, 1, [], List.replicate n 97, []⟩ := by
  simp [place, longToken, unbound, Span.stop, newline]

/-- All of the token is highlighted, and the marks beneath it are those that are counted. -/
theorem pointsAt_longToken {n : Nat} (hn : n ≠ 0) (name : Bytes) :
    ∃ source marks, PointsAt (longToken n) ⟨0, n⟩ name
        ((longToken n).linkAll [.window ⟨0, n⟩ name]).print 1 1 source marks ∧
      source.marked.length = n ∧ marks.marked.length = furtherMarks n + 1 := by
  have hcovers : Span.covers ⟨0, n⟩ (longToken n).location = true :=
    covers_iff.mpr ⟨Nat.le_refl 0, Nat.le_refl _⟩
  have hlinked : (longToken n).linkAll [.window ⟨0, n⟩ name] =
      { longToken n with file := some (⟨0, n⟩, name) } := if_pos ⟨hn, hcovers⟩
  have hpoints := pointsAt_print (longToken n) hcovers name
  rw [place_longToken] at hpoints
  refine ⟨_, _, hlinked ▸ hpoints, List.length_replicate, ?_⟩
  rw [hpoints.underline, List.length_cons, List.length_replicate, sourceLine,
    List.length_replicate]

/-- Beneath a token of `2 ^ 31 + 1` bytes, all on one line, there is a single mark. -/
theorem print_underlines_long_token_once :
    ∃ source marks, PointsAt (longToken (2 ^ 31 + 1)) ⟨0, 2 ^ 31 + 1⟩ (Bytes.ofString "input")
        ((longToken (2 ^ 31 + 1)).linkAll
          [.window ⟨0, 2 ^ 31 + 1⟩ (Bytes.ofString "input")]).print 1 1 source marks ∧
      source.marked.length = 2 ^ 31 + 1 ∧ marks.marked.length = 1 := by
  have hcount : furtherMarks (2 ^ 31 + 1) = 0 := by decide
  obtain ⟨source, marks, hpoints, hsource, hmarks⟩ :=
    pointsAt_longToken (Nat.succ_ne_zero (2 ^ 31)) (Bytes.ofString "input")
  rw [hcount] at hmarks
  exact ⟨source, marks, hpoints, hsource, hmarks⟩

end Diagnostic

end NameBinding
