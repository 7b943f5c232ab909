import CssTokens.Byte
import CssTokens.Position
import CssTokens.Utf8

/-!
# CssTokens.LineIndex — from offsets to lines and columns

A line ends with a line feed, a form feed, a carriage return, or a carriage return and a line feed
together, which are one line break.  A line break belongs to the line it ends.

The index of a text holds the offset at which each of its lines starts.  The line of an offset is
then the number of starts at or before it, found by halving (`rank`), and the column is one more
than the number of characters that begin between the start of the line and the offset.

Offsets are mostly asked for in ascending order.  A `ColumnHint` keeps the last answer, and if the
next offset is on the same line and not before it, counting goes on from there (`resume`).  The hint
changes how much is counted and never the answer.

An index may be asked about a text other than its own.  Offsets are cut to the length of the text
that is given, so nothing outside of it is looked at (`resume_le`).
-/

namespace CssTokens

set_option autoImplicit false

/-- The offsets at which the lines of a text start. -/
structure LineIndex where
  /-- In ascending order; the first line starts at zero. -/
  starts : Array Nat
deriving DecidableEq

namespace LineIndex

/-! ## Line breaks -/

/-- The offset behind the line break that begins at `i`, if one does. -/
def breakEnd? (text : String) (i : Nat) : Option Nat :=
  match Utf8.byte? text i with
  | none => none
  | some b =>
    if b = Byte.carriageReturn then
      if Utf8.byte? text (i + 1) = some Byte.lineFeed then some (i + 2) else some (i + 1)
    else if b = Byte.lineFeed ∨ b = Byte.formFeed then some (i + 1)
    else none

/-- A line break is one byte of the text or two. -/
theorem breakEnd?_eq_some {text : String} {i next : Nat} (h : breakEnd? text i = some next) :
    i < next ∧ next ≤ text.utf8ByteSize := by
  unfold breakEnd? at h
  split at h
  · exact absurd h (by simp)
  · next b hb =>
    have hlt := Utf8.lt_size_of_byte? hb
    split at h
    · split at h
      · next hlf =>
        have := Utf8.lt_size_of_byte? hlf
        injection h with h
        omega
      · injection h with h
        omega
    · split at h
      · injection h with h
        omega
      · exact absurd h (by simp)

/-- Appends to `found` the starts of the lines behind the line breaks from `i` on. -/
def startsFrom (text : String) (i : Nat) (found : Array Nat) : Array Nat :=
  if _hi : i < text.utf8ByteSize then
    match _h : breakEnd? text i with
    | some next => startsFrom text next (found.push next)
    | none => startsFrom text (i + 1) found
  else
    found
termination_by text.utf8ByteSize - i
decreasing_by
  · have := breakEnd?_eq_some _h
    omega
  · omega

/-- The index of a text. -/
def build (text : String) : LineIndex :=
  ⟨startsFrom text 0 #[0]⟩

/-! ## Lines -/

variable (index : LineIndex)

/-- Number of lines. -/
def lineCount : Nat :=
  index.starts.size

/-- The offset at which a line starts, if there is such a line; lines are counted from one. -/
def lineStart? : Nat → Option Nat
  | 0 => none
  | n + 1 => index.starts[n]?

/-- How many of the ascending numbers in `starts` are at most `offset`, if this holds of the first
`lo` and not of those from `hi` on. -/
def rank (starts : Array Nat) (offset lo hi : Nat) (h : hi ≤ starts.size) : Nat :=
  if hlt : lo < hi then
    if starts[(lo + hi) / 2] ≤ offset then
      rank starts offset ((lo + hi) / 2 + 1) hi h
    else
      rank starts offset lo ((lo + hi) / 2) (by omega)
  else
    lo
termination_by hi - lo

/-- The line that an offset is on, counted from one. -/
def line (offset : Nat) : Nat :=
  rank index.starts offset 0 index.starts.size (Nat.le_refl _)

end LineIndex

/-! ## Columns -/

/-- The last position found, from which a count of columns can go on. -/
structure ColumnHint where
  /-- The line; zero before anything was found. -/
  line : Nat
  offset : Nat
  column : Nat
deriving DecidableEq

/-- Nothing was found yet; no line has this hint. -/
def ColumnHint.initial : ColumnHint :=
  ⟨0, 0, 0⟩

namespace LineIndex

variable (index : LineIndex)

/-- Where to count from, and the column there, for an offset on a line: at the hint if it is on the
line and not behind the offset, and else at the start of the line. -/
def resume (hint : ColumnHint) (line offset : Nat) : Nat × Nat :=
  if hint.line = line ∧ hint.offset ≤ offset then
    (hint.offset, hint.column)
  else
    (min ((index.lineStart? line).getD 0) offset, 1)

/-- The position of an offset, and the hint for the next one. -/
def locate (text : String) (offset : Nat) (hint : ColumnHint) : Position × ColumnHint :=
  let offset := min offset text.utf8ByteSize
  let line := index.line offset
  let (origin, column) := index.resume hint line offset
  let column := column + Utf8.countChars text origin offset
  (⟨line, column⟩, ⟨line, offset, column⟩)

/-- The position of an offset.  Offsets behind the text have the position of its end. -/
def position (text : String) (offset : Nat) : Position :=
  (index.locate text offset .initial).1

/-- Counting begins at or before the offset asked for. -/
theorem resume_le (hint : ColumnHint) (line offset : Nat) :
    (index.resume hint line offset).1 ≤ offset := by
  unfold resume
  split
  · next h => exact h.2
  · exact Nat.min_le_right _ _

/-! ## Debugging texts -/

/-- The debugging text of an index: its line starts. -/
def debug : String :=
  let starts := ", ".intercalate (index.starts.toList.map toString)
  s!"LineIndex \x7b line_starts: [{starts}] \x7d"

end LineIndex

/-- The debugging text of a hint. -/
def ColumnHint.debug (hint : ColumnHint) : String :=
  s!"LineColHint \x7b line: {hint.line}, offset: {hint.offset}, column: {hint.column} \x7d"

end CssTokens
