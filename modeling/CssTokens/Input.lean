import CssTokens.Failure
import CssTokens.LineIndex
import CssTokens.Source
import CssTokens.Token

/-!
# CssTokens.Input — a text ready to be split

An input is a source with a name for messages and the index of its lines.  The index belongs to the
text, and the type says so.  Any number of tokenizers may read one input.
-/

namespace CssTokens

set_option autoImplicit false

/-- A source with a name and its line index. -/
structure Input where
  source : Source
  /-- The name used in messages, often that of a file. -/
  name : String
  lines : LineIndex
  lines_eq : lines = LineIndex.build source.text

namespace Input

/-- The name of an input that was given none. -/
def defaultName : String := "<input css>"

/-- A text too long to be a source is too long to be an input. -/
def tooLarge (e : SourceTooLong) : InputTooLong :=
  ⟨e.size, Source.maxSize⟩

/-- Admits a length, with the proof that it is small enough. -/
def checkSize (n : Nat) : Except InputTooLong (PLift (n ≤ Source.maxSize)) :=
  (Source.checkSize n).mapError tooLarge

/-- The input with a given text and name, if the text is short enough. -/
def ofText (text name : String) : Except InputTooLong Input :=
  ((Source.ofText text).mapError tooLarge).map fun source =>
    ⟨source, name, LineIndex.build source.text, rfl⟩

variable (input : Input)

/-- The text itself. -/
def text : String :=
  input.source.text

/-- Length of the text in bytes. -/
def size : Nat :=
  input.source.size

/-- Whether the text is empty. -/
def isEmpty : Bool :=
  input.source.isEmpty

/-- Number of lines of the text. -/
def lineCount : Nat :=
  input.lines.lineCount

/-- Line and column of an offset. -/
def position (offset : Nat) : Position :=
  input.lines.position input.text offset

/-- Line and column of an offset, with a hint from the last one and for the next one. -/
def locate (offset : Nat) (hint : ColumnHint) : Position × ColumnHint :=
  input.lines.locate input.text offset hint

/-- The text of a span; empty if the span is not a stretch of characters of this input. -/
def sliceSpan (span : Span) : String :=
  Utf8.slice input.text span.start span.stop

/-- The text that this input has where a token says.  A token does not know its input: that of another
one has whatever stands here at its span. -/
def slice (token : Token) : String :=
  input.sliceSpan token.span

/-- Offset of the last character of a span; that of its start if it is empty. -/
def lastCharOffset (span : Span) : Nat :=
  Utf8.lastCharOffset input.text span.start span.stop

/-- The token of a kind with a given span, and the hint behind it.  A token of one byte has one
position; in a longer one the last character is looked for. -/
def tokenAt (kind : Kind) (span : Span) (hint : ColumnHint) : Token × ColumnHint :=
  let (first, hint) := input.locate span.start hint
  if span.length ≤ 1 then
    (⟨kind, span, first, first⟩, hint)
  else
    let (last, hint) := input.locate (input.lastCharOffset span) hint
    (⟨kind, span, first, last⟩, hint)

end Input

end CssTokens
