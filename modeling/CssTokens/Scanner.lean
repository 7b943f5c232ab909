import CssTokens.Cursor.Enclosed
import CssTokens.Cursor.Group
import CssTokens.Lexeme
import CssTokens.OpenParens

/-!
# CssTokens.Scanner — one lexeme after the other

The byte under the cursor decides what begins there (`Opening.ofByte`), and `next` finds where it
ends.  Scanning never fails on what the text says: a construct without its end is a lexeme of its
own.  It can only fail by reading behind the padding, and that takes a cursor that was put there.

Beside the cursor a scanner carries what it knows about parentheses that open no group.  It decides
nothing: with or without it the same lexemes come out, only faster.

`CssTokens.Scanner.Progress` holds the main statement about scanning: from anywhere in the text the
next lexeme is found, and the scanner moves by its length and stays in the text.
-/

namespace CssTokens

set_option autoImplicit false

/-- What the byte under the cursor begins. -/
inductive Opening where
  /-- The end of the text, or a zero byte in it. -/
  | zero
  /-- A run of blanks. -/
  | blank
  /-- A word marked by `@`. -/
  | atWord
  /-- A string in quotes of this sort. -/
  | quote (quote : UInt8)
  /-- A comment, or a slash. -/
  | slash
  /-- A group, or an opening parenthesis. -/
  | paren
  /-- A character that is a token of its own. -/
  | mark (kind : Kind)
  /-- A word. -/
  | word
  /-- A character that is a word of its own. -/
  | stray
deriving DecidableEq

namespace Opening

/-- The kind of token that a byte is all by itself. -/
def mark? (b : UInt8) : Option Kind :=
  if b = Byte.closeParen then some .closeParen
  else if b = Byte.openSquare then some .openSquare
  else if b = Byte.closeSquare then some .closeSquare
  else if b = Byte.openCurly then some .openCurly
  else if b = Byte.closeCurly then some .closeCurly
  else if b = Byte.colon then some .colon
  else if b = Byte.semicolon then some .semicolon
  else none

/-- What a byte begins. -/
def ofByte (b : UInt8) : Opening :=
  if b = Byte.zero then zero
  else if Byte.isBlank b then blank
  else if b = Byte.atSign then atWord
  else if Byte.isQuote b then quote b
  else if b = Byte.slash then slash
  else if b = Byte.openParen then paren
  else if Byte.isWordStart b then word
  else
    match mark? b with
    | some kind => mark kind
    | none => stray

theorem ofByte_zero : ofByte 0 = zero := rfl

end Opening

/-- A cursor, and what is known about the parentheses ahead of it. -/
structure Scanner (src : Source) where
  cursor : Cursor src
  openParens : OpenParens
deriving DecidableEq

namespace Scanner

variable {src : Source}

/-- A scanner that begins at a cursor and knows nothing yet. -/
def ofCursor (c : Cursor src) : Scanner src :=
  ⟨c, .empty⟩

/-- A scanner at the start of a source. -/
def start (src : Source) : Scanner src :=
  ofCursor (Cursor.start src)

/-- Offset at which the next lexeme begins. -/
def pos (s : Scanner src) : Nat :=
  s.cursor.pos

/-- Whether every byte of the text has been passed. -/
def atEnd (s : Scanner src) : Reading Bool :=
  s.cursor.atEnd

/-- The lexeme that ends where a cursor stands, and the scanner there. -/
def upTo (s : Scanner src) (tag : Tag) (c : Cursor src) : Lexeme × Scanner src :=
  (⟨tag, c.pos - s.pos⟩, { s with cursor := c })

/-- An opening parenthesis that opens no group, and what is known behind it. -/
def parenAlone (s : Scanner src) (openParens : OpenParens) : Lexeme × Scanner src :=
  (⟨.token .openParen, 1⟩, ⟨s.cursor.advance 1, openParens⟩)

/-- The lexeme at an opening parenthesis: the group up to the matching one, or the parenthesis
alone if a quote comes first, now or on an earlier search. -/
def nextParen (s : Scanner src) : Reading (Lexeme × Scanner src) := do
  let (known, openParens) := s.openParens.lookup s.pos
  if known then
    return s.parenAlone openParens
  else
    match ← (s.cursor.advance 1).scanGroup [] with
    | .closed c => return { s with openParens }.upTo (.token .brackets) c
    | .quoted _ opened => return s.parenAlone (.ofInnermostFirst opened)
    | .missing c => return { s with openParens }.upTo (.unclosed .bracket) c

/-- The lexeme at a slash: a comment, or the slash as a word. -/
def nextSlash (s : Scanner src) : Reading (Lexeme × Scanner src) := do
  if (← s.cursor.peek) = Byte.star then
    match (s.cursor.advance 2).skipPastCommentEnd with
    | (true, c) => return s.upTo (.token .comment) c
    | (false, c) => return s.upTo (.unclosed .comment) c
  else
    return s.upTo (.token .word) (← s.cursor.advanceChar)

/-- The lexeme at a quote: the string up to its other quote. -/
def nextQuote (s : Scanner src) (quote : UInt8) : Reading (Lexeme × Scanner src) := do
  match ← (s.cursor.advance 1).skipString quote with
  | (true, c) => return s.upTo (.token .string) c
  | (false, c) => return s.upTo (.unclosed .string) c

/-- The lexeme at a zero byte: the end of the text, or the byte as a word. -/
def nextZero (s : Scanner src) : Reading (Lexeme × Scanner src) := do
  if ← s.atEnd then
    return (⟨.finish, 0⟩, s)
  else
    return s.upTo (.token .word) (← s.cursor.advanceChar)

/-- The next lexeme, and the scanner behind it.  At the end of the text it is the same over and
over. -/
def next (s : Scanner src) : Reading (Lexeme × Scanner src) := do
  match Opening.ofByte (← s.cursor.current) with
  | .zero => s.nextZero
  | .blank => return s.upTo (.token .space) (← s.cursor.skipBlanks)
  | .atWord => return s.upTo (.token .atWord) (← (s.cursor.advance 1).skipWord)
  | .quote quote => s.nextQuote quote
  | .slash => s.nextSlash
  | .paren => s.nextParen
  | .mark kind => return s.upTo (.token kind) (s.cursor.advance 1)
  | .word => return s.upTo (.token .word) (← s.cursor.skipWord)
  | .stray => return s.upTo (.token .word) (← s.cursor.advanceChar)

end Scanner

end CssTokens
