import CssTokens.Kind
import CssTokens.Position

/-!
# CssTokens.Token — a kind, a place, and no text

A token says what it is, which bytes of the text it covers, and the positions of its first and of
its last character.  Its text is cut out of the input when it is needed.

A token is written as seven numbers (`record`, read back by `ofRecord?`) or as a debugging text.
-/

namespace CssTokens

set_option autoImplicit false

/-- A classified stretch of a text. -/
structure Token where
  kind : Kind
  span : Span
  /-- Position of the first character. -/
  first : Position
  /-- Position of the last character; that of the first if there is only one. -/
  last : Position
deriving DecidableEq

namespace Token

/-- The number of the kind, the ends of the span, and lines and columns of the two positions. -/
def record (t : Token) : List Nat :=
  [t.kind.code, t.span.start, t.span.stop, t.first.line, t.first.column, t.last.line,
    t.last.column]

/-- The token with a given record. -/
def ofRecord? : List Nat → Option Token
  | [kind, start, stop, firstLine, firstColumn, lastLine, lastColumn] =>
    (Kind.ofCode? kind).map fun kind =>
      ⟨kind, ⟨start, stop⟩, ⟨firstLine, firstColumn⟩, ⟨lastLine, lastColumn⟩⟩
  | _ => none

theorem ofRecord?_record (t : Token) : ofRecord? t.record = some t := by
  simp [ofRecord?, record, Kind.ofCode?_code]

/-- The debugging text of a token: kind, span and positions. -/
def debug (t : Token) : String :=
  s!"{t.kind.title} @ {t.span.text} ({t.first.text}-{t.last.text})"

end Token

end CssTokens
