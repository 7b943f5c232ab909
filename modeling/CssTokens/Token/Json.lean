import CssTokens.Json.Reader
import CssTokens.Token

/-!
# CssTokens.Token.Json — tokens as JSON

Kinds are written by name, and here the punctuation kinds have names in words.  Spans, positions and
tokens are records; lists of tokens are arrays.

On reading a kind may also be an object whose only key is the name, with the value `null`; records
are read as `Value.fields?` says, and numbers must fit in 32 bits.
-/

namespace CssTokens

set_option autoImplicit false

open Json (Value)

namespace Kind

/-- The name of a kind in JSON. -/
def key : Kind → String
  | openParen => "open-paren"
  | closeParen => "close-paren"
  | openSquare => "open-square"
  | closeSquare => "close-square"
  | openCurly => "open-curly"
  | closeCurly => "close-curly"
  | colon => "colon"
  | semicolon => "semicolon"
  | kind => kind.name

/-- The kind with a given name in JSON. -/
def ofKey? (key : String) : Option Kind :=
  all.find? fun kind => kind.key == key

theorem ofKey?_key (k : Kind) : ofKey? k.key = some k := by
  cases k <;> decide

/-- A kind as a value of JSON. -/
def toJson (k : Kind) : Value :=
  .ofString k.key

/-- The kind that a value of JSON stands for. -/
def ofJson? : Value → Option Kind
  | .string (.plain key) => ofKey? key
  | .object [(.plain key, .null)] => ofKey? key
  | _ => none

theorem ofJson?_toJson (k : Kind) : ofJson? k.toJson = some k :=
  ofKey?_key k

end Kind

namespace Span

/-- A span as a value of JSON. -/
def toJson (s : Span) : Value :=
  .ofFields [("start", .natural s.start), ("end", .natural s.stop)]

/-- The span that a value of JSON stands for. -/
def ofJson? (v : Value) : Option Span := do
  match ← v.allFields? ["start", "end"] with
  | [start, stop] => return ⟨← start.word?, ← stop.word?⟩
  | _ => none

end Span

namespace Position

/-- A position as a value of JSON. -/
def toJson (p : Position) : Value :=
  .ofFields [("line", .natural p.line), ("column", .natural p.column)]

/-- The position that a value of JSON stands for. -/
def ofJson? (v : Value) : Option Position := do
  match ← v.allFields? ["line", "column"] with
  | [line, column] => return ⟨← line.word?, ← column.word?⟩
  | _ => none

end Position

namespace Token

/-- A token as a value of JSON. -/
def toJson (t : Token) : Value :=
  .ofFields [("kind", t.kind.toJson), ("span", t.span.toJson), ("start", t.first.toJson),
    ("end", t.last.toJson)]

/-- The token that a value of JSON stands for. -/
def ofJson? (v : Value) : Option Token := do
  match ← v.allFields? ["kind", "span", "start", "end"] with
  | [kind, span, first, last] =>
    return ⟨← Kind.ofJson? kind, ← Span.ofJson? span, ← Position.ofJson? first,
      ← Position.ofJson? last⟩
  | _ => none

/-- A list of tokens as a value of JSON. -/
def listToJson (tokens : List Token) : Value :=
  .array (tokens.map toJson)

/-- The list of tokens that a value of JSON stands for. -/
def listOfJson? : Value → Option (List Token)
  | .array items => items.mapM ofJson?
  | _ => none

/-- The JSON text of a list of tokens. -/
def listText (tokens : List Token) : String :=
  (listToJson tokens).compact

/-- The list of tokens that a JSON text stands for. -/
def listOfText? (text : String) : Option (List Token) := do
  listOfJson? (← Value.read? text)

/-- The debugging text of a list of tokens. -/
def listDebug (tokens : List Token) : String :=
  "[" ++ ", ".intercalate (tokens.map debug) ++ "]"

end Token

end CssTokens
