import CssTokens.Token

/-!
# CssTokens.Event — what a tokenizer reports while it works

A tokenizer reports each token it finds, each token it takes back, and each time it lets the end of
the text stand in for a missing closing delimiter.  An event has a level and fields; one of the
fields is the message.
-/

namespace CssTokens

set_option autoImplicit false

/-- How much an event matters. -/
inductive Level where
  | debug
  | trace
deriving DecidableEq

/-- The value of a field of an event. -/
inductive FieldValue where
  | number (n : Nat)
  | text (s : String)
deriving DecidableEq

/-- Something that a tokenizer reports. -/
inductive Event where
  /-- A token was found. -/
  | found (token : Token)
  /-- A token was taken back. -/
  | takenBack (token : Token)
  /-- A construct without its end is let go up to the end of the text. -/
  | recovered (construct : Unclosed) (span : Span)
deriving DecidableEq

namespace Event

/-- Recoveries are for debugging, everything else for tracing. -/
def level : Event → Level
  | found _ => .trace
  | takenBack _ => .trace
  | recovered _ _ => .debug

/-- What happened. -/
def message : Event → String
  | found _ => "token"
  | takenBack _ => "back"
  | recovered _ _ => "recovered"

/-- The kind of token that an event is about. -/
def kind : Event → Kind
  | found t => t.kind
  | takenBack t => t.kind
  | recovered construct _ => construct.kind

/-- The span that an event is about. -/
def span : Event → Span
  | found t => t.span
  | takenBack t => t.span
  | recovered _ span => span

/-- What is wrong, for events that are about something wrong. -/
def errorField : Event → List (String × FieldValue)
  | recovered construct _ => [("error", .text construct.message)]
  | _ => []

/-- The fields of an event, sorted by name. -/
def fields (e : Event) : List (String × FieldValue) :=
  ("end", .number e.span.stop) :: e.errorField ++
    [("kind", .text e.kind.name), ("message", .text e.message), ("start", .number e.span.start)]

end Event

end CssTokens
