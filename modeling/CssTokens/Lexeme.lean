import CssTokens.Kind

/-!
# CssTokens.Lexeme — what one step of scanning finds

A step of scanning finds a token, or a construct that the end of the text cuts short, or that the
text is over.  A lexeme says which, and how many bytes it covers; where it begins is where the step
began, and its text is looked up in the source.
-/

namespace CssTokens

set_option autoImplicit false

/-- What a step of scanning found. -/
inductive Tag where
  /-- A whole token. -/
  | token (kind : Kind)
  /-- A construct without its closing delimiter; it reaches to the end of the text. -/
  | unclosed (construct : Unclosed)
  /-- The end of the text. -/
  | finish
deriving DecidableEq

namespace Tag

/-- The number of a tag: that of the kind for a token, and numbers from 240 on for the rest. -/
def code : Tag → Nat
  | token kind => kind.code
  | unclosed .string => 240
  | unclosed .comment => 241
  | unclosed .bracket => 242
  | finish => 255

/-- The kind of token that a tag stands for, on recovery if it is unclosed. -/
def kind? : Tag → Option Kind
  | token kind => some kind
  | unclosed construct => some construct.kind
  | finish => none

end Tag

/-- A tag and the number of bytes it covers. -/
structure Lexeme where
  tag : Tag
  length : Nat
deriving DecidableEq

end CssTokens
