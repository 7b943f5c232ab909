/-!
# CssTokens.Kind — the fourteen kinds of token

A stylesheet is split into pieces of fourteen kinds.  Three of them have a closing delimiter that
the text may lack: strings, comments and parenthesis groups.  `Unclosed` names these constructs
when the text ends inside one; `Unclosed.kind` says what they would have been.

Each kind has a number that never changes (`code`, read back by `ofCode?`), a name for messages
(`name`: the punctuation kinds are called by their character), and a title for debugging texts.
-/

namespace CssTokens

set_option autoImplicit false

/-- What a token is. -/
inductive Kind where
  /-- A run of spaces, tabs and line breaks. -/
  | space
  /-- An identifier, a number, `!important`, an escape, or a single character such as `,`. -/
  | word
  /-- A quoted string with its quotes. -/
  | string
  /-- A comment with its markers. -/
  | comment
  /-- A parenthesis group taken as it stands, such as `(a/b.png)`. -/
  | brackets
  /-- An `@` and the word behind it, or an `@` alone. -/
  | atWord
  | openParen
  | closeParen
  | openSquare
  | closeSquare
  | openCurly
  | closeCurly
  | colon
  | semicolon
deriving DecidableEq

namespace Kind

/-- Every kind, in the order of the codes. -/
def all : List Kind :=
  [space, word, string, comment, brackets, atWord, openParen, closeParen, openSquare, closeSquare,
    openCurly, closeCurly, colon, semicolon]

/-- The number of a kind. -/
def code : Kind → Nat
  | space => 0
  | word => 1
  | string => 2
  | comment => 3
  | brackets => 4
  | atWord => 5
  | openParen => 6
  | closeParen => 7
  | openSquare => 8
  | closeSquare => 9
  | openCurly => 10
  | closeCurly => 11
  | colon => 12
  | semicolon => 13

/-- The kind with a given number. -/
def ofCode? (n : Nat) : Option Kind :=
  all[n]?

theorem ofCode?_code (k : Kind) : ofCode? k.code = some k := by
  cases k <;> rfl

/-- The name used in messages; a punctuation kind is called by its character. -/
def name : Kind → String
  | space => "space"
  | word => "word"
  | string => "string"
  | comment => "comment"
  | brackets => "brackets"
  | atWord => "at-word"
  | openParen => "("
  | closeParen => ")"
  | openSquare => "["
  | closeSquare => "]"
  | openCurly => "\x7b"
  | closeCurly => "\x7d"
  | colon => ":"
  | semicolon => ";"

/-- The title used in debugging texts. -/
def title : Kind → String
  | space => "Space"
  | word => "Word"
  | string => "String"
  | comment => "Comment"
  | brackets => "Brackets"
  | atWord => "AtWord"
  | openParen => "OpenParen"
  | closeParen => "CloseParen"
  | openSquare => "OpenSquare"
  | closeSquare => "CloseSquare"
  | openCurly => "OpenCurly"
  | closeCurly => "CloseCurly"
  | colon => "Colon"
  | semicolon => "Semicolon"

/-- Whether a kind stands for one fixed character. -/
def isPunctuation : Kind → Bool
  | openParen | closeParen | openSquare | closeSquare | openCurly | closeCurly | colon
  | semicolon => true
  | _ => false

end Kind

/-- A construct whose closing delimiter is missing. -/
inductive Unclosed where
  | string
  | comment
  | bracket
deriving DecidableEq

namespace Unclosed

/-- The kind of token that the construct would have been, and becomes on recovery. -/
def kind : Unclosed → Kind
  | string => .string
  | comment => .comment
  | bracket => .brackets

/-- What is wrong, without saying where. -/
def message : Unclosed → String
  | string => "Unclosed string"
  | comment => "Unclosed comment"
  | bracket => "Unclosed bracket"

end Unclosed

end CssTokens
