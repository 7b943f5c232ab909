import CssTokens.Event
import CssTokens.Input
import CssTokens.Options
import CssTokens.Scanner.Progress

/-!
# CssTokens.Tokenizer — tokens on request

A tokenizer gives out the tokens of an input one at a time.  It takes one token back and then gives
that one out next.  A construct without its closing delimiter is an error, after which no more tokens
are found, though one that is taken back is still given out.  If the tokenizer or the single request
was told to let it go, it is a token instead, that reaches to the end of the text.

The state is a value, so a copy of a tokenizer is the tokenizer itself and goes on independently.
Its scanner stands in the text, by its type; that is why a request cannot fail by reading behind
the padding, and every request is answered.  An answer is a `Reply`: what was found, what was
reported, and the tokenizer behind it.
-/

namespace CssTokens

set_option autoImplicit false

/-- The state of giving out the tokens of an input. -/
structure Tokenizer (input : Input) where
  scanner : Scanner input.source
  options : Options
  /-- The token that was taken back and is to be given out next. -/
  returned : Option Token
  /-- Whether an error has put an end to the tokens. -/
  failed : Bool
  /-- The last position found. -/
  hint : ColumnHint
  /-- The scanner stands in the text or at its end. -/
  pos_le : scanner.pos ≤ input.source.size

/-- The answer to a request for a token. -/
structure Reply (input : Input) where
  /-- The token, nothing at the end of the tokens, or an error. -/
  outcome : Except UnclosedError (Option Token)
  /-- What was reported meanwhile, in order. -/
  events : List Event
  /-- The tokenizer behind the request. -/
  after : Tokenizer input

/-- A token cannot be taken back before the last one was given out again. -/
structure PushbackOccupied where
deriving DecidableEq

/-- The report of a second token taken back. -/
def PushbackOccupied.message (_ : PushbackOccupied) : String :=
  "Tokenizer::back called twice without an intervening next_token"

namespace Tokenizer

variable {input : Input}

/-- A tokenizer at the start of an input. -/
def ofInput (input : Input) (options : Options) : Tokenizer input where
  scanner := .start input.source
  options := options
  returned := none
  failed := false
  hint := .initial
  pos_le := Nat.zero_le _

/-- Offset at which the next search begins; a token that was taken back does not count. -/
def position (t : Tokenizer input) : Nat :=
  t.scanner.pos

/-- Whether no token is left: none was taken back, and the text is over or an error occurred. -/
def isDone (t : Tokenizer input) : Bool :=
  t.returned.isNone && (t.failed || t.position == input.size)

/-- Takes a token back.  It need not be one that was given out. -/
def takeBack (t : Tokenizer input) (token : Token) :
    Except PushbackOccupied (Tokenizer input × List Event) :=
  match t.returned with
  | some _ => .error {}
  | none => .ok ({ t with returned := some token }, [.takenBack token])

/-! ## Requests -/

/-- Gives out a token that was found, after what was reported before it. -/
def give (t : Tokenizer input) (kind : Kind) (span : Span) (events : List Event) : Reply input :=
  let (token, hint) := input.tokenAt kind span t.hint
  ⟨.ok (some token), events ++ [.found token], { t with hint }⟩

/-- Ends the tokens with an error at the opening delimiter of a construct. -/
def fail (t : Tokenizer input) (construct : Unclosed) (offset : Nat) : Reply input :=
  let (position, hint) := input.locate offset t.hint
  ⟨.error ⟨construct, offset, position, input.name⟩, [], { t with hint, failed := true }⟩

/-- Searches for the next token, and lets a construct without its end go if told to. -/
def search (t : Tokenizer input) (recover : Bool) : Reply input :=
  let step := t.scanner.step t.pos_le
  let t' := { t with scanner := step.val.2, pos_le := (Scanner.step_within t.pos_le).pos_le }
  let span : Span := ⟨t.position, t.position + step.val.1.length⟩
  match step.val.1.tag with
  | .finish => ⟨.ok none, [], t'⟩
  | .token kind => t'.give kind span []
  | .unclosed construct =>
    if recover then
      t'.give construct.kind span [.recovered construct span]
    else
      t'.fail construct span.start

/-- The next token, with options for this request. -/
def nextWith (t : Tokenizer input) (options : RequestOptions) : Reply input :=
  match t.returned with
  | some token => ⟨.ok (some token), [], { t with returned := none }⟩
  | none =>
    if t.failed then
      ⟨.ok none, [], t⟩
    else
      t.search (t.options.ignoreErrors || options.ignoreUnclosed)

/-- The next token. -/
def next (t : Tokenizer input) : Reply input :=
  t.nextWith .usual

end Tokenizer

end CssTokens
