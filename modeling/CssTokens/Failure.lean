import CssTokens.Kind
import CssTokens.Position

/-!
# CssTokens.Failure — why a text cannot be split

There are two causes.  A text may be too long for offsets of 32 bits, which is found out before
anything else.  Or a construct in it lacks its closing delimiter; this failure names the construct,
the place of its opening delimiter, and the input.

The message of the second kind begins with the name of the input, which may be any text.  What
follows it is read from the right: a bare message, a column and a line.
-/

namespace CssTokens

set_option autoImplicit false

/-- A text is longer than can be handled. -/
structure InputTooLong where
  /-- Length of the text in bytes. -/
  size : Nat
  /-- The greatest length that can be handled. -/
  max : Nat
deriving DecidableEq

/-- How long the text is, and how long it may be. -/
def InputTooLong.message (e : InputTooLong) : String :=
  s!"input is {e.size} bytes; at most {e.max} are supported"

/-- A construct lacks its closing delimiter. -/
structure UnclosedError where
  construct : Unclosed
  /-- Offset of the opening delimiter. -/
  offset : Nat
  /-- Position of the opening delimiter. -/
  position : Position
  /-- Name of the input. -/
  inputName : String
deriving DecidableEq

namespace UnclosedError

/-- What is wrong, without saying where. -/
def bareMessage (e : UnclosedError) : String :=
  e.construct.message

/-- The name of the input, the position, and what is wrong there. -/
def message (e : UnclosedError) : String :=
  s!"{e.inputName}:{e.position.text}: {e.bareMessage}"

end UnclosedError

end CssTokens
