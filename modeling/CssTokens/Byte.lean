/-!
# CssTokens.Byte — classes of bytes

All characters that steer the splitting of a stylesheet are ASCII, so one byte decides.  The
constants below name the bytes that the rules speak of; the predicates are the classes.

* `isBlank`: space, tab and the bytes of line breaks;
* `isQuote`: the two string quotes;
* `isHexDigit`: what a numeric escape is made of;
* `endsWord`: where a word stops, whatever came before;
* `isWordStart`: where a word begins.  Every byte of a non-ASCII character is one;
* `isGroupDelim`: what counts inside a parenthesis group.
-/

namespace CssTokens.Byte

set_option autoImplicit false

abbrev zero : UInt8 := 0x00
abbrev tab : UInt8 := 0x09
abbrev lineFeed : UInt8 := 0x0A
abbrev formFeed : UInt8 := 0x0C
abbrev carriageReturn : UInt8 := 0x0D
abbrev space : UInt8 := 0x20
abbrev exclamation : UInt8 := 0x21
abbrev doubleQuote : UInt8 := 0x22
abbrev hash : UInt8 := 0x23
abbrev dollar : UInt8 := 0x24
abbrev percent : UInt8 := 0x25
abbrev singleQuote : UInt8 := 0x27
abbrev openParen : UInt8 := 0x28
abbrev closeParen : UInt8 := 0x29
abbrev star : UInt8 := 0x2A
abbrev hyphen : UInt8 := 0x2D
abbrev dot : UInt8 := 0x2E
abbrev slash : UInt8 := 0x2F
abbrev colon : UInt8 := 0x3A
abbrev semicolon : UInt8 := 0x3B
abbrev atSign : UInt8 := 0x40
abbrev openSquare : UInt8 := 0x5B
abbrev backslash : UInt8 := 0x5C
abbrev closeSquare : UInt8 := 0x5D
abbrev underscore : UInt8 := 0x5F
abbrev openCurly : UInt8 := 0x7B
abbrev closeCurly : UInt8 := 0x7D

/-- Space, tab, line feed, carriage return, form feed. -/
def isBlank (b : UInt8) : Bool :=
  b == space || b == tab || b == lineFeed || b == carriageReturn || b == formFeed

/-- A double or a single quote. -/
def isQuote (b : UInt8) : Bool :=
  b == doubleQuote || b == singleQuote

/-- An ASCII decimal digit. -/
def isDigit (b : UInt8) : Bool :=
  0x30 ≤ b && b ≤ 0x39

/-- An ASCII hexadecimal digit of either case. -/
def isHexDigit (b : UInt8) : Bool :=
  isDigit b || (0x61 ≤ b && b ≤ 0x66) || (0x41 ≤ b && b ≤ 0x46)

/-- An ASCII letter. -/
def isLetter (b : UInt8) : Bool :=
  (0x61 ≤ b && b ≤ 0x7A) || (0x41 ≤ b && b ≤ 0x5A)

/-- Bytes that end a word wherever they stand in it, unless escaped. -/
def endsWord (b : UInt8) : Bool :=
  isBlank b || isQuote b || b == openCurly || b == closeCurly || b == openSquare ||
    b == closeSquare || b == openParen || b == closeParen || b == colon || b == semicolon ||
    b == atSign

/-- Bytes that begin a word: letters, digits, some signs, a backslash, and every byte beyond
ASCII. -/
def isWordStart (b : UInt8) : Bool :=
  isLetter b || isDigit b || b == exclamation || b == backslash || b == hyphen || b == dot ||
    b == underscore || b == percent || b == hash || b == dollar || b == star || 0x80 ≤ b

/-- Bytes that matter inside a parenthesis group: parentheses, backslash, quotes. -/
def isGroupDelim (b : UInt8) : Bool :=
  b == openParen || b == closeParen || b == backslash || isQuote b

theorem isBlank_ne_zero {b : UInt8} (h : isBlank b = true) : b ≠ zero := by
  rintro rfl
  exact absurd h (by decide)

theorem isHexDigit_ne_zero {b : UInt8} (h : isHexDigit b = true) : b ≠ zero := by
  rintro rfl
  exact absurd h (by decide)

end CssTokens.Byte
