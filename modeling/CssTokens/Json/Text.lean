/-!
# CssTokens.Json.Text — the strings of JSON

A JSON string is written as characters and escapes between quotes.  A numeric escape stands for a
code unit of 16 bits; two of them, a high and a low surrogate, stand for one character.  A surrogate
without its partner stands for no character, so not every string that can be written is a `String`.
`Text` keeps such strings apart.

`readPieces` reads what stands between the quotes, `Text.ofPieces` makes a text of it, and
`Text.chars` writes a text with its quotes.
-/

namespace CssTokens.Json

set_option autoImplicit false

/-- What a string literal is made of. -/
inductive Piece where
  /-- A character, written as it is or by a short escape. -/
  | char (c : Char)
  /-- A numeric escape. -/
  | unit (n : Nat)
deriving DecidableEq

/-- What a string literal denotes. -/
inductive Text where
  | plain (s : String)
  /-- Some surrogate in it has no partner. -/
  | unpaired (pieces : List Piece)
deriving DecidableEq

namespace Piece

/-- Whether a code unit is the first half of a character. -/
def isHigh (n : Nat) : Bool :=
  0xD800 ≤ n && n ≤ 0xDBFF

/-- Whether a code unit is the second half of a character. -/
def isLow (n : Nat) : Bool :=
  0xDC00 ≤ n && n ≤ 0xDFFF

/-- The character that two halves make. -/
def join (high low : Nat) : Char :=
  Char.ofNat (0x10000 + (high - 0xD800) * 0x400 + (low - 0xDC00))

/-- The characters that pieces denote, unless a surrogate among them has no partner. -/
def decode? : List Piece → Option (List Char)
  | [] => some []
  | char c :: rest => (decode? rest).map (c :: ·)
  | unit n :: rest =>
    if isHigh n then
      match rest with
      | unit m :: rest => if isLow m then (decode? rest).map (join n m :: ·) else none
      | _ => none
    else if isLow n then none
    else (decode? rest).map (Char.ofNat n :: ·)

end Piece

/-- The value of a hexadecimal digit. -/
def hexValue? (c : Char) : Option Nat :=
  if '0' ≤ c ∧ c ≤ '9' then some (c.toNat - '0'.toNat)
  else if 'a' ≤ c ∧ c ≤ 'f' then some (c.toNat - 'a'.toNat + 10)
  else if 'A' ≤ c ∧ c ≤ 'F' then some (c.toNat - 'A'.toNat + 10)
  else none

/-- The code unit that four hexadecimal digits write. -/
def codeUnit? (a b c d : Char) : Option Nat := do
  let a ← hexValue? a
  let b ← hexValue? b
  let c ← hexValue? c
  let d ← hexValue? d
  return ((a * 16 + b) * 16 + c) * 16 + d

/-- The character that a short escape stands for. -/
def shortEscape? : Char → Option Char
  | '\x22' => some '\x22'
  | '\\' => some '\\'
  | '/' => some '/'
  | 'b' => some '\x08'
  | 'f' => some '\x0c'
  | 'n' => some '\n'
  | 'r' => some '\x0d'
  | 't' => some '\t'
  | _ => none

/-- Reads a string literal from behind its opening quote, and gives what stands behind its closing
quote.  Control characters must be escaped. -/
def readPieces : List Char → Option (List Piece × List Char)
  | [] => none
  | '\x22' :: rest => some ([], rest)
  | '\\' :: 'u' :: a :: b :: c :: d :: rest => do
    let n ← codeUnit? a b c d
    let (pieces, rest) ← readPieces rest
    return (.unit n :: pieces, rest)
  | '\\' :: e :: rest => do
    let c ← shortEscape? e
    let (pieces, rest) ← readPieces rest
    return (.char c :: pieces, rest)
  | c :: rest =>
    if c = '\\' ∨ c.toNat < 0x20 then
      none
    else do
      let (pieces, rest) ← readPieces rest
      return (.char c :: pieces, rest)

/-- What is read is taken off the front. -/
theorem length_of_readPieces {cs rest : List Char} {pieces : List Piece}
    (h : readPieces cs = some (pieces, rest)) : rest.length < cs.length := by
  fun_induction readPieces cs generalizing pieces rest with
  | case1 => simp at h
  | case2 r =>
    simp only [Option.some.injEq, Prod.mk.injEq] at h
    simp [h.2]
  | case3 a b c d r ih =>
    simp only [Option.bind_eq_bind, Option.bind_eq_some_iff, Option.pure_def, Option.some.injEq,
      Prod.mk.injEq] at h
    obtain ⟨n, -, ⟨ps, r'⟩, hr, -, rfl⟩ := h
    have := ih hr
    simp only [List.length_cons] at this ⊢
    omega
  | case4 e r _ ih =>
    simp only [Option.bind_eq_bind, Option.bind_eq_some_iff, Option.pure_def, Option.some.injEq,
      Prod.mk.injEq] at h
    obtain ⟨c, -, ⟨ps, r'⟩, hr, -, rfl⟩ := h
    have := ih hr
    simp only [List.length_cons] at this ⊢
    omega
  | case5 => simp at h
  | case6 c r _ _ _ _ ih =>
    simp only [Option.bind_eq_bind, Option.bind_eq_some_iff, Option.pure_def, Option.some.injEq,
      Prod.mk.injEq] at h
    obtain ⟨⟨ps, r'⟩, hr, -, rfl⟩ := h
    have := ih hr
    simp only [List.length_cons] at this ⊢
    omega

/-- The hexadecimal digits of a code unit, always four. -/
def hexDigits (n : Nat) : List Char :=
  [n / 4096 % 16, n / 256 % 16, n / 16 % 16, n % 16].map Nat.digitChar

/-- Writes a character of a string: by a short escape if it has one, by a numeric one if it is
another control character, and as it is otherwise. -/
def charLiteral (c : Char) : List Char :=
  if c = '\x22' then ['\\', '\x22']
  else if c = '\\' then ['\\', '\\']
  else if c = '\x08' then ['\\', 'b']
  else if c = '\x0c' then ['\\', 'f']
  else if c = '\n' then ['\\', 'n']
  else if c = '\x0d' then ['\\', 'r']
  else if c = '\t' then ['\\', 't']
  else if c.toNat < 0x20 then '\\' :: 'u' :: hexDigits c.toNat
  else [c]

/-- Writes a piece of a string. -/
def Piece.literal : Piece → List Char
  | char c => charLiteral c
  | unit n => '\\' :: 'u' :: hexDigits n

namespace Text

/-- What pieces denote. -/
def ofPieces (pieces : List Piece) : Text :=
  match Piece.decode? pieces with
  | some cs => plain (String.ofList cs)
  | none => unpaired pieces

/-- A text as a string literal. -/
def chars : Text → List Char
  | plain s => '\x22' :: s.toList.flatMap charLiteral ++ ['\x22']
  | unpaired pieces => '\x22' :: pieces.flatMap Piece.literal ++ ['\x22']

end Text

end CssTokens.Json
