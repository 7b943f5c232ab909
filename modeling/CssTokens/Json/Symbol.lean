import CssTokens.Json.Value

/-!
# CssTokens.Json.Symbol — the symbols of a JSON text

A JSON text is a row of symbols with blanks between them: brackets, braces, commas, colons, string
literals, and the atoms, which are the other values that have no parts.  `Symbol.ofChars` takes a
text apart into its symbols, or refuses it if some of it is no symbol.

A number is a minus sign or none, digits, a fraction or none, and an exponent or none; the digits
begin with zero only if there is no other (`readNumber`).
-/

namespace CssTokens.Json

set_option autoImplicit false

/-- The smallest parts of a JSON text. -/
inductive Symbol where
  | openCurly
  | closeCurly
  | openSquare
  | closeSquare
  | colon
  | comma
  /-- A string literal, which may be a value or a key. -/
  | text (t : Text)
  /-- A value that is neither a string nor has parts. -/
  | atom (v : Value)

/-- Blanks between symbols: space, tab, line feed, carriage return. -/
def isBlank (c : Char) : Bool :=
  c = ' ' || c = '\t' || c = '\n' || c = '\x0d'

/-! ## Numbers -/

/-- A run of digits, at least one, and what stands behind it. -/
def readDigits (cs : List Char) : Option (List Char × List Char) :=
  match cs.takeWhile Char.isDigit with
  | [] => none
  | d :: ds => some (d :: ds, cs.dropWhile Char.isDigit)

/-- The digits before the point: they begin with zero only if there is no other. -/
def readWhole (cs : List Char) : Option (List Char × List Char) :=
  match readDigits cs with
  | some ('0' :: _ :: _, _) => none
  | r => r

/-- A point and digits, or nothing. -/
def readFraction : List Char → Option (List Char × List Char)
  | '.' :: cs => (readDigits cs).map fun r => ('.' :: r.1, r.2)
  | cs => some ([], cs)

/-- The sign of an exponent, or nothing. -/
def readSign : List Char → List Char × List Char
  | '+' :: cs => (['+'], cs)
  | '-' :: cs => (['-'], cs)
  | cs => ([], cs)

/-- An exponent, or nothing. -/
def readExponent : List Char → Option (List Char × List Char)
  | [] => some ([], [])
  | c :: cs =>
    if c = 'e' ∨ c = 'E' then
      let (sign, cs) := readSign cs
      (readDigits cs).map fun r => (c :: sign ++ r.1, r.2)
    else
      some ([], c :: cs)

/-- The number that a text begins with, from behind its minus sign if it has one. -/
def readUnsigned (minus : List Char) (cs : List Char) : Option (Value × List Char) := do
  let (whole, rest) ← readWhole cs
  let (fraction, rest) ← readFraction rest
  let (exponent, rest) ← readExponent rest
  if minus.isEmpty && fraction.isEmpty && exponent.isEmpty then
    return (.natural (Nat.ofDigitChars 10 whole 0), rest)
  else
    return (.number (minus ++ whole ++ fraction ++ exponent), rest)

/-- The number that a text begins with. -/
def readNumber : List Char → Option (Value × List Char)
  | '-' :: cs => readUnsigned ['-'] cs
  | cs => readUnsigned [] cs

/-! ## Symbols -/

/-- The symbol that a text begins with, and what stands behind it. -/
def Symbol.read : List Char → Option (Symbol × List Char)
  | '\x7b' :: rest => some (.openCurly, rest)
  | '\x7d' :: rest => some (.closeCurly, rest)
  | '[' :: rest => some (.openSquare, rest)
  | ']' :: rest => some (.closeSquare, rest)
  | ':' :: rest => some (.colon, rest)
  | ',' :: rest => some (.comma, rest)
  | '\x22' :: rest => (readPieces rest).map fun r => (.text (.ofPieces r.1), r.2)
  | 'n' :: 'u' :: 'l' :: 'l' :: rest => some (.atom .null, rest)
  | 't' :: 'r' :: 'u' :: 'e' :: rest => some (.atom (.bool true), rest)
  | 'f' :: 'a' :: 'l' :: 's' :: 'e' :: rest => some (.atom (.bool false), rest)
  | cs => (readNumber cs).map fun r => (.atom r.1, r.2)

theorem length_of_readDigits {cs digits rest : List Char} (h : readDigits cs = some (digits, rest)) :
    rest.length < cs.length := by
  unfold readDigits at h
  split at h
  · exact absurd h (by simp)
  · next d ds hd =>
    simp only [Option.some.injEq, Prod.mk.injEq] at h
    have hlen := congrArg List.length (List.takeWhile_append_dropWhile (p := Char.isDigit) (l := cs))
    rw [List.length_append, hd, h.2] at hlen
    simp only [List.length_cons] at hlen
    omega

theorem length_of_readWhole {cs digits rest : List Char} (h : readWhole cs = some (digits, rest)) :
    rest.length < cs.length := by
  unfold readWhole at h
  split at h
  · exact absurd h (by simp)
  · exact length_of_readDigits h

theorem length_of_readFraction {cs digits rest : List Char}
    (h : readFraction cs = some (digits, rest)) : rest.length ≤ cs.length := by
  unfold readFraction at h
  split at h
  · simp only [Option.map_eq_some_iff, Prod.mk.injEq, Prod.exists] at h
    obtain ⟨ds, r, hr, -, rfl⟩ := h
    have := length_of_readDigits hr
    simp only [List.length_cons]
    omega
  · simp only [Option.some.injEq, Prod.mk.injEq] at h
    exact Nat.le_of_eq (congrArg List.length h.2.symm)

theorem length_readSign (cs : List Char) : (readSign cs).2.length ≤ cs.length := by
  unfold readSign
  split <;> simp

theorem length_of_readExponent {cs digits rest : List Char}
    (h : readExponent cs = some (digits, rest)) : rest.length ≤ cs.length := by
  unfold readExponent at h
  split at h
  · simp only [Option.some.injEq, Prod.mk.injEq] at h
    simp [← h.2]
  · next c cs =>
    split at h
    · simp only [Option.map_eq_some_iff, Prod.mk.injEq, Prod.exists] at h
      obtain ⟨ds, r, hr, -, rfl⟩ := h
      have := length_of_readDigits hr
      have := length_readSign cs
      simp only [List.length_cons]
      omega
    · simp only [Option.some.injEq, Prod.mk.injEq] at h
      exact Nat.le_of_eq (congrArg List.length h.2.symm)

theorem length_of_readUnsigned {minus cs rest : List Char} {v : Value}
    (h : readUnsigned minus cs = some (v, rest)) : rest.length < cs.length := by
  simp only [readUnsigned, Option.bind_eq_bind, Option.bind_eq_some_iff, Prod.exists,
    Option.pure_def] at h
  obtain ⟨w, r₁, h₁, f, r₂, h₂, e, r₃, h₃, h⟩ := h
  have := length_of_readWhole h₁
  have := length_of_readFraction h₂
  have := length_of_readExponent h₃
  split at h <;>
  · simp only [Option.some.injEq, Prod.mk.injEq] at h
    rw [← h.2]
    omega

theorem length_of_readNumber {cs rest : List Char} {v : Value}
    (h : readNumber cs = some (v, rest)) : rest.length < cs.length := by
  unfold readNumber at h
  split at h
  · have := length_of_readUnsigned h
    simp only [List.length_cons]
    omega
  · exact length_of_readUnsigned h

/-- What is read is taken off the front. -/
theorem Symbol.length_of_read {cs rest : List Char} {s : Symbol} (h : read cs = some (s, rest)) :
    rest.length < cs.length := by
  unfold read at h
  split at h
  case h_7 r =>
    simp only [Option.map_eq_some_iff, Prod.mk.injEq, Prod.exists] at h
    obtain ⟨ps, r', hr, -, rfl⟩ := h
    have := length_of_readPieces hr
    simp only [List.length_cons]
    omega
  case h_11 =>
    simp only [Option.map_eq_some_iff, Prod.mk.injEq, Prod.exists] at h
    obtain ⟨v, r', hr, -, rfl⟩ := h
    exact length_of_readNumber hr
  all_goals
    simp only [Option.some.injEq, Prod.mk.injEq] at h
    simp only [← h.2, List.length_cons]
    omega

/-- The symbols of a text, if it is made of symbols and blanks. -/
def Symbol.ofChars : List Char → Option (List Symbol)
  | [] => some []
  | c :: cs =>
    if isBlank c then
      ofChars cs
    else
      match _h : read (c :: cs) with
      | none => none
      | some (s, rest) => (ofChars rest).map (s :: ·)
termination_by cs => cs.length
decreasing_by
  · simp
  · exact length_of_read _h

end CssTokens.Json
