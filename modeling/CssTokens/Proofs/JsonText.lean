import CssTokens.Json.Text

/-!
# CssTokens.Proofs.JsonText — string literals are read as what they write

Every character of a string is written as one piece of a literal: as it is, by a short escape, or by
a numeric escape if it is another control character (`charPiece`).  Reading takes the literal apart
into just these pieces (`readPieces_literal`), none of which is half a character, so they denote the
string again (`ofPieces_map_charPiece`).
-/

namespace CssTokens.Json

set_option autoImplicit false

/-! ## Numeric escapes -/

theorem hexValue?_digitChar {d : Nat} (h : d < 16) : hexValue? (Nat.digitChar d) = some d := by
  have all : ∀ d : Fin 16, hexValue? (Nat.digitChar d) = some d.val := by decide
  exact all ⟨d, h⟩

/-- Four hexadecimal digits write any code unit. -/
theorem codeUnit?_digits {n : Nat} (h : n < 65536) :
    codeUnit? (n / 4096 % 16).digitChar (n / 256 % 16).digitChar (n / 16 % 16).digitChar
      (n % 16).digitChar = some n := by
  have digit (m : Nat) : hexValue? (m % 16).digitChar = some (m % 16) :=
    hexValue?_digitChar (Nat.mod_lt m (by decide))
  simp only [codeUnit?, digit, Option.bind_eq_bind, Option.bind_some, Option.pure_def,
    Option.some.injEq]
  omega

/-! ## Characters -/

/-- The characters that have a short escape. -/
def shortEscaped : List Char :=
  ['\x22', '\\', '\x08', '\x0c', '\n', '\x0d', '\t']

theorem charLiteral_of_mem {c : Char} (h : c ∈ shortEscaped) :
    ∃ e, charLiteral c = ['\\', e] ∧ e ≠ 'u' ∧ shortEscape? e = some c := by
  simp only [shortEscaped, List.mem_cons, List.not_mem_nil, or_false] at h
  rcases h with rfl | rfl | rfl | rfl | rfl | rfl | rfl
  · exact ⟨'\x22', by decide⟩
  · exact ⟨'\\', by decide⟩
  · exact ⟨'b', by decide⟩
  · exact ⟨'f', by decide⟩
  · exact ⟨'n', by decide⟩
  · exact ⟨'r', by decide⟩
  · exact ⟨'t', by decide⟩

theorem charLiteral_of_not_mem {c : Char} (h : c ∉ shortEscaped) :
    charLiteral c = if c.toNat < 0x20 then '\\' :: 'u' :: hexDigits c.toNat else [c] := by
  simp only [shortEscaped, List.mem_cons, List.not_mem_nil, or_false, not_or] at h
  simp [charLiteral, h]

/-- The piece as which a character is written. -/
def charPiece (c : Char) : Piece :=
  if c.toNat < 0x20 ∧ c ∉ shortEscaped then .unit c.toNat else .char c

/-- A piece in front of those that are read behind it. -/
theorem bind_cons_eq_map (r : Option (List Piece × List Char)) (p : Piece) :
    (do let (pieces, rest) ← r; return (p :: pieces, rest)) = r.map fun r => (p :: r.1, r.2) := by
  cases r with
  | none => rfl
  | some r => rfl

theorem readPieces_short {e c : Char} (he : e ≠ 'u') (hc : shortEscape? e = some c)
    (cs : List Char) :
    readPieces ('\\' :: e :: cs) = (readPieces cs).map fun r => (.char c :: r.1, r.2) := by
  rw [readPieces]
  · rw [hc]
    exact bind_cons_eq_map _ _
  · exact fun _ _ _ _ _ h => absurd h he

theorem readPieces_numeric {n : Nat} (h : n < 65536) (cs : List Char) :
    readPieces ('\\' :: 'u' :: (hexDigits n ++ cs)) =
      (readPieces cs).map fun r => (.unit n :: r.1, r.2) := by
  show readPieces ('\\' :: 'u' :: _ :: _ :: _ :: _ :: cs) = _
  rw [readPieces, codeUnit?_digits h]
  exact bind_cons_eq_map _ _

theorem readPieces_self {c : Char} (h : c ∉ shortEscaped) (hctl : ¬ c.toNat < 0x20)
    (cs : List Char) :
    readPieces (c :: cs) = (readPieces cs).map fun r => (.char c :: r.1, r.2) := by
  simp only [shortEscaped, List.mem_cons, not_or] at h
  obtain ⟨hquote, hback, -⟩ := h
  rw [readPieces]
  · rw [if_neg (not_or.mpr ⟨hback, hctl⟩)]
    exact bind_cons_eq_map _ _
  all_goals simp_all

/-- A literal is read character by character. -/
theorem readPieces_charLiteral (c : Char) (cs : List Char) :
    readPieces (charLiteral c ++ cs) = (readPieces cs).map fun r => (charPiece c :: r.1, r.2) := by
  by_cases hshort : c ∈ shortEscaped
  · obtain ⟨e, hliteral, he, hc⟩ := charLiteral_of_mem hshort
    have hpiece : charPiece c = .char c := if_neg fun h => h.2 hshort
    rw [hliteral, hpiece]
    exact readPieces_short he hc cs
  rw [charLiteral_of_not_mem hshort]
  by_cases hctl : c.toNat < 0x20
  · have hpiece : charPiece c = .unit c.toNat := if_pos ⟨hctl, hshort⟩
    rw [if_pos hctl, hpiece]
    exact readPieces_numeric (by omega) cs
  · have hpiece : charPiece c = .char c := if_neg fun h => hctl h.1
    rw [if_neg hctl, hpiece]
    exact readPieces_self hshort hctl cs

/-! ## Strings -/

theorem readPieces_literal (cs rest : List Char) :
    readPieces (cs.flatMap charLiteral ++ '\x22' :: rest) = some (cs.map charPiece, rest) := by
  induction cs with
  | nil => rw [List.flatMap_nil, List.nil_append, readPieces, List.map_nil]
  | cons c cs ih =>
    rw [List.flatMap_cons, List.append_assoc, readPieces_charLiteral, ih]
    rfl

/-- No piece that a character is written as is half of another character. -/
theorem decode?_map_charPiece (cs : List Char) : Piece.decode? (cs.map charPiece) = some cs := by
  induction cs with
  | nil => rfl
  | cons c cs ih =>
    rw [List.map_cons, charPiece]
    split
    · next h =>
      have hhigh : Piece.isHigh c.toNat = false := by
        rw [Piece.isHigh, decide_eq_false (by omega), Bool.false_and]
      have hlow : Piece.isLow c.toNat = false := by
        rw [Piece.isLow, decide_eq_false (by omega), Bool.false_and]
      unfold Piece.decode?
      simp only [hhigh, hlow, ih, Option.map_some, Char.ofNat_toNat, Bool.false_eq_true, if_false]
    · rw [Piece.decode?, ih]
      rfl

theorem ofPieces_map_charPiece (s : String) : Text.ofPieces (s.toList.map charPiece) = .plain s := by
  rw [Text.ofPieces, decode?_map_charPiece]
  simp

end CssTokens.Json
