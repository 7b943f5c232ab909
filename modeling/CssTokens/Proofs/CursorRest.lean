import CssTokens.Proofs.ByteRules

/-!
# CssTokens.Proofs.CursorRest — what is left of the text at a cursor

`rest` is the list of bytes from a cursor to the end of the text.  In the text and at its end, every
reading of the cursor is a reading of this list, zero standing in where it is empty (`current_eq`,
`peek_of_rest`, `atEnd_eq`), and every movement drops a length that the byte rules give
(`advanceChar_eq`, `skipBlanks_eq`, `skipEscapedChar_eq`, `skipWord_eq`).  The padding behind the text
and the bytes before the cursor are in none of these statements: that is what makes them useful.
-/

namespace CssTokens.Cursor

set_option autoImplicit false

open ByteRules Reading

variable {src : Source} {c : Cursor src}

/-- The bytes of the text from the cursor on. -/
def rest (c : Cursor src) : List UInt8 :=
  src.bytes.drop c.pos

theorem length_rest (c : Cursor src) : c.rest.length = src.size - c.pos := by
  rw [rest, List.length_drop, Source.length_bytes]

theorem pos_add_length_rest (h : c.pos ≤ src.size) : c.pos + c.rest.length = src.size := by
  rw [length_rest]
  omega

theorem rest_advance (c : Cursor src) (n : Nat) : (c.advance n).rest = c.rest.drop n := by
  simp only [rest, advance, List.drop_drop]

theorem rest_advance_one {b : UInt8} {bs : List UInt8} (h : c.rest = b :: bs) :
    (c.advance 1).rest = bs := by
  rw [rest_advance, h]
  rfl

theorem advance_advance (c : Cursor src) (m n : Nat) :
    (c.advance m).advance n = c.advance (m + n) := by
  simp only [advance, Nat.add_assoc]

theorem lt_size_of_rest {b : UInt8} {bs : List UInt8} (h : c.rest = b :: bs) :
    c.pos < src.size := by
  have hlen := congrArg List.length h
  rw [length_rest, List.length_cons] at hlen
  omega

theorem pos_eq_size_of_rest (h : c.pos ≤ src.size) (hr : c.rest = []) : c.pos = src.size := by
  have hlen := congrArg List.length hr
  rw [length_rest, List.length_nil] at hlen
  omega

theorem advance_pos_le {n : Nat} (h : c.pos ≤ src.size) (hn : n ≤ c.rest.length) :
    (c.advance n).pos ≤ src.size := by
  rw [length_rest] at hn
  show c.pos + n ≤ src.size
  omega

/-! ## Reading -/

theorem current_eq (h : c.pos ≤ src.size) : c.current = .ok (c.rest.head?.getD 0) := by
  rw [rest, List.head?_drop]
  cases Nat.lt_or_ge c.pos src.bytes.length with
  | inl lt =>
      rw [List.getElem?_eq_getElem lt]
      exact Source.byteAt_of_lt lt
  | inr ge =>
      rw [List.getElem?_eq_none ge]
      rw [Source.length_bytes] at ge
      exact Source.byteAt_of_ge ge (Nat.lt_of_le_of_lt h src.size_lt_paddedSize)

theorem current_of_rest {b : UInt8} {bs : List UInt8} (h : c.rest = b :: bs) :
    c.current = .ok b := by
  rw [current_eq (Nat.le_of_lt (lt_size_of_rest h)), h]
  rfl

theorem current_of_rest_nil (h : c.pos ≤ src.size) (hr : c.rest = []) : c.current = .ok 0 := by
  rw [current_eq h, hr]
  rfl

/-- Under a byte other than zero something is left. -/
theorem exists_rest_of_current {b : UInt8} (h : c.current = .ok b) (hb : b ≠ 0) :
    ∃ bs, c.rest = b :: bs := by
  have hlt := lt_size_of_current h hb
  cases hr : c.rest with
  | nil => exact absurd (pos_eq_size_of_rest (Nat.le_of_lt hlt) hr) (Nat.ne_of_lt hlt)
  | cons d bs =>
      cases h.symm.trans (current_of_rest hr)
      exact ⟨bs, rfl⟩

theorem peek_of_rest {b : UInt8} {bs : List UInt8} (h : c.rest = b :: bs) :
    c.peek = .ok (bs.head?.getD 0) := by
  have hpeek : c.peek = (c.advance 1).current := rfl
  rw [hpeek, current_eq (c := c.advance 1) (lt_size_of_rest h), rest_advance_one h]

theorem atEnd_eq (h : c.pos ≤ src.size) : c.atEnd = .ok c.rest.isEmpty := by
  obtain ⟨e, he, hend⟩ := atEnd_yields h
  rw [he]
  cases hr : c.rest with
  | nil => rw [hend.mpr (pos_eq_size_of_rest h hr), List.isEmpty_nil]
  | cons b bs =>
      have hne : e ≠ true := fun ht => Nat.ne_of_lt (lt_size_of_rest hr) (hend.mp ht)
      rw [Bool.eq_false_iff.mpr hne, List.isEmpty_cons]

/-- A byte looked for behind the cursor is not taken from the padding unless it is zero. -/
theorem head?_getD_eq_iff {bs : List UInt8} {b : UInt8} (hb : b ≠ 0) :
    bs.head?.getD 0 = b ↔ bs.head? = some b := by
  cases bs with
  | nil => exact ⟨fun h => absurd h.symm hb, nofun⟩
  | cons d bs => simp

/-! ## Characters and blanks -/

theorem advanceChar_eq (h : c.pos ≤ src.size) :
    c.advanceChar = .ok (c.advance (charLength c.rest)) := by
  have hlen := pos_add_length_rest h
  unfold advanceChar
  rw [current_eq h]
  simp only [bind, Except.bind, pure, Except.pure, advance]
  cases hr : c.rest with
  | nil =>
      rw [hr, List.length_nil] at hlen
      simp only [charLength]
      congr 2
      omega
  | cons b bs =>
      rw [hr, List.length_cons] at hlen
      simp only [charLength, List.head?_cons, Option.getD_some]
      congr 2
      omega

theorem skipWhile_eq {p : UInt8 → Bool} (hp : p 0 = false) (h : c.pos ≤ src.size) :
    c.skipWhile p = .ok (c.advance (c.rest.takeWhile p).length) := by
  fun_induction skipWhile p c with
  | case1 c e he => exact absurd he (current_yields h).ne_error
  | case2 c b hb hpb ih =>
      have hne : b ≠ 0 := by
        rintro rfl
        simp [hp] at hpb
      have hlt := lt_size_of_current hb hne
      obtain ⟨d, bs, hr⟩ := List.exists_cons_of_length_pos (l := c.rest)
        (by rw [length_rest]; omega)
      rw [current_of_rest hr] at hb
      injection hb with hb
      subst hb
      rw [ih hlt, rest_advance_one hr, hr, List.takeWhile_cons_of_pos hpb, advance_advance,
        List.length_cons, Nat.add_comm]
  | case3 c b hb hpb =>
      cases hr : c.rest with
      | nil => rfl
      | cons d bs =>
          rw [current_of_rest hr] at hb
          injection hb with hb
          subst hb
          rw [List.takeWhile_cons_of_neg hpb]
          rfl

theorem skipBlanks_eq (h : c.pos ≤ src.size) :
    c.skipBlanks = .ok (c.advance (c.rest.takeWhile Byte.isBlank).length) :=
  skipWhile_eq (by decide) h

/-! ## Escapes -/

theorem skipEscapedChar_eq (h : c.pos < src.size) :
    c.skipEscapedChar = .ok (c.advance (charLength c.rest.tail + 1)) := by
  have hle : (c.advance 1).pos ≤ src.size := h
  have hrest : (c.advance 1).rest = c.rest.tail := by rw [rest_advance, List.drop_one]
  simp only [skipEscapedChar, atEnd_eq hle, advanceChar_eq hle, hrest, bind, Except.bind, pure,
    Except.pure]
  cases hr : c.rest.tail with
  | nil => rfl
  | cons b bs =>
      rw [List.isEmpty_cons, if_neg Bool.false_ne_true, advance_advance, Nat.add_comm]

theorem skipHexDigits_eq (n : Nat) (h : c.pos ≤ src.size) :
    c.skipHexDigits n = .ok (c.advance (hexLength n c.rest)) := by
  induction n generalizing c with
  | zero => rfl
  | succ n ih =>
      cases hr : c.rest with
      | nil =>
          simp only [skipHexDigits, current_of_rest_nil h hr, bind, Except.bind]
          rfl
      | cons b bs =>
          simp only [skipHexDigits, current_of_rest hr, hexLength, bind, Except.bind]
          by_cases hd : Byte.isHexDigit b = true
          · rw [if_pos hd, if_pos hd, ih (c := c.advance 1) (lt_size_of_rest hr),
              rest_advance_one hr, advance_advance]
          · rw [if_neg hd, if_neg hd]
            rfl

theorem skipOneBlank_eq (h : c.pos ≤ src.size) :
    c.skipOneBlank = .ok (c.advance (blankLength c.rest)) := by
  cases hr : c.rest with
  | nil =>
      simp only [skipOneBlank, current_of_rest_nil h hr, bind, Except.bind]
      rfl
  | cons b bs =>
      simp only [skipOneBlank, current_of_rest hr, peek_of_rest hr, blankLength,
        head?_getD_eq_iff (b := Byte.lineFeed) (by decide), bind, Except.bind, pure, Except.pure]
      by_cases hcr : b = Byte.carriageReturn
      · rw [if_pos hcr, if_pos hcr]
        by_cases hlf : bs.head? = some Byte.lineFeed
        · rw [if_pos hlf, if_pos hlf]
        · rw [if_neg hlf, if_neg hlf]
      · rw [if_neg hcr, if_neg hcr]
        by_cases hb : Byte.isBlank b = true
        · rw [if_pos hb, if_pos hb]
        · rw [if_neg hb, if_neg hb]
          rfl

theorem skipEscape_eq (h : c.pos < src.size) :
    c.skipEscape = .ok (c.advance (1 + escapeLength c.rest.tail)) := by
  have hle : (c.advance 1).pos ≤ src.size := h
  have hrest : (c.advance 1).rest = c.rest.tail := by rw [rest_advance, List.drop_one]
  rw [← hrest]
  cases hr : (c.advance 1).rest with
  | nil =>
      simp only [skipEscape, atEnd_eq hle, hr, bind, Except.bind]
      rfl
  | cons b bs =>
      simp only [skipEscape, atEnd_eq hle, current_of_rest hr, advanceChar_eq hle,
        skipHexDigits_eq _ hle, hr, bind, Except.bind, List.isEmpty_cons, Bool.false_eq_true,
        if_false, escapeLength]
      by_cases hd : Byte.isHexDigit b = true
      · have hdigits := hexLength_le maxHexDigits (b :: bs)
        rw [← hr] at hdigits
        rw [if_pos hd, if_pos hd, skipOneBlank_eq (hr ▸ advance_pos_le hle hdigits), rest_advance,
          hr, advance_advance, advance_advance]
      · rw [if_neg hd, if_neg hd, advance_advance]

/-! ## Words -/

theorem skipUnit_eq (h : c.pos ≤ src.size) :
    c.skipUnit =
      .ok (if unitLength c.rest = 0 then none else some (c.advance (unitLength c.rest))) := by
  cases hr : c.rest with
  | nil =>
      simp only [skipUnit, current_of_rest_nil h hr, atEnd_eq h, hr, bind, Except.bind]
      rfl
  | cons b bs =>
      simp only [skipUnit, current_of_rest hr, peek_of_rest hr, atEnd_eq h,
        skipEscape_eq (lt_size_of_rest hr), hr, List.tail_cons, List.isEmpty_cons, unitLength,
        head?_getD_eq_iff (b := Byte.star) (by decide), bind, Except.bind, pure, Except.pure]
      by_cases hb : b = Byte.backslash
      · have hne : 1 + escapeLength bs ≠ 0 := by omega
        simp only [hb, if_true, if_neg hne]
      · simp only [if_neg hb]
        by_cases hs : b = Byte.slash
        · simp only [hs, if_true]
          by_cases hst : bs.head? = some Byte.star
          · simp only [if_pos hst]
            rfl
          · simp only [if_neg hst]
            rfl
        · simp only [if_neg hs]
          by_cases hz : b = Byte.zero
          · subst hz
            rfl
          · simp only [if_neg hz]
            by_cases he : Byte.endsWord b = true
            · rw [if_pos he, if_pos he]
              rfl
            · rw [if_neg he, if_neg he]
              rfl

theorem skipWord_eq (h : c.pos ≤ src.size) :
    c.skipWord = .ok (c.advance (wordLength c.rest)) := by
  fun_induction skipWord c with
  | case1 c e he => exact absurd he (skipUnit_yields h).ne_error
  | case2 c he =>
      rw [skipUnit_eq h] at he
      by_cases hu : unitLength c.rest = 0
      · rw [wordLength_of_unit_zero hu]
        rfl
      · simp [hu] at he
  | case3 c d hd ih =>
      have hle := (skipUnit_eq_some hd).2
      rw [skipUnit_eq h] at hd
      by_cases hu : unitLength c.rest = 0
      · simp [hu] at hd
      · simp only [hu, if_false, Except.ok.injEq, Option.some.injEq] at hd
        subst hd
        rw [ih hle, rest_advance, advance_advance, wordLength_of_unit hu]

end CssTokens.Cursor
