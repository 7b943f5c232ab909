import CssTokens.Cursor

/-!
# CssTokens.Cursor.Word — where escapes and words end

A backslash escapes what follows it.  In strings and groups, and before anything but a hexadecimal
digit, that is one character, whatever it is (`skipEscapedChar`).  In a word, hexadecimal digits
after the backslash make a numeric escape: at most six of them, and then one blank that only marks
where the number ends (`skipEscape`).  A backslash at the end of the text stands for itself.

A word is a run of units (`skipUnit`): an escape, or any byte that does not end the word.
`skipWord` moves over all of them.  Main statements: on the text, an escape is at least one byte and
ends within the text (`skipEscape_yields`), a unit is never empty (`skipUnit_eq_some`), and so a word
ends within the text (`skipWord_yields`).
-/

namespace CssTokens.Cursor

set_option autoImplicit false

variable {src : Source}

/-! ## Escapes -/

/-- A numeric escape has at most this many digits. -/
def maxHexDigits : Nat := 6

/-- Moves over a backslash and the character behind it. -/
def skipEscapedChar (c : Cursor src) : Reading (Cursor src) := do
  let c := c.advance 1
  if ← c.atEnd then
    return c
  else
    c.advanceChar

/-- Moves over hexadecimal digits, at most as many as said. -/
def skipHexDigits (c : Cursor src) : Nat → Reading (Cursor src)
  | 0 => return c
  | n + 1 => do
    if Byte.isHexDigit (← c.current) then
      skipHexDigits (c.advance 1) n
    else
      return c

/-- Moves over one blank if there is one.  A carriage return and a line feed are one. -/
def skipOneBlank (c : Cursor src) : Reading (Cursor src) := do
  let b ← c.current
  if b = Byte.carriageReturn then
    if (← c.peek) = Byte.lineFeed then
      return c.advance 2
    else
      return c.advance 1
  else if Byte.isBlank b then
    return c.advance 1
  else
    return c

/-- Moves over an escape in a word, from its backslash on. -/
def skipEscape (c : Cursor src) : Reading (Cursor src) := do
  let c := c.advance 1
  if ← c.atEnd then
    return c
  else if Byte.isHexDigit (← c.current) then
    (← c.skipHexDigits maxHexDigits).skipOneBlank
  else
    c.advanceChar

/-! ## Words -/

/-- Moves over the next unit of a word, or says with `none` that the word ends here: at the end of
the text, at a byte that ends words, or at the start of a comment. -/
def skipUnit (c : Cursor src) : Reading (Option (Cursor src)) := do
  let b ← c.current
  if b = Byte.backslash then
    return some (← c.skipEscape)
  else if b = Byte.slash then
    if (← c.peek) = Byte.star then
      return none
    else
      return some (c.advance 1)
  else if b = Byte.zero then
    if ← c.atEnd then
      return none
    else
      return some (c.advance 1)
  else if Byte.endsWord b then
    return none
  else
    return some (c.advance 1)

/-! ## Escapes and units end within the text -/

open Reading

variable {c c' : Cursor src}

theorem skipEscapedChar_yields (h : c.pos < src.size) :
    Yields c.skipEscapedChar fun c' => c.pos < c'.pos ∧ c'.pos ≤ src.size := by
  unfold skipEscapedChar
  refine yields_bind (atEnd_yields (c := c.advance 1) h) ?_
  intro e _ he
  cases e with
  | true => exact yields_pure ⟨Nat.lt_succ_self _, h⟩
  | false =>
    have hlt : (c.advance 1).pos < src.size := by
      have hne : ¬ (c.advance 1).pos = src.size := fun heq => absurd (he.mpr heq) (by simp)
      have : (c.advance 1).pos ≤ src.size := h
      omega
    refine (advanceChar_yields hlt).imp fun c' hc' => ⟨?_, hc'.2⟩
    exact Nat.lt_trans (Nat.lt_succ_self _) hc'.1

theorem skipHexDigits_yields (n : Nat) (h : c.pos ≤ src.size) :
    Yields (c.skipHexDigits n) fun c' => c.pos ≤ c'.pos ∧ c'.pos ≤ src.size := by
  induction n generalizing c with
  | zero => exact yields_pure ⟨Nat.le_refl _, h⟩
  | succ n ih =>
    unfold skipHexDigits
    refine yields_bind (current_yields h) ?_
    intro b hb _
    split
    · next hd =>
      have hlt := lt_size_of_current hb (Byte.isHexDigit_ne_zero hd)
      refine (ih (c := c.advance 1) hlt).imp fun c' hc' => ⟨?_, hc'.2⟩
      exact Nat.le_trans (Nat.le_succ _) hc'.1
    · exact yields_pure ⟨Nat.le_refl _, h⟩

theorem skipOneBlank_yields (h : c.pos ≤ src.size) :
    Yields c.skipOneBlank fun c' => c.pos ≤ c'.pos ∧ c'.pos ≤ src.size := by
  unfold skipOneBlank
  refine yields_bind (current_yields h) ?_
  intro b hb _
  split
  · next hcr =>
    have hlt : c.pos < src.size := lt_size_of_current hb (by rw [hcr]; decide)
    refine yields_bind (peek_yields hlt) ?_
    intro d hd _
    split
    · next hlf =>
      have : c.pos + 1 < src.size := Source.lt_size_of_byteAt hd (by rw [hlf]; decide)
      exact yields_pure ⟨by simp only [advance]; omega, by simp only [advance]; omega⟩
    · exact yields_pure ⟨Nat.le_succ _, hlt⟩
  · split
    · next hbl =>
      have hlt : c.pos < src.size := lt_size_of_current hb (Byte.isBlank_ne_zero hbl)
      exact yields_pure ⟨Nat.le_succ _, hlt⟩
    · exact yields_pure ⟨Nat.le_refl _, h⟩

/-- An escape that begins in the text is at least one byte long and ends within the text. -/
theorem skipEscape_yields (h : c.pos < src.size) :
    Yields c.skipEscape fun c' => c.pos < c'.pos ∧ c'.pos ≤ src.size := by
  unfold skipEscape
  have hle : (c.advance 1).pos ≤ src.size := h
  refine yields_bind (atEnd_yields hle) ?_
  intro e _ he
  cases e with
  | true => exact yields_pure ⟨Nat.lt_succ_self _, h⟩
  | false =>
    refine yields_bind (current_yields hle) ?_
    intro b hb _
    split
    · refine yields_bind (skipHexDigits_yields maxHexDigits hle) ?_
      intro d _ hd
      refine (skipOneBlank_yields hd.2).imp fun c' hc' => ⟨?_, hc'.2⟩
      exact Nat.lt_of_lt_of_le (Nat.lt_succ_self _) (Nat.le_trans hd.1 hc'.1)
    · have hlt : (c.advance 1).pos < src.size := by
        have hne : ¬ (c.advance 1).pos = src.size := fun heq => absurd (he.mpr heq) (by simp)
        omega
      refine (advanceChar_yields hlt).imp fun c' hc' => ⟨?_, hc'.2⟩
      exact Nat.lt_trans (Nat.lt_succ_self _) hc'.1

/-- Up to the end of the text, a word goes on by at least one byte of the text or ends here. -/
theorem skipUnit_yields (h : c.pos ≤ src.size) :
    Yields c.skipUnit fun r => ∀ c', r = some c' → c.pos < c'.pos ∧ c'.pos ≤ src.size := by
  have hnone : ∀ c' : Cursor src, none = some c' → c.pos < c'.pos ∧ c'.pos ≤ src.size := nofun
  have hone (hlt : c.pos < src.size) (c' : Cursor src) (hc' : some (c.advance 1) = some c') :
      c.pos < c'.pos ∧ c'.pos ≤ src.size := by
    injection hc' with hc'
    exact hc' ▸ ⟨Nat.lt_succ_self _, hlt⟩
  unfold skipUnit
  refine yields_bind (current_yields h) ?_
  intro b hb _
  split
  · next hbs =>
    have hlt : c.pos < src.size := lt_size_of_current hb (by rw [hbs]; decide)
    refine yields_bind (skipEscape_yields hlt) fun d _ hd => yields_pure ?_
    intro c' hc'
    injection hc' with hc'
    exact hc' ▸ hd
  · split
    · next hsl =>
      have hlt : c.pos < src.size := lt_size_of_current hb (by rw [hsl]; decide)
      refine yields_bind (peek_yields hlt) ?_
      intro d _ _
      split
      · exact yields_pure hnone
      · exact yields_pure (hone hlt)
    · split
      · refine yields_bind (atEnd_yields h) ?_
        intro e _ he
        cases e with
        | true => exact yields_pure hnone
        | false =>
          have hlt : c.pos < src.size := by
            have hne : ¬ c.pos = src.size := fun heq => absurd (he.mpr heq) (by simp)
            omega
          exact yields_pure (hone hlt)
      · next hz =>
        split
        · exact yields_pure hnone
        · exact yields_pure (hone (lt_size_of_current hb hz))

/-- Behind the text no word goes on, so a unit lies within the text wherever the cursor stands. -/
theorem skipUnit_eq_some (h : c.skipUnit = .ok (some c')) :
    c.pos < c'.pos ∧ c'.pos ≤ src.size := by
  cases Nat.lt_or_ge src.size c.pos with
  | inr hle => exact (skipUnit_yields hle).of_eq_ok h c' rfl
  | inl hlt =>
    exfalso
    cases Nat.lt_or_ge c.pos src.paddedSize with
    | inl hp =>
      have hcur : c.current = .ok 0 := Source.byteAt_of_ge (Nat.le_of_lt hlt) hp
      have hend : c.atEnd = .ok true := by
        simp [atEnd, hcur, bind, Except.bind, pure, Except.pure, Nat.le_of_lt hlt]
      simp [skipUnit, hcur, hend, bind, Except.bind, pure, Except.pure, Byte.zero, Byte.backslash,
        Byte.slash] at h
    | inr hp =>
      have hcur : c.current = .error ⟨src.paddedSize, c.pos⟩ :=
        Source.byteAt_of_paddedSize_le hp
      simp [skipUnit, hcur, bind, Except.bind] at h

/-- Moves over the units of a word up to where it ends. -/
def skipWord (c : Cursor src) : Reading (Cursor src) :=
  match _h : c.skipUnit with
  | .error e => .error e
  | .ok none => .ok c
  | .ok (some c') => skipWord c'
termination_by src.size - c.pos
decreasing_by
  have := skipUnit_eq_some _h
  omega

/-- A word that begins in the text ends within the text. -/
theorem skipWord_yields (h : c.pos ≤ src.size) :
    Yields c.skipWord fun c' => c.pos ≤ c'.pos ∧ c'.pos ≤ src.size := by
  fun_induction skipWord c with
  | case1 c e he => exact absurd he (skipUnit_yields h).ne_error
  | case2 c he => exact yields_ok ⟨Nat.le_refl _, h⟩
  | case3 c d hd ih =>
    have hpos := skipUnit_eq_some hd
    exact (ih hpos.2).imp fun c' hc' => ⟨Nat.le_trans (Nat.le_of_lt hpos.1) hc'.1, hc'.2⟩

end CssTokens.Cursor
