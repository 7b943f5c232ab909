import CssTokens.Reading
import CssTokens.Source.Search

/-!
# CssTokens.Cursor — a reading place in a source

A cursor is an offset into one source, and the source is part of its type.  It may stand anywhere,
also behind the text or behind the padding; what it reads there is decided by `Source.byteAt`.

Three kinds of movement:

* by a count: `advance`, and `advanceChar` over the character under the cursor, which never goes
  beyond the end of the text;
* over a run of bytes of one class: `skipWhile`, which looks at bytes one after the other and so
  at the padding too;
* to the next byte of a class, or past the next end of a comment: `skipTo`, `skipPastCommentEnd`.
  They search the text only, never the padding, and if there is nothing to find they stand at the
  end of the text, even if they came from behind it.

The lemmas at the end say what succeeds at the end of the text and before it, and that the cursor
stays in the text.
-/

namespace CssTokens

set_option autoImplicit false

/-! ## Reading and moving -/

/-- An offset into a source. -/
structure Cursor (src : Source) where
  /-- The offset in bytes. -/
  pos : Nat
deriving DecidableEq

namespace Cursor

variable {src : Source}

/-- The cursor at the start of a source. -/
def start (src : Source) : Cursor src :=
  ⟨0⟩

/-- The byte under the cursor. -/
def current (c : Cursor src) : Reading UInt8 :=
  src.byteAt c.pos

/-- The byte behind the one under the cursor. -/
def peek (c : Cursor src) : Reading UInt8 :=
  src.byteAt (c.pos + 1)

/-- Whether the cursor stands on the padding, and not on a zero byte of the text. -/
def atEnd (c : Cursor src) : Reading Bool := do
  let b ← c.current
  return b == 0 && src.size ≤ c.pos

/-- Moves on by a number of bytes. -/
def advance (c : Cursor src) (n : Nat) : Cursor src :=
  ⟨c.pos + n⟩

/-- Moves over the character under the cursor, at most to the end of the text. -/
def advanceChar (c : Cursor src) : Reading (Cursor src) := do
  let b ← c.current
  return ⟨min (c.pos + Utf8.width b) src.size⟩

/-- Moves over the bytes that satisfy `p`, up to the first that does not. -/
def skipWhile (p : UInt8 → Bool) (c : Cursor src) : Reading (Cursor src) :=
  match _h : c.current with
  | .error e => .error e
  | .ok b => if p b then skipWhile p (c.advance 1) else .ok c
termination_by src.paddedSize - c.pos
decreasing_by
  have := Source.lt_paddedSize_of_byteAt _h
  simp only [advance]
  omega

/-- Moves over blanks. -/
def skipBlanks (c : Cursor src) : Reading (Cursor src) :=
  c.skipWhile Byte.isBlank

/-- Moves to the next byte of the text that satisfies `p` and says which it is; without one, moves
to the end of the text. -/
def skipTo (p : UInt8 → Bool) (c : Cursor src) : Option UInt8 × Cursor src :=
  match src.find? p c.pos with
  | some (i, b) => (some b, ⟨i⟩)
  | none => (none, ⟨src.size⟩)

/-- Moves to what can end a string in the given quotes or escape a character of it. -/
def skipToStringDelim (quote : UInt8) (c : Cursor src) : Option UInt8 × Cursor src :=
  c.skipTo fun b => b == quote || b == Byte.backslash

/-- Moves to the next byte that matters inside a parenthesis group. -/
def skipToGroupDelim (c : Cursor src) : Option UInt8 × Cursor src :=
  c.skipTo Byte.isGroupDelim

/-- Moves past the next end of a comment and says whether there was one; without one, moves to the
end of the text. -/
def skipPastCommentEnd (c : Cursor src) : Bool × Cursor src :=
  match src.findCommentEnd? c.pos with
  | some i => (true, ⟨i + 2⟩)
  | none => (false, ⟨src.size⟩)

/-! ## What succeeds up to the end of the text -/

open Reading

variable {c c' : Cursor src} {b : UInt8}

theorem current_yields (h : c.pos ≤ src.size) : Yields c.current fun _ => True := by
  obtain ⟨b, hb⟩ := Source.exists_byteAt h
  exact ⟨b, hb, trivial⟩

theorem peek_yields (h : c.pos < src.size) : Yields c.peek fun _ => True := by
  obtain ⟨b, hb⟩ := Source.exists_byteAt (i := c.pos + 1) h
  exact ⟨b, hb, trivial⟩

/-- Under a byte other than zero the text has not ended. -/
theorem lt_size_of_current (h : c.current = .ok b) (hb : b ≠ 0) : c.pos < src.size :=
  Source.lt_size_of_byteAt h hb

/-- At and before the end of the text, `atEnd` says which of the two. -/
theorem atEnd_yields (h : c.pos ≤ src.size) :
    Yields c.atEnd fun e => e = true ↔ c.pos = src.size := by
  refine yields_bind (current_yields h) fun b hb _ => yields_pure ?_
  simp only [Bool.and_eq_true, beq_iff_eq, decide_eq_true_eq]
  constructor
  · rintro ⟨-, hge⟩
    omega
  · intro heq
    refine ⟨?_, by omega⟩
    have := @Source.byteAt_of_ge src c.pos (by omega)
      (Nat.lt_of_le_of_lt h src.size_lt_paddedSize)
    rw [current, this] at hb
    injection hb with hb
    exact hb.symm

/-- Before the end of the text, a character is at least one byte and lies within the text. -/
theorem advanceChar_yields (h : c.pos < src.size) :
    Yields c.advanceChar fun c' => c.pos < c'.pos ∧ c'.pos ≤ src.size := by
  refine yields_bind (current_yields (Nat.le_of_lt h)) fun b _ _ => yields_pure ?_
  have := Utf8.width_pos b
  simp only
  omega

/-- Skipping bytes that are not zero stays within the text. -/
theorem skipWhile_yields {p : UInt8 → Bool} (hp : p 0 = false) (h : c.pos ≤ src.size) :
    Yields (c.skipWhile p) fun c' => c.pos ≤ c'.pos ∧ c'.pos ≤ src.size := by
  fun_induction skipWhile p c with
  | case1 c e he => exact absurd he (current_yields h).ne_error
  | case2 c b hb hpb ih =>
    have hne : b ≠ 0 := by
      rintro rfl
      simp [hp] at hpb
    have hlt : c.pos < src.size := lt_size_of_current hb hne
    refine (ih hlt).imp ?_
    intro c' hc'
    simp only [advance] at hc'
    omega
  | case3 c b hb hpb => exact yields_ok ⟨Nat.le_refl _, h⟩

theorem skipTo_eq_some {p : UInt8 → Bool} (h : c.skipTo p = (some b, c')) :
    c.pos ≤ c'.pos ∧ c'.pos < src.size ∧ c'.current = .ok b ∧ p b = true := by
  unfold skipTo at h
  split at h
  · next i d hf =>
    obtain ⟨hi, hd, hp, -⟩ := Source.find?_eq_some_iff.mp hf
    simp only [Prod.mk.injEq, Option.some.injEq] at h
    obtain ⟨rfl, rfl⟩ := h
    refine ⟨hi, Utf8.lt_size_of_byte? hd, ?_, hp⟩
    simp only [current, Source.byteAt, hd]
  · exact absurd h (by simp)

theorem skipTo_eq_none {p : UInt8 → Bool} (h : c.skipTo p = (none, c')) : c'.pos = src.size := by
  unfold skipTo at h
  split at h
  · exact absurd h (by simp)
  · simp only [Prod.mk.injEq, true_and] at h
    rw [← h]

/-- The end of a comment lies within the text. -/
theorem skipPastCommentEnd_pos (h : c.pos ≤ src.size) :
    c.pos ≤ c.skipPastCommentEnd.2.pos ∧ c.skipPastCommentEnd.2.pos ≤ src.size := by
  unfold skipPastCommentEnd
  split
  · next i hf =>
    obtain ⟨hi, -, hslash⟩ := Source.findCommentEnd?_eq_some hf
    have := Utf8.lt_size_of_byte? hslash
    simp only [Source.size]
    omega
  · exact ⟨h, Nat.le_refl _⟩

end Cursor

end CssTokens
