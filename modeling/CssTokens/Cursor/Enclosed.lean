import CssTokens.Cursor.Word

/-!
# CssTokens.Cursor.Enclosed — where strings and comments end

A string goes from its quote to the next quote of the same sort that no backslash escapes; line
breaks and quotes of the other sort are part of it.  A comment goes from its opener to the first
closer behind the opener.  Both may lack their end, and then they reach to the end of the text.

`skipString` and `skipPastCommentEnd` start behind the opening delimiter and say whether there was
an end.  `skipString_yields`: in the text, the string ends within the text.
-/

namespace CssTokens.Cursor

set_option autoImplicit false

variable {src : Source}

/-- Moves past the end of a string in the given quotes, from behind its opening quote, and says
whether there is one; without one, moves to the end of the text. -/
def skipString (quote : UInt8) (c : Cursor src) : Reading (Bool × Cursor src) :=
  match _h : c.skipToStringDelim quote with
  | (none, c') => .ok (false, c')
  | (some b, c') =>
    if b = Byte.backslash then
      match _he : c'.skipEscapedChar with
      | .error e => .error e
      | .ok c'' => skipString quote c''
    else
      .ok (true, c'.advance 1)
termination_by src.size - c.pos
decreasing_by
  have hd := skipTo_eq_some _h
  have := (skipEscapedChar_yields hd.2.1).of_eq_ok _he
  omega

open Reading

/-- A string that begins in the text ends within the text. -/
theorem skipString_yields {quote : UInt8} {c : Cursor src} (h : c.pos ≤ src.size) :
    Yields (c.skipString quote) fun r => c.pos ≤ r.2.pos ∧ r.2.pos ≤ src.size := by
  fun_induction skipString quote c with
  | case1 c c' hd =>
    have := skipTo_eq_none hd
    exact yields_ok ⟨by simp only; omega, by simp only; omega⟩
  | case2 c c' e he hd =>
    exact absurd he (skipEscapedChar_yields (skipTo_eq_some hd).2.1).ne_error
  | case3 c c' c'' he hd ih =>
    have hpos := skipTo_eq_some hd
    have hesc := (skipEscapedChar_yields hpos.2.1).of_eq_ok he
    exact (ih hesc.2).imp fun r hr => ⟨by omega, hr.2⟩
  | case4 c b c' hd hb =>
    have hpos := skipTo_eq_some hd
    exact yields_ok ⟨by simp only [advance]; omega, by simp only [advance]; omega⟩

end CssTokens.Cursor
