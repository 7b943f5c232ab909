import CssTokens.Cursor.Word

/-!
# CssTokens.Cursor.Group — where parenthesis groups end

A parenthesis group such as the argument of a `url` is taken as it stands: only parentheses, which
balance, and backslashes, which escape one character, count in it.  A quote is the exception.  It
shows that the group holds a string, so there is no group, and what stands between the parentheses
is to be split like everything else.

`scanGroup` looks for the end, from behind the opening parenthesis.  It carries the offsets of the
inner parentheses that are open, the innermost first, and on meeting a quote it hands them out:
each of them is a parenthesis whose own group the same quote prevents.

`scanGroup_yields`: in the text, what is found lies within the text.
-/

namespace CssTokens

set_option autoImplicit false

/-- What stands at the end of a group. -/
inductive GroupEnd (src : Source) where
  /-- Its closing parenthesis; the cursor stands behind it. -/
  | closed (after : Cursor src)
  /-- A quote, under the cursor, while the parentheses at `opened` are open inside the group. -/
  | quoted (quote : Cursor src) (opened : List Nat)
  /-- The end of the text; the cursor stands there. -/
  | missing (after : Cursor src)
deriving DecidableEq

namespace Cursor

variable {src : Source}

/-- Looks for the end of a group, with the parentheses at `opened` open inside it. -/
def scanGroup (opened : List Nat) (c : Cursor src) : Reading (GroupEnd src) :=
  match _h : c.skipToGroupDelim with
  | (none, c') => .ok (.missing c')
  | (some b, c') =>
    if Byte.isQuote b then
      .ok (.quoted c' opened)
    else if b = Byte.backslash then
      match _he : c'.skipEscapedChar with
      | .error e => .error e
      | .ok c'' => scanGroup opened c''
    else if b = Byte.openParen then
      scanGroup (c'.pos :: opened) (c'.advance 1)
    else
      match opened with
      | [] => .ok (.closed (c'.advance 1))
      | _ :: outer => scanGroup outer (c'.advance 1)
termination_by src.size - c.pos
decreasing_by
  all_goals have hd := skipTo_eq_some _h
  · have := (skipEscapedChar_yields hd.2.1).of_eq_ok _he
    omega
  · simp only [advance]
    omega
  · simp only [advance]
    omega

open Reading

/-- What is found at the end of a group that begins in the text lies within the text. -/
theorem scanGroup_yields {opened : List Nat} {c : Cursor src} (h : c.pos ≤ src.size) :
    Yields (c.scanGroup opened) fun
      | .closed c' => c.pos < c'.pos ∧ c'.pos ≤ src.size
      | .quoted c' _ => c.pos ≤ c'.pos ∧ c'.pos < src.size
      | .missing c' => c'.pos = src.size := by
  fun_induction scanGroup opened c with
  | case1 opened c c' hd => exact yields_ok (skipTo_eq_none hd)
  | case2 opened c b c' hd hq =>
    have hpos := skipTo_eq_some hd
    exact yields_ok ⟨hpos.1, hpos.2.1⟩
  | case3 opened c c' e he hd hq =>
    exact absurd he (skipEscapedChar_yields (skipTo_eq_some hd).2.1).ne_error
  | case4 opened c c' c'' he hd hq ih =>
    have hpos := skipTo_eq_some hd
    have hesc := (skipEscapedChar_yields hpos.2.1).of_eq_ok he
    refine (ih hesc.2).imp ?_
    intro r hr
    cases r with
    | closed d => exact ⟨by omega, hr.2⟩
    | quoted d o => exact ⟨by omega, hr.2⟩
    | missing d => exact hr
  | case5 opened c c' hd hq hb ih =>
    have hpos := skipTo_eq_some hd
    refine (ih hpos.2.1).imp ?_
    intro r hr
    simp only [advance] at hr
    cases r with
    | closed d => exact ⟨by omega, hr.2⟩
    | quoted d o => exact ⟨by omega, hr.2⟩
    | missing d => exact hr
  | case6 c b c' hd hq hb hp =>
    have hpos := skipTo_eq_some hd
    exact yields_ok ⟨by simp only [advance]; omega, by simp only [advance]; omega⟩
  | case7 c b c' hd hq hb hp o outer ih =>
    have hpos := skipTo_eq_some hd
    refine (ih hpos.2.1).imp ?_
    intro r hr
    simp only [advance] at hr
    cases r with
    | closed d => exact ⟨by omega, hr.2⟩
    | quoted d o => exact ⟨by omega, hr.2⟩
    | missing d => exact hr

end Cursor

end CssTokens
