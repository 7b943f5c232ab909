import CssTokens.Proofs.CursorEnclosed

/-!
# CssTokens.Proofs.OpenParenMemo — the memo remembers what a search would find

The search for the end of a group is a stack machine.  It treats the parentheses that were open
before it as a frame: `scanGroup_append` says that a search over a longer stack is the search over
the upper part, followed, if that one closes, by the search over the lower part.

Two things follow.  A parenthesis that is open when a quote stops the search was pushed by it or was
open before (`mem_or_le_of_quoted`), and a pushed one is stopped by the same quote when it is searched
from alone (`abortsAt_of_quoted`).  So the offsets handed out with a quote are offsets of parentheses
that open no group, and a memo made of them is `Sound`.
-/

namespace CssTokens

set_option autoImplicit false

variable {src : Source}

namespace Cursor

/-- One step of the search: the next byte that matters decides. -/
theorem scanGroup_step (opened : List Nat) (c : Cursor src) :
    c.scanGroup opened =
      match c.skipToGroupDelim with
      | (none, c') => .ok (.missing c')
      | (some b, c') =>
          if Byte.isQuote b then .ok (.quoted c' opened)
          else if b = Byte.backslash then
            match c'.skipEscapedChar with
            | .error e => .error e
            | .ok c'' => c''.scanGroup opened
          else if b = Byte.openParen then (c'.advance 1).scanGroup (c'.pos :: opened)
          else
            match opened with
            | [] => .ok (.closed (c'.advance 1))
            | _ :: outer => (c'.advance 1).scanGroup outer := by
  fun_cases scanGroup opened c with
  | case1 opened c' hd => rw [hd]
  | case2 opened b c' hd hq => simp only [hd, if_pos hq]
  | case3 opened c' e he hd hq => simp only [hd, if_neg hq, if_true, he]
  | case4 opened c' c'' he hd hq => simp only [hd, if_neg hq, if_true, he]
  | case5 opened c' hd hq hb => simp only [hd, if_neg hq, if_neg hb, if_true]
  | case6 b c' hd hq hb hp => simp only [hd, if_neg hq, if_neg hb, if_neg hp]
  | case7 b c' hd hq hb hp o outer => simp only [hd, if_neg hq, if_neg hb, if_neg hp]

/-- What a search becomes over a frame of parentheses that were open before it. -/
def resumeOuter (outer : List Nat) : Reading (GroupEnd src) → Reading (GroupEnd src)
  | .ok (.closed c) =>
      match outer with
      | [] => .ok (.closed c)
      | _ :: outer => c.scanGroup outer
  | .ok (.quoted quote opened) => .ok (.quoted quote (opened ++ outer))
  | found => found

/-- The parentheses below do not matter until the ones above are closed. -/
theorem scanGroup_append (inner outer : List Nat) (c : Cursor src) :
    c.scanGroup (inner ++ outer) = resumeOuter outer (c.scanGroup inner) := by
  fun_induction scanGroup inner c with
  | case1 inner c c' hd => rw [scanGroup_step, hd]; rfl
  | case2 inner c b c' hd hq => rw [scanGroup_step, hd]; simp only [if_pos hq, resumeOuter]
  | case3 inner c c' e he hd hq =>
      rw [scanGroup_step, hd]
      simp only [if_neg hq, if_true, he, resumeOuter]
  | case4 inner c c' c'' he hd hq ih =>
      rw [scanGroup_step, hd]
      simp only [if_neg hq, if_true, he]
      exact ih
  | case5 inner c c' hd hq hb ih =>
      rw [scanGroup_step, hd]
      simp only [if_neg hq, if_neg hb, if_true]
      exact ih
  | case6 c b c' hd hq hb hp =>
      rw [List.nil_append, scanGroup_step, hd]
      simp only [if_neg hq, if_neg hb, if_neg hp, resumeOuter]
  | case7 c b c' hd hq hb hp o inner ih =>
      rw [List.cons_append, scanGroup_step, hd]
      simp only [if_neg hq, if_neg hb, if_neg hp]
      exact ih

/-- A parenthesis that is open at the quote was open before, or stands behind where the search
began. -/
theorem mem_or_le_of_quoted {opened found : List Nat} {c quote : Cursor src} {o : Nat}
    (h : c.scanGroup opened = .ok (.quoted quote found)) (ho : o ∈ found) :
    o ∈ opened ∨ c.pos ≤ o := by
  fun_induction scanGroup opened c with
  | case1 opened c c' hd => cases h
  | case2 opened c b c' hd hq =>
      cases h
      exact Or.inl ho
  | case3 opened c c' e he hd hq => cases h
  | case4 opened c c' c'' he hd hq ih =>
      have hpos := skipTo_eq_some hd
      have hesc := (skipEscapedChar_yields hpos.2.1).of_eq_ok he
      rcases ih h with hmem | hle
      · exact Or.inl hmem
      · exact Or.inr (by omega)
  | case5 opened c c' hd hq hb ih =>
      have hpos := skipTo_eq_some hd
      rcases ih h with hmem | hle
      · rcases List.mem_cons.mp hmem with rfl | hmem
        · exact Or.inr hpos.1
        · exact Or.inl hmem
      · simp only [advance] at hle
        exact Or.inr (by omega)
  | case6 c b c' hd hq hb hp => cases h
  | case7 c b c' hd hq hb hp p outer ih =>
      have hpos := skipTo_eq_some hd
      rcases ih h with hmem | hle
      · exact Or.inl (List.mem_cons_of_mem p hmem)
      · simp only [advance] at hle
        exact Or.inr (by omega)

/-- The search from behind the parenthesis at an offset is stopped by a quote. -/
def AbortsAt (quote : Cursor src) (o : Nat) : Prop :=
  ∃ opened, (⟨o + 1⟩ : Cursor src).scanGroup [] = .ok (.quoted quote opened)

/-- A parenthesis that the search pushed and that is open at the quote is stopped by that quote. -/
theorem abortsAt_of_quoted {opened found : List Nat} {c quote : Cursor src} {o : Nat}
    (h : c.scanGroup opened = .ok (.quoted quote found)) (ho : o ∈ found) :
    o ∈ opened ∨ AbortsAt quote o := by
  fun_induction scanGroup opened c with
  | case1 opened c c' hd => cases h
  | case2 opened c b c' hd hq =>
      cases h
      exact Or.inl ho
  | case3 opened c c' e he hd hq => cases h
  | case4 opened c c' c'' he hd hq ih => exact ih h
  | case5 opened c c' hd hq hb ih =>
      rcases ih h with hmem | habort
      · rcases List.mem_cons.mp hmem with rfl | hmem
        · -- The search from behind `c'` alone ends at the quote, or else `c'` is closed before it.
          have happend := scanGroup_append [] (c'.pos :: opened) (c'.advance 1)
          rw [List.nil_append, h] at happend
          cases hinner : (c'.advance 1).scanGroup [] with
          | error e =>
              rw [hinner] at happend
              cases happend
          | ok r =>
              rw [hinner] at happend
              cases r with
              | closed a =>
                  have hle := (skipTo_eq_some hd).2.1
                  have hpos := (scanGroup_yields (c := c'.advance 1) hle).of_eq_ok hinner
                  simp only [advance] at hpos
                  rcases mem_or_le_of_quoted happend.symm ho with hmem | hle
                  · exact Or.inl hmem
                  · omega
              | quoted q inner =>
                  cases happend
                  exact Or.inr ⟨inner, hinner⟩
              | missing a => cases happend
        · exact Or.inl hmem
      · exact Or.inr habort
  | case6 c b c' hd hq hb hp => cases h
  | case7 c b c' hd hq hb hp p outer ih =>
      rcases ih h with hmem | habort
      · exact Or.inl (List.mem_cons_of_mem p hmem)
      · exact Or.inr habort

end Cursor

/-! ## Sound memos -/

namespace OpenParens

/-- Every remembered offset is that of a parenthesis from which a quote would stop the search. -/
def Sound (src : Source) (memo : OpenParens) : Prop :=
  ∀ o ∈ memo.offsets, ∃ quote : Cursor src, Cursor.AbortsAt quote o

theorem sound_empty : Sound src empty := by
  intro o ho
  exact absurd ho (Array.not_mem_empty o)

theorem sound_lookup {memo : OpenParens} (h : memo.Sound src) (offset : Nat) :
    (memo.lookup offset).2.Sound src := by
  intro o ho
  rw [lookup_snd.1] at ho
  exact h o ho

/-- A search that a quote stops leaves a sound memo. -/
theorem sound_ofInnermostFirst {c quote : Cursor src} {opened : List Nat}
    (h : c.scanGroup [] = .ok (.quoted quote opened)) : (ofInnermostFirst opened).Sound src := by
  intro o ho
  simp only [ofInnermostFirst, List.mem_toArray, List.mem_reverse] at ho
  rcases Cursor.abortsAt_of_quoted h ho with hmem | habort
  · exact absurd hmem List.not_mem_nil
  · exact ⟨quote, habort⟩

end OpenParens

end CssTokens
